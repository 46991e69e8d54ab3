import Mathlib.Data.List.Basic
import Mathlib.Logic.Function.Basic

/-!
# What a disk holds after the power goes

A disk takes in what is written at its own pace. Of a file that was synchronised it holds the
contents, of another one anything; of the directory it holds the present state or any of those
it has gone through since the start. Replacing a file is safe under these conditions if the
new one is written under another name, synchronised, and only then renamed.
-/

namespace Posix

/-- A file: what reading it yields, and whether the disk holds that too. -/
structure Inode (β : Type) where
  contents : β
  synced : Bool

/-- The files of one directory. The disk holds the present directory or one of the past ones,
and no name in any of them stands for a file that is still to be created. -/
structure Disk (ν β : Type) where
  inode : Nat → Inode β
  names : ν → Option Nat
  past : List (ν → Option Nat) := []
  fresh : Nat
  names_lt : ∀ dir ∈ names :: past, ∀ name i, dir name = some i → i < fresh

/-- A call on a file of the directory. -/
inductive DiskStep (ν β : Type) where
  /-- `open` with `O_CREAT | O_TRUNC`, which leaves these contents. -/
  | create (name : ν) (contents : β)
  /-- The file's contents become these. -/
  | write (name : ν) (contents : β)
  /-- `fsync` -/
  | sync (name : ν)
  | rename (src dst : ν)

/-- The step writes under the name `tmp` only. -/
def DiskStep.Prepares {ν β : Type} (tmp : ν) : DiskStep ν β → Prop
  | create name _ => name = tmp
  | write name _ => name = tmp
  | sync name => name = tmp
  | rename _ _ => False

namespace Disk

variable {ν β : Type}

/-- What reading the named file yields. -/
def read (disk : Disk ν β) (name : ν) : Option β :=
  (disk.names name).map fun i => (disk.inode i).contents

/-- Change one file. -/
def setInode (disk : Disk ν β) (i : Nat) (inode : Inode β) : Disk ν β :=
  { disk with inode := Function.update disk.inode i inode }

/-- Change the file of the name, if it has one. -/
def modify (disk : Disk ν β) (name : ν) (change : Inode β → Inode β) : Disk ν β :=
  match disk.names name with
  | some i => disk.setInode i (change (disk.inode i))
  | none => disk

section Steps

variable [DecidableEq ν]

/-- Enter a new file under a name that has none. -/
def enter (disk : Disk ν β) (name : ν) (inode : Inode β) : Disk ν β where
  inode := Function.update disk.inode disk.fresh inode
  names := Function.update disk.names name (some disk.fresh)
  past := disk.names :: disk.past
  fresh := disk.fresh + 1
  names_lt := by
    intro dir hdir other i hi
    rcases List.mem_cons.mp hdir with rfl | hdir
    · by_cases heq : other = name
      · rw [heq, Function.update_self] at hi
        cases hi
        exact Nat.lt_succ_self _
      · rw [Function.update_of_ne heq] at hi
        exact Nat.lt_succ_of_lt (disk.names_lt _ (.head _) other i hi)
    · exact Nat.lt_succ_of_lt (disk.names_lt dir hdir other i hi)

/-- Enter the file of the name `src` under the name `dst` instead. -/
def move (disk : Disk ν β) (src dst : ν) {i : Nat} (hsrc : disk.names src = some i) :
    Disk ν β where
  inode := disk.inode
  names := Function.update (Function.update disk.names src none) dst (some i)
  past := disk.names :: disk.past
  fresh := disk.fresh
  names_lt := by
    intro dir hdir name j hj
    rcases List.mem_cons.mp hdir with rfl | hdir
    · by_cases hdst : name = dst
      · rw [hdst, Function.update_self] at hj
        cases hj
        exact disk.names_lt _ (.head _) src _ hsrc
      · rw [Function.update_of_ne hdst] at hj
        by_cases hname : name = src
        · rw [hname, Function.update_self] at hj
          cases hj
        · rw [Function.update_of_ne hname] at hj
          exact disk.names_lt _ (.head _) name j hj
    · exact disk.names_lt dir hdir name j hj

theorem enter_names_self (disk : Disk ν β) (name : ν) (inode : Inode β) :
    (disk.enter name inode).names name = some disk.fresh :=
  Function.update_self ..

theorem enter_names_of_ne (disk : Disk ν β) {name other : ν} (hne : other ≠ name)
    (inode : Inode β) : (disk.enter name inode).names other = disk.names other :=
  Function.update_of_ne hne _ _

theorem move_names_dst (disk : Disk ν β) (src dst : ν) {i : Nat}
    (hsrc : disk.names src = some i) : (disk.move src dst hsrc).names dst = some i :=
  Function.update_self ..

theorem move_names_src (disk : Disk ν β) {src dst : ν} (hne : src ≠ dst) {i : Nat}
    (hsrc : disk.names src = some i) : (disk.move src dst hsrc).names src = none :=
  (Function.update_of_ne hne _ _).trans (Function.update_self ..)

def apply (disk : Disk ν β) : DiskStep ν β → Disk ν β
  | .create name contents =>
      if (disk.names name).isSome then disk.modify name fun _ => ⟨contents, false⟩
      else disk.enter name ⟨contents, false⟩
  | .write name contents => disk.modify name fun _ => ⟨contents, false⟩
  | .sync name => disk.modify name fun inode => { inode with synced := true }
  | .rename src dst =>
      match hsrc : disk.names src with
      | none => disk
      | some _ => disk.move src dst hsrc

theorem apply_rename_none {disk : Disk ν β} {src dst : ν} (hsrc : disk.names src = none) :
    disk.apply (.rename src dst) = disk := by
  unfold apply
  dsimp only
  split
  next => rfl
  next i hi =>
    rw [hsrc] at hi
    cases hi

theorem apply_rename {disk : Disk ν β} {src dst : ν} {i : Nat}
    (hsrc : disk.names src = some i) : disk.apply (.rename src dst) = disk.move src dst hsrc := by
  unfold apply
  dsimp only
  split
  next hnone =>
    rw [hsrc] at hnone
    cases hnone
  next j hj =>
    obtain rfl : i = j := Option.some.inj (hsrc.symm.trans hj)
    rfl

def run (disk : Disk ν β) (steps : List (DiskStep ν β)) : Disk ν β := steps.foldl apply disk

theorem run_append (disk : Disk ν β) (steps more : List (DiskStep ν β)) :
    disk.run (steps ++ more) = (disk.run steps).run more :=
  List.foldl_append

theorem run_single (disk : Disk ν β) (step : DiskStep ν β) :
    disk.run [step] = disk.apply step := rfl

end Steps

/-- What the disk may hold when the power comes back. -/
structure Crashes (disk disk' : Disk ν β) : Prop where
  names : disk'.names ∈ disk.names :: disk.past
  past : disk'.past = []
  kept : ∀ i, (disk.inode i).synced = true → (disk'.inode i).contents = (disk.inode i).contents
  synced : ∀ i, (disk'.inode i).synced = true

/-- The disk holds the present directory and all contents, and the two names do not stand for
one file. -/
structure Settled (tmp dst : ν) (disk : Disk ν β) : Prop where
  past : disk.past = []
  synced : ∀ i, (disk.inode i).synced = true
  apart : ∀ i, disk.names tmp = some i → disk.names dst ≠ some i

/-- Nothing is lost. -/
def settle (disk : Disk ν β) : Disk ν β where
  inode i := { disk.inode i with synced := true }
  names := disk.names
  fresh := disk.fresh
  names_lt := by
    intro dir hdir
    exact disk.names_lt dir (List.mem_singleton.mp hdir ▸ .head _)

theorem crashes_settle (disk : Disk ν β) : disk.Crashes disk.settle :=
  ⟨.head _, rfl, fun _ _ => rfl, fun _ => rfl⟩

/-! ## Preparing a new file -/

/-- Under the name `tmp` there is a file of its own, and `dst` still yields what it did. -/
structure Prepared (tmp dst : ν) (found : Option β) (inode : Inode β) (disk : Disk ν β) :
    Prop where
  tmp : ∃ i, disk.names tmp = some i ∧ disk.names dst ≠ some i ∧ disk.inode i = inode
  dst : disk.read dst = found

namespace Prepared

variable {tmp dst : ν} {found : Option β} {inode : Inode β} {disk : Disk ν β}

theorem read_tmp (h : Prepared tmp dst found inode disk) : disk.read tmp = some inode.contents := by
  obtain ⟨i, hi, _, hinode⟩ := h.tmp
  rw [Disk.read, hi, Option.map_some, hinode]

theorem modify (h : Prepared tmp dst found inode disk) (change : Inode β → Inode β) :
    Prepared tmp dst found (change inode) (disk.modify tmp change) := by
  obtain ⟨i, hi, hdst, hinode⟩ := h.tmp
  have hmodify : disk.modify tmp change = disk.setInode i (change inode) := by
    rw [Disk.modify, hi, ← hinode]
  rw [hmodify]
  refine ⟨⟨i, hi, hdst, Function.update_self ..⟩, ?_⟩
  rw [← h.dst, Disk.read, Disk.read]
  apply Option.map_congr
  intro j hj
  have hne : j ≠ i := by
    rintro rfl
    exact hdst hj
  exact congrArg Inode.contents (Function.update_of_ne hne _ _)

variable [DecidableEq ν]

/-- The file is created, or emptied if it is still there. -/
theorem create (hne : tmp ≠ dst)
    (hapart : ∀ i, disk.names tmp = some i → disk.names dst ≠ some i) (contents : β) :
    Prepared tmp dst (disk.read dst) ⟨contents, false⟩ (disk.apply (.create tmp contents)) := by
  unfold Disk.apply
  dsimp only
  split
  next hsome =>
    obtain ⟨i, hi⟩ := Option.isSome_iff_exists.mp hsome
    have hthere : Prepared tmp dst (disk.read dst) (disk.inode i) disk :=
      ⟨⟨i, hi, hapart i hi, rfl⟩, rfl⟩
    exact hthere.modify fun _ => ⟨contents, false⟩
  next =>
    have hold (j : Nat) (hj : disk.names dst = some j) : j ≠ disk.fresh :=
      Nat.ne_of_lt (disk.names_lt _ (.head _) dst j hj)
    refine ⟨⟨disk.fresh, disk.enter_names_self tmp _, ?_, Function.update_self ..⟩, ?_⟩
    · rw [disk.enter_names_of_ne hne.symm]
      intro hfresh
      exact hold _ hfresh rfl
    · rw [Disk.read, Disk.read, disk.enter_names_of_ne hne.symm]
      apply Option.map_congr
      intro j hj
      exact congrArg Inode.contents (Function.update_of_ne (hold j hj) _ _)

/-- The file takes the place of the other one. -/
theorem rename (h : Prepared tmp dst found inode disk) (hne : tmp ≠ dst) :
    (disk.apply (.rename tmp dst)).read dst = some inode.contents ∧
      (disk.apply (.rename tmp dst)).read tmp = none := by
  obtain ⟨i, hi, _, hinode⟩ := h.tmp
  rw [apply_rename hi, Disk.read, Disk.read, disk.move_names_dst, disk.move_names_src hne hi]
  exact ⟨congrArg (fun inode : Inode β => some inode.contents) hinode, rfl⟩

end Prepared

/-! ## Replacing a file -/

/-- Whichever directory the disk holds, it holds the file `dst` with contents that may be found
there, and what is written under the name `tmp` is not written to that file. -/
structure Safe (tmp dst : ν) (Found : Option β → Prop) (disk : Disk ν β) : Prop where
  found : ∀ dir ∈ disk.names :: disk.past,
    Found ((dir dst).map fun i => (disk.inode i).contents)
  synced : ∀ dir ∈ disk.names :: disk.past, ∀ i, dir dst = some i → (disk.inode i).synced = true
  apart : ∀ dir ∈ disk.names :: disk.past, ∀ i, dir tmp = some i → dir dst ≠ some i
  unshared : ∀ dir ∈ disk.names :: disk.past, ∀ i, disk.names tmp = some i → dir dst ≠ some i

namespace Safe

variable {tmp dst : ν} {Found Found' : Option β → Prop} {disk disk' : Disk ν β}

theorem mono (h : Safe tmp dst Found disk) (hsub : ∀ contents, Found contents → Found' contents) :
    Safe tmp dst Found' disk :=
  ⟨fun dir hdir => hsub _ (h.found dir hdir), h.synced, h.apart, h.unshared⟩

/-- Writing under the name `tmp` leaves every file alone that `dst` may stand for. -/
theorem modify (h : Safe tmp dst Found disk) (change : Inode β → Inode β) :
    Safe tmp dst Found (disk.modify tmp change) := by
  unfold Disk.modify
  split
  next i hi =>
    have hsame (dir : ν → Option Nat) (hdir : dir ∈ disk.names :: disk.past) (j : Nat)
        (hj : dir dst = some j) :
        (disk.setInode i (change (disk.inode i))).inode j = disk.inode j := by
      apply Function.update_of_ne
      rintro rfl
      exact h.unshared dir hdir j hi hj
    refine ⟨fun dir hdir => ?_, fun dir hdir j hj => ?_, h.apart, h.unshared⟩
    · have hfound := h.found dir hdir
      cases hdst : dir dst with
      | none => rwa [hdst] at hfound
      | some j =>
          rw [hdst] at hfound
          rwa [Option.map_some, hsame dir hdir j hdst]
    · rw [hsame dir hdir j hj]
      exact h.synced dir hdir j hj
  next => exact h

theorem of_settled (h : disk.Settled tmp dst) : Safe tmp dst (· = disk.read dst) disk := by
  have hpresent (dir : ν → Option Nat) (hmem : dir ∈ disk.names :: disk.past) :
      dir = disk.names := by
    rwa [h.past, List.mem_singleton] at hmem
  refine ⟨fun dir hmem => ?_, fun _ _ i _ => h.synced i, fun dir hmem i hi => ?_,
    fun dir hmem i hi => ?_⟩
  · rw [hpresent dir hmem]
    rfl
  · rw [hpresent dir hmem] at hi ⊢
    exact h.apart i hi
  · rw [hpresent dir hmem]
    exact h.apart i hi

/-- After a crash the disk has settled, on contents that may be found. -/
theorem crash (h : Safe tmp dst Found disk) (hcrash : disk.Crashes disk') :
    Found (disk'.read dst) ∧ disk'.Settled tmp dst := by
  have hdir := hcrash.names
  constructor
  · have hread : disk'.read dst = (disk'.names dst).map fun i => (disk.inode i).contents :=
      Option.map_congr fun i hi => hcrash.kept i (h.synced _ hdir i hi)
    rw [hread]
    exact h.found _ hdir
  · exact ⟨hcrash.past, hcrash.synced, h.apart _ hdir⟩

variable [DecidableEq ν]

/-- A new file is none of those that `dst` may stand for. -/
theorem enter (h : Safe tmp dst Found disk) (hne : tmp ≠ dst) (inode : Inode β) :
    Safe tmp dst Found (disk.enter tmp inode) := by
  have hold (dir : ν → Option Nat)
      (hdir : dir ∈ (disk.enter tmp inode).names :: (disk.enter tmp inode).past) :
      ∃ old ∈ disk.names :: disk.past, dir dst = old dst := by
    rcases List.mem_cons.mp hdir with rfl | hdir
    · exact ⟨disk.names, .head _, disk.enter_names_of_ne hne.symm inode⟩
    · exact ⟨dir, hdir, rfl⟩
  have hlt (dir : ν → Option Nat)
      (hdir : dir ∈ (disk.enter tmp inode).names :: (disk.enter tmp inode).past) (j : Nat)
      (hj : dir dst = some j) : j < disk.fresh := by
    obtain ⟨old, hold, heq⟩ := hold dir hdir
    exact disk.names_lt old hold dst j (heq ▸ hj)
  have hsame (j : Nat) (hj : j < disk.fresh) :
      (disk.enter tmp inode).inode j = disk.inode j :=
    Function.update_of_ne (Nat.ne_of_lt hj) _ _
  refine ⟨fun dir hdir => ?_, fun dir hdir j hj => ?_, fun dir hdir j hj hdj => ?_,
    fun dir hdir j hj hdj => ?_⟩
  · obtain ⟨old, hmem, heq⟩ := hold dir hdir
    have hfound := h.found old hmem
    cases hj : dir dst with
    | none => rwa [← heq, hj] at hfound
    | some j =>
        rw [← heq, hj] at hfound
        rwa [Option.map_some, hsame j (hlt dir hdir j hj)]
  · obtain ⟨old, hmem, heq⟩ := hold dir hdir
    rw [hsame j (hlt dir hdir j hj)]
    exact h.synced old hmem j (heq ▸ hj)
  · rcases List.mem_cons.mp hdir with rfl | hmem
    · rw [disk.enter_names_self] at hj
      cases hj
      exact Nat.lt_irrefl _ (hlt _ hdir _ hdj)
    · exact h.apart dir hmem j hj hdj
  · rw [disk.enter_names_self] at hj
    cases hj
    exact Nat.lt_irrefl _ (hlt _ hdir _ hdj)

/-- A file that is whole is renamed once the disk holds it. -/
theorem move (h : Safe tmp dst Found disk) (hne : tmp ≠ dst) {i : Nat}
    (hi : disk.names tmp = some i) (hsynced : (disk.inode i).synced = true)
    (hfound : Found (some (disk.inode i).contents)) :
    Safe tmp dst Found (disk.move tmp dst hi) := by
  have htmp := disk.move_names_src hne hi
  have hdst := disk.move_names_dst tmp dst hi
  refine ⟨fun dir hdir => ?_, fun dir hdir j hj => ?_, fun dir hdir j hj => ?_,
    fun dir hdir j hj => ?_⟩
  · rcases List.mem_cons.mp hdir with rfl | hdir
    · rw [hdst]
      exact hfound
    · exact h.found dir hdir
  · rcases List.mem_cons.mp hdir with rfl | hdir
    · rw [hdst] at hj
      cases hj
      exact hsynced
    · exact h.synced dir hdir j hj
  · rcases List.mem_cons.mp hdir with rfl | hdir
    · rw [htmp] at hj
      cases hj
    · exact h.apart dir hdir j hj
  · rw [htmp] at hj
    cases hj

/-- Steps that only prepare the new file. -/
theorem prepare (h : Safe tmp dst Found disk) (hne : tmp ≠ dst) {steps : List (DiskStep ν β)}
    (hsteps : ∀ step ∈ steps, step.Prepares tmp) : Safe tmp dst Found (disk.run steps) := by
  induction steps generalizing disk with
  | nil => exact h
  | cons step rest ih =>
      refine ih ?_ fun other hother => hsteps other (.tail _ hother)
      have hstep := hsteps step (.head _)
      cases step with
      | create name contents =>
          obtain rfl : name = tmp := hstep
          unfold Disk.apply
          dsimp only
          split
          · exact h.modify _
          · exact h.enter hne _
      | write name contents =>
          obtain rfl : name = tmp := hstep
          exact h.modify fun _ => ⟨contents, false⟩
      | sync name =>
          obtain rfl : name = tmp := hstep
          exact h.modify fun inode => { inode with synced := true }
      | rename src dst => exact hstep.elim

/-- Preparing a new file and renaming it is safe wherever it is cut off, if the file has been
made whole and synchronised by the time of the rename. -/
theorem replace (h : Safe tmp dst Found disk) (hne : tmp ≠ dst) {steps : List (DiskStep ν β)}
    (hsteps : ∀ step ∈ steps, step.Prepares tmp)
    (hready : ∀ i, (disk.run steps).names tmp = some i →
      ((disk.run steps).inode i).synced = true ∧
        Found (some ((disk.run steps).inode i).contents)) (cut : Nat) :
    Safe tmp dst Found (disk.run ((steps ++ [DiskStep.rename tmp dst]).take cut)) := by
  rcases Nat.lt_or_ge steps.length cut with hcut | hcut
  · rw [List.take_of_length_le (by simpa using Nat.succ_le_of_lt hcut), run_append, run_single]
    have hprepared := h.prepare hne hsteps
    cases hi : (disk.run steps).names tmp with
    | none => rwa [apply_rename_none hi]
    | some i =>
        rw [apply_rename hi]
        exact hprepared.move hne hi (hready i hi).1 (hready i hi).2
  · rw [List.take_append_of_le_length hcut]
    exact h.prepare hne fun step hstep => hsteps step (List.mem_of_mem_take hstep)

end Safe

end Disk

end Posix
