import FreshCore.Cache.RemovalRuns

/-!
# How much one batch removes

Each removal loop counts the files of its own directory only. A batch that goes on in a loop
further in takes with it what the loops around had removed since the last `EndBatch`; every
other batch stays within `max_files_per_batch`.
-/

namespace FreshCore

open Posix Imperative Config Device Cache

/-! ## Batches in the log -/

/-- What is not a directory was removed. -/
def Event.takesFile : Event → Bool
  | removed _ node => !node.isDir
  | _ => false

def Event.isEndBatch : Event → Bool
  | endBatch _ _ _ => true
  | _ => false

def removedFiles (events : List Event) : Nat := events.countP Event.takesFile

@[simp] theorem removedFiles_append (events new : List Event) :
    removedFiles (events ++ new) = removedFiles events + removedFiles new :=
  List.countP_append

/-- The parts of the log that end with `EndBatch`, the first one going on from `pending`. -/
def batchesFrom (pending : List Event) : List Event → List (List Event)
  | [] => []
  | event :: rest =>
      if event.isEndBatch then pending :: batchesFrom [] rest
      else batchesFrom (pending ++ [event]) rest

/-- What was logged since the last `EndBatch`. -/
def pendingAfter (pending : List Event) : List Event → List Event
  | [] => pending
  | event :: rest =>
      if event.isEndBatch then pendingAfter [] rest else pendingAfter (pending ++ [event]) rest

/-- What lies between two consecutive calls of `EndBatch`, or before the first one. -/
def batches (events : List Event) : List (List Event) := batchesFrom [] events

theorem batchesFrom_append (pending events new : List Event) :
    batchesFrom pending (events ++ new) =
      batchesFrom pending events ++ batchesFrom (pendingAfter pending events) new := by
  induction events generalizing pending with
  | nil => rfl
  | cons event rest ih =>
      rw [List.cons_append, batchesFrom, batchesFrom, pendingAfter]
      split
      · rw [ih, List.cons_append]
      · exact ih _

theorem pendingAfter_append (pending events new : List Event) :
    pendingAfter pending (events ++ new) = pendingAfter (pendingAfter pending events) new := by
  induction events generalizing pending with
  | nil => rfl
  | cons event rest ih =>
      rw [List.cons_append, pendingAfter, pendingAfter]
      split <;> exact ih _

/-- A loop was entered when files had been removed in this batch, or a file was taken where the
directory of a loop that had just ended was to go. -/
inductive Carries (batch : List Event) : Prop
  | nested {front back : List Event} {path : Bytes} :
      batch = front ++ .entered path :: back → 0 < removedFiles front → Carries batch
  | swapped {front looks back : List Event} {path : Bytes} {loc : Loc} {node : Node} :
      batch = front ++ .left path true :: (looks ++ .removed loc node :: back) →
      (∀ event ∈ looks, event.isOthers = true) → node ≠ .dir → Carries batch

theorem Carries.append {batch : List Event} (h : Carries batch) (more : List Event) :
    Carries (batch ++ more) := by
  cases h with
  | nested hbatch hfront =>
      rw [hbatch, List.append_assoc, List.cons_append]
      exact .nested rfl hfront
  | swapped hbatch hlooks hnot =>
      rw [hbatch, List.append_assoc, List.cons_append, List.append_assoc, List.cons_append]
      exact .swapped rfl hlooks hnot

/-- The batch is carried at this event, which comes between these others. -/
def Event.carries (front back : List Event) : Event → Bool
  | entered _ => 0 < removedFiles front
  | left _ completed => completed && (back.dropWhile Event.isOthers).head?.any Event.takesFile
  | _ => false

theorem carries_iff {batch : List Event} :
    Carries batch ↔ ∃ front event back, batch = front ++ event :: back ∧
      event.carries front back = true := by
  constructor
  · intro h
    cases h with
    | nested hbatch hfront => exact ⟨_, _, _, hbatch, decide_eq_true hfront⟩
    | @swapped front looks back path loc node hbatch hlooks hnot =>
        refine ⟨front, .left path true, _, hbatch, ?_⟩
        rw [Event.carries, List.dropWhile_append_of_pos hlooks]
        simpa [Event.isOthers, Event.takesFile, Bool.eq_false_iff, Node.isDir_iff] using hnot
  · rintro ⟨front, event, back, hbatch, hcarries⟩
    cases event with
    | entered path => exact .nested hbatch (of_decide_eq_true hcarries)
    | left path completed =>
        rw [Event.carries, Bool.and_eq_true, Option.any_eq_true] at hcarries
        obtain ⟨rfl, event, hhead, htakes⟩ := hcarries
        obtain ⟨rest, hrest⟩ := List.head?_eq_some_iff.mp hhead
        cases event with
        | removed loc node =>
            rw [← List.takeWhile_append_dropWhile (p := Event.isOthers) (l := back), hrest]
              at hbatch
            have hothers := List.all_eq_true.mp
              (List.all_takeWhile (p := Event.isOthers) (l := back))
            refine .swapped hbatch hothers ?_
            rintro rfl
            cases htakes
        | _ => cases htakes
    | _ => cases hcarries

/-- Whether a batch is carried at one of the events that come after `front`. -/
def carriesFrom (front : List Event) : List Event → Bool
  | [] => false
  | event :: rest => event.carries front rest || carriesFrom (front ++ [event]) rest

theorem carriesFrom_iff {front events : List Event} :
    carriesFrom front events = true ↔ ∃ before event back, events = before ++ event :: back ∧
      event.carries (front ++ before) back = true := by
  induction events generalizing front with
  | nil => simp [carriesFrom]
  | cons first rest ih =>
      rw [carriesFrom, Bool.or_eq_true, ih]
      constructor
      · rintro (hfirst | ⟨before, event, back, rfl, hcarries⟩)
        · exact ⟨[], first, rest, rfl, by rwa [List.append_nil]⟩
        · exact ⟨first :: before, event, back, rfl, by simpa using hcarries⟩
      · rintro ⟨before, event, back, hsplit, hcarries⟩
        cases before with
        | nil =>
            obtain ⟨rfl, rfl⟩ := List.cons.inj hsplit
            exact Or.inl (by rwa [List.append_nil] at hcarries)
        | cons other before =>
            obtain ⟨rfl, rfl⟩ := List.cons.inj hsplit
            exact Or.inr ⟨before, event, back, rfl, by simpa using hcarries⟩

instance (batch : List Event) : Decidable (Carries batch) :=
  decidable_of_iff (carriesFrom [] batch = true) (carriesFrom_iff.trans carries_iff.symm)

/-- The loop has counted whatever this batch removed, unless the batch was carried. -/
def HasCounted (pending : List Event) (files : Int) : Prop :=
  ¬ Carries pending → (removedFiles pending : Int) ≤ files

namespace HasCounted

variable {pending events : List Event} {files files' : Int}

theorem mono (h : HasCounted pending files) (hle : files ≤ files') : HasCounted pending files' :=
  fun hnot => (h hnot).trans hle

theorem nil : HasCounted [] 0 := fun _ => by simp [removedFiles]

/-- What removes no files needs no counting. -/
theorem idle (h : HasCounted pending files) (hevents : removedFiles events = 0) :
    HasCounted (pending ++ events) files := by
  intro hnot
  rw [removedFiles_append, hevents, add_zero]
  exact h fun hcarries => hnot (hcarries.append events)

/-- A loop begins to count in a batch that has removed nothing, or carries. -/
theorem entered (pending : List Event) (path : Bytes) :
    HasCounted (pending ++ [.entered path]) 0 := by
  intro hnot
  have hnone : removedFiles pending = 0 := by
    by_contra hsome
    exact hnot (.nested rfl (Nat.pos_of_ne_zero hsome))
  simp [removedFiles, Event.takesFile, ← hnone]

theorem removed (h : HasCounted pending files) (loc : Loc) (node : Node) :
    HasCounted (pending ++ [.removed loc node]) (files + 1) := by
  intro hnot
  have hbefore := h fun hcarries => hnot (hcarries.append _)
  have hone : removedFiles [.removed loc node] ≤ 1 := List.countP_le_length
  rw [removedFiles_append]
  omega

end HasCounted

/-- What fails removes no file. -/
theorem removedFiles_failed {event : Event} {path : Bytes}
    (hfailed : event.failedPath? = some path) : removedFiles [event] = 0 := by
  rcases Event.failedPath?_eq_some.mp hfailed with rfl | rfl <;> rfl

theorem removedFiles_plain {looks : List Event} (hplain : ∀ event ∈ looks, event.isPlain = true) :
    removedFiles looks = 0 := by
  apply List.countP_eq_zero.mpr
  intro event hevent
  have hplain := hplain event hevent
  cases event <;> first | exact Bool.false_ne_true | cases hplain

/-! ## Batches of a run -/

/-- With `pending` logged since the last `EndBatch`, the events end batches that are within the
limit or carried, and leave `pending'`. -/
structure Batched (limit : Int) (pending events pending' : List Event) : Prop where
  bounded : ∀ batch ∈ batchesFrom pending events, ¬ Carries batch →
    (removedFiles batch : Int) ≤ limit
  after : pendingAfter pending events = pending'

namespace Batched

variable {limit files : Int} {pending pending' pending'' events new : List Event}

theorem nil (limit : Int) (pending : List Event) : Batched limit pending [] pending :=
  ⟨by simp [batchesFrom], rfl⟩

theorem trans (h : Batched limit pending events pending')
    (h' : Batched limit pending' new pending'') :
    Batched limit pending (events ++ new) pending'' := by
  constructor
  · intro batch hbatch
    rw [batchesFrom_append, h.after] at hbatch
    exact (List.mem_append.mp hbatch).elim (h.bounded batch) (h'.bounded batch)
  · rw [pendingAfter_append, h.after, h'.after]

/-- The batch goes on. -/
theorem goesOn (limit : Int) (pending : List Event)
    (hevents : ∀ event ∈ events, event.isEndBatch = false) :
    Batched limit pending events (pending ++ events) := by
  induction events generalizing pending with
  | nil => simpa using nil limit pending
  | cons event rest ih =>
      have hevent := hevents event List.mem_cons_self
      have hrest := ih (pending ++ [event]) fun other hother => hevents other (.tail _ hother)
      rw [List.append_assoc] at hrest
      constructor
      · intro batch hbatch
        rw [batchesFrom, if_neg (by simp [hevent])] at hbatch
        exact hrest.bounded batch hbatch
      · rw [pendingAfter, if_neg (by simp [hevent])]
        exact hrest.after

/-- A loop is left with the batch open. -/
theorem left (h : Batched limit pending events pending') (path : Bytes) :
    Batched limit pending (events ++ [.left path false]) (pending' ++ [.left path false]) :=
  h.trans (.goesOn limit pending' (by simp [Event.isEndBatch]))

end Batched

/-- A batch ends within the limit, or was carried. -/
theorem HasCounted.endBatch {limit files : Int} {pending : List Event}
    (h : HasCounted pending files) (hle : files ≤ limit) (counted : Int) (bytes : UInt64)
    (proceed : Bool) :
    Batched limit pending [.endBatch counted bytes proceed] [] := by
  refine ⟨fun batch hbatch hnot => ?_, rfl⟩
  simp only [batchesFrom, Event.isEndBatch, if_true, List.mem_singleton] at hbatch
  subst hbatch
  exact (h hnot).trans hle

theorem Event.not_endBatch (event : Event) (hplain : event.isPlain = true) :
    event.isEndBatch = false := by
  cases event <;> first | rfl | cases hplain

theorem Glances.not_endBatch {fs fs' : FileSystem} {looks : List Event}
    (h : Glances fs looks fs') : ∀ event ∈ looks, event.isEndBatch = false :=
  h.all Event.not_endBatch

/-- How far the job has counted when it begins. -/
def Job.Begins (limit : Int) (pending : List Event) : Job → Prop
  | .remove _ => True
  | .head _ _ files _ => 0 ≤ files ∧ files < limit ∧ HasCounted pending files
  | .tail _ _ files _ => 0 ≤ files ∧ files ≤ limit ∧ HasCounted pending files
  | .children _ _ => HasCounted pending 0

/-- How far it has counted when it has ended in this way. -/
def JobEnd.Ends (limit : Int) (pending : List Event) : JobEnd → Prop
  | .returned completed => completed = true → HasCounted pending 0
  | .counts files _ => 0 ≤ files ∧ files < limit ∧ HasCounted pending files
  | .stopped => True
  | .cut => True

section Runs

variable {cwd : Loc} {limit : Int} {depth : Nat} {path : Bytes} {job : Job} {fs fs' : FileSystem}
  {events pending : List Event} {files : Int} {removed : Bool} {out : JobEnd}

/-- The batch goes on, with what was counted. -/
theorem HasCounted.glances {looks : List Event} (h : HasCounted pending files)
    (hglances : Glances fs looks fs') : HasCounted (pending ++ looks) files :=
  h.idle (removedFiles_plain hglances.plain)

theorem SafeRemoves.not_endBatch (h : SafeRemoves cwd path fs events fs' removed) :
    ∀ event ∈ events, event.isEndBatch = false :=
  h.all Event.not_endBatch rfl rfl fun _ _ => rfl

/-- The loop counts what `SafeRemove` takes. -/
theorem HasCounted.safeRemoves (h : HasCounted pending files)
    (hremoves : SafeRemoves cwd path fs events fs' removed) :
    HasCounted (pending ++ events) (if removed then files + 1 else files) := by
  cases hremoves with
  | missed hglances _ => exact h.glances hglances
  | failed hglances hfailed _ _ =>
      rw [← List.append_assoc]
      exact (h.glances hglances).idle (removedFiles_failed hfailed)
  | removed hglances _ _ _ _ =>
      rw [← List.append_assoc]
      exact (h.glances hglances).removed _ _

/-- After its loop only the directory itself can go, unless it was swapped. -/
theorem SafeRemoves.counted_dir (h : SafeRemoves cwd path fs events fs' removed)
    (other : Bytes) : HasCounted (.left other true :: events) 0 := by
  have hleft : HasCounted [.left other true] 0 := HasCounted.nil.idle rfl
  cases h with
  | missed hglances _ => exact hleft.glances hglances
  | failed hglances hfailed _ _ =>
      rw [← List.cons_append]
      exact HasCounted.idle (hleft.glances hglances) (removedFiles_failed hfailed)
  | @removed _ _ looks loc node hglances _ _ _ hlooks =>
      rw [← List.cons_append]
      by_cases hdir : node = .dir
      · subst hdir
        exact HasCounted.idle (hleft.glances hglances) rfl
      · exact fun hnot => (hnot (.swapped (List.nil_append _).symm hlooks hdir)).elim

theorem Batched.glances {looks pending' : List Event} (hglances : Glances fs looks fs')
    (h : Batched limit (pending ++ looks) events pending') :
    Batched limit pending (looks ++ events) pending' :=
  (Batched.goesOn limit pending hglances.not_endBatch).trans h

theorem Batched.enters {looks pending' : List Event} (hglances : Glances fs looks fs')
    (h : Batched limit (pending ++ looks ++ [.entered path]) events pending') :
    Batched limit pending (looks ++ .entered path :: events) pending' := by
  have hentered : Batched limit (pending ++ looks) [.entered path] _ :=
    .goesOn limit _ (by simp [Event.isEndBatch])
  exact (hentered.trans h).glances hglances

/-- By induction on the run: each loop has counted what the batch has removed since, or the batch
was carried into it. -/
theorem Run.batched (h : Run cwd limit depth job fs events fs' out) (hlimit : 1 ≤ limit)
    (pending : List Event) (hbegins : job.Begins limit pending) :
    ∃ pending', Batched limit pending events pending' ∧ out.Ends limit pending' := by
  have hstart (pending : List Event) (path : Bytes) :
      (0 : Int) ≤ 0 ∧ 0 < limit ∧ HasCounted (pending ++ [.entered path]) 0 :=
    ⟨le_rfl, hlimit, .entered pending path⟩
  induction h generalizing pending with
  | deep => exact ⟨pending, .nil limit pending, trivial⟩
  | refused hglances =>
      exact ⟨_, .goesOn limit pending hglances.not_endBatch, by simp [JobEnd.Ends]⟩
  | @givenUp _ path _ _ _ looks _ _ hlists _ ih =>
      obtain ⟨pending', hloop, _⟩ := ih _ (hstart (pending ++ looks) path)
      exact ⟨_, (hloop.left path).enters hlists.glances, by simp [JobEnd.Ends]⟩
  | cutInside hlists _ ih =>
      obtain ⟨pending', hloop, _⟩ := ih _ (hstart (pending ++ _) _)
      exact ⟨pending', hloop.enters hlists.glances, trivial⟩
  | @done _ path _ _ _ _ _ _ _ last _ files bytes proceed _ hlists _ hslow hlast ih =>
      obtain ⟨pending', hloop, _, hroom, hcounted⟩ := ih _ (hstart (pending ++ _) _)
      have hend := (hcounted.glances hslow).endBatch hroom.le files bytes proceed
      have hself : Batched limit [] (.left path true :: last) ([] ++ .left path true :: last) :=
        .goesOn limit [] (by simpa [Event.isEndBatch] using hlast.not_endBatch)
      exact ⟨_, (hloop.trans ((hend.trans hself).glances hslow)).enters hlists.glances,
        fun _ => hlast.counted_dir path⟩
  | nil => exact ⟨pending, .nil limit pending, hbegins⟩
  | busy hglances => exact ⟨_, .goesOn limit pending hglances.not_endBatch, trivial⟩
  | gone hchecks _ _ ih =>
      obtain ⟨hpos, hroom, hcounted⟩ := hbegins
      obtain ⟨pending', hrest, hends⟩ := ih _ ⟨hpos, hroom.le, hcounted.glances hchecks.glances⟩
      exact ⟨pending', hrest.glances hchecks.glances, hends⟩
  | @unseen _ path name _ _ _ _ looks _ _ _ _ hchecks _ _ ih =>
      obtain ⟨hpos, hroom, hcounted⟩ := hbegins
      have hskipped : HasCounted (pending ++ looks ++ [.lstatFailed (child path name)]) _ :=
        (hcounted.glances hchecks.glances).idle rfl
      obtain ⟨pending', hrest, hends⟩ := ih _ ⟨hpos, hroom.le, hskipped⟩
      have hgoes : Batched limit (pending ++ looks) [.lstatFailed (child path name)] _ :=
        .goesOn limit (pending ++ looks) (by simp [Event.isEndBatch])
      exact ⟨pending', (hgoes.trans hrest).glances hchecks.glances, hends⟩
  | @file _ _ _ _ _ _ _ _ looks _ _ files _ _ removed _ hchecks _ _ hremoves _ ih =>
      obtain ⟨hpos, hroom, hcounted⟩ := hbegins
      have hfile := (hcounted.glances hchecks.glances).safeRemoves hremoves
      have hbounds : 0 ≤ (if removed then files + 1 else files) ∧
          (if removed then files + 1 else files) ≤ limit := by
        cases removed <;> simp <;> omega
      obtain ⟨pending', hrest, hends⟩ := ih _ ⟨hbounds.1, hbounds.2, hfile⟩
      have hgoes := Batched.goesOn limit (pending ++ looks) hremoves.not_endBatch
      exact ⟨pending', (hgoes.trans hrest).glances hchecks.glances, hends⟩
  | dir hchecks _ _ _ ihinner ih =>
      obtain ⟨hpos, hroom, hcounted⟩ := hbegins
      obtain ⟨pending₁, hinner, hends⟩ := ihinner (pending ++ _) trivial
      obtain ⟨pending', hrest, hends'⟩ := ih pending₁ ⟨hpos, hroom.le, (hends rfl).mono hpos⟩
      exact ⟨pending', (hinner.trans hrest).glances hchecks.glances, hends'⟩
  | aborted hchecks _ _ ih =>
      obtain ⟨pending', hinner, _⟩ := ih (pending ++ _) trivial
      exact ⟨pending', hinner.glances hchecks.glances, trivial⟩
  | cutBelow hchecks _ _ ih =>
      obtain ⟨pending', hinner, _⟩ := ih (pending ++ _) trivial
      exact ⟨pending', hinner.glances hchecks.glances, trivial⟩
  | onward hroom _ ih =>
      obtain ⟨hpos, _, hcounted⟩ := hbegins
      exact ih pending ⟨hpos, hroom, hcounted⟩
  | full _ hslow =>
      obtain ⟨hpos, hroom, hcounted⟩ := hbegins
      exact ⟨[], ((hcounted.glances hslow).endBatch hroom _ _ _).glances hslow, trivial⟩
  | batch _ hslow _ ih =>
      obtain ⟨hpos, hroom, hcounted⟩ := hbegins
      have hend := (hcounted.glances hslow).endBatch hroom
      obtain ⟨pending', hrest, hends⟩ := ih [] ⟨le_rfl, hlimit, .nil⟩
      exact ⟨pending', ((hend _ _ _).trans hrest).glances hslow, hends⟩
  | none => exact ⟨pending, .nil limit pending, fun _ => hbegins⟩
  | next _ _ ihinner ih =>
      obtain ⟨pending₁, hinner, hends₁⟩ := ihinner pending trivial
      obtain ⟨pending', hrest, hends⟩ := ih pending₁ (hends₁ rfl)
      exact ⟨pending', hinner.trans hrest, hends⟩
  | stop _ ih => exact ih pending trivial
  | cutChild _ ih => exact ih pending trivial

end Runs

/-- The cleaner begins with nothing removed. -/
theorem Cleanup.batched {cwd : Loc} {limit : Int} {depth : Nat} {path : Bytes}
    {fs fs' : FileSystem} {events : List Event} {out : JobEnd}
    (h : Cleanup cwd limit depth path fs events fs' out) (hlimit : 1 ≤ limit) :
    ∃ pending', Batched limit [] events pending' := by
  have hstart (looks : List Event) : HasCounted ([] ++ looks ++ [.entered path]) 0 :=
    .entered ([] ++ looks) path
  cases h with
  | unlisted hglances => exact ⟨_, .goesOn limit [] hglances.not_endBatch⟩
  | cut hlists hrun =>
      obtain ⟨pending', hloop, _⟩ := hrun.batched hlimit _ (hstart _)
      exact ⟨pending', hloop.enters hlists.glances⟩
  | stopped hlists hrun =>
      obtain ⟨pending', hloop, _⟩ := hrun.batched hlimit _ (hstart _)
      exact ⟨_, (hloop.left path).enters hlists.glances⟩
  | @recorded _ _ _ _ saved _ pkgName now hlists hrun hsaved =>
      obtain ⟨pending', hloop, _⟩ := hrun.batched hlimit _ (hstart _)
      have hrest : Batched limit pending' (.left path true :: .cleaned pkgName now :: saved) _ :=
        .goesOn limit pending' (by simpa [Event.isEndBatch] using hsaved.not_endBatch)
      exact ⟨_, (hloop.trans hrest).enters hlists.glances⟩

/-- Whatever other processes do, a batch that is not carried stays within the limit. -/
theorem cleanDirectorySafely_batched (env : Env) (depth : Nat) (targetDir : CacheDirInfo)
    (w : World) (hlimit : 1 ≤ w.process.config.maxFilesPerBatch.toInt) :
    ∀ batch ∈ batches (eventsOf (cleanDirectorySafely env depth targetDir) w),
      ¬ Carries batch → (removedFiles batch : Int) ≤ w.process.config.maxFilesPerBatch.toInt := by
  obtain ⟨events, htraced, hcleanup⟩ := cleanDirectorySafely_does env depth targetDir w
  rw [htraced.eventsOf_eq]
  obtain ⟨_, hbatched⟩ := hcleanup.batched hlimit
  exact hbatched.bounded

/-- A cache with one directory, in which a directory with two files is listed before two more. -/
def filesLastWorld (limit : Int32) : World where
  fs := FsStep.applyAll .bare [
    .mkdir [] (lit "c"),
    .mkdir [lit "c"] (lit "d"),
    .mkdir [lit "c", lit "d"] (lit "s"),
    .create [lit "c", lit "d"] (lit "e") 1,
    .create [lit "c", lit "d"] (lit "f") 1,
    .create [lit "c", lit "d", lit "s"] (lit "g") 2,
    .create [lit "c", lit "d", lit "s"] (lit "h") 3]
  process := { config := { maxFilesPerBatch := limit } }

def nestedCache : CacheDirInfo := ⟨lit "/c", lit "com.c", 0, false⟩

/-- Four files are removed, no more than two of them in one batch. -/
theorem cleanDirectorySafely_batched_filesLast :
    ((cleanDirectorySafely restingDevice 5 nestedCache).run (filesLastWorld 2)).1 = some true ∧
    removedFiles (eventsOf (cleanDirectorySafely restingDevice 5 nestedCache)
      (filesLastWorld 2)) = 4 ∧
    ∀ batch ∈ batches (eventsOf (cleanDirectorySafely restingDevice 5 nestedCache)
      (filesLastWorld 2)), (removedFiles batch : Int) ≤ 2 := by
  have hnone : ∀ batch ∈ batches (eventsOf (cleanDirectorySafely restingDevice 5 nestedCache)
      (filesLastWorld 2)), ¬ Carries batch := by decide +kernel
  refine ⟨by decide +kernel, by decide +kernel, fun batch hbatch => ?_⟩
  exact cleanDirectorySafely_batched restingDevice 5 nestedCache (filesLastWorld 2) (by decide)
    batch hbatch (hnone batch hbatch)

/-- A cache with one directory, which holds a file and a directory with two more. -/
def nestedFilesWorld (limit : Int32) : World where
  fs := FsStep.applyAll .bare [
    .mkdir [] (lit "c"),
    .mkdir [lit "c"] (lit "d"),
    .create [lit "c", lit "d"] (lit "f") 1,
    .mkdir [lit "c", lit "d"] (lit "s"),
    .create [lit "c", lit "d", lit "s"] (lit "g") 2,
    .create [lit "c", lit "d", lit "s"] (lit "h") 3]
  process := { config := { maxFilesPerBatch := limit } }

/-- The file and the two further in go in one batch. -/
theorem cleanDirectorySafely_not_batched :
    ((cleanDirectorySafely restingDevice 5 nestedCache).run (nestedFilesWorld 2)).1 = some true ∧
    ¬ ∀ batch ∈ batches (eventsOf (cleanDirectorySafely restingDevice 5 nestedCache)
      (nestedFilesWorld 2)), (removedFiles batch : Int) ≤ 2 := by
  decide +kernel

end FreshCore
