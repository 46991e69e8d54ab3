import FreshCore.Cache.RemovalFrame
import FreshCore.Cache.Undisturbed

/-!
# What an undisturbed cleaning leaves

While every check finds the device idle and no call fails, removing a directory takes
everything at and below it. What is not a directory is refused: its caller has to
remove it. The loop inside the remover does so; the loop that calls it for the entries of a
cache directory does not. An entry that cannot be looked at is passed over, and so are the
directories that it stands in.
-/

namespace FreshCore

open Posix Imperative Config Device Cache

variable {env : Env} {mark : Nat} {tree : FileSystem → Prop}

/-! ## Directories and their entries -/

/-- The path leads to the directory `loc`, whatever happens below it. -/
structure DirAt (cwd : Loc) (path : Bytes) (loc : Loc) (fs : FileSystem) : Prop where
  leads : fs.Leads cwd false path loc
  dir : fs.node loc = some .dir

namespace DirAt

variable {cwd : Loc} {path : Bytes} {loc : Loc} {name : Name} {fs fs' : FileSystem}

theorem listing (h : DirAt cwd path loc fs) :
    FreshCore.listing fs cwd path = some (fs.children loc) := by
  rw [FreshCore.listing, h.leads.resolve, Option.bind_some, if_pos h.dir]

theorem leads_follow (h : DirAt cwd path loc fs) : fs.Leads cwd true path loc :=
  h.leads.to_follow h.dir

theorem resolve_entry (h : DirAt cwd path loc fs) (hname : (fs.node (loc ++ [name])).isSome) :
    fs.resolve cwd false (child path name) = some (loc ++ [name]) := by
  rw [FileSystem.resolve_child h.leads_follow.resolve h.dir (fs.name_valid _ _ hname),
    if_pos hname]

theorem lstat_entry (h : DirAt cwd path loc fs) (hname : (fs.node (loc ++ [name])).isSome) :
    fs.lstat cwd (child path name) = fs.node (loc ++ [name]) := by
  rw [FileSystem.lstat, h.resolve_entry hname, Option.bind_some]

theorem entry (h : DirAt cwd path loc fs) (hname : fs.node (loc ++ [name]) = some .dir) :
    DirAt cwd (child path name) (loc ++ [name]) fs :=
  ⟨h.leads_follow.child (fs.name_valid _ _ (by rw [hname]; rfl)) hname, hname⟩

theorem pruned {gone : Loc → Prop} (h : DirAt cwd path loc fs) (hpruned : Pruned gone fs fs')
    (hgone : ∀ place, gone place → Below loc place) : DirAt cwd path loc fs' := by
  refine ⟨h.leads.of_agree (hpruned.agreeOff hgone), ?_⟩
  rw [hpruned.kept loc fun hloc => (hgone loc hloc).2 rfl, h.dir]

/-- Everything at and below its entries has gone: it is still there, and empty. -/
theorem emptied (h : DirAt cwd path loc fs)
    (hpruned : Pruned (fun place => ∃ name ∈ fs.children loc, loc ++ [name] <+: place) fs fs') :
    DirAt cwd path loc fs' ∧ fs'.children loc = [] := by
  constructor
  · apply h.pruned hpruned
    intro place hplace
    obtain ⟨name, _, hpre⟩ := hplace
    exact (below_child loc name).trans hpre
  · rw [List.eq_nil_iff_forall_not_mem]
    intro name hname
    obtain ⟨hmem, hkept⟩ := hpruned.mem_children.mp hname
    exact hkept ⟨name, hmem, List.prefix_refl _⟩

end DirAt

/-- The entries of a directory and then the directory itself: everything at and below it. -/
theorem pruned_dir {loc : Loc} {fs fs' fs'' : FileSystem}
    (hentries : Pruned (fun place => ∃ name ∈ fs.children loc, loc ++ [name] <+: place) fs fs')
    (hself : Pruned (fun place => place = loc) fs' fs'') :
    Pruned (fun place => loc <+: place) fs fs'' := by
  apply (hentries.trans hself).congr
  intro place hplace
  rw [← FileSystem.below_iff_children hplace]
  constructor
  · rintro (hbelow | rfl)
    · exact hbelow.1
    · exact List.prefix_refl _
  · intro hpre
    by_cases heq : place = loc
    · exact Or.inr heq
    · exact Or.inl ⟨hpre, heq⟩

/-- The directory `loc` is not too deep, and has entries of these names. -/
structure HasEntries (cwd : Loc) (path : Bytes) (loc : Loc) (depth : Nat) (names : List Name)
    (fs : FileSystem) : Prop where
  dirAt : DirAt cwd path loc fs
  shallow : fs.Shallow loc (depth + 1)
  nodup : names.Nodup
  present : ∀ name ∈ names, (fs.node (loc ++ [name])).isSome

namespace HasEntries

variable {cwd : Loc} {path : Bytes} {loc : Loc} {depth : Nat} {name : Name} {rest : List Name}
  {fs fs' : FileSystem}

theorem tail (h : HasEntries cwd path loc depth (name :: rest) fs) :
    HasEntries cwd path loc depth rest fs :=
  ⟨h.dirAt, h.shallow, (List.nodup_cons.mp h.nodup).2,
    fun other hother => h.present other (.tail _ hother)⟩

theorem head (h : HasEntries cwd path loc depth (name :: rest) fs) :
    (fs.node (loc ++ [name])).isSome :=
  h.present name (.head _)

theorem ne_head (h : HasEntries cwd path loc depth (name :: rest) fs) {other : Name}
    (hother : other ∈ rest) : other ≠ name := by
  rintro rfl
  exact (List.nodup_cons.mp h.nodup).1 hother

theorem not_under {other : Name} (hne : other ≠ name) : ¬ loc ++ [name] <+: loc ++ [other] := by
  rw [List.prefix_append_right_inj]
  simpa using hne.symm

/-- The other entries stay when everything at and below the first one goes. -/
theorem pruned (h : HasEntries cwd path loc depth (name :: rest) fs)
    (hpruned : Pruned (fun place => loc ++ [name] <+: place) fs fs') :
    HasEntries cwd path loc depth rest fs' := by
  obtain ⟨hdirAt, hshallow, hnodup, hpresent⟩ := h.tail
  refine ⟨hdirAt.pruned hpruned fun place hplace => (below_child loc name).trans hplace,
    hpruned.shallow hshallow, hnodup, fun other hother => ?_⟩
  rw [hpruned.kept _ (not_under (h.ne_head hother))]
  exact hpresent other hother

end HasEntries

theorem DirAt.hasEntries {cwd : Loc} {path : Bytes} {loc : Loc} {depth : Nat} {fs : FileSystem}
    (h : DirAt cwd path loc fs) (hshallow : fs.Shallow loc (depth + 1)) :
    HasEntries cwd path loc depth (fs.children loc) fs :=
  ⟨h, hshallow, fs.children_nodup loc, fun _ hname => FileSystem.mem_children.mp hname⟩

/-! ## Removing a directory -/

theorem getDirectoryChildren_dirAt (hquiet : env.Quiet) {path : Bytes} {loc : Loc}
    (htree : ∀ fs, tree fs → DirAt env.cwd path loc fs) :
    Yields mark tree (getDirectoryChildren env path)
      fun children fs => tree fs ∧ children = some (fs.children loc) := by
  refine (getDirectoryChildren_yields hquiet path).weaken fun children fs hfs => ⟨hfs.1, ?_⟩
  rw [hfs.2, (htree fs hfs.1).listing]

/-- The remover takes everything at and below a directory. -/
def Removes (env : Env) (mark : Nat) (remover : Daemon Bool) (path : Bytes) (loc : Loc)
    (depth : Nat) : Prop :=
  ∀ tree : FileSystem → Prop,
    (∀ fs, tree fs → DirAt env.cwd path loc fs ∧ fs.Shallow loc depth) →
    Yields mark tree remover fun completed fs' =>
      completed = true ∧ ∃ fs, tree fs ∧ Pruned (fun place => loc <+: place) fs fs'

section Removal

variable {path : Bytes} {loc : Loc} {depth : Nat} {recurse : Bytes → Daemon Bool}

theorem removeChild_yields (hquiet : env.Quiet) {name : Name} {rest : List Name}
    (hrecurse : Removes env mark (recurse (child path name)) (child path name)
      (loc ++ [name]) depth)
    (htree : ∀ fs, tree fs → HasEntries env.cwd path loc depth (name :: rest) fs)
    (filesRemoved : Int) (bytesFreed : UInt64) :
    Yields mark tree (removeChild env recurse (child path name) filesRemoved bytesFreed)
      fun counts fs' => counts ≠ none ∧
        ∃ fs, tree fs ∧ Pruned (fun place => loc ++ [name] <+: place) fs fs' := by
  have hlstat (fs : FileSystem) (hfs : tree fs) :
      fs.lstat env.cwd (child path name) = fs.node (loc ++ [name]) :=
    (htree fs hfs).dirAt.lstat_entry (htree fs hfs).head
  refine .bind (lstat_yields hquiet _) fun node => ?_
  cases node with
  | none =>
      refine .pure fun fs hfs => ?_
      have hsome := (htree fs hfs.1).head
      rw [← hlstat fs hfs.1, ← hfs.2] at hsome
      cases hsome
  | some node =>
      have hnode (fs : FileSystem)
          (hfs : tree fs ∧ some node = fs.lstat env.cwd (child path name)) :
          fs.node (loc ++ [name]) = some node := by rw [← hlstat fs hfs.1, hfs.2]
      refine .ite (fun hdir => ?_) fun hdir => ?_
      · rw [Node.isDir_iff] at hdir
        refine .bind (hrecurse _ fun fs hfs => ⟨?_, (htree fs hfs.1).shallow.entry name⟩)
          fun completed => ?_
        · exact (htree fs hfs.1).dirAt.entry (by rw [hnode fs hfs, hdir])
        · refine .ite (fun _ => .pure ?_) fun hnot => .pure ?_
          · rintro fs' ⟨_, fs, ⟨hfs, _⟩, hpruned⟩
            exact ⟨by simp, fs, hfs, hpruned⟩
          · rintro fs' ⟨hcompleted, _⟩
            exact absurd hcompleted hnot
      · have hnotDir : node ≠ .dir := fun h => hdir (Node.isDir_iff.mpr h)
        have hroot : loc ++ [name] ≠ [] := by simp
        refine .bind (safeRemove_yields hquiet hroot fun fs hfs => ?_) fun removed => ?_
        · refine ⟨(htree fs hfs.1).dirAt.resolve_entry (htree fs hfs.1).head,
            (htree fs hfs.1).head, FileSystem.children_eq_nil_of_not_dir ?_⟩
          rw [hnode fs hfs]
          simpa using hnotDir
        · refine .ite (fun _ => .pure ?_) fun hnot => .pure ?_
          · rintro fs' ⟨_, fs, hfs, hpruned⟩
            refine ⟨by simp, fs, hfs.1, hpruned.congr fun place hplace => ?_⟩
            -- nothing stands below a file or a link, so it is all that stands there
            have hleaf : fs.node (loc ++ [name]) ≠ some .dir := by
              rw [hnode fs hfs]
              simpa using hnotDir
            constructor
            · rintro rfl
              exact List.prefix_refl _
            · exact fun hpre => FileSystem.eq_of_under hleaf hpre hplace
          · rintro fs' ⟨hremoved, _⟩
            exact absurd hremoved hnot

/-- Two removals in a row, the second of which may depend on what the first one left. -/
theorem pruned_cons {name : Name} {rest : List Name} {fs : FileSystem}
    (h : ∃ fs', (∃ fs₀, tree fs₀ ∧ Pruned (fun place => loc ++ [name] <+: place) fs₀ fs') ∧
      Pruned (fun place => ∃ other ∈ rest, loc ++ [other] <+: place) fs' fs) :
    ∃ fs₀, tree fs₀ ∧
      Pruned (fun place => ∃ other ∈ name :: rest, loc ++ [other] <+: place) fs₀ fs := by
  obtain ⟨fs', ⟨fs₀, hfs₀, hhead⟩, hrest⟩ := h
  refine ⟨fs₀, hfs₀, (hhead.trans hrest).congr fun place _ => ?_⟩
  simp

/-- By induction on the names: each step removes one of them and leaves the others. -/
theorem removeChildren_yields (hquiet : env.Quiet) {names : List Name}
    (hrecurse : ∀ name, Removes env mark (recurse (child path name)) (child path name)
      (loc ++ [name]) depth)
    (htree : ∀ fs, tree fs → HasEntries env.cwd path loc depth names fs)
    (filesRemoved : Int) (bytesFreed : UInt64) :
    Yields mark tree (removeChildren env recurse path names filesRemoved bytesFreed)
      fun counts fs' => counts ≠ none ∧
        ∃ fs, tree fs ∧ Pruned (fun place => ∃ name ∈ names, loc ++ [name] <+: place) fs fs' := by
  induction names generalizing tree filesRemoved bytesFreed with
  | nil => exact .pure fun fs hfs => ⟨by simp, fs, hfs, .refl (by simp)⟩
  | cons name rest ih =>
      have hloop (filesRemoved : Int) (bytesFreed : UInt64) :
          Yields mark
            (fun fs' => ∃ fs, tree fs ∧ Pruned (fun place => loc ++ [name] <+: place) fs fs')
            (removeChildren env recurse path rest filesRemoved bytesFreed)
            fun counts fs' => counts ≠ none ∧ ∃ fs, tree fs ∧
              Pruned (fun place => ∃ other ∈ name :: rest, loc ++ [other] <+: place) fs fs' := by
        refine (ih (fun fs' hfs' => ?_) filesRemoved bytesFreed).weaken
          fun counts fs' hend => ⟨hend.1, pruned_cons hend.2⟩
        obtain ⟨fs, hfs, hpruned⟩ := hfs'
        exact (htree fs hfs).pruned hpruned
      unfold removeChildren
      refine .bind evaluateIdleState_yields fun idle => .ite (fun hidle => ?_) fun _ => ?_
      · exact .pure fun fs hfs => absurd hidle hfs.2
      have hchild := removeChild_yields hquiet (hrecurse name) htree filesRemoved bytesFreed
      refine .bind (hchild.strengthen fun fs hfs => hfs.1) fun counts => ?_
      cases counts with
      | none => exact .pure fun fs hfs => absurd rfl hfs.1
      | some counts =>
          refine .bind getProcess_yields fun process => ?_
          refine .ite (fun _ => ?_) fun _ => (hloop _ _).strengthen fun fs hfs => hfs.2
          refine .bind (endBatch_yields _ _) fun proceed => .ite (fun hstop => ?_) fun _ => ?_
          · refine .pure fun fs hfs => ?_
            rw [hfs.2] at hstop
            cases hstop
          · refine .bind startBatch_yields fun _ => ?_
            exact (hloop 0 0).strengthen fun fs hfs => hfs.1.2

/-- By induction on the depth: the loop takes everything below the directory, and then the
directory is empty and goes itself. -/
theorem removeRecursiveBatched_removes (hquiet : env.Quiet) (hroot : loc ≠ []) :
    Removes env mark (removeRecursiveBatched env depth path) path loc depth := by
  induction depth generalizing path loc with
  | zero =>
      intro tree htree
      refine Program.Triple.cut fun w hw => hw.mono fun hfs => ?_
      obtain ⟨hdirAt, hshallow⟩ := htree w.fs hfs
      -- the tree has no directory as deep as this
      exact absurd (hshallow [] (by rw [List.append_nil, hdirAt.dir])) (by simp)
  | succ depth ih =>
      intro tree htree
      unfold removeRecursiveBatched
      refine .bind (getDirectoryChildren_dirAt hquiet fun fs hfs => (htree fs hfs).1)
        fun children => ?_
      cases children with
      | none => exact .pure fun fs hfs => by cases hfs.2
      | some children =>
          have hentries (fs : FileSystem) (hfs : tree fs ∧ some children = some (fs.children loc)) :
              HasEntries env.cwd path loc depth children fs := by
            rw [Option.some.inj hfs.2]
            exact (htree fs hfs.1).1.hasEntries (htree fs hfs.1).2
          refine .bind (enter_yields path) fun _ => .bind startBatch_yields fun _ => ?_
          refine .bind (removeChildren_yields hquiet (fun name => ih (by simp)) hentries 0 0)
            fun counts => ?_
          cases counts with
          | none =>
              refine .bind (leave_yields path false) fun _ => ?_
              exact .pure fun fs hfs => absurd rfl hfs.1
          | some counts =>
              refine .bind (endBatch_yields _ _) fun _ => .bind (leave_yields path true) fun _ => ?_
              refine .bind (safeRemove_yields hquiet hroot fun fs' hfs' => ?_) fun _ => .pure ?_
              -- the loop has emptied the directory, so it can go
              · obtain ⟨⟨_, fs, hfs, hpruned⟩, _⟩ := hfs'
                rw [Option.some.inj hfs.2] at hpruned
                obtain ⟨hdirAt, hempty⟩ := (htree fs hfs.1).1.emptied hpruned
                exact ⟨hdirAt.leads.resolve, by rw [hdirAt.dir]; rfl, hempty⟩
              · rintro fs'' ⟨_, fs', ⟨⟨_, fs, hfs, hpruned⟩, _⟩, hself⟩
                rw [Option.some.inj hfs.2] at hpruned
                exact ⟨rfl, fs, hfs.1, pruned_dir hpruned hself⟩

theorem getDirectoryChildren_refused (hquiet : env.Quiet) {w : World}
    (hnot : w.fs.lstat env.cwd path ≠ some .dir) :
    (getDirectoryChildren env path).run w = (some none, w.next.record (.listed path none)) := by
  have hlist : (listDirectory env path).run w = (some none, w.next) := by
    unfold listDirectory
    dsimp only
    rw [interfere_quiet hquiet]
    split
    · rfl
    next loc hloc =>
      rw [FileSystem.lstat, hloc, Option.bind_some] at hnot
      rw [if_pos hnot]
  rw [getDirectoryChildren, Program.run_bind_of_some hlist]
  rfl

/-- The remover refuses what is not a directory. -/
theorem removeRecursiveBatched_refuses (hquiet : env.Quiet) (hdepth : 0 < depth)
    (htree : ∀ fs, tree fs → fs.lstat env.cwd path ≠ some .dir) :
    Yields mark tree (removeRecursiveBatched env depth path)
      fun completed fs => completed = false ∧ tree fs := by
  refine .of_within (removeRecursiveBatched_within env depth (Scope.Sub.refl removalScope) path)
    fun w hw => ?_
  obtain ⟨depth, rfl⟩ : ∃ depth', depth = depth' + 1 := ⟨depth - 1, by omega⟩
  refine ⟨false, w.next.record (.listed path none), [.listed path none], ?_, rfl, rfl, hw⟩
  rw [removeRecursiveBatched,
    Program.run_bind_of_some (getDirectoryChildren_refused hquiet (htree _ hw))]
  rfl

/-! ## The two callers -/

/-- What the loop over a cache directory does: it comes to its end if all the entries are
directories, and then they are gone. -/
structure Cleaned (loc : Loc) (names : List Name) (completed : Bool) (fs fs' : FileSystem) :
    Prop where
  completed_iff : completed = true ↔ ∀ name ∈ names, fs.node (loc ++ [name]) = some .dir
  pruned : completed = true →
    Pruned (fun place => ∃ name ∈ names, loc ++ [name] <+: place) fs fs'

namespace Cleaned

variable {name : Name} {rest : List Name} {fs fs' fs'' : FileSystem} {completed : Bool}

theorem nil (loc : Loc) (fs : FileSystem) : Cleaned loc [] true fs fs :=
  ⟨by simp, fun _ => .refl (by simp)⟩

theorem refused (hnot : fs.node (loc ++ [name]) ≠ some .dir) :
    Cleaned loc (name :: rest) false fs fs' := by
  constructor
  · constructor
    · intro h
      cases h
    · intro hall
      exact absurd (hall name (.head _)) hnot
  · intro h
    cases h

theorem cons (hentries : HasEntries env.cwd path loc depth (name :: rest) fs)
    (hdir : fs.node (loc ++ [name]) = some .dir)
    (hhead : Pruned (fun place => loc ++ [name] <+: place) fs fs')
    (hrest : Cleaned loc rest completed fs' fs'') :
    Cleaned loc (name :: rest) completed fs fs'' := by
  constructor
  · rw [hrest.completed_iff, List.forall_mem_cons, and_iff_right hdir]
    apply forall₂_congr
    intro other hother
    rw [hhead.kept _ (HasEntries.not_under (hentries.ne_head hother))]
  · intro hcompleted
    apply (hhead.trans (hrest.pruned hcompleted)).congr
    intro place _
    simp

end Cleaned

/-- The loop over a cache directory ends at the first entry that is no directory. -/
theorem cleanChildren_yields (hquiet : env.Quiet) (hdepth : 0 < depth) {names : List Name}
    (htree : ∀ fs, tree fs → HasEntries env.cwd path loc depth names fs) :
    Yields mark tree (cleanChildren env depth path names) fun completed fs' =>
      ∃ fs, tree fs ∧ Cleaned loc names completed fs fs' := by
  induction names generalizing tree with
  | nil => exact .pure fun fs hfs => ⟨fs, hfs, .nil loc fs⟩
  | cons name rest ih =>
      have hremoves : Removes env mark (removeRecursiveBatched env depth (child path name))
          (child path name) (loc ++ [name]) depth :=
        removeRecursiveBatched_removes hquiet (by simp)
      have hloop : Yields mark
          (fun fs' => ∃ fs, (tree fs ∧ fs.node (loc ++ [name]) = some .dir) ∧
            Pruned (fun place => loc ++ [name] <+: place) fs fs')
          (cleanChildren env depth path rest)
          fun completed fs' => ∃ fs, tree fs ∧ Cleaned loc (name :: rest) completed fs fs' := by
        refine (ih fun fs' hfs' => ?_).weaken fun completed fs'' hend => ?_
        · obtain ⟨fs, hfs, hhead⟩ := hfs'
          exact (htree fs hfs.1).pruned hhead
        · obtain ⟨fs', ⟨fs, hfs, hhead⟩, hrest⟩ := hend
          exact ⟨fs, hfs.1, .cons (htree fs hfs.1) hfs.2 hhead hrest⟩
      unfold cleanChildren
      -- the loop does not ask what an entry is; the remover refuses all but directories
      refine .by_cases (fun fs => fs.node (loc ++ [name]) = some .dir) ?_ ?_
      · refine .bind (hremoves _ fun fs hfs => ?_)
          fun completed => .ite (fun hstop => ?_) fun _ => ?_
        · exact ⟨(htree fs hfs.1).dirAt.entry hfs.2, (htree fs hfs.1).shallow.entry name⟩
        · refine .pure fun fs hfs => ?_
          rw [hfs.1] at hstop
          cases hstop
        · exact hloop.strengthen fun fs hfs => hfs.2
      · refine .bind (removeRecursiveBatched_refuses hquiet hdepth fun fs hfs => ?_)
          fun completed => .ite (fun hstop => .pure fun fs hfs => ?_) fun hgo => ?_
        · rw [(htree fs hfs.1).dirAt.lstat_entry (htree fs hfs.1).head]
          exact hfs.2
        · exact ⟨fs, hfs.2.1, .refused hfs.2.2⟩
        · refine .of_impossible
            (cleanChildren_within env depth (Scope.Sub.refl removalScope) path rest)
            fun fs hfs => ?_
          simp [hfs.1] at hgo

theorem cleanDirectorySafely_yields (hquiet : env.Quiet) (hdepth : 0 < depth)
    {targetDir : CacheDirInfo}
    (htree : ∀ fs, tree fs → DirAt env.cwd targetDir.path loc fs ∧ fs.Shallow loc (depth + 1)) :
    Yields mark tree (cleanDirectorySafely env depth targetDir) fun completed fs' =>
      ∃ fs, tree fs ∧ Cleaned loc (fs.children loc) completed fs fs' := by
  unfold cleanDirectorySafely
  refine .bind (getDirectoryChildren_dirAt hquiet fun fs hfs => (htree fs hfs).1)
    fun children => ?_
  cases children with
  | none => exact .pure fun fs hfs => by cases hfs.2
  | some children =>
      have hentries (fs : FileSystem) (hfs : tree fs ∧ some children = some (fs.children loc)) :
          HasEntries env.cwd targetDir.path loc depth children fs := by
        rw [Option.some.inj hfs.2]
        exact (htree fs hfs.1).1.hasEntries (htree fs hfs.1).2
      have hresult (completed : Bool) (fs' : FileSystem) :
          (∃ fs, (tree fs ∧ some children = some (fs.children loc)) ∧
            Cleaned loc children completed fs fs') →
          ∃ fs, tree fs ∧ Cleaned loc (fs.children loc) completed fs fs' := by
        rintro ⟨fs, hfs, hcleaned⟩
        rw [Option.some.inj hfs.2] at hcleaned
        exact ⟨fs, hfs.1, hcleaned⟩
      refine .bind (enter_yields _) fun _ => ?_
      refine .bind ((cleanChildren_yields hquiet hdepth hentries).weaken hresult)
        fun completed => ?_
      refine .bind (leave_yields _ completed) fun _ => .ite (fun hstop => ?_) fun hgo => ?_
      · refine .pure fun fs hfs => ?_
        rw [Bool.not_eq_true'] at hstop
        rwa [hstop] at hfs
      · rw [Bool.not_eq_true', Bool.not_eq_false] at hgo
        subst hgo
        refine .bind getProcess_yields fun process => .bind (sense_yields _) fun now => ?_
        refine .bind (setProcess_yields _) fun _ => .bind (note_yields _) fun _ => ?_
        exact .bind save_yields fun _ => .pure fun fs hfs => hfs

end Removal

/-! ## Complete cleanings -/

/-- `CleanDirectorySafely` returned true, and the directory is there and empty. -/
def CleansAll (loc : Loc) (run : Option Bool × World) : Prop :=
  run.1 = some true ∧ run.2.fs.node loc = some .dir ∧ run.2.fs.children loc = []

instance (loc : Loc) (run : Option Bool × World) : Decidable (CleansAll loc run) := by
  unfold CleansAll
  infer_instance

theorem cleanDirectorySafely_cleansAll_iff (hquiet : env.Quiet) {depth : Nat} {w : World}
    (hdepth : ∀ loc ∈ w.fs.locs, loc.length < depth) {targetDir : CacheDirInfo} {loc : Loc}
    (hleads : w.fs.Leads env.cwd false targetDir.path loc) (hdir : w.fs.node loc = some .dir)
    (hcalm : Undisturbed (eventsOf (cleanDirectorySafely env depth targetDir) w)) :
    CleansAll loc ((cleanDirectorySafely env depth targetDir).run w) ↔
      ∀ name ∈ w.fs.children loc, w.fs.node (loc ++ [name]) = some .dir := by
  have hpos := FileSystem.depth_pos hdepth
  have hshallow : w.fs.Shallow loc (depth + 1) := fun rest hrest =>
    Nat.lt_succ_of_lt (FileSystem.shallow_of_locs hdepth loc rest hrest)
  obtain ⟨completed, hresult, fs, rfl, hcleaned⟩ :=
    (cleanDirectorySafely_yields hquiet hpos fun fs hfs => by
      rw [hfs]
      exact ⟨⟨hleads, hdir⟩, hshallow⟩).run hcalm
  rw [CleansAll, hresult, ← hcleaned.completed_iff, Option.some_inj]
  apply and_iff_left_of_imp
  intro hcompleted
  have hthere : DirAt env.cwd targetDir.path loc w.fs := ⟨hleads, hdir⟩
  obtain ⟨hdirAt, hempty⟩ := hthere.emptied (hcleaned.pruned hcompleted)
  exact ⟨hdirAt.dir, hempty⟩

/-- An entry that could not be looked at keeps the directories that it stands in. -/
theorem cleanDirectorySafely_allSeen (hquiet : env.Quiet) {depth : Nat} {w : World}
    {targetDir : CacheDirInfo} {loc : Loc}
    (hloc : w.fs.resolve env.cwd false targetDir.path = some loc)
    (hcleans : CleansAll loc ((cleanDirectorySafely env depth targetDir).run w)) :
    AllSeen (eventsOf (cleanDirectorySafely env depth targetDir) w) := by
  intro path hfailed
  obtain ⟨place, _, hbelow, hthere⟩ := (cleanDirectorySafely_takes hquiet hloc).resists hfailed rfl
  obtain ⟨name, hname, _⟩ := (FileSystem.below_iff_children hthere).mp hbelow
  rw [hcleans.2.2] at hname
  cases hname

end FreshCore
