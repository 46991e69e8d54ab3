import FreshCore.Storage.Filesystem

/-!
# Calls on a tree that nobody else changes

Without interference each call is a function of the tree it finds.
-/

namespace FreshCore

open Posix Imperative

/-- No other process changes the file system. -/
def Env.Quiet (env : Env) : Prop := ∀ tick, env.others tick = []

theorem restingDevice_quiet : restingDevice.Quiet := fun _ => rfl

/-- `GetCanonicalPath` on a tree: the empty string stands for failure. -/
def canonicalPath (fs : FileSystem) (cwd : Loc) (path : Bytes) : Bytes :=
  (fs.realpath cwd path).getD []

/-- What `GetDirectoryChildren` yields on a tree. -/
def listing (fs : FileSystem) (cwd : Loc) (path : Bytes) : Option (List Name) :=
  (fs.resolve cwd false path).bind fun loc =>
    if fs.node loc = some .dir then some (fs.children loc) else none

/-- The names `.` and `..` that a listing starts with go, and no name in the tree is one of
them. -/
theorem filter_listed (fs : FileSystem) (loc : Loc) :
    (dot :: dotDot :: fs.children loc).filter (fun name => name ≠ dot && name ≠ dotDot) =
      fs.children loc := by
  have hnames : (fs.children loc).filter (fun name => name ≠ dot && name ≠ dotDot) =
      fs.children loc := by
    apply List.filter_eq_self.mpr
    intro name hname
    have hvalid := FileSystem.children_valid hname
    simp [hvalid.2.1, hvalid.2.2.1]
  rw [List.filter_cons_of_neg (by simp), List.filter_cons_of_neg (by simp), hnames]

theorem interfere_process (env : Env) (w : World) : (w.interfere env).process = w.process := by
  unfold World.interfere
  split <;> rfl

/-- A look at an entry finds what others have left there, or fails and reports it. -/
theorem lstat_run (env : Env) (path : Bytes) (w : World) :
    ∃ node w' new, (lstat env path).run w = (some node, w') ∧
      w'.fs = (w.interfere env).fs ∧ w'.process = w.process ∧
      w'.log = (w.interfere env).log ++ new ∧
      (node = (w.interfere env).fs.lstat env.cwd path ∧ new = [] ∨
        node = none ∧ ((w.interfere env).fs.lstat env.cwd path).isSome ∧
          new = [.lstatFailed path]) := by
  have hprocess := interfere_process env w
  unfold lstat
  dsimp only
  split
  next hnone =>
    exact ⟨_, _, [], rfl, rfl, hprocess, (List.append_nil _).symm, Or.inl ⟨hnone.symm, rfl⟩⟩
  next node hnode =>
    split
    · exact ⟨_, _, [.lstatFailed path], rfl, rfl, hprocess, rfl,
        Or.inr ⟨rfl, by rw [hnode]; rfl, rfl⟩⟩
    · exact ⟨_, _, [], rfl, rfl, hprocess, (List.append_nil _).symm, Or.inl ⟨hnode.symm, rfl⟩⟩

/-- A listing finds what others have left there, or fails and reports it. -/
theorem listDirectory_run (env : Env) (path : Bytes) (w : World) :
    ∃ entries w' new, (listDirectory env path).run w = (some entries, w') ∧
      w'.fs = (w.interfere env).fs ∧ w'.process = w.process ∧
      w'.log = (w.interfere env).log ++ new ∧
      (entries.map (List.filter fun name => name ≠ dot && name ≠ dotDot) =
          listing (w.interfere env).fs env.cwd path ∧ new = [] ∨
        entries = none ∧ new = [.listFailed path]) := by
  have hprocess := interfere_process env w
  unfold listDirectory listing
  dsimp only
  split
  next hnone =>
    refine ⟨_, _, [], rfl, rfl, hprocess, (List.append_nil _).symm, Or.inl ⟨?_, rfl⟩⟩
    rw [hnone]
    rfl
  next loc hloc =>
    split
    next hnode =>
      refine ⟨_, _, [], rfl, rfl, hprocess, (List.append_nil _).symm, Or.inl ⟨?_, rfl⟩⟩
      rw [hloc, Option.bind_some, if_neg hnode]
      rfl
    next hnode =>
      rw [not_not] at hnode
      split
      · exact ⟨_, _, [.listFailed path], rfl, rfl, hprocess, rfl, Or.inr ⟨rfl, rfl⟩⟩
      · refine ⟨_, _, [], rfl, rfl, hprocess, (List.append_nil _).symm, Or.inl ⟨?_, rfl⟩⟩
        rw [hloc, Option.bind_some, if_pos hnode, Option.map_some, filter_listed]

section Quiet

variable {env : Env}

theorem interfere_quiet (hquiet : env.Quiet) (w : World) : w.interfere env = w := by
  rw [World.interfere, hquiet w.tick]

/-- On a tree that nobody else changes a look finds what is there, or fails. -/
theorem lstat_quiet (hquiet : env.Quiet) (path : Bytes) (w : World) :
    ∃ node w' new, (lstat env path).run w = (some node, w') ∧
      w'.fs = w.fs ∧ w'.process = w.process ∧ w'.log = w.log ++ new ∧
      (node = w.fs.lstat env.cwd path ∧ new = [] ∨
        node = none ∧ (w.fs.lstat env.cwd path).isSome ∧ new = [.lstatFailed path]) := by
  obtain ⟨node, w', new, hrun, hfs, hprocess, hlog, hfound⟩ := lstat_run env path w
  rw [interfere_quiet hquiet] at hfs hlog hfound
  exact ⟨node, w', new, hrun, hfs, hprocess, hlog, hfound⟩

theorem getCanonicalPath_quiet (hquiet : env.Quiet) (path : Bytes) (w : World) :
    (getCanonicalPath env path).run w = (some (canonicalPath w.fs env.cwd path), w.next) := by
  rw [getCanonicalPath, Program.run_bind, realpath, look]
  dsimp only
  rw [interfere_quiet hquiet]
  rfl

theorem isPathUnderRoot_quiet (hquiet : env.Quiet) (path root : Bytes) (w : World) :
    (isPathUnderRoot env path root).run w =
      (some (isCanonUnderRoot (canonicalPath w.fs env.cwd path)
        (canonicalPath w.fs env.cwd root)), w.next.next) := by
  rw [isPathUnderRoot, Program.run_bind_of_some (getCanonicalPath_quiet hquiet path w),
    Program.run_bind_of_some (getCanonicalPath_quiet hquiet root w.next)]
  rfl

/-- On a tree that nobody else changes a listing finds what is there, or fails. -/
theorem listDirectory_quiet (hquiet : env.Quiet) (path : Bytes) (w : World) :
    ∃ entries w' new, (listDirectory env path).run w = (some entries, w') ∧
      w'.fs = w.fs ∧ w'.process = w.process ∧ w'.log = w.log ++ new ∧
      (entries.map (List.filter fun name => name ≠ dot && name ≠ dotDot) =
          listing w.fs env.cwd path ∧ new = [] ∨
        entries = none ∧ new = [.listFailed path]) := by
  obtain ⟨entries, w', new, hrun, hfs, hprocess, hlog, hfound⟩ := listDirectory_run env path w
  rw [interfere_quiet hquiet] at hfs hlog hfound
  exact ⟨entries, w', new, hrun, hfs, hprocess, hlog, hfound⟩

/-! ## Code that removes nothing -/

/-- Removing is not within the scope. -/
def Scope.IsSparing (scope : Scope) : Prop := ∀ loc node, ¬ scope.event (.removed loc node)

theorem Within.fs_eq (hquiet : env.Quiet) {scope : Scope} (hsparing : scope.IsSparing)
    {α : Type} {x : Daemon α} (h : Within env scope x) (w : World) :
    (x.run w).2.fs = w.fs := by
  have htrans (s t u : World) (hst : t.fs = s.fs) (htu : u.fs = t.fs) : u.fs = s.fs :=
    htu.trans hst
  apply Program.Built.keeps (R := fun w w' => w'.fs = w.fs) (fun _ => rfl) htrans _ h
  intro _ y haction w
  cases haction with
  | sense read => rfl
  | note hevent => rfl
  | moment => rfl
  | report hevent => rfl
  | getProcess => rfl
  | setProcess hchange => rfl
  | lstat path =>
      obtain ⟨node, w', new, hrun, hfs, _⟩ := lstat_quiet hquiet path w
      rw [hrun]
      exact hfs
  | realpath path =>
      rw [realpath, look]
      dsimp only
      rw [interfere_quiet hquiet]
      rfl
  | listDirectory path =>
      obtain ⟨entries, w', new, hrun, hfs, _⟩ := listDirectory_quiet hquiet path w
      rw [hrun]
      exact hfs
  | removeEntry remove path hevent => exact absurd (hevent [] .dir) (hsparing [] .dir)
  | enter hevent => rfl
  | leave hevent => rfl
  | save hevent =>
      unfold saveStateAtomic
      dsimp only
      split <;> rfl

/-- Code that removes nothing keeps what the steps within its scope keep on one tree. -/
theorem Scope.Keeps.of_still (hquiet : env.Quiet) {scope : Scope} (hsparing : scope.IsSparing)
    {I : World → Prop}
    (hkept : ∀ w w', I w → scope.Reaches w w' → w'.fs = w.fs → I w') : scope.Keeps env I :=
  fun _ _ h => .of_state fun w hw => hkept w _ hw (h.reaches w) (h.fs_eq hquiet hsparing w)

end Quiet

end FreshCore
