import FreshCore.Daemon.Scope

/-! # The storage layer -/

namespace FreshCore

open Posix Imperative

variable (env : Env)

/-- `GetCanonicalPath`: the empty string stands for failure. -/
def getCanonicalPath (path : Bytes) : Daemon Bytes := do
  let resolved ← realpath env path
  return resolved.getD []

/-- `GetDirectoryChildren`; `none` is a failure. -/
def getDirectoryChildren (dirPath : Bytes) : Daemon (Option (List Name)) := do
  let entries ← listDirectory env dirPath
  let names := entries.map (List.filter fun name => name ≠ dot && name ≠ dotDot)
  note (.listed dirPath names)
  return names

/-- `SafeRemove` -/
def safeRemove (path : Bytes) : Daemon Bool := do
  let node ← lstat env path
  match node with
  | none => return false
  | some node => if node.isDir then rmdir env path else unlink env path

/-- The comparison of canonical names in `IsPathUnderRoot`. -/
def isCanonUnderRoot (canonPath canonRoot : Bytes) : Bool :=
  if canonPath = [] ∨ canonRoot = [] then false
  else canonRoot.length < canonPath.length && canonPath.take canonRoot.length = canonRoot &&
    canonPath[canonRoot.length]? = some slash

def isPathUnderRoot (path root : Bytes) : Daemon Bool := do
  let canonPath ← getCanonicalPath env path
  let canonRoot ← getCanonicalPath env root
  return isCanonUnderRoot canonPath canonRoot

/-! ## What the calls leave behind -/

variable {scope : Scope}

theorem getCanonicalPath_within (path : Bytes) : Within env scope (getCanonicalPath env path) :=
  .bind (.prim (.realpath path)) fun _ => .pure _

theorem isPathUnderRoot_within (path root : Bytes) :
    Within env scope (isPathUnderRoot env path root) :=
  .bind (getCanonicalPath_within env path) fun _ =>
    .bind (getCanonicalPath_within env root) fun _ => .pure _

/-- Listing a directory reports what was found. -/
def listScope : Scope where
  event
    | .listed _ _ => True
    | _ => False
  change _ := False

theorem getDirectoryChildren_within (hsub : listScope.Sub scope) (dirPath : Bytes) :
    Within env scope (getDirectoryChildren env dirPath) :=
  .bind (.prim (.listDirectory dirPath)) fun _ =>
    .bind (.prim (.note (hsub.event _ trivial))) fun _ => .pure _

theorem safeRemove_within (hremoved : ∀ loc node, scope.event (.removed loc node))
    (path : Bytes) : Within env scope (safeRemove env path) := by
  refine .bind (.prim (.lstat path)) fun node => ?_
  split
  · exact .pure _
  · split
    · exact .prim (.removeEntry _ path hremoved)
    · exact .prim (.removeEntry _ path hremoved)

/-- Logs nothing of its own and changes no global. -/
def silentScope : Scope where
  event _ := False
  change _ := False

theorem silentScope_process {w w' : World} (h : silentScope.Reaches w w') :
    w'.process = w.process := by
  have hid : id w'.process = id w.process := h.observe fun _ hchange => hchange.elim
  exact hid

/-- A removal removes one entry or none, and says which. -/
theorem removeEntry_returns (remove : FileSystem → Loc → Option FileSystem) (path : Bytes)
    (w : World) :
    ∃ removed w₁ w', (removeEntry env remove path).run w = (some removed, w') ∧
      silentScope.Reaches w w₁ ∧ w'.process = w₁.process ∧
      (removed = false ∧ w'.log = w₁.log ∨
        removed = true ∧ ∃ loc node, w'.log = w₁.log ++ [.removed loc node]) := by
  have hreach := reaches_interfere silentScope env w
  unfold removeEntry
  dsimp only
  split
  · exact ⟨false, _, _, rfl, hreach, rfl, Or.inl ⟨rfl, rfl⟩⟩
  next loc _ =>
    split
    next node fs _ _ =>
      split
      · refine ⟨false, (w.interfere env).record (.removeFailed path), _, rfl, ?_, rfl,
          Or.inl ⟨rfl, rfl⟩⟩
        exact hreach.trans (.event rfl rfl (Or.inr rfl))
      · exact ⟨true, _, _, rfl, hreach, rfl, Or.inr ⟨rfl, loc, node, rfl⟩⟩
    · exact ⟨false, _, _, rfl, hreach, rfl, Or.inl ⟨rfl, rfl⟩⟩

theorem lstat_returns (path : Bytes) (w : World) :
    ∃ node w', (lstat env path).run w = (some node, w') ∧ silentScope.Reaches w w' := by
  have hsome : ((lstat env path).run w).1.isSome := by
    unfold lstat
    dsimp only
    split
    · rfl
    · split <;> rfl
  obtain ⟨node, hnode⟩ := Option.isSome_iff_exists.mp hsome
  exact ⟨node, _, Prod.ext hnode rfl, Action.reaches (.lstat path) w⟩

theorem safeRemove_returns (path : Bytes) (w : World) :
    ∃ removed w₁ w', (safeRemove env path).run w = (some removed, w') ∧
      silentScope.Reaches w w₁ ∧ w'.process = w₁.process ∧
      (removed = false ∧ w'.log = w₁.log ∨
        removed = true ∧ ∃ loc node, w'.log = w₁.log ++ [.removed loc node]) := by
  obtain ⟨node, w₂, hrun, hlook⟩ := lstat_returns env path w
  rw [safeRemove, Program.run_bind_of_some hrun]
  cases node with
  | none => exact ⟨false, _, _, rfl, hlook, rfl, Or.inl ⟨rfl, rfl⟩⟩
  | some node =>
      dsimp only
      have hremoval (remove : FileSystem → Loc → Option FileSystem) :=
        removeEntry_returns env remove path w₂
      split
      · obtain ⟨removed, w₁, w', hrun, hreach, hend⟩ := hremoval FileSystem.rmdir
        exact ⟨removed, w₁, w', hrun, hlook.trans hreach, hend⟩
      · obtain ⟨removed, w₁, w', hrun, hreach, hend⟩ := hremoval FileSystem.unlink
        exact ⟨removed, w₁, w', hrun, hlook.trans hreach, hend⟩

end FreshCore
