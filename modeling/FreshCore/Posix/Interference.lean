import FreshCore.Posix.FileSystem

/-!
# Steps of other processes

Other processes create, rename and remove entries. A step is given by the places
it acts on; a step that the tree does not allow leaves it as it is.
-/

namespace Posix

/-- `loc` is somewhere in the tree under `root`, and not `root` itself. -/
def Below (root loc : Loc) : Prop :=
  root <+: loc ∧ loc ≠ root

instance (root loc : Loc) : Decidable (Below root loc) := by
  unfold Below
  infer_instance

theorem below_child (root : Loc) (name : Name) : Below root (root ++ [name]) :=
  ⟨List.prefix_append _ _, by simp⟩

theorem Below.trans {root dir loc : Loc} (hdir : Below root dir) (hloc : dir <+: loc) :
    Below root loc := by
  refine ⟨hdir.1.trans hloc, ?_⟩
  rintro rfl
  exact hdir.2 (hloc.eq_of_length_le hdir.1.length_le)

theorem Below.lift {root dir loc : Loc} (hdir : root <+: dir) (hloc : Below dir loc) :
    Below root loc := by
  refine ⟨hdir.trans hloc.1, ?_⟩
  rintro rfl
  exact hloc.2 (hdir.eq_of_length_le hloc.1.length_le)

theorem below_snoc {root dir : Loc} {name : Name} :
    Below root (dir ++ [name]) ↔ root <+: dir := by
  constructor
  · rintro ⟨hpre, hne⟩
    rcases List.prefix_concat_iff.mp (by simpa using hpre) with heq | hdir
    · exact absurd (by simpa using heq.symm) hne
    · exact hdir
  · intro hpre
    exact (below_child dir name).lift hpre

theorem below_append {root rest : Loc} (hrest : rest ≠ []) : Below root (root ++ rest) :=
  ⟨List.prefix_append _ _, by simpa using hrest⟩

namespace FileSystem

theorem node_eq_none_under {fs : FileSystem} {dir loc : Loc} (hnode : fs.node dir = none)
    (hpre : dir <+: loc) : fs.node loc = none := by
  obtain ⟨rest, rfl⟩ := hpre
  by_contra hsome
  cases rest with
  | nil => simp [hnode] at hsome
  | cons name rest =>
      have hdir := fs.node_above (List.cons_ne_nil name rest)
        (Option.isSome_iff_ne_none.mpr hsome)
      rw [hnode] at hdir
      cases hdir

/-- Where an entry at or below `src` goes when `src` becomes `dst`. -/
def moveLoc (src dst loc : Loc) : Loc :=
  if src <+: loc then dst ++ loc.drop src.length else loc

theorem moveLoc_append (src dst rest : Loc) : moveLoc src dst (src ++ rest) = dst ++ rest := by
  simp [moveLoc]

theorem moveLoc_of_not_under {src dst loc : Loc} (h : ¬ src <+: loc) :
    moveLoc src dst loc = loc := by
  simp [moveLoc, h]

/-- What stands where once `src` has become `dst`. -/
def moveNode (fs : FileSystem) (src dst loc : Loc) : Option Node :=
  if dst <+: loc then fs.node (src ++ loc.drop dst.length)
  else if src <+: loc then none
  else fs.node loc

theorem moveNode_append (fs : FileSystem) (src dst rest : Loc) :
    fs.moveNode src dst (dst ++ rest) = fs.node (src ++ rest) := by
  simp [moveNode]

theorem moveNode_of_not_under {fs : FileSystem} {src dst loc : Loc} (hdst : ¬ dst <+: loc)
    (hsrc : ¬ src <+: loc) : fs.moveNode src dst loc = fs.node loc := by
  simp [moveNode, hdst, hsrc]

theorem moveNode_isSome {fs : FileSystem} {src dst loc : Loc}
    (h : (fs.moveNode src dst loc).isSome) :
    (∃ rest, loc = dst ++ rest ∧ (fs.node (src ++ rest)).isSome) ∨
      (¬ dst <+: loc ∧ ¬ src <+: loc ∧ (fs.node loc).isSome) := by
  unfold moveNode at h
  split at h
  next hdst =>
    obtain ⟨rest, rfl⟩ := hdst
    exact Or.inl ⟨rest, rfl, by simpa using h⟩
  next hdst =>
    split at h
    next => cases h
    next hsrc => exact Or.inr ⟨hdst, hsrc, h⟩

theorem not_prefix_of_snoc {src loc : Loc} {name : Name} (h : ¬ src <+: loc ++ [name]) :
    ¬ src <+: loc :=
  fun hpre => h (hpre.trans (List.prefix_append _ _))

/-- The subtree at `src` may be moved to the entry `name` of `dir`: it exists, its
new place is free, and it is not moved into itself. -/
structure Movable (fs : FileSystem) (src dir : Loc) (name : Name) : Prop where
  not_root : src ≠ []
  present : (fs.node src).isSome
  into_dir : fs.node dir = some .dir
  free : fs.node (dir ++ [name]) = none
  valid : ValidName name
  not_inside : ¬ src <+: dir ++ [name]

theorem movable_iff {fs : FileSystem} {src dir : Loc} {name : Name} :
    (src ≠ [] ∧ (fs.node src).isSome ∧ fs.node dir = some .dir ∧
      fs.node (dir ++ [name]) = none ∧ ValidName name ∧ ¬ src <+: dir ++ [name]) ↔
    fs.Movable src dir name :=
  ⟨fun ⟨h₁, h₂, h₃, h₄, h₅, h₆⟩ => ⟨h₁, h₂, h₃, h₄, h₅, h₆⟩,
    fun ⟨h₁, h₂, h₃, h₄, h₅, h₆⟩ => ⟨h₁, h₂, h₃, h₄, h₅, h₆⟩⟩

instance (fs : FileSystem) (src dir : Loc) (name : Name) :
    Decidable (fs.Movable src dir name) :=
  decidable_of_iff _ movable_iff

namespace Movable

variable {fs : FileSystem} {src dir : Loc} {name : Name}

theorem not_prefix_of_mem (h : fs.Movable src dir name) {loc : Loc} (hloc : loc ∈ fs.locs) :
    ¬ dir ++ [name] <+: loc := by
  intro hpre
  have hsome := (fs.mem_locs loc).mp hloc
  rw [node_eq_none_under h.free hpre] at hsome
  cases hsome

theorem locs_nodup (h : fs.Movable src dir name) :
    (fs.locs.map (moveLoc src (dir ++ [name]))).Nodup := by
  apply fs.locs_nodup.map_on
  intro loc hloc other hother heq
  -- moved places do not meet those that stay, for nothing stood at the new place
  by_cases hsrc : src <+: loc <;> by_cases hsrc' : src <+: other
  · obtain ⟨rest, rfl⟩ := hsrc
    obtain ⟨rest', rfl⟩ := hsrc'
    rw [moveLoc_append, moveLoc_append, List.append_cancel_left_eq] at heq
    rw [heq]
  · obtain ⟨rest, rfl⟩ := hsrc
    rw [moveLoc_append, moveLoc_of_not_under hsrc'] at heq
    exact absurd ⟨rest, heq⟩ (h.not_prefix_of_mem hother)
  · obtain ⟨rest, rfl⟩ := hsrc'
    rw [moveLoc_append, moveLoc_of_not_under hsrc] at heq
    exact absurd ⟨rest, heq.symm⟩ (h.not_prefix_of_mem hloc)
  · rwa [moveLoc_of_not_under hsrc, moveLoc_of_not_under hsrc'] at heq

theorem mem_locs (h : fs.Movable src dir name) (loc : Loc) :
    loc ∈ fs.locs.map (moveLoc src (dir ++ [name])) ↔
      (fs.moveNode src (dir ++ [name]) loc).isSome := by
  rw [List.mem_map]
  constructor
  · rintro ⟨place, hplace, rfl⟩
    have hsome := (fs.mem_locs place).mp hplace
    by_cases hsrc : src <+: place
    · obtain ⟨rest, rfl⟩ := hsrc
      rwa [moveLoc_append, moveNode_append]
    · rwa [moveLoc_of_not_under hsrc,
        moveNode_of_not_under (h.not_prefix_of_mem hplace) hsrc]
  · intro hsome
    rcases moveNode_isSome hsome with ⟨rest, rfl, hrest⟩ | ⟨_, hsrc, hloc⟩
    · exact ⟨src ++ rest, (fs.mem_locs _).mpr hrest, moveLoc_append _ _ _⟩
    · exact ⟨loc, (fs.mem_locs _).mpr hloc, moveLoc_of_not_under hsrc⟩

theorem root_dir (h : fs.Movable src dir name) :
    fs.moveNode src (dir ++ [name]) [] = some .dir := by
  rw [moveNode_of_not_under (by simp) (by simpa using h.not_root), fs.root_dir]

theorem parent_dir (h : fs.Movable src dir name) (d : Loc) (n : Name)
    (hn : (fs.moveNode src (dir ++ [name]) (d ++ [n])).isSome) :
    fs.moveNode src (dir ++ [name]) d = some .dir := by
  rcases moveNode_isSome hn with ⟨rest, heq, hrest⟩ | ⟨hdst, hsrc, hloc⟩
  · rcases List.eq_nil_or_concat rest with rfl | ⟨init, last, rfl⟩
    · rw [List.append_nil] at heq
      obtain ⟨rfl, _⟩ := List.append_inj' heq rfl
      -- the moved subtree's own directory is the one it is moved into
      have hlong : ¬ d ++ [name] <+: d := fun hpre => by
        have hlength := hpre.length_le
        rw [List.length_append, List.length_singleton] at hlength
        omega
      rw [moveNode_of_not_under hlong (not_prefix_of_snoc h.not_inside)]
      exact h.into_dir
    · rw [List.concat_eq_append, ← List.append_assoc] at hrest heq
      obtain ⟨rfl, _⟩ := List.append_inj' heq rfl
      rw [moveNode_append]
      exact fs.parent_dir _ _ hrest
  · rw [moveNode_of_not_under (not_prefix_of_snoc hdst) (not_prefix_of_snoc hsrc)]
    exact fs.parent_dir _ _ hloc

theorem name_valid (h : fs.Movable src dir name) (d : Loc) (n : Name)
    (hn : (fs.moveNode src (dir ++ [name]) (d ++ [n])).isSome) : ValidName n := by
  rcases moveNode_isSome hn with ⟨rest, heq, hrest⟩ | ⟨_, _, hloc⟩
  · rcases List.eq_nil_or_concat rest with rfl | ⟨init, last, rfl⟩
    · rw [List.append_nil] at heq
      obtain ⟨_, hname⟩ := List.append_inj' heq rfl
      cases hname
      exact h.valid
    · rw [List.concat_eq_append, ← List.append_assoc] at hrest heq
      obtain ⟨_, hlast⟩ := List.append_inj' heq rfl
      cases hlast
      exact fs.name_valid _ _ hrest
  · exact fs.name_valid _ _ hloc

end Movable

/-- The tree in which the subtree at `src` stands at the entry `name` of `dir`. -/
def move (fs : FileSystem) (src dir : Loc) (name : Name) : Option FileSystem :=
  if h : fs.Movable src dir name then
    some {
      node := fs.moveNode src (dir ++ [name])
      locs := fs.locs.map (moveLoc src (dir ++ [name]))
      locs_nodup := h.locs_nodup
      mem_locs := h.mem_locs
      root_dir := h.root_dir
      parent_dir := h.parent_dir
      name_valid := h.name_valid }
  else none

theorem move_node {fs fs' : FileSystem} {src dir : Loc} {name : Name}
    (h : fs.move src dir name = some fs') (loc : Loc) :
    fs'.node loc = fs.moveNode src (dir ++ [name]) loc := by
  unfold move at h
  split at h
  · cases h
    rfl
  · cases h

/-- `rename`: an existing target goes first, if it is of the same kind and, for a
directory, empty. -/
def rename (fs : FileSystem) (src dir : Loc) (name : Name) : Option FileSystem :=
  match fs.node src, fs.node (dir ++ [name]) with
  | some .dir, some .dir => (fs.rmdir (dir ++ [name])).bind (·.move src dir name)
  | some .dir, some _ => none
  | _, some _ => (fs.unlink (dir ++ [name])).bind (·.move src dir name)
  | _, none => fs.move src dir name

end FileSystem

/-- One step of another process. -/
inductive FsStep where
  | create (dir : Loc) (name : Name) (size : UInt64)
  | mkdir (dir : Loc) (name : Name)
  | symlink (dir : Loc) (name : Name) (target : Bytes)
  | unlink (loc : Loc)
  | rmdir (loc : Loc)
  | rename (src dir : Loc) (name : Name)
  deriving DecidableEq, Repr

namespace FsStep

def attempt (fs : FileSystem) : FsStep → Option FileSystem
  | create dir name size => fs.insert dir name (.file size)
  | mkdir dir name => fs.insert dir name .dir
  | symlink dir name target => fs.insert dir name (.symlink target)
  | unlink loc => fs.unlink loc
  | rmdir loc => fs.rmdir loc
  | rename src dir name => fs.rename src dir name

def apply (fs : FileSystem) (step : FsStep) : FileSystem :=
  (step.attempt fs).getD fs

/-- The step works inside the directory `root`. -/
def Inside (root : Loc) : FsStep → Prop
  | create dir _ _ => root <+: dir
  | mkdir dir _ => root <+: dir
  | symlink dir _ _ => root <+: dir
  | unlink loc => Below root loc
  | rmdir loc => Below root loc
  | rename src dir _ => Below root src ∧ root <+: dir

instance (root : Loc) (step : FsStep) : Decidable (step.Inside root) := by
  cases step <;> unfold Inside <;> infer_instance

end FsStep

/-- The two trees agree except strictly below `root`. -/
def AgreeOff (root : Loc) (fs fs' : FileSystem) : Prop :=
  ∀ loc, ¬ Below root loc → fs'.node loc = fs.node loc

theorem AgreeOff.refl (root : Loc) (fs : FileSystem) : AgreeOff root fs fs :=
  fun _ _ => rfl

theorem AgreeOff.trans {root : Loc} {fs fs' fs'' : FileSystem} (h : AgreeOff root fs fs')
    (h' : AgreeOff root fs' fs'') : AgreeOff root fs fs'' :=
  fun loc hloc => (h' loc hloc).trans (h loc hloc)

/-- Agreement off a deeper directory is the stronger statement. -/
theorem AgreeOff.mono {root dir : Loc} {fs fs' : FileSystem} (h : AgreeOff dir fs fs')
    (hdir : root <+: dir) : AgreeOff root fs fs' := by
  intro loc hloc
  exact h loc fun hbelow => hloc (hbelow.lift hdir)

namespace FileSystem

theorem insert_agreeOff {fs fs' : FileSystem} {root dir : Loc} {name : Name} {new : Node}
    (h : fs.insert dir name new = some fs') (hdir : root <+: dir) : AgreeOff root fs fs' := by
  intro loc hloc
  rw [insert_node h, if_neg]
  rintro rfl
  exact hloc ((below_child dir name).lift hdir)

theorem erase_agreeOff {fs fs' : FileSystem} {root loc : Loc} (h : fs.erase loc = some fs')
    (hloc : Below root loc) : AgreeOff root fs fs' := by
  intro other hother
  rw [erase_node h, if_neg]
  rintro rfl
  exact hother hloc

theorem unlink_eq_some {fs fs' : FileSystem} {loc : Loc} (h : fs.unlink loc = some fs') :
    fs.node loc ≠ some .dir ∧ fs.erase loc = some fs' := by
  unfold unlink at h
  split at h
  · cases h
  next hnode => exact ⟨hnode, h⟩

theorem rmdir_eq_some {fs fs' : FileSystem} {loc : Loc} (h : fs.rmdir loc = some fs') :
    fs.node loc = some .dir ∧ fs.erase loc = some fs' := by
  unfold rmdir at h
  split at h
  next hnode => exact ⟨hnode, h⟩
  · cases h

theorem move_agreeOff {fs fs' : FileSystem} {root src dir : Loc} {name : Name}
    (h : fs.move src dir name = some fs') (hsrc : Below root src) (hdir : root <+: dir) :
    AgreeOff root fs fs' := by
  intro loc hloc
  rw [move_node h, moveNode_of_not_under]
  · exact fun hpre => hloc (((below_child dir name).lift hdir).trans hpre)
  · exact fun hpre => hloc (hsrc.trans hpre)

theorem rename_agreeOff {fs fs' : FileSystem} {root src dir : Loc} {name : Name}
    (h : fs.rename src dir name = some fs') (hsrc : Below root src) (hdir : root <+: dir) :
    AgreeOff root fs fs' := by
  have hname : Below root (dir ++ [name]) := (below_child dir name).lift hdir
  unfold rename at h
  split at h
  · obtain ⟨middle, hmiddle, hmove⟩ := Option.bind_eq_some_iff.mp h
    exact (erase_agreeOff (rmdir_eq_some hmiddle).2 hname).trans
      (move_agreeOff hmove hsrc hdir)
  · cases h
  · obtain ⟨middle, hmiddle, hmove⟩ := Option.bind_eq_some_iff.mp h
    exact (erase_agreeOff (unlink_eq_some hmiddle).2 hname).trans
      (move_agreeOff hmove hsrc hdir)
  · exact move_agreeOff h hsrc hdir

end FileSystem

/-- A step inside a directory changes nothing outside of it. -/
theorem FsStep.apply_agreeOff {root : Loc} {step : FsStep} (hinside : step.Inside root)
    (fs : FileSystem) : AgreeOff root fs (step.apply fs) := by
  unfold FsStep.apply
  cases hstep : step.attempt fs with
  | none => exact AgreeOff.refl root fs
  | some fs' =>
      rw [Option.getD_some]
      cases step with
      | create dir name size => exact FileSystem.insert_agreeOff hstep hinside
      | mkdir dir name => exact FileSystem.insert_agreeOff hstep hinside
      | symlink dir name target => exact FileSystem.insert_agreeOff hstep hinside
      | unlink loc =>
          exact FileSystem.erase_agreeOff (FileSystem.unlink_eq_some hstep).2 hinside
      | rmdir loc =>
          exact FileSystem.erase_agreeOff (FileSystem.rmdir_eq_some hstep).2 hinside
      | rename src dir name =>
          exact FileSystem.rename_agreeOff hstep hinside.1 hinside.2

/-- Run the steps one after the other. -/
def FsStep.applyAll (fs : FileSystem) (steps : List FsStep) : FileSystem :=
  steps.foldl FsStep.apply fs

theorem FsStep.applyAll_agreeOff {root : Loc} {steps : List FsStep}
    (hinside : ∀ step ∈ steps, step.Inside root) (fs : FileSystem) :
    AgreeOff root fs (FsStep.applyAll fs steps) := by
  induction steps generalizing fs with
  | nil => exact AgreeOff.refl root fs
  | cons step rest ih =>
      have hhead := step.apply_agreeOff (hinside step List.mem_cons_self) fs
      exact hhead.trans (ih (fun other hother => hinside other (.tail _ hother)) _)

end Posix
