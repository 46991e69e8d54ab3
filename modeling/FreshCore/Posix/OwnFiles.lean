import FreshCore.Posix.Pruning

/-!
# Trees but for some files

A program may keep files of its own on the tree it works on: at certain places files come, go
and are renamed. Names that lead anywhere else lead there whether these files are there or not.
-/

namespace Posix

variable {own : Loc → Prop} {fs fs' fs'' : FileSystem}

def Node.isFile : Node → Bool
  | file _ => true
  | _ => false

/-- What stands at these places is a file. -/
def FilesAt (own : Loc → Prop) (fs : FileSystem) : Prop :=
  ∀ loc node, own loc → fs.node loc = some node → node.isFile = true

theorem FilesAt.not_dir {loc : Loc} (h : FilesAt own fs) (hloc : own loc) :
    fs.node loc ≠ some .dir := by
  intro hnode
  cases h loc .dir hloc hnode

/-! ## Keeping files -/

/-- The step creates, removes or renames a file at these places. -/
def FsStep.Tends (own : Loc → Prop) : FsStep → Prop
  | create dir name _ => own (dir ++ [name])
  | unlink loc => own loc
  | rename src dir name => own src ∧ own (dir ++ [name])
  | _ => False

/-- The tree has become `fs'` by what went on with the files at these places. -/
structure Tended (own : Loc → Prop) (fs fs' : FileSystem) : Prop where
  files : FilesAt own fs'
  elsewhere : ∀ loc, ¬ own loc → fs'.node loc = fs.node loc

namespace Tended

theorem refl (hfiles : FilesAt own fs) : Tended own fs fs := ⟨hfiles, fun _ _ => rfl⟩

theorem trans (h : Tended own fs fs') (h' : Tended own fs' fs'') : Tended own fs fs'' :=
  ⟨h'.files, fun loc hloc => (h'.elsewhere loc hloc).trans (h.elsewhere loc hloc)⟩

theorem insert {dir : Loc} {name : Name} {size : UInt64} (hfiles : FilesAt own fs)
    (hplace : own (dir ++ [name])) (h : fs.insert dir name (.file size) = some fs') :
    Tended own fs fs' := by
  constructor
  · intro loc node hloc hnode
    rw [FileSystem.insert_node h] at hnode
    split at hnode
    · cases hnode
      rfl
    · exact hfiles loc node hloc hnode
  · intro loc hloc
    rw [FileSystem.insert_node h, if_neg]
    rintro rfl
    exact hloc hplace

theorem erase {place : Loc} (hfiles : FilesAt own fs) (hplace : own place)
    (h : fs.erase place = some fs') : Tended own fs fs' := by
  constructor
  · intro loc node hloc hnode
    rw [FileSystem.erase_node h] at hnode
    split at hnode
    · cases hnode
    · exact hfiles loc node hloc hnode
  · intro loc hloc
    rw [FileSystem.erase_node h, if_neg]
    rintro rfl
    exact hloc hplace

/-- Nothing stands below a file, so a file is all that is moved. -/
theorem move {src dir : Loc} {name : Name} (hfiles : FilesAt own fs) (hsrc : own src)
    (hdst : own (dir ++ [name])) (h : fs.move src dir name = some fs') : Tended own fs fs' := by
  have hsingle (rest : Loc) (node : Node) (hnode : fs.node (src ++ rest) = some node) :
      rest = [] := by
    have hself := FileSystem.eq_of_under (hfiles.not_dir hsrc) (List.prefix_append src rest)
      (Option.isSome_of_eq_some hnode)
    simpa using hself
  have hbelow {place loc : Loc} (hplace : own place) (hloc : ¬ own loc) (hpre : place <+: loc) :
      fs.node loc = none := by
    by_contra hsome
    have hself := FileSystem.eq_of_under (hfiles.not_dir hplace) hpre
      (Option.isSome_iff_ne_none.mpr hsome)
    exact hloc (hself ▸ hplace)
  constructor
  · intro loc node hloc hnode
    rw [FileSystem.move_node h, FileSystem.moveNode] at hnode
    split at hnode
    · have hrest := hsingle _ node hnode
      rw [hrest, List.append_nil] at hnode
      exact hfiles src node hsrc hnode
    · split at hnode
      · cases hnode
      · exact hfiles loc node hloc hnode
  · intro loc hloc
    rw [FileSystem.move_node h, FileSystem.moveNode]
    split
    next hpre =>
      obtain ⟨rest, rfl⟩ := hpre
      rw [hbelow hdst hloc (List.prefix_append _ _), List.drop_left]
      by_contra hsome
      obtain ⟨node, hnode⟩ := Option.ne_none_iff_exists'.mp hsome
      rw [hsingle rest node hnode, List.append_nil] at hloc
      exact hloc hdst
    · split
      next hpre => exact (hbelow hsrc hloc hpre).symm
      · rfl

theorem rename {src dir : Loc} {name : Name} (hfiles : FilesAt own fs) (hsrc : own src)
    (hdst : own (dir ++ [name])) (h : fs.rename src dir name = some fs') : Tended own fs fs' := by
  unfold FileSystem.rename at h
  split at h
  next hdir _ => exact absurd hdir (hfiles.not_dir hsrc)
  · cases h
  · obtain ⟨middle, hmiddle, hmove⟩ := Option.bind_eq_some_iff.mp h
    have hgone := erase hfiles hdst (FileSystem.unlink_eq_some hmiddle).2
    exact hgone.trans (move hgone.files hsrc hdst hmove)
  · exact move hfiles hsrc hdst h

end Tended

theorem FsStep.Tends.apply {step : FsStep} (h : step.Tends own) (hfiles : FilesAt own fs) :
    Tended own fs (step.apply fs) := by
  unfold FsStep.apply
  cases hstep : step.attempt fs with
  | none => exact .refl hfiles
  | some fs' =>
      rw [Option.getD_some]
      cases step with
      | create dir name size => exact .insert hfiles h hstep
      | mkdir dir name => exact h.elim
      | symlink dir name target => exact h.elim
      | unlink loc => exact .erase hfiles h (FileSystem.unlink_eq_some hstep).2
      | rmdir loc => exact h.elim
      | rename src dir name => exact .rename hfiles h.1 h.2 hstep

theorem FsStep.applyAll_tended {steps : List FsStep} (hsteps : ∀ step ∈ steps, step.Tends own)
    (hfiles : FilesAt own fs) : Tended own fs (FsStep.applyAll fs steps) := by
  induction steps generalizing fs with
  | nil => exact .refl hfiles
  | cons step rest ih =>
      have hhead := (hsteps step (.head _)).apply hfiles
      exact hhead.trans (ih (fun other hother => hsteps other (.tail _ hother)) hhead.files)

/-! ## Names on the two trees -/

namespace FileSystem

/-- Whatever stands in `fs'` stands in `fs` as well, but for files at these places. -/
structure SubtreeBut (own : Loc → Prop) (fs' fs : FileSystem) : Prop where
  files : FilesAt own fs'
  elsewhere : ∀ loc node, ¬ own loc → fs'.node loc = some node → fs.node loc = some node

namespace SubtreeBut

variable {loc : Loc} {node : Node}

theorem refl (hfiles : FilesAt own fs) : fs.SubtreeBut own fs := ⟨hfiles, fun _ _ _ h => h⟩

theorem not_own (h : fs'.SubtreeBut own fs) (hnode : fs'.node loc = some node)
    (hnot : node.isFile = false) : ¬ own loc := by
  intro hloc
  rw [h.files loc node hloc hnode] at hnot
  cases hnot

/-- What is not a file was there before. -/
theorem there (h : fs'.SubtreeBut own fs) (hnode : fs'.node loc = some node)
    (hnot : node.isFile = false) : fs.node loc = some node :=
  h.elsewhere loc node (h.not_own hnode hnot) hnode

theorem erase (h : fs'.SubtreeBut own fs) (herase : fs'.erase loc = some fs'') :
    fs''.SubtreeBut own fs := by
  have hthere (place : Loc) (other : Node) (hother : fs''.node place = some other) :
      fs'.node place = some other := by
    rw [erase_node herase] at hother
    split at hother
    · cases hother
    · exact hother
  constructor
  · exact fun place other hplace hother => h.files place other hplace (hthere place other hother)
  · exact fun place other hplace hother =>
      h.elsewhere place other hplace (hthere place other hother)

theorem tended (h : fs'.SubtreeBut own fs) (htended : Tended own fs' fs'') :
    fs''.SubtreeBut own fs where
  files := htended.files
  elsewhere place other hplace hother :=
    h.elsewhere place other hplace (htended.elsewhere place hplace ▸ hother)

/-- A walk goes through directories and links, which were all there before. -/
theorem walk (h : fs'.SubtreeBut own fs) {follow : Bool} {links : Nat} {cur : Loc}
    {pieces : List Name} (hloc : ¬ own loc)
    (hwalk : Posix.walk fs' follow links cur pieces = some loc) :
    Posix.walk fs follow links cur pieces = some loc := by
  rw [walk_eq_some_iff] at hwalk ⊢
  induction hwalk with
  | arrived links cur => exact .arrived links cur
  | stay hstay _ ih => exact .stay hstay (ih hloc)
  | up _ ih => exact .up (ih hloc)
  | enter hpiece hnode _ ih => exact .enter hpiece (h.there hnode rfl) (ih hloc)
  | file hpiece hnode => exact .file hpiece (h.elsewhere _ _ hloc hnode)
  | link hpiece hnode hfollow => exact .link hpiece (h.there hnode rfl) hfollow
  | expand hpiece hnode hlast htarget _ ih =>
      exact .expand hpiece (h.there hnode rfl) hlast htarget (ih hloc)

theorem resolve (h : fs'.SubtreeBut own fs) {cwd : Loc} {follow : Bool} {path : Bytes}
    (hloc : ¬ own loc) (hresolve : fs'.resolve cwd follow path = some loc) :
    fs.resolve cwd follow path = some loc := by
  rw [resolve_eq_some] at hresolve ⊢
  obtain ⟨hpath, hstart, hwalk⟩ := hresolve
  exact ⟨hpath, h.there hstart rfl, h.walk hloc hwalk⟩

end SubtreeBut

end FileSystem

end Posix
