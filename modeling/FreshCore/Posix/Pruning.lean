import Mathlib.Data.List.Perm.Subperm
import FreshCore.Posix.Resolution

/-!
# Trees with parts taken out

What a removal leaves is described by the places that are gone: they are empty, and
everything else stands as it stood.
-/

namespace Posix

/-- The tree `fs'` is `fs` without what stood at the places in `gone`. -/
structure Pruned (gone : Loc → Prop) (fs fs' : FileSystem) : Prop where
  empty : ∀ loc, gone loc → fs'.node loc = none
  kept : ∀ loc, ¬ gone loc → fs'.node loc = fs.node loc

namespace FileSystem

theorem isSome_above {fs : FileSystem} {dir loc : Loc} (hpre : dir <+: loc)
    (hloc : (fs.node loc).isSome) : (fs.node dir).isSome := by
  rw [Option.isSome_iff_ne_none]
  intro hnone
  rw [node_eq_none_under hnone hpre] at hloc
  cases hloc

/-- Everything below a place is at or below one of its entries. -/
theorem below_iff_children {fs : FileSystem} {dir loc : Loc} (hloc : (fs.node loc).isSome) :
    Below dir loc ↔ ∃ name ∈ fs.children dir, dir ++ [name] <+: loc := by
  constructor
  · rintro ⟨⟨rest, rfl⟩, hne⟩
    cases rest with
    | nil => exact absurd (List.append_nil dir) hne
    | cons name rest =>
        have hentry : dir ++ [name] <+: dir ++ name :: rest := ⟨rest, by simp⟩
        exact ⟨name, mem_children.mpr (isSome_above hentry hloc), hentry⟩
  · rintro ⟨name, _, hpre⟩
    exact (below_child dir name).trans hpre

/-- Nothing stands below what is not a directory. -/
theorem eq_of_under {fs : FileSystem} {dir loc : Loc} (hdir : fs.node dir ≠ some .dir)
    (hpre : dir <+: loc) (hloc : (fs.node loc).isSome) : loc = dir := by
  obtain ⟨rest, rfl⟩ := hpre
  by_cases hrest : rest = []
  · rw [hrest, List.append_nil]
  · exact absurd (fs.node_above hrest hloc) hdir

/-- The directories at and below `loc` lie less than `depth` levels below it. -/
def Shallow (loc : Loc) (depth : Nat) (fs : FileSystem) : Prop :=
  ∀ rest, fs.node (loc ++ rest) = some .dir → rest.length < depth

theorem Shallow.entry {fs : FileSystem} {loc : Loc} {depth : Nat}
    (h : fs.Shallow loc (depth + 1)) (name : Name) : fs.Shallow (loc ++ [name]) depth := by
  intro rest hrest
  have hlength := h (name :: rest) (by simpa using hrest)
  simpa using hlength

/-- Every directory of the tree is less than `depth` levels deep. -/
theorem shallow_of_locs {fs : FileSystem} {depth : Nat}
    (hdepth : ∀ loc ∈ fs.locs, loc.length < depth) (loc : Loc) : fs.Shallow loc depth := by
  intro rest hrest
  have hlength := hdepth (loc ++ rest) ((fs.mem_locs _).mpr (by rw [hrest]; rfl))
  rw [List.length_append] at hlength
  omega

theorem depth_pos {fs : FileSystem} {depth : Nat}
    (hdepth : ∀ loc ∈ fs.locs, loc.length < depth) : 0 < depth :=
  hdepth [] ((fs.mem_locs []).mpr (by rw [fs.root_dir]; rfl))

/-- Whatever stands in `fs'` stands in `fs` as well. -/
def Subtree (fs' fs : FileSystem) : Prop :=
  ∀ loc node, fs'.node loc = some node → fs.node loc = some node

namespace Subtree

variable {fs fs' : FileSystem}

theorem refl (fs : FileSystem) : fs.Subtree fs := fun _ _ hnode => hnode

theorem trans {fs'' : FileSystem} (h : fs''.Subtree fs') (h' : fs'.Subtree fs) :
    fs''.Subtree fs :=
  fun loc node hnode => h' loc node (h loc node hnode)

theorem shallow (h : fs'.Subtree fs) {loc : Loc} {depth : Nat} (hshallow : fs.Shallow loc depth) :
    fs'.Shallow loc depth :=
  fun rest hrest => hshallow rest (h _ _ hrest)

theorem locs_subset (h : fs'.Subtree fs) : fs'.locs ⊆ fs.locs := by
  intro loc hloc
  obtain ⟨node, hnode⟩ := Option.isSome_iff_exists.mp ((fs'.mem_locs loc).mp hloc)
  exact (fs.mem_locs loc).mpr (Option.isSome_of_eq_some (h loc node hnode))

theorem locs_subperm (h : fs'.Subtree fs) : fs'.locs.Subperm fs.locs :=
  fs'.locs_nodup.subperm h.locs_subset

/-- What is left of a tree is not deeper. -/
theorem depth_lt (h : fs'.Subtree fs) {depth : Nat}
    (hdepth : ∀ loc ∈ fs.locs, loc.length < depth) : ∀ loc ∈ fs'.locs, loc.length < depth :=
  fun loc hloc => hdepth loc (h.locs_subset hloc)

/-- A walk meets the same nodes on the larger tree. -/
theorem walk (h : fs'.Subtree fs) {follow : Bool} {links : Nat} {cur loc : Loc}
    {pieces : List Name} (hwalk : Posix.walk fs' follow links cur pieces = some loc) :
    Posix.walk fs follow links cur pieces = some loc := by
  rw [walk_eq_some_iff] at hwalk ⊢
  induction hwalk with
  | arrived links cur => exact .arrived links cur
  | stay hstay _ ih => exact .stay hstay ih
  | up _ ih => exact .up ih
  | enter hpiece hnode _ ih => exact .enter hpiece (h _ _ hnode) ih
  | file hpiece hnode => exact .file hpiece (h _ _ hnode)
  | link hpiece hnode hfollow => exact .link hpiece (h _ _ hnode) hfollow
  | expand hpiece hnode hlast htarget _ ih =>
      exact .expand hpiece (h _ _ hnode) hlast htarget ih

theorem resolve (h : fs'.Subtree fs) {cwd : Loc} {follow : Bool} {path : Bytes} {loc : Loc}
    (hresolve : fs'.resolve cwd follow path = some loc) :
    fs.resolve cwd follow path = some loc := by
  rw [resolve_eq_some] at hresolve ⊢
  obtain ⟨hpath, hstart, hwalk⟩ := hresolve
  exact ⟨hpath, h _ _ hstart, h.walk hwalk⟩

theorem lstat (h : fs'.Subtree fs) {cwd : Loc} {path : Bytes} {node : Node}
    (hnode : fs'.lstat cwd path = some node) : fs.lstat cwd path = some node := by
  obtain ⟨loc, hloc, hthere⟩ := Option.bind_eq_some_iff.mp hnode
  rw [FileSystem.lstat, h.resolve hloc, Option.bind_some]
  exact h _ _ hthere

end Subtree

end FileSystem

namespace Pruned

variable {gone gone' : Loc → Prop} {fs fs' fs'' : FileSystem}

theorem refl (hgone : ∀ loc, ¬ gone loc) : Pruned gone fs fs :=
  ⟨fun loc hloc => absurd hloc (hgone loc), fun _ _ => rfl⟩

theorem trans (h : Pruned gone fs fs') (h' : Pruned gone' fs' fs'') :
    Pruned (fun loc => gone loc ∨ gone' loc) fs fs'' := by
  constructor
  · intro loc hloc
    by_cases hgone' : gone' loc
    · exact h'.empty loc hgone'
    · rw [h'.kept loc hgone']
      exact h.empty loc (hloc.resolve_right hgone')
  · intro loc hloc
    rw [not_or] at hloc
    rw [h'.kept loc hloc.2, h.kept loc hloc.1]

/-- Only the places that were in use matter. -/
theorem congr (h : Pruned gone fs fs')
    (hsame : ∀ loc, (fs.node loc).isSome → (gone loc ↔ gone' loc)) : Pruned gone' fs fs' := by
  have hunused (loc : Loc) (hloc : ¬ (fs.node loc).isSome) : fs'.node loc = fs.node loc := by
    by_cases hgone : gone loc
    · rw [h.empty loc hgone, Option.not_isSome_iff_eq_none.mp hloc]
    · exact h.kept loc hgone
  constructor
  · intro loc hloc
    by_cases hsome : (fs.node loc).isSome
    · exact h.empty loc ((hsame loc hsome).mpr hloc)
    · rw [hunused loc hsome]
      exact Option.not_isSome_iff_eq_none.mp hsome
  · intro loc hloc
    by_cases hsome : (fs.node loc).isSome
    · exact h.kept loc fun hgone => hloc ((hsame loc hsome).mp hgone)
    · exact hunused loc hsome

theorem of_erase {loc : Loc} (herase : fs.erase loc = some fs') :
    Pruned (fun other => other = loc) fs fs' := by
  constructor
  · intro other hother
    rw [FileSystem.erase_node herase, if_pos hother]
  · intro other hother
    rw [FileSystem.erase_node herase, if_neg hother]

theorem node_of_eq_some (h : Pruned gone fs fs') {loc : Loc} {node : Node}
    (hnode : fs'.node loc = some node) : fs.node loc = some node := by
  by_cases hgone : gone loc
  · rw [h.empty loc hgone] at hnode
    cases hnode
  · rwa [h.kept loc hgone] at hnode

theorem subtree (h : Pruned gone fs fs') : fs'.Subtree fs :=
  fun _ _ hnode => h.node_of_eq_some hnode

theorem isSome_of_isSome (h : Pruned gone fs fs') {loc : Loc} (hloc : (fs'.node loc).isSome) :
    (fs.node loc).isSome ∧ ¬ gone loc := by
  obtain ⟨node, hnode⟩ := Option.isSome_iff_exists.mp hloc
  refine ⟨by rw [h.node_of_eq_some hnode]; rfl, fun hgone => ?_⟩
  rw [h.empty loc hgone] at hnode
  cases hnode

theorem agreeOff {dir : Loc} (h : Pruned gone fs fs') (hgone : ∀ loc, gone loc → Below dir loc) :
    AgreeOff dir fs fs' :=
  fun loc hloc => h.kept loc fun hgone' => hloc (hgone loc hgone')

theorem shallow {loc : Loc} {depth : Nat} (h : Pruned gone fs fs')
    (hshallow : fs.Shallow loc depth) : fs'.Shallow loc depth :=
  fun rest hrest => hshallow rest (h.node_of_eq_some hrest)

theorem mem_children (h : Pruned gone fs fs') {dir : Loc} {name : Name} :
    name ∈ fs'.children dir ↔ name ∈ fs.children dir ∧ ¬ gone (dir ++ [name]) := by
  rw [FileSystem.mem_children, FileSystem.mem_children]
  constructor
  · exact h.isSome_of_isSome
  · rintro ⟨hsome, hgone⟩
    rwa [h.kept _ hgone]

/-- Nothing stands below a file or a link, so it is all that stands there. -/
theorem leaf {loc : Loc} (h : Pruned (fun other => other = loc) fs fs')
    (hleaf : fs.node loc ≠ some .dir) : Pruned (fun other => loc <+: other) fs fs' := by
  apply h.congr
  intro place hplace
  constructor
  · rintro rfl
    exact List.prefix_refl _
  · exact fun hpre => FileSystem.eq_of_under hleaf hpre hplace

/-- A place in use that is gone makes the tree smaller. -/
theorem length_lt {place : Loc} (h : Pruned gone fs fs') (hgone : gone place)
    (hplace : (fs.node place).isSome) : fs'.locs.length < fs.locs.length := by
  have hnot : place ∉ fs'.locs := by
    rw [fs'.mem_locs, h.empty place hgone]
    simp
  have hsub : (place :: fs'.locs).Subperm fs.locs := by
    apply List.Nodup.subperm (List.nodup_cons.mpr ⟨hnot, fs'.locs_nodup⟩)
    intro other hother
    rcases List.mem_cons.mp hother with rfl | hmem
    · exact (fs.mem_locs _).mpr hplace
    · exact (fs.mem_locs _).mpr (h.isSome_of_isSome ((fs'.mem_locs _).mp hmem)).1
  exact hsub.length_le

end Pruned

end Posix
