import Mathlib.Algebra.BigOperators.Group.List.Lemmas
import FreshCore.Posix.Pruning

/-!
# What stands at and below a place

A weight of nodes is added up over the part of a tree that hangs from a place, once over its
places and once entry by entry.
-/

namespace Posix

namespace FileSystem

/-- The places in use at and below this one. -/
def under (fs : FileSystem) (loc : Loc) : List Loc := fs.locs.filter fun place => loc <+: place

theorem mem_under {fs : FileSystem} {loc place : Loc} :
    place ∈ fs.under loc ↔ (fs.node place).isSome ∧ loc <+: place := by
  rw [under, List.mem_filter, fs.mem_locs, decide_eq_true_eq]

theorem under_nodup (fs : FileSystem) (loc : Loc) : (fs.under loc).Nodup := fs.locs_nodup.filter _

/-- Nothing is at or below two entries of a directory. -/
theorem under_entries_disjoint {fs : FileSystem} {loc : Loc} {name other : Name}
    (hne : name ≠ other) : (fs.under (loc ++ [name])).Disjoint (fs.under (loc ++ [other])) := by
  intro place hname hother
  have hlength : (loc ++ [name]).length = (loc ++ [other]).length := by simp
  have hsame := (List.prefix_of_prefix_length_le (mem_under.mp hname).2 (mem_under.mp hother).2
    hlength.le).eq_of_length hlength
  exact hne (by simpa using hsame)

/-- A directory and the places at and below its entries. -/
theorem under_perm {fs : FileSystem} {loc : Loc} (hdir : fs.node loc = some .dir) :
    (fs.under loc).Perm
      (loc :: (fs.children loc).flatMap fun name => fs.under (loc ++ [name])) := by
  have hbelow (place : Loc) :
      place ∈ ((fs.children loc).flatMap fun name => fs.under (loc ++ [name])) ↔
        (fs.node place).isSome ∧ Below loc place := by
    simp only [List.mem_flatMap, mem_under]
    constructor
    · rintro ⟨name, hname, hplace, hpre⟩
      exact ⟨hplace, (below_iff_children hplace).mpr ⟨name, hname, hpre⟩⟩
    · rintro ⟨hplace, hbelow⟩
      obtain ⟨name, hname, hpre⟩ := (below_iff_children hplace).mp hbelow
      exact ⟨name, hname, hplace, hpre⟩
  have hnodup : (loc :: (fs.children loc).flatMap fun name => fs.under (loc ++ [name])).Nodup := by
    rw [List.nodup_cons, hbelow, List.nodup_flatMap]
    refine ⟨fun hself => hself.2.2 rfl, fun name _ => fs.under_nodup _, ?_⟩
    exact (fs.children_nodup loc).imp under_entries_disjoint
  apply (List.perm_ext_iff_of_nodup (fs.under_nodup loc) hnodup).mpr
  intro place
  rw [mem_under, List.mem_cons, hbelow]
  constructor
  · rintro ⟨hplace, hpre⟩
    by_cases hself : place = loc
    · exact Or.inl hself
    · exact Or.inr ⟨hplace, hpre, hself⟩
  · rintro (rfl | ⟨hplace, hpre, _⟩)
    · exact ⟨by rw [hdir]; rfl, List.prefix_rfl⟩
    · exact ⟨hplace, hpre⟩

section Weight

variable {M : Type} [AddCommMonoid M] (weight : Node → M)

/-- The weight of what stands at these places. -/
def weigh (fs : FileSystem) (places : List Loc) : M :=
  (places.map fun place => ((fs.node place).map weight).getD 0).sum

theorem weigh_perm {fs : FileSystem} {places places' : List Loc} (h : places.Perm places') :
    fs.weigh weight places = fs.weigh weight places' :=
  (h.map _).sum_eq

theorem weigh_flatMap {α : Type} (fs : FileSystem) (names : List α) (places : α → List Loc) :
    fs.weigh weight (names.flatMap places) =
      (names.map fun name => fs.weigh weight (places name)).sum := by
  induction names with
  | nil => rfl
  | cons name rest ih =>
      rw [List.flatMap_cons, List.map_cons, List.sum_cons, ← ih, weigh, List.map_append,
        List.sum_append]
      rfl

/-- The weight of a directory and of what is below it, entry by entry. -/
theorem weigh_under_dir {fs : FileSystem} {loc : Loc} (hdir : fs.node loc = some .dir) :
    fs.weigh weight (fs.under loc) = weight .dir +
      ((fs.children loc).map fun name => fs.weigh weight (fs.under (loc ++ [name]))).sum := by
  rw [weigh_perm weight (under_perm hdir), ← weigh_flatMap, weigh, List.map_cons, List.sum_cons,
    hdir]
  rfl

/-- What is not a directory has nothing below it. -/
theorem weigh_under_leaf {fs : FileSystem} {loc : Loc} {node : Node}
    (hnode : fs.node loc = some node) (hnot : node ≠ .dir) :
    fs.weigh weight (fs.under loc) = weight node := by
  have hleaf : fs.node loc ≠ some .dir := by simpa [hnode] using hnot
  have hself : (fs.under loc).Perm [loc] := by
    apply (List.perm_ext_iff_of_nodup (fs.under_nodup loc) (List.nodup_singleton loc)).mpr
    intro place
    rw [mem_under, List.mem_singleton]
    constructor
    · rintro ⟨hplace, hpre⟩
      exact eq_of_under hleaf hpre hplace
    · rintro rfl
      exact ⟨by rw [hnode]; rfl, List.prefix_rfl⟩
  rw [weigh_perm weight hself]
  simp [weigh, hnode]

end Weight

end FileSystem

end Posix
