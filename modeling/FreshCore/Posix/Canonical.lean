import FreshCore.Posix.Resolution

/-!
# Canonical names

A canonical name is the one that `realpath` gives to a place: absolute, without `.`, `..`,
repeated or trailing slashes. Its components are the names on the way to the place, and what
lies below what shows in the text, except below the root directory, whose name is the only
one that ends in a slash.
-/

namespace Posix

/-- The components of a path name. -/
def namesOf (path : Bytes) : Loc := (components path).filter (· ≠ [])

/-- An absolute name without `.`, `..`, repeated or trailing slashes; `/` for the root
directory. -/
def Canonical (path : Bytes) : Prop :=
  (∀ name ∈ namesOf path, ValidName name) ∧ render (namesOf path) = path

section Render

variable {loc root : Loc}

@[simp] theorem namesOf_slash : namesOf [slash] = [] := by decide

theorem namesOf_render (hnames : ∀ name ∈ loc, ValidName name) : namesOf (render loc) = loc := by
  by_cases hloc : loc = []
  · rw [hloc]
    exact namesOf_slash
  · rw [namesOf, components_render hloc fun name hname => (hnames name hname).2.2.2]
    simpa using fun name hname => (hnames name hname).1

theorem canonical_render (hnames : ∀ name ∈ loc, ValidName name) : Canonical (render loc) := by
  unfold Canonical
  rw [namesOf_render hnames]
  exact ⟨hnames, rfl⟩

theorem render_append {rest : Loc} (hroot : root ≠ []) :
    render (root ++ rest) = rest.foldl child (render root) := by
  rw [render_of_ne_nil (by simp [hroot]), render_of_ne_nil hroot, List.foldl_append]

theorem prefix_foldl_child (path : Bytes) (names : List Name) :
    path <+: names.foldl child path := by
  induction names generalizing path with
  | nil => exact List.prefix_rfl
  | cons name rest ih => exact (List.prefix_append path (slash :: name)).trans (ih _)

/-- Except for the root directory, a place lies below another one exactly when its canonical
name goes on with a slash after that of the other. -/
theorem render_eq_append_slash_iff (hloc : ∀ name ∈ loc, ValidName name)
    (hroot : ∀ name ∈ root, ValidName name) :
    (∃ rest, render loc = render root ++ slash :: rest) ↔ root ≠ [] ∧ Below root loc := by
  constructor
  · rintro ⟨rest, htext⟩
    have hpieces : components (render loc) = components (render root) ++ components rest := by
      rw [htext, components_append]
    have hrest : components rest ≠ [] := List.splitOn_ne_nil _ _
    have hlocNe : loc ≠ [] := by
      rintro rfl
      have hpos := List.length_pos_iff.mpr (render_ne_nil root)
      have hlength := congrArg List.length htext
      rw [List.length_append, List.length_cons] at hlength
      have hone : (render []).length = 1 := rfl
      omega
    rw [components_render hlocNe fun name hname => (hloc name hname).2.2.2] at hpieces
    have hrootNe : root ≠ [] := by
      rintro rfl
      -- after the slash of the root directory no second one follows
      have hroots : components (render []) = [[], []] := by decide
      rw [hroots] at hpieces
      obtain ⟨_, hsplit⟩ := List.cons.inj hpieces
      exact (hloc [] (by rw [hsplit]; exact List.mem_cons_self)).1 rfl
    rw [components_render hrootNe fun name hname => (hroot name hname).2.2.2] at hpieces
    obtain ⟨_, rfl⟩ := List.cons.inj hpieces
    exact ⟨hrootNe, below_append hrest⟩
  · rintro ⟨hrootNe, ⟨rest, rfl⟩, hne⟩
    cases rest with
    | nil => simp at hne
    | cons name rest =>
        obtain ⟨more, hmore⟩ := prefix_foldl_child (child (render root) name) rest
        refine ⟨name ++ more, ?_⟩
        rw [render_append hrootNe, List.foldl_cons, ← hmore, child, List.append_assoc]
        rfl

/-- What stands after the last slash of a canonical name. -/
theorem afterLastSlash_render (hloc : ∀ name ∈ loc, ValidName name) :
    ((render loc).reverse.takeWhile (· ≠ slash)).reverse = loc.getLast?.getD [] := by
  rcases List.eq_nil_or_concat loc with rfl | ⟨init, last, rfl⟩
  · decide
  · have hlast : slash ∉ last := (hloc last (by simp)).2.2.2
    have hkeep : ∀ byte ∈ last.reverse, decide (byte ≠ slash) = true := by
      intro byte hbyte
      rw [decide_eq_true_eq]
      rintro rfl
      exact hlast (List.mem_reverse.mp hbyte)
    rw [List.concat_eq_append, List.getLast?_concat, render_of_ne_nil (by simp),
      List.foldl_append, List.foldl_cons, List.foldl_nil, child, List.reverse_append,
      List.reverse_cons, List.append_assoc, List.takeWhile_append_of_pos hkeep]
    simp

end Render

namespace FileSystem

variable {fs : FileSystem}

theorem walk_isSome {follow : Bool} {links : Nat} {cur loc : Loc} {pieces : List Name}
    (hwalk : walk fs follow links cur pieces = some loc) (hcur : fs.node cur = some .dir) :
    (fs.node loc).isSome := by
  induction walk_eq_some_iff.mp hwalk with
  | arrived => rw [hcur]; rfl
  | stay _ h ih => exact ih h.walk_eq hcur
  | up h ih => exact ih h.walk_eq (node_dropLast hcur)
  | enter _ hnode h ih => exact ih h.walk_eq hnode
  | file _ hnode => rw [hnode]; rfl
  | link _ hnode => rw [hnode]; rfl
  | expand _ _ _ _ h ih => exact ih h.walk_eq (startOf_dir hcur _)

/-- A path name leads to something that is there. -/
theorem resolve_isSome {cwd : Loc} {follow : Bool} {path : Bytes} {loc : Loc}
    (h : fs.resolve cwd follow path = some loc) : (fs.node loc).isSome := by
  obtain ⟨_, hstart, hwalk⟩ := resolve_eq_some.mp h
  exact walk_isSome hwalk hstart

theorem realpath_canonical {cwd : Loc} {path canon : Bytes}
    (h : fs.realpath cwd path = some canon) : Canonical canon := by
  obtain ⟨loc, hloc, rfl⟩ := Option.map_eq_some_iff.mp h
  exact canonical_render (fs.names_valid (resolve_isSome hloc))

end FileSystem

end Posix
