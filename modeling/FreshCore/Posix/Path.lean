import Mathlib.Data.List.Basic

/-!
# Path names

A path name is a byte string. Its pieces are what stands between its slashes;
an empty piece, which repeated and trailing slashes leave behind, stands for
the directory reached so far.
-/

namespace Posix

abbrev Bytes := List UInt8

/-- The bytes of a string literal. -/
def lit (s : String) : Bytes := s.toByteArray.data.toList

def slash : UInt8 := 47

/-- A directory entry's name. -/
abbrev Name := Bytes

/-- A place in the tree: the names on the way from the root. -/
abbrev Loc := List Name

def dot : Name := lit "."

def dotDot : Name := lit ".."

/-- What a directory entry may be called. -/
def ValidName (name : Name) : Prop :=
  name ≠ [] ∧ name ≠ dot ∧ name ≠ dotDot ∧ slash ∉ name

instance (name : Name) : Decidable (ValidName name) := by
  unfold ValidName
  infer_instance

/-- The pieces of a path name. -/
def components (path : Bytes) : List Name := path.splitOn slash

/-- The name of an entry of the directory `path`. -/
def child (path : Bytes) (name : Name) : Bytes := path ++ slash :: name

/-- The canonical name of a place. -/
def render (loc : Loc) : Bytes :=
  if loc = [] then [slash] else loc.foldl child []

theorem components_append (path rest : Bytes) :
    components (path ++ slash :: rest) = components path ++ components rest :=
  List.splitOn_append_cons_self path rest

theorem components_name {name : Name} (hname : slash ∉ name) : components name = [name] :=
  List.splitOn_eq_singleton hname

theorem components_child (path : Bytes) {name : Name} (hname : slash ∉ name) :
    components (child path name) = components path ++ [name] := by
  rw [child, components_append, components_name hname]

theorem components_foldl_child (path : Bytes) (names : List Name)
    (hnames : ∀ name ∈ names, slash ∉ name) :
    components (names.foldl child path) = components path ++ names := by
  induction names generalizing path with
  | nil => simp
  | cons name rest ih =>
      have hrest := ih (child path name) fun other hother => hnames other (.tail _ hother)
      rw [List.foldl_cons, hrest, components_child path (hnames name (.head _))]
      simp

theorem child_ne_nil (path : Bytes) (name : Name) : child path name ≠ [] := by
  simp [child]

theorem head?_child {path : Bytes} (hpath : path ≠ []) (name : Name) :
    (child path name).head? = path.head? := by
  cases path with
  | nil => exact absurd rfl hpath
  | cons byte rest => rfl

theorem head?_foldl_child {path : Bytes} (hpath : path ≠ []) (names : List Name) :
    (names.foldl child path).head? = path.head? := by
  induction names generalizing path with
  | nil => rfl
  | cons name rest ih => rw [List.foldl_cons, ih (child_ne_nil path name), head?_child hpath]

theorem render_of_ne_nil {loc : Loc} (hloc : loc ≠ []) : render loc = loc.foldl child [] :=
  if_neg hloc

theorem components_render {loc : Loc} (hloc : loc ≠ []) (hnames : ∀ name ∈ loc, slash ∉ name) :
    components (render loc) = [] :: loc := by
  rw [render_of_ne_nil hloc, components_foldl_child [] loc hnames]
  rfl

theorem head?_render (loc : Loc) : (render loc).head? = some slash := by
  unfold render
  split
  · rfl
  next hloc =>
    cases loc with
    | nil => exact absurd rfl hloc
    | cons name rest => rw [List.foldl_cons, head?_foldl_child (child_ne_nil _ _)]; rfl

theorem render_ne_nil (loc : Loc) : render loc ≠ [] := by
  intro heq
  have hhead := head?_render loc
  rw [heq] at hhead
  cases hhead

end Posix
