import Mathlib.Data.List.Nodup
import Mathlib.Data.List.Infix
import FreshCore.Posix.Path

/-!
# A tree of directories, files and symbolic links

What stands where is a partial function on places; the list of the places in
use is the order in which directories are read. The fields of `FileSystem` say
that it is a tree, so that an entry without its directory cannot be built.
-/

namespace Posix

/-- What stands at a place. Everything that is neither a directory nor a
symbolic link counts as a file. -/
inductive Node where
  | file (size : UInt64)
  | symlink (target : Bytes)
  | dir
  deriving DecidableEq, Repr

namespace Node

/-- `S_ISDIR` -/
def isDir : Node → Bool
  | dir => true
  | _ => false

def isSymlink : Node → Bool
  | symlink _ => true
  | _ => false

/-- `st_size`; a link's size is the length of its target. A directory's is never
read. -/
def size : Node → UInt64
  | file size => size
  | symlink target => .ofNat target.length
  | dir => 0

theorem isDir_iff {node : Node} : node.isDir = true ↔ node = dir := by
  cases node <;> simp [isDir]

end Node

structure FileSystem where
  node : Loc → Option Node
  locs : List Loc
  locs_nodup : locs.Nodup
  mem_locs : ∀ loc, loc ∈ locs ↔ (node loc).isSome
  root_dir : node [] = some .dir
  parent_dir : ∀ dir name, (node (dir ++ [name])).isSome → node dir = some .dir
  name_valid : ∀ dir name, (node (dir ++ [name])).isSome → ValidName name

namespace FileSystem

/-- The tree that consists of its root. -/
def bare : FileSystem where
  node loc := if loc = [] then some .dir else none
  locs := [[]]
  locs_nodup := List.nodup_singleton _
  mem_locs := by intro loc; by_cases hloc : loc = [] <;> simp [hloc]
  root_dir := rfl
  parent_dir := by simp
  name_valid := by simp

/-- The name of `loc` in the directory `dir`, if it is an entry of it. -/
def nameIn (dir loc : Loc) : Option Name :=
  if loc.dropLast = dir then loc.getLast? else none

/-- What reading the directory yields, without `.` and `..`. -/
def children (fs : FileSystem) (dir : Loc) : List Name :=
  fs.locs.filterMap (nameIn dir)

theorem nameIn_eq_some {dir loc : Loc} {name : Name} :
    nameIn dir loc = some name ↔ loc = dir ++ [name] := by
  unfold nameIn
  rcases List.eq_nil_or_concat loc with rfl | ⟨init, last, rfl⟩
  · simp
  · simp only [List.concat_eq_append, List.dropLast_concat, List.getLast?_concat]
    constructor
    · intro h
      split at h
      next heq =>
        cases heq
        cases h
        rfl
      next => cases h
    · intro h
      obtain ⟨rfl, heq⟩ := List.append_inj' h rfl
      cases heq
      simp

theorem mem_children {fs : FileSystem} {dir : Loc} {name : Name} :
    name ∈ fs.children dir ↔ (fs.node (dir ++ [name])).isSome := by
  unfold children
  rw [List.mem_filterMap]
  constructor
  · rintro ⟨loc, hloc, hname⟩
    rw [nameIn_eq_some] at hname
    subst hname
    exact (fs.mem_locs _).mp hloc
  · intro h
    exact ⟨dir ++ [name], (fs.mem_locs _).mpr h, nameIn_eq_some.mpr rfl⟩

theorem children_nodup (fs : FileSystem) (dir : Loc) : (fs.children dir).Nodup := by
  refine List.Nodup.filterMap ?_ fs.locs_nodup
  intro loc loc' name hloc hloc'
  rw [Option.mem_def, nameIn_eq_some] at hloc hloc'
  rw [hloc, hloc']

theorem children_valid {fs : FileSystem} {dir : Loc} {name : Name}
    (hname : name ∈ fs.children dir) : ValidName name :=
  fs.name_valid dir name (mem_children.mp hname)

/-- Everything above an entry is a directory. -/
theorem node_above {fs : FileSystem} {dir rest : Loc} (hrest : rest ≠ [])
    (hnode : (fs.node (dir ++ rest)).isSome) : fs.node dir = some .dir := by
  induction rest generalizing dir with
  | nil => exact absurd rfl hrest
  | cons name rest ih =>
      have hassoc : dir ++ name :: rest = (dir ++ [name]) ++ rest := by simp
      have hentry : (fs.node (dir ++ [name])).isSome := by
        cases rest with
        | nil => simpa using hnode
        | cons other rest =>
            rw [hassoc] at hnode
            rw [ih (List.cons_ne_nil _ _) hnode]
            rfl
      exact fs.parent_dir dir name hentry

/-- What is at or above a directory is one. -/
theorem dir_above {fs : FileSystem} {dir rest : Loc}
    (hnode : fs.node (dir ++ rest) = some .dir) : fs.node dir = some .dir := by
  by_cases hrest : rest = []
  · rwa [hrest, List.append_nil] at hnode
  · exact fs.node_above hrest (by rw [hnode]; rfl)

/-- All names on the way to an entry are names of entries. -/
theorem names_valid {fs : FileSystem} {loc : Loc} (hnode : (fs.node loc).isSome) :
    ∀ name ∈ loc, ValidName name := by
  intro name hname
  obtain ⟨front, back, rfl⟩ := List.append_of_mem hname
  have hsplit : front ++ name :: back = front ++ [name] ++ back := by simp
  rw [hsplit] at hnode
  apply fs.name_valid front name
  by_cases hback : back = []
  · rwa [hback, List.append_nil] at hnode
  · rw [fs.node_above hback hnode]
    rfl

/-- The parent of a directory is one. -/
theorem node_dropLast {fs : FileSystem} {loc : Loc} (hnode : fs.node loc = some .dir) :
    fs.node loc.dropLast = some .dir := by
  rcases List.eq_nil_or_concat loc with rfl | ⟨init, last, rfl⟩
  · exact fs.root_dir
  · rw [List.concat_eq_append] at hnode ⊢
    rw [List.dropLast_concat]
    exact fs.parent_dir init last (by rw [hnode]; rfl)

/-! ## Changing the tree -/

/-- The tree with a new entry in a directory. -/
def insert (fs : FileSystem) (dir : Loc) (name : Name) (new : Node) : Option FileSystem :=
  if h : fs.node dir = some .dir ∧ fs.node (dir ++ [name]) = none ∧ ValidName name then
    some {
      node := fun loc => if loc = dir ++ [name] then some new else fs.node loc
      locs := fs.locs ++ [dir ++ [name]]
      locs_nodup := by
        rw [List.nodup_append]
        refine ⟨fs.locs_nodup, List.nodup_singleton _, ?_⟩
        intro loc hloc other hother heq
        have hsome := (fs.mem_locs loc).mp hloc
        rw [List.mem_singleton] at hother
        rw [heq, hother, h.2.1] at hsome
        cases hsome
      mem_locs := by
        intro loc
        by_cases heq : loc = dir ++ [name]
        · simp [heq]
        · simp [heq, fs.mem_locs]
      root_dir := by simp [fs.root_dir]
      parent_dir := by
        intro d n hn
        by_cases hd : d = dir ++ [name]
        · subst hd
          have hne : dir ++ [name] ++ [n] ≠ dir ++ [name] := by simp
          rw [if_neg hne] at hn
          have := fs.parent_dir _ _ hn
          rw [h.2.1] at this
          cases this
        · rw [if_neg hd]
          by_cases heq : d ++ [n] = dir ++ [name]
          · obtain ⟨rfl, _⟩ := List.append_inj' heq rfl
            exact h.1
          · rw [if_neg heq] at hn
            exact fs.parent_dir _ _ hn
      name_valid := by
        intro d n hn
        by_cases heq : d ++ [n] = dir ++ [name]
        · obtain ⟨_, hn⟩ := List.append_inj' heq rfl
          cases hn
          exact h.2.2
        · rw [if_neg heq] at hn
          exact fs.name_valid _ _ hn }
  else none

/-- The tree without an entry below which nothing is left. -/
def erase (fs : FileSystem) (loc : Loc) : Option FileSystem :=
  if h : loc ≠ [] ∧ (fs.node loc).isSome ∧ fs.children loc = [] then
    some {
      node := fun other => if other = loc then none else fs.node other
      locs := fs.locs.filter (· ≠ loc)
      locs_nodup := fs.locs_nodup.filter _
      mem_locs := by
        intro other
        by_cases heq : other = loc
        · simp [heq]
        · simp [heq, fs.mem_locs]
      root_dir := by simp [fs.root_dir, Ne.symm h.1]
      parent_dir := by
        intro d n hn
        by_cases heq : d ++ [n] = loc
        · rw [if_pos heq] at hn
          cases hn
        · rw [if_neg heq] at hn
          by_cases hd : d = loc
          · subst hd
            have hmem := mem_children.mpr hn
            rw [h.2.2] at hmem
            cases hmem
          · rw [if_neg hd]
            exact fs.parent_dir _ _ hn
      name_valid := by
        intro d n hn
        by_cases heq : d ++ [n] = loc
        · rw [if_pos heq] at hn
          cases hn
        · rw [if_neg heq] at hn
          exact fs.name_valid _ _ hn }
  else none

theorem insert_node {fs fs' : FileSystem} {dir : Loc} {name : Name} {new : Node}
    (h : fs.insert dir name new = some fs') (loc : Loc) :
    fs'.node loc = if loc = dir ++ [name] then some new else fs.node loc := by
  unfold insert at h
  split at h
  · cases h
    rfl
  · cases h

theorem erase_node {fs fs' : FileSystem} {loc : Loc} (h : fs.erase loc = some fs')
    (other : Loc) : fs'.node other = if other = loc then none else fs.node other := by
  unfold erase at h
  split at h
  · cases h
    rfl
  · cases h

theorem erase_isSome {fs : FileSystem} {loc : Loc} :
    (fs.erase loc).isSome ↔ loc ≠ [] ∧ (fs.node loc).isSome ∧ fs.children loc = [] := by
  unfold erase
  split
  next h => simpa using h
  next h => simpa using h

/-- Only a directory has entries. -/
theorem children_eq_nil_of_not_dir {fs : FileSystem} {loc : Loc}
    (hnode : fs.node loc ≠ some .dir) : fs.children loc = [] := by
  rw [List.eq_nil_iff_forall_not_mem]
  intro name hname
  exact hnode (fs.parent_dir _ _ (mem_children.mp hname))

/-- `unlink` at a place: directories are refused. -/
def unlink (fs : FileSystem) (loc : Loc) : Option FileSystem :=
  match fs.node loc with
  | some .dir => none
  | _ => fs.erase loc

/-- `rmdir` at a place: only directories without entries go. -/
def rmdir (fs : FileSystem) (loc : Loc) : Option FileSystem :=
  match fs.node loc with
  | some .dir => fs.erase loc
  | _ => none

end FileSystem

end Posix
