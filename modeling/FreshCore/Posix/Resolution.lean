import FreshCore.Posix.Interference

/-!
# Path resolution

A path name is followed piece by piece from the root or from the working
directory. Symbolic links on the way are expanded, at most `maxSymlinks` of
them; a link in the last piece is expanded only when the caller follows it.
-/

namespace Posix

/-- Follow the pieces; a link that has to be expanded is handed to `onLink` with
the directory it stands in, its target and the pieces after it. -/
def walkWith (fs : FileSystem) (follow : Bool)
    (onLink : Loc → Bytes → List Name → Option Loc) : Loc → List Name → Option Loc
  | cur, [] => some cur
  | cur, piece :: rest =>
      if piece = [] ∨ piece = dot then walkWith fs follow onLink cur rest
      else if piece = dotDot then walkWith fs follow onLink cur.dropLast rest
      else match fs.node (cur ++ [piece]) with
        | none => none
        | some .dir => walkWith fs follow onLink (cur ++ [piece]) rest
        | some (.file _) => if rest = [] then some (cur ++ [piece]) else none
        | some (.symlink target) =>
            if rest = [] ∧ follow = false then some (cur ++ [piece])
            else onLink cur target rest

/-- Where the name starts: absolute ones at the root. -/
def startOf (cwd : Loc) (path : Bytes) : Loc :=
  if path.head? = some slash then [] else cwd

/-- Follow the pieces, expanding at most the given number of links. -/
def walk (fs : FileSystem) (follow : Bool) : Nat → Loc → List Name → Option Loc
  | 0 => walkWith fs follow fun _ _ _ => none
  | links + 1 => walkWith fs follow fun cur target rest =>
      if target = [] then none
      else walk fs follow links (startOf cur target) (components target ++ rest)

/-- `MAXSYMLINKS` -/
def maxSymlinks : Nat := 40

namespace FileSystem

/-- The place a path name leads to; `follow` says whether a link in its last piece
is expanded. The empty name leads nowhere, and so does a relative one once the
working directory is gone. -/
def resolve (fs : FileSystem) (cwd : Loc) (follow : Bool) (path : Bytes) : Option Loc :=
  if path ≠ [] ∧ fs.node (startOf cwd path) = some .dir then
    walk fs follow maxSymlinks (startOf cwd path) (components path)
  else none

/-- What `lstat` sees. -/
def lstat (fs : FileSystem) (cwd : Loc) (path : Bytes) : Option Node :=
  (fs.resolve cwd false path).bind fs.node

/-- `realpath` -/
def realpath (fs : FileSystem) (cwd : Loc) (path : Bytes) : Option Bytes :=
  (fs.resolve cwd true path).map render

end FileSystem

/-! ## Pieces in sequence -/

section Walk

variable {fs : FileSystem} {follow : Bool}

/-- Expanding a link uses up one of those left. -/
def expand (fs : FileSystem) (follow : Bool) :
    Nat → Loc → Bytes → List Name → Option Loc
  | 0, _, _, _ => none
  | links + 1, cur, target, rest =>
      if target = [] then none
      else walk fs follow links (startOf cur target) (components target ++ rest)

theorem walk_nil (links : Nat) (cur : Loc) : walk fs follow links cur [] = some cur := by
  cases links <;> rfl

theorem walk_cons (links : Nat) (cur : Loc) (piece : Name) (rest : List Name) :
    walk fs follow links cur (piece :: rest) =
      if piece = [] ∨ piece = dot then walk fs follow links cur rest
      else if piece = dotDot then walk fs follow links cur.dropLast rest
      else match fs.node (cur ++ [piece]) with
        | none => none
        | some .dir => walk fs follow links (cur ++ [piece]) rest
        | some (.file _) => if rest = [] then some (cur ++ [piece]) else none
        | some (.symlink target) =>
            if rest = [] ∧ follow = false then some (cur ++ [piece])
            else expand fs follow links cur target rest := by
  cases links <;> rfl

theorem expand_eq_some {links : Nat} {cur loc : Loc} {target : Bytes} {rest : List Name}
    (h : expand fs follow links cur target rest = some loc) :
    ∃ left, links = left + 1 ∧ target ≠ [] ∧
      walk fs follow left (startOf cur target) (components target ++ rest) = some loc := by
  cases links with
  | zero => cases h
  | succ left =>
      simp only [expand] at h
      split at h
      · cases h
      next htarget => exact ⟨left, rfl, htarget, h⟩

theorem startOf_dir {cur : Loc} (hcur : fs.node cur = some .dir) (path : Bytes) :
    fs.node (startOf cur path) = some .dir := by
  unfold startOf
  split
  · exact fs.root_dir
  · exact hcur

/-- A piece that is looked up in the directory reached so far. -/
def IsEntry (piece : Name) : Prop := piece ≠ [] ∧ piece ≠ dot ∧ piece ≠ dotDot

theorem ValidName.isEntry {name : Name} (h : ValidName name) : IsEntry name :=
  ⟨h.1, h.2.1, h.2.2.1⟩

theorem walk_stay (links : Nat) (cur : Loc) {piece : Name} (rest : List Name)
    (hstay : piece = [] ∨ piece = dot) :
    walk fs follow links cur (piece :: rest) = walk fs follow links cur rest := by
  rw [walk_cons, if_pos hstay]

theorem walk_up (links : Nat) (cur : Loc) (rest : List Name) :
    walk fs follow links cur (dotDot :: rest) = walk fs follow links cur.dropLast rest := by
  rw [walk_cons, if_neg (by decide +kernel), if_pos rfl]

theorem walk_entry (links : Nat) (cur : Loc) {piece : Name} (rest : List Name)
    (hpiece : IsEntry piece) :
    walk fs follow links cur (piece :: rest) =
      match fs.node (cur ++ [piece]) with
      | none => none
      | some .dir => walk fs follow links (cur ++ [piece]) rest
      | some (.file _) => if rest = [] then some (cur ++ [piece]) else none
      | some (.symlink target) =>
          if rest = [] ∧ follow = false then some (cur ++ [piece])
          else expand fs follow links cur target rest := by
  rw [walk_cons, if_neg (by simp [hpiece.1, hpiece.2.1]), if_neg hpiece.2.2]

/-- The walks that arrive somewhere, step by step. -/
inductive Walks (fs : FileSystem) (follow : Bool) : Nat → Loc → List Name → Loc → Prop
  | arrived (links : Nat) (cur : Loc) : Walks fs follow links cur [] cur
  | stay {links : Nat} {cur loc : Loc} {piece : Name} {rest : List Name} :
      piece = [] ∨ piece = dot → Walks fs follow links cur rest loc →
      Walks fs follow links cur (piece :: rest) loc
  | up {links : Nat} {cur loc : Loc} {rest : List Name} :
      Walks fs follow links cur.dropLast rest loc →
      Walks fs follow links cur (dotDot :: rest) loc
  | enter {links : Nat} {cur loc : Loc} {piece : Name} {rest : List Name} :
      IsEntry piece → fs.node (cur ++ [piece]) = some .dir →
      Walks fs follow links (cur ++ [piece]) rest loc →
      Walks fs follow links cur (piece :: rest) loc
  | file {links : Nat} {cur : Loc} {piece : Name} {size : UInt64} :
      IsEntry piece → fs.node (cur ++ [piece]) = some (.file size) →
      Walks fs follow links cur [piece] (cur ++ [piece])
  | link {links : Nat} {cur : Loc} {piece : Name} {target : Bytes} :
      IsEntry piece → fs.node (cur ++ [piece]) = some (.symlink target) → follow = false →
      Walks fs follow links cur [piece] (cur ++ [piece])
  | expand {left : Nat} {cur loc : Loc} {piece : Name} {rest : List Name} {target : Bytes} :
      IsEntry piece → fs.node (cur ++ [piece]) = some (.symlink target) →
      ¬ (rest = [] ∧ follow = false) → target ≠ [] →
      Walks fs follow left (startOf cur target) (components target ++ rest) loc →
      Walks fs follow (left + 1) cur (piece :: rest) loc

theorem Walks.walk_eq {links : Nat} {cur loc : Loc} {pieces : List Name}
    (h : Walks fs follow links cur pieces loc) : walk fs follow links cur pieces = some loc := by
  induction h with
  | arrived links cur => exact walk_nil links cur
  | stay hstay _ ih => rwa [walk_stay _ _ _ hstay]
  | up _ ih => rwa [walk_up]
  | enter hpiece hnode _ ih => rwa [walk_entry _ _ _ hpiece, hnode]
  | file hpiece hnode => rw [walk_entry _ _ _ hpiece, hnode]; rfl
  | link hpiece hnode hfollow =>
      rw [walk_entry _ _ _ hpiece, hnode]
      exact if_pos ⟨rfl, hfollow⟩
  | expand hpiece hnode hlast htarget _ ih =>
      rw [walk_entry _ _ _ hpiece, hnode]
      dsimp only
      rwa [if_neg hlast, Posix.expand, if_neg htarget]

theorem walk_eq_some_iff {links : Nat} {cur loc : Loc} {pieces : List Name} :
    walk fs follow links cur pieces = some loc ↔ Walks fs follow links cur pieces loc := by
  constructor
  swap
  · exact Walks.walk_eq
  intro hwalk
  -- the pieces get fewer until a link is expanded, and then there are fewer links left
  induction links using Nat.strong_induction_on generalizing cur pieces with
  | _ links ihlinks =>
    induction pieces generalizing cur with
    | nil =>
        rw [walk_nil] at hwalk
        cases hwalk
        exact .arrived links _
    | cons piece rest ih =>
        by_cases hstay : piece = [] ∨ piece = dot
        · rw [walk_stay _ _ _ hstay] at hwalk
          exact .stay hstay (ih hwalk)
        by_cases hup : piece = dotDot
        · subst hup
          rw [walk_up] at hwalk
          exact .up (ih hwalk)
        have hpiece : IsEntry piece :=
          ⟨fun h => hstay (Or.inl h), fun h => hstay (Or.inr h), hup⟩
        rw [walk_entry _ _ _ hpiece] at hwalk
        split at hwalk
        · cases hwalk
        next hnode => exact .enter hpiece hnode (ih hwalk)
        next hnode =>
          split at hwalk
          next hrest =>
            cases hwalk
            rw [hrest]
            exact .file hpiece hnode
          next => cases hwalk
        next target hnode =>
          split at hwalk
          next hlast =>
            cases hwalk
            rw [hlast.1]
            exact .link hpiece hnode hlast.2
          next hlast =>
            obtain ⟨left, rfl, htarget, hexpand⟩ := expand_eq_some hwalk
            exact .expand hpiece hnode hlast htarget (ihlinks left (Nat.lt_succ_self _) hexpand)

/-- Once a directory has been reached the walk goes on from there, with however
many links are left to expand. -/
theorem walk_append (follow : Bool) {links : Nat} {cur dir : Loc} {pieces rest : List Name}
    (hwalk : walk fs true links cur pieces = some dir) (hdir : fs.node dir = some .dir)
    (hrest : rest ≠ []) :
    ∃ left, walk fs follow links cur (pieces ++ rest) = walk fs follow left dir rest := by
  induction walk_eq_some_iff.mp hwalk with
  | arrived links _ => exact ⟨links, rfl⟩
  | stay hstay h ih =>
      rw [List.cons_append, walk_stay _ _ _ hstay]
      exact ih h.walk_eq hdir
  | up h ih =>
      rw [List.cons_append, walk_up]
      exact ih h.walk_eq hdir
  | enter hpiece hnode h ih =>
      rw [List.cons_append, walk_entry _ _ _ hpiece, hnode]
      exact ih h.walk_eq hdir
  | file _ hnode => cases hnode.symm.trans hdir
  | link _ hnode => cases hnode.symm.trans hdir
  | expand hpiece hnode _ htarget h ih =>
      -- the pieces of the target come first, and then those that were left
      rw [List.cons_append, walk_entry _ _ _ hpiece, hnode]
      dsimp only
      rw [if_neg (by simp [hrest]), expand, if_neg htarget, ← List.append_assoc]
      exact ih h.walk_eq hdir

/-- A walk over more pieces passes through a directory after the first ones. -/
theorem walk_append_inv {links : Nat} {cur loc : Loc} {pieces rest : List Name}
    (hwalk : walk fs follow links cur (pieces ++ rest) = some loc)
    (hcur : fs.node cur = some .dir) (hrest : rest ≠ []) :
    ∃ dir left, walk fs true links cur pieces = some dir ∧ fs.node dir = some .dir ∧
      walk fs follow left dir rest = some loc := by
  induction links using Nat.strong_induction_on generalizing cur pieces with
  | _ links ihlinks =>
    induction pieces generalizing cur with
    | nil => exact ⟨cur, links, walk_nil _ _, hcur, hwalk⟩
    | cons piece pieces ih =>
        rw [List.cons_append, walk_cons] at hwalk
        rw [walk_cons]
        split at hwalk
        next hstay => rw [if_pos hstay]; exact ih hwalk hcur
        next hstay =>
          rw [if_neg hstay]
          split at hwalk
          next hup => rw [if_pos hup]; exact ih hwalk (fs.node_dropLast hcur)
          next hup =>
            rw [if_neg hup]
            split at hwalk
            · cases hwalk
            next hnode => exact ih hwalk hnode
            next hnode =>
              rw [if_neg (by simp [hrest])] at hwalk
              cases hwalk
            next target hnode =>
              rw [if_neg (by simp [hrest])] at hwalk
              obtain ⟨left, rfl, htarget, hexpand⟩ := expand_eq_some hwalk
              rw [← List.append_assoc] at hexpand
              rw [if_neg (by simp), expand, if_neg htarget]
              exact ihlinks left (Nat.lt_succ_self _) hexpand (startOf_dir hcur target)

theorem walk_name (links : Nat) (dir : Loc) {name : Name} (hname : ValidName name) :
    walk fs false links dir [name] =
      if (fs.node (dir ++ [name])).isSome then some (dir ++ [name]) else none := by
  rw [walk_entry _ _ _ hname.isEntry]
  split
  next hnode => simp [hnode]
  next hnode => simp [hnode, walk_nil]
  next hnode => simp [hnode]
  next hnode => simp [hnode]

theorem walk_dir (links : Nat) {dir : Loc} {name : Name} {rest : List Name}
    (hname : ValidName name) (hnode : fs.node (dir ++ [name]) = some .dir) :
    walk fs follow links dir (name :: rest) = walk fs follow links (dir ++ [name]) rest := by
  rw [walk_entry _ _ _ hname.isEntry, hnode]

theorem walk_dirs (links : Nat) {dir : Loc} {names : List Name}
    (hnode : fs.node (dir ++ names) = some .dir) :
    walk fs follow links dir names = some (dir ++ names) := by
  induction names generalizing dir with
  | nil => rw [walk_nil, List.append_nil]
  | cons name rest ih =>
      have hsplit : dir ++ name :: rest = dir ++ [name] ++ rest := by simp
      rw [hsplit] at hnode ⊢
      have hentry := fs.dir_above hnode
      rw [walk_dir links (fs.name_valid dir name (by rw [hentry]; rfl)) hentry]
      exact ih hnode

/-- A walk over entry names that meets no symbolic link before its last piece ends
where the names say. -/
theorem walk_names {links : Nat} {dir loc : Loc} {names : List Name}
    (hnames : ∀ name ∈ names, ValidName name)
    (hwalk : walk fs false links dir names = some loc)
    (hlinks : ∀ front back, names = front ++ back → front ≠ [] → back ≠ [] →
      ∀ target, fs.node (dir ++ front) ≠ some (.symlink target)) :
    loc = dir ++ names := by
  induction names generalizing dir with
  | nil =>
      rw [walk_nil] at hwalk
      cases hwalk
      simp
  | cons name rest ih =>
      have hname := hnames name List.mem_cons_self
      rw [walk_entry _ _ _ hname.isEntry] at hwalk
      split at hwalk
      · cases hwalk
      · rw [ih (fun other hother => hnames other (.tail _ hother)) hwalk]
        · simp
        · intro front back hsplit _ hback target
          have := hlinks (name :: front) back (by rw [hsplit]; rfl) (by simp) hback target
          simpa using this
      · split at hwalk
        next hrest => cases hwalk; rw [hrest]
        · cases hwalk
      next target hnode =>
        split at hwalk
        next hlast => cases hwalk; rw [hlast.1]
        next hlast =>
          have hrest : rest ≠ [] := fun h => hlast ⟨h, rfl⟩
          exact absurd hnode (hlinks [name] rest rfl (by simp) hrest target)

/-- Whether a final link is followed makes no difference where there is none. -/
theorem walk_follow {links : Nat} {cur loc : Loc} {pieces : List Name}
    (hwalk : walk fs false links cur pieces = some loc) (hloc : fs.node loc = some .dir) :
    walk fs true links cur pieces = some loc := by
  rw [walk_eq_some_iff] at hwalk ⊢
  induction hwalk with
  | arrived links cur => exact .arrived links cur
  | stay hstay _ ih => exact .stay hstay (ih hloc)
  | up _ ih => exact .up (ih hloc)
  | enter hpiece hnode _ ih => exact .enter hpiece hnode (ih hloc)
  | file hpiece hnode => exact .file hpiece hnode
  | link _ hnode => cases hnode.symm.trans hloc
  | expand hpiece hnode _ htarget _ ih => exact .expand hpiece hnode (by simp) htarget (ih hloc)

end Walk

/-! ## Entries of a directory -/

namespace FileSystem

variable {fs : FileSystem} {cwd : Loc}

theorem resolve_eq_some {follow : Bool} {path : Bytes} {loc : Loc} :
    fs.resolve cwd follow path = some loc ↔
      path ≠ [] ∧ fs.node (startOf cwd path) = some .dir ∧
        walk fs follow maxSymlinks (startOf cwd path) (components path) = some loc := by
  unfold resolve
  split
  next h => simp [h.1, h.2]
  next h =>
    constructor
    · intro hnone
      cases hnone
    · rintro ⟨hpath, hstart, _⟩
      exact absurd ⟨hpath, hstart⟩ h

theorem startOf_child {path : Bytes} (hpath : path ≠ []) (name : Name) :
    startOf cwd (child path name) = startOf cwd path := by
  rw [startOf, head?_child hpath, startOf]

theorem resolve_follow {path : Bytes} {loc : Loc}
    (h : fs.resolve cwd false path = some loc) (hloc : fs.node loc = some .dir) :
    fs.resolve cwd true path = some loc := by
  rw [resolve_eq_some] at h ⊢
  exact ⟨h.1, h.2.1, walk_follow h.2.2 hloc⟩

theorem resolve_child {path : Bytes} {dir : Loc} {name : Name}
    (h : fs.resolve cwd true path = some dir) (hdir : fs.node dir = some .dir)
    (hname : ValidName name) :
    fs.resolve cwd false (child path name) =
      if (fs.node (dir ++ [name])).isSome then some (dir ++ [name]) else none := by
  obtain ⟨hpath, hstart, hwalk⟩ := resolve_eq_some.mp h
  obtain ⟨left, hleft⟩ := walk_append false hwalk hdir (List.cons_ne_nil name [])
  rw [resolve, startOf_child hpath, if_pos ⟨child_ne_nil _ _, hstart⟩,
    components_child _ hname.2.2.2, hleft, walk_name left dir hname]

theorem lstat_child {path : Bytes} {dir : Loc} {name : Name}
    (h : fs.resolve cwd true path = some dir) (hdir : fs.node dir = some .dir)
    (hname : ValidName name) : fs.lstat cwd (child path name) = fs.node (dir ++ [name]) := by
  rw [lstat, resolve_child h hdir hname]
  cases hnode : fs.node (dir ++ [name]) <;> simp [hnode]

theorem resolve_child_dir {follow : Bool} {path : Bytes} {dir : Loc} {name : Name}
    (h : fs.resolve cwd true path = some dir) (hname : ValidName name)
    (hnode : fs.node (dir ++ [name]) = some .dir) :
    fs.resolve cwd follow (child path name) = some (dir ++ [name]) := by
  have hsome : (fs.node (dir ++ [name])).isSome := by rw [hnode]; rfl
  have hentry := resolve_child h (fs.parent_dir _ _ hsome) hname
  rw [if_pos hsome] at hentry
  cases follow with
  | false => exact hentry
  | true => exact resolve_follow hentry hnode

/-- An entry is found only through a directory. -/
theorem resolve_child_inv {path : Bytes} {loc : Loc} {name : Name} (hpath : path ≠ [])
    (hname : ValidName name) (h : fs.resolve cwd false (child path name) = some loc) :
    ∃ dir, fs.resolve cwd true path = some dir ∧ fs.node dir = some .dir ∧
      loc = dir ++ [name] ∧ (fs.node loc).isSome := by
  obtain ⟨_, hstart, hwalk⟩ := resolve_eq_some.mp h
  rw [startOf_child hpath] at hstart hwalk
  rw [components_child _ hname.2.2.2] at hwalk
  obtain ⟨dir, left, hdirwalk, hdir, hlast⟩ :=
    walk_append_inv hwalk hstart (List.cons_ne_nil name [])
  rw [walk_name left dir hname] at hlast
  split at hlast
  next hsome =>
    cases hlast
    exact ⟨dir, resolve_eq_some.mpr ⟨hpath, hstart, hdirwalk⟩, hdir, rfl, hsome⟩
  next => cases hlast

/-- A name leads somewhere only through a directory to which its beginning leads. -/
theorem resolve_above {follow : Bool} {path rest : Bytes} {loc : Loc} (hpath : path ≠ [])
    (h : fs.resolve cwd follow (child path rest) = some loc) :
    ∃ dir, fs.resolve cwd true path = some dir ∧ fs.node dir = some .dir := by
  obtain ⟨_, hstart, hwalk⟩ := resolve_eq_some.mp h
  rw [startOf_child hpath] at hstart hwalk
  rw [child, components_append] at hwalk
  obtain ⟨dir, left, hdirwalk, hdir, _⟩ :=
    walk_append_inv hwalk hstart (List.splitOn_ne_nil slash rest)
  exact ⟨dir, resolve_eq_some.mpr ⟨hpath, hstart, hdirwalk⟩, hdir⟩

/-- A name built from entry names below a directory leads where the names say,
unless a symbolic link stands on the way. -/
theorem resolve_names {path : Bytes} {dir loc : Loc} {names : List Name}
    (h : fs.resolve cwd true path = some dir) (hdir : fs.node dir = some .dir)
    (hne : names ≠ []) (hnames : ∀ name ∈ names, ValidName name)
    (hloc : fs.resolve cwd false (names.foldl child path) = some loc)
    (hlinks : ∀ front back, names = front ++ back → front ≠ [] → back ≠ [] →
      ∀ target, fs.node (dir ++ front) ≠ some (.symlink target)) :
    loc = dir ++ names := by
  obtain ⟨hpath, hstart, hwalk⟩ := resolve_eq_some.mp h
  obtain ⟨left, hleft⟩ := walk_append false hwalk hdir hne
  obtain ⟨_, _, hlocwalk⟩ := resolve_eq_some.mp hloc
  have hsame : startOf cwd (names.foldl child path) = startOf cwd path := by
    rw [startOf, head?_foldl_child hpath, startOf]
  rw [hsame, components_foldl_child _ _ (fun name hname => (hnames name hname).2.2.2),
    hleft] at hlocwalk
  exact walk_names hnames hlocwalk hlinks

theorem resolve_dirs {path : Bytes} {dir : Loc} {names : List Name}
    (h : fs.resolve cwd true path = some dir) (hnames : ∀ name ∈ names, ValidName name)
    (hnode : fs.node (dir ++ names) = some .dir) :
    fs.resolve cwd true (names.foldl child path) = some (dir ++ names) := by
  induction names generalizing path dir with
  | nil => rwa [List.append_nil]
  | cons name rest ih =>
      have hsplit : dir ++ name :: rest = dir ++ [name] ++ rest := by simp
      rw [hsplit] at hnode ⊢
      have hentry := fs.dir_above hnode
      exact ih (resolve_child_dir h (hnames name (.head _)) hentry)
        (fun other hother => hnames other (.tail _ hother)) hnode

/-! ## Ways without symbolic links -/

/-- No symbolic link stands on the way that the names take from `root`, its end included. -/
def NoLinkOn (fs : FileSystem) (root : Loc) (names : List Name) : Prop :=
  ∀ front back, names = front ++ back → front ≠ [] →
    ∀ target, fs.node (root ++ front) ≠ some (.symlink target)

namespace NoLinkOn

variable {root : Loc} {names : List Name} {name : Name}

theorem nil (fs : FileSystem) (root : Loc) : fs.NoLinkOn root [] := by
  intro front back hsplit hfront
  exact absurd (List.append_eq_nil_iff.mp hsplit.symm).1 hfront

/-- The way to a directory goes through directories. -/
theorem of_dir (hdir : fs.node (root ++ names) = some .dir) : fs.NoLinkOn root names := by
  rintro front back rfl _ target hlink
  rw [← List.append_assoc] at hdir
  rw [fs.dir_above hdir] at hlink
  cases hlink

theorem snoc (h : fs.NoLinkOn root names)
    (hlast : ∀ target, fs.node (root ++ (names ++ [name])) ≠ some (.symlink target)) :
    fs.NoLinkOn root (names ++ [name]) := by
  intro front back hsplit hfront
  rcases List.eq_nil_or_concat back with rfl | ⟨init, last, rfl⟩
  · rw [List.append_nil] at hsplit
    rw [← hsplit]
    exact hlast
  · rw [List.concat_eq_append, ← List.append_assoc] at hsplit
    exact h front init (List.append_inj' hsplit rfl).1 hfront

theorem of_snoc (h : fs.NoLinkOn root (names ++ [name])) : fs.NoLinkOn root names := by
  rintro front back rfl hfront
  exact h front (back ++ [name]) (List.append_assoc _ _ _) hfront

theorem erase {fs' : FileSystem} {loc : Loc} (h : fs.NoLinkOn root names)
    (herase : fs.erase loc = some fs') : fs'.NoLinkOn root names := by
  intro front back hsplit hfront target hnode
  rw [erase_node herase] at hnode
  split at hnode
  · cases hnode
  · exact h front back hsplit hfront target hnode

/-- An entry of a directory that is reached without symbolic links stands where its name
says. -/
theorem resolve_eq {path : Bytes} {loc : Loc} (h : fs.NoLinkOn root names)
    (hroot : fs.resolve cwd true path = some root) (hdir : fs.node root = some .dir)
    (hnames : ∀ name ∈ names, ValidName name) (hname : ValidName name)
    (hloc : fs.resolve cwd false (child (names.foldl child path) name) = some loc) :
    loc = root ++ (names ++ [name]) := by
  have hfold : child (names.foldl child path) name = (names ++ [name]).foldl child path := by
    rw [List.foldl_append]
    rfl
  rw [hfold] at hloc
  refine resolve_names hroot hdir (by simp) ?_ hloc ?_
  · intro other hother
    rcases List.mem_append.mp hother with hmem | hmem
    · exact hnames other hmem
    · rwa [List.mem_singleton.mp hmem]
  · intro front back hsplit hfront hback target
    rcases List.eq_nil_or_concat back with rfl | ⟨init, last, rfl⟩
    · exact absurd rfl hback
    · rw [List.concat_eq_append, ← List.append_assoc] at hsplit
      exact h front init (List.append_inj' hsplit rfl).1 hfront target

/-- It is enough to look at the names of the directories on the way. -/
theorem of_lstat {path : Bytes} (hroot : fs.resolve cwd true path = some root)
    (hnames : ∀ name ∈ names, ValidName name)
    (hlstat : ∀ front back, names = front ++ back → front ≠ [] →
      ∀ target, fs.lstat cwd (front.foldl child path) ≠ some (.symlink target)) :
    fs.NoLinkOn root names := by
  induction names using List.reverseRecOn with
  | nil => exact nil fs root
  | append_singleton names name ih =>
      have hinit : ∀ other ∈ names, ValidName other :=
        fun other hother => hnames other (List.mem_append_left _ hother)
      have hname : ValidName name := hnames name (by simp)
      refine snoc (ih hinit fun front back hsplit hfront => ?_) fun target hnode => ?_
      · refine hlstat front (back ++ [name]) ?_ hfront
        rw [hsplit, List.append_assoc]
      · have hparent : fs.node (root ++ names) = some .dir := by
          rw [← List.append_assoc] at hnode
          exact fs.parent_dir _ _ (by rw [hnode]; rfl)
        have hresolve := resolve_dirs hroot hinit hparent
        apply hlstat (names ++ [name]) [] (List.append_nil _).symm (by simp) target
        rw [List.foldl_append, List.foldl_cons, List.foldl_nil,
          lstat_child hresolve hparent hname, List.append_assoc]
        exact hnode

end NoLinkOn

/-! ## Names that lead to a directory whatever happens below it -/

/-- The name leads to `loc`, and no change strictly below `loc` makes it lead
elsewhere. -/
def Leads (fs : FileSystem) (cwd : Loc) (follow : Bool) (path : Bytes) (loc : Loc) : Prop :=
  ∀ fs', AgreeOff loc fs fs' → fs'.resolve cwd follow path = some loc

namespace Leads

variable {follow : Bool} {path : Bytes} {loc : Loc}

theorem resolve (h : fs.Leads cwd follow path loc) : fs.resolve cwd follow path = some loc :=
  h fs (AgreeOff.refl loc fs)

theorem of_agree {fs' : FileSystem} (h : fs.Leads cwd follow path loc)
    (hagree : AgreeOff loc fs fs') : fs'.Leads cwd follow path loc :=
  fun fs'' hagree' => h fs'' (hagree.trans hagree')

theorem to_follow (h : fs.Leads cwd false path loc) (hloc : fs.node loc = some .dir) :
    fs.Leads cwd true path loc := by
  intro fs' hagree
  apply resolve_follow (h fs' hagree)
  rw [hagree loc (fun hbelow => hbelow.2 rfl), hloc]

theorem child {name : Name} (h : fs.Leads cwd true path loc) (hname : ValidName name)
    (hnode : fs.node (loc ++ [name]) = some .dir) :
    fs.Leads cwd follow (child path name) (loc ++ [name]) := by
  intro fs' hagree
  apply resolve_child_dir (h fs' (hagree.mono (List.prefix_append _ _))) hname
  rw [hagree _ (fun hbelow => hbelow.2 rfl), hnode]

end Leads

theorem resolve_render {loc : Loc} (hloc : fs.node loc = some .dir) (follow : Bool) :
    fs.resolve cwd follow (render loc) = some loc := by
  have hstart : startOf cwd (render loc) = [] := by rw [startOf, if_pos (head?_render loc)]
  rw [resolve_eq_some, hstart]
  refine ⟨render_ne_nil loc, fs.root_dir, ?_⟩
  by_cases hroot : loc = []
  · have hpieces : components (render loc) = [[], []] := by rw [hroot]; decide
    rw [hpieces, walk_stay _ _ _ (Or.inl rfl), walk_stay _ _ _ (Or.inl rfl), walk_nil, hroot]
  · have hvalid : ∀ name ∈ loc, slash ∉ name :=
      fun name hname => (fs.names_valid (by rw [hloc]; rfl) name hname).2.2.2
    rw [components_render hroot hvalid, walk_stay _ _ _ (Or.inl rfl)]
    exact walk_dirs _ hloc

/-- A canonical name leads to the place it stands for or nowhere, unless a symbolic link
stands on the way. -/
theorem eq_of_resolve_render {loc place : Loc} (hloc : loc ≠ [])
    (hnames : ∀ name ∈ loc, ValidName name) (hlinks : fs.NoLinkOn [] loc.dropLast)
    (h : fs.resolve cwd false (render loc) = some place) : place = loc := by
  have hstart : startOf cwd (render loc) = [] := by rw [startOf, if_pos (head?_render loc)]
  have hpieces := components_render hloc fun name hname => (hnames name hname).2.2.2
  obtain ⟨_, _, hwalk⟩ := resolve_eq_some.mp h
  rw [hstart, hpieces, walk_stay _ _ _ (Or.inl rfl)] at hwalk
  apply walk_names hnames hwalk
  intro front back hsplit hfront hback target
  refine hlinks front back.dropLast ?_ hfront target
  rw [hsplit, List.dropLast_append_of_ne_nil hback]

/-- The canonical name of a directory leads to it. -/
theorem leads_render {loc : Loc} (hloc : fs.node loc = some .dir) (follow : Bool) :
    fs.Leads cwd follow (render loc) loc := by
  intro fs' hagree
  exact resolve_render (by rw [hagree _ (fun hbelow => hbelow.2 rfl), hloc]) follow

end FileSystem

end Posix
