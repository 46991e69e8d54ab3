import FreshCore.Cache.CacheCleaner
import FreshCore.Daemon.Unless

/-!
# Cleaning against a hostile app

The cleaner names what it removes by full paths and only the last piece of such a
name is not followed through a link. The app that owns the data directory may
therefore lead it elsewhere by putting a link in the place of a directory that is
being cleaned. Nothing else it does inside its data directory can: while no such
directory is found to be a link, every removal happens where its name says.
-/

namespace FreshCore

open Posix Imperative Config Device Cache

/-- A directory of an app's data directory, by its name and by its place. -/
structure AppCache where
  dataPath : Bytes
  root : Loc
  base : Name
  base_valid : ValidName base

namespace AppCache

def path (cache : AppCache) : Bytes := child cache.dataPath cache.base

def loc (cache : AppCache) : Loc := cache.root ++ [cache.base]

end AppCache

/-- Other processes left a symbolic link under the name of a directory that is being
cleaned. -/
def Event.swapsLink (cwd : Loc) : Event → Bool
  | others working fs => working.any fun path => (fs.lstat cwd path).any Node.isSymlink
  | _ => false

/-- Other processes did so at some moment. -/
abbrev LinkSwapped (cwd : Loc) (events : List Event) : Prop :=
  Occurs (Event.swapsLink cwd) events

/-- Everything removed stood below the directory. -/
def Confined (dir : Loc) (events : List Event) : Prop :=
  ∀ loc ∈ events.filterMap Event.removedLoc?, Below dir loc

instance (dir : Loc) (events : List Event) : Decidable (Confined dir events) := by
  unfold Confined
  infer_instance

theorem swapsLink_others {cwd : Loc} {working : List Bytes} {fs : FileSystem}
    {path target : Bytes} (hpath : path ∈ working)
    (hlink : fs.lstat cwd path = some (.symlink target)) :
    (Event.others working fs).swapsLink cwd = true := by
  refine List.any_eq_true.mpr ⟨path, hpath, ?_⟩
  rw [hlink]
  rfl

theorem Confined.append {dir : Loc} {events new : List Event} (h : Confined dir events)
    (hnew : Confined dir new) : Confined dir (events ++ new) := by
  intro loc hmem
  rw [List.filterMap_append] at hmem
  rcases List.mem_append.mp hmem with hold | hadded
  · exact h loc hold
  · exact hnew loc hadded

theorem confined_of_none {dir : Loc} {events : List Event}
    (hevents : ∀ event ∈ events, event.removedLoc? = none) : Confined dir events := by
  intro loc hmem
  rw [List.filterMap_eq_nil_iff.mpr hevents] at hmem
  cases hmem

/-! ## The directories being cleaned -/

/-- The paths of the directories on the way that the names take from `path`, innermost
first. -/
def stackOf (path : Bytes) : List Name → List Bytes
  | [] => []
  | name :: rest => stackOf (child path name) rest ++ [child path name]

theorem stackOf_snoc (path : Bytes) (names : List Name) (name : Name) :
    stackOf path (names ++ [name]) =
      child (names.foldl child path) name :: stackOf path names := by
  induction names generalizing path with
  | nil => rfl
  | cons first rest ih =>
      rw [List.cons_append, stackOf, ih, List.cons_append]
      rfl

theorem mem_stackOf {front : List Name} (hfront : front ≠ []) (path : Bytes)
    (back : List Name) : front.foldl child path ∈ stackOf path (front ++ back) := by
  induction front generalizing path with
  | nil => exact absurd rfl hfront
  | cons name rest ih =>
      rw [List.cons_append, stackOf, List.foldl_cons, List.mem_append]
      by_cases hrest : rest = []
      · rw [hrest]
        exact Or.inr (List.mem_singleton.mpr rfl)
      · exact Or.inl (ih hrest (child path name))

section Invariant

variable (env : Env) (cache : AppCache) (outer : List Bytes) (mark : Nat)

/-- The directories named by `names` are being cleaned, and their names lead to
where they say. -/
structure Tracked (names : List Name) (w : World) : Prop where
  leads : w.fs.Leads env.cwd true cache.dataPath cache.root
  root_dir : w.fs.node cache.root = some .dir
  noLink : w.fs.NoLinkOn cache.root names
  working : w.working = stackOf cache.dataPath names ++ outer

/-- Unless a link was swapped in, every removal since the entry `mark` was confined and the
state is as described. -/
def Straight (state : World → Prop) : World → Prop :=
  Unless (Event.swapsLink env.cwd) mark fun w =>
    Confined cache.loc (w.log.drop mark) ∧ state w

/-- The directories being cleaned are the same afterwards, their names still straight. -/
abbrev KeepsTracked (names : List Name) {α : Type} (x : Daemon α) : Prop :=
  Program.Triple (Straight env cache mark (Tracked env cache outer names)) x
    (fun _ => Straight env cache mark (Tracked env cache outer names))
    (Straight env cache mark fun _ => True)

/-- After a listing of the entry `name`: what was found are entry names, and no link stood
on the way to it. -/
def Listed (names : List Name) (name : Name) (entries : Option (List Name)) (w : World) : Prop :=
  (∀ children, entries = some children → ∀ entry ∈ children, ValidName entry) ∧
    Straight env cache mark (fun w => Tracked env cache outer names w ∧
      (entries ≠ none → w.fs.NoLinkOn cache.root (names ++ [name]))) w

/-- The app works inside its data directory only. -/
def OwnSteps : Prop := ∀ tick, ∀ step ∈ env.others tick, step.Inside cache.root

end Invariant

variable {env : Env} {cache : AppCache} {outer : List Bytes} {mark : Nat}

namespace Tracked

variable {names : List Name} {w w' : World}

theorem congr (h : Tracked env cache outer names w) (hfs : w'.fs = w.fs)
    (hworking : w'.working = w.working) : Tracked env cache outer names w' := by
  obtain ⟨hleads, hroot, hnoLink, hstack⟩ := h
  rw [← hfs] at hleads hroot hnoLink
  exact ⟨hleads, hroot, hnoLink, hworking.trans hstack⟩

theorem resolve (h : Tracked env cache outer names w) :
    w.fs.resolve env.cwd true cache.dataPath = some cache.root :=
  h.leads.resolve

/-- A listing went through: what was listed is next to be cleaned. -/
theorem enter {name : Name} (h : Tracked env cache outer names w)
    (hnoLink : w.fs.NoLinkOn cache.root (names ++ [name])) (hfs : w'.fs = w.fs)
    (hworking : w'.working = child (names.foldl child cache.dataPath) name :: w.working) :
    Tracked env cache outer (names ++ [name]) w' := by
  have h' : Tracked env cache outer names { w' with working := w.working } := h.congr hfs rfl
  refine ⟨h'.leads, h'.root_dir, ?_, ?_⟩
  · rwa [← hfs] at hnoLink
  · rw [hworking, h.working, stackOf_snoc, List.cons_append]

theorem leave {name : Name} (h : Tracked env cache outer (names ++ [name]) w)
    (hfs : w'.fs = w.fs) (hworking : w'.working = w.working.tail) :
    Tracked env cache outer names w' := by
  have h' : Tracked env cache outer (names ++ [name]) { w' with working := w.working } :=
    h.congr hfs rfl
  refine ⟨h'.leads, h'.root_dir, h'.noLink.of_snoc, ?_⟩
  rw [hworking, h.working, stackOf_snoc, List.cons_append, List.tail_cons]

end Tracked

/-- Removes nothing and neither begins nor ends a removal loop. -/
def Event.isCalm : Event → Bool
  | removed _ _ => false
  | entered _ => false
  | left _ _ => false
  | _ => true

theorem calm_removedLoc? {event : Event} (hcalm : event.isCalm = true) :
    event.removedLoc? = none := by
  cases event <;> first | rfl | cases hcalm

abbrev calmScope : Scope := .logging fun event => event.isCalm = true

namespace Straight

variable {state state' : World → Prop} {w w' : World}

theorem mono (h : Straight env cache mark state w) (hstate : state w → state' w) :
    Straight env cache mark state' w :=
  Unless.mono h fun hw => ⟨hw.1, hstate hw.2⟩

/-- What has been added to the log is confined, and changes the state as described. -/
theorem extend (h : Straight env cache mark state w) {new : List Event}
    (hlog : w'.log = w.log ++ new)
    (hnext : state w → Confined cache.loc new ∧ state' w') :
    Straight env cache mark state' w' := by
  refine Unless.extend h hlog fun hsince hw => Or.inr ?_
  obtain ⟨hnew, hstate⟩ := hnext hw.2
  rw [hsince]
  exact ⟨hw.1.append hnew, hstate⟩

theorem silent (h : Straight env cache mark state w) (hlog : w'.log = w.log)
    (hstate : state w → state' w') : Straight env cache mark state' w' := by
  have hnone : w'.log = w.log ++ [] := by rw [hlog, List.append_nil]
  exact h.extend hnone fun hw => ⟨confined_of_none (by simp), hstate hw⟩

theorem event {event : Event} (h : Straight env cache mark state w)
    (hlog : w'.log = w.log ++ [event]) (hevent : event.removedLoc? = none)
    (hstate : state w → state' w') : Straight env cache mark state' w' :=
  h.extend hlog fun hw => ⟨confined_of_none (by simpa using hevent), hstate hw⟩

/-- Whatever the app does keeps the names straight, or is the one thing that does not. -/
theorem interfere {names : List Name} (hothers : OwnSteps env cache)
    (hnames : ∀ name ∈ names, ValidName name)
    (h : Straight env cache mark (Tracked env cache outer names) w) :
    Straight env cache mark (Tracked env cache outer names) (w.interfere env) := by
  unfold World.interfere
  split
  · exact h
  next steps _ =>
    have hagree : AgreeOff cache.root w.fs (FsStep.applyAll w.fs (env.others w.tick)) :=
      FsStep.applyAll_agreeOff (hothers w.tick) w.fs
    -- the steps change nothing outside the data directory, so only a link can mislead the names
    by_cases hlink : ∃ path ∈ w.working, ∃ target,
        (FsStep.applyAll w.fs (env.others w.tick)).lstat env.cwd path = some (.symlink target)
    · obtain ⟨path, hpath, target, hlink⟩ := hlink
      exact Unless.extend h rfl fun _ _ => Or.inl (.single (swapsLink_others hpath hlink))
    · apply h.event rfl rfl
      intro hw
      have hleads := hw.leads.of_agree hagree
      refine ⟨hleads, ?_, ?_, hw.working⟩
      · rw [hagree _ (fun hbelow => hbelow.2 rfl)]
        exact hw.root_dir
      · refine .of_lstat hleads.resolve hnames fun front back hsplit hfront target hfound => ?_
        refine hlink ⟨_, ?_, target, hfound⟩
        rw [hw.working, hsplit]
        exact List.mem_append_left _ (mem_stackOf hfront _ back)

end Straight

section Parts

variable {names : List Name} {name : Name}

/-- What is calm keeps the directories that are being cleaned. -/
theorem tracked_within (hothers : OwnSteps env cache) (hnames : ∀ name ∈ names, ValidName name)
    {α : Type} {x : Daemon α} (hwithin : Within env calmScope x) :
    KeepsTracked env cache outer mark names x := by
  refine Program.Triple.mono (Program.Built.triple (fun _ haction w hw => ?_) hwithin)
    (fun _ h => h) (fun _ _ h => h) fun _ h => h.mono fun _ => trivial
  have hcalled := hw.interfere hothers hnames
  cases haction with
  | sense read => exact hw.silent rfl fun h => h.congr rfl rfl
  | note hevent =>
      refine hw.event rfl ?_ fun h => h.congr rfl rfl
      exact calm_removedLoc? hevent
  | moment => exact hw
  | report hevent =>
      refine hw.event rfl ?_ fun h => h.congr rfl rfl
      exact calm_removedLoc? hevent
  | getProcess => exact hw
  | setProcess _ => exact hw.silent rfl fun h => h.congr rfl rfl
  | lstat path =>
      unfold FreshCore.lstat
      dsimp only
      split
      · exact hcalled.silent rfl fun h => h.congr rfl rfl
      · split
        · exact hcalled.event rfl rfl fun h => h.congr rfl rfl
        · exact hcalled.silent rfl fun h => h.congr rfl rfl
  | realpath path => exact hcalled.silent rfl fun h => h.congr rfl rfl
  | listDirectory path =>
      unfold FreshCore.listDirectory
      dsimp only
      split
      · exact hcalled.silent rfl fun h => h.congr rfl rfl
      · split
        · exact hcalled.silent rfl fun h => h.congr rfl rfl
        · split
          · exact hcalled.event rfl rfl fun h => h.congr rfl rfl
          · exact hcalled.silent rfl fun h => h.congr rfl rfl
  | removeEntry remove path hevent => cases hevent [] .dir
  | enter hevent => cases hevent
  | leave hevent => cases hevent
  | save _ =>
      unfold saveStateAtomic
      dsimp only
      split
      · exact hw.event rfl rfl fun h => h.congr rfl rfl
      · exact hw.silent rfl fun h => h.congr rfl rfl

/-- What a listing finds are entry names, and no link stood on the way to what was listed. -/
theorem listDirectory_tracked (hothers : OwnSteps env cache)
    (hnames : ∀ name ∈ names, ValidName name) (hname : ValidName name) :
    Program.Triple (Straight env cache mark (Tracked env cache outer names))
      (listDirectory env (child (names.foldl child cache.dataPath) name))
      (fun entries w => (∀ found, entries = some found → ∀ entry ∈ found,
          entry ≠ dot → entry ≠ dotDot → ValidName entry) ∧
        Straight env cache mark (fun w => Tracked env cache outer names w ∧
          (entries ≠ none → w.fs.NoLinkOn cache.root (names ++ [name]))) w)
      (Straight env cache mark fun _ => True) := by
  intro w hw
  have hcalled := hw.interfere hothers hnames
  have hfails (w' : World) (h : Straight env cache mark (Tracked env cache outer names) w') :
      Straight env cache mark (fun w => Tracked env cache outer names w ∧
        ((none : Option (List Name)) ≠ none → w.fs.NoLinkOn cache.root (names ++ [name]))) w' :=
    h.mono fun hw' => ⟨hw', fun hsome => absurd rfl hsome⟩
  unfold listDirectory
  dsimp only
  split
  · refine And.intro (fun _ hnone => by cases hnone) (hfails _ ?_)
    exact hcalled.silent rfl fun h => h.congr rfl rfl
  next loc hloc =>
    split
    · refine And.intro (fun _ hnone => by cases hnone) (hfails _ ?_)
      exact hcalled.silent rfl fun h => h.congr rfl rfl
    next hdir =>
      rw [not_not] at hdir
      split
      · refine And.intro (fun _ hnone => by cases hnone) (hfails _ ?_)
        exact hcalled.event rfl rfl fun h => h.congr rfl rfl
      · constructor
        · intro found hfound entry hentry hdot hdotDot
          cases hfound
          rw [List.mem_cons, List.mem_cons] at hentry
          rcases hentry with heq | heq | hchild
          · exact absurd heq hdot
          · exact absurd heq hdotDot
          · exact FileSystem.children_valid hchild
        · refine hcalled.silent rfl fun h => ⟨h.congr rfl rfl, fun _ => ?_⟩
          have hplace := h.noLink.resolve_eq h.resolve h.root_dir hnames hname hloc
          apply h.noLink.snoc
          intro target hlink
          rw [← hplace, hdir] at hlink
          cases hlink

theorem getDirectoryChildren_tracked (hothers : OwnSteps env cache)
    (hnames : ∀ name ∈ names, ValidName name) (hname : ValidName name) :
    Program.Triple (Straight env cache mark (Tracked env cache outer names))
      (getDirectoryChildren env (child (names.foldl child cache.dataPath) name))
      (Listed env cache outer mark names name) (Straight env cache mark fun _ => True) := by
  unfold getDirectoryChildren
  refine .bind (listDirectory_tracked hothers hnames hname) fun entries => ?_
  refine .bind (.update fun w hw => ?_) fun _ => .pure fun w hw => hw
  obtain ⟨hfound, hstate⟩ := hw
  constructor
  · intro children hchildren entry hentry
    obtain ⟨found, rfl, rfl⟩ := Option.map_eq_some_iff.mp hchildren
    have hmem := List.mem_filter.mp hentry
    simp only [ne_eq, Bool.and_eq_true, decide_eq_true_eq] at hmem
    exact hfound found rfl entry hmem.1 hmem.2.1 hmem.2.2
  · refine hstate.event rfl rfl fun h => ⟨h.1.congr rfl rfl, ?_⟩
    exact fun hsome => h.2 fun hnone => hsome (by rw [hnone]; rfl)

theorem Listed.failed {w : World} (h : Listed env cache outer mark names name none w) :
    Straight env cache mark (Tracked env cache outer names) w :=
  h.2.mono fun hstate => hstate.1

/-- What follows a listing that went through may use what it found. -/
theorem Listed.found {children : List Name} {α : Type} {x : Daemon α} {Q : α → World → Prop}
    {C : World → Prop}
    (hx : (∀ entry ∈ children, ValidName entry) →
      Program.Triple (Straight env cache mark fun w => Tracked env cache outer names w ∧
        w.fs.NoLinkOn cache.root (names ++ [name])) x Q C) :
    Program.Triple (Listed env cache outer mark names name (some children)) x Q C := by
  refine (Program.Triple.of_and hx).strengthen fun w hw => ⟨hw.1 children rfl, ?_⟩
  exact hw.2.mono fun hstate => ⟨hstate.1, hstate.2 (by simp)⟩

/-- A removal in a directory that is being cleaned takes what its name says. -/
theorem removeEntry_tracked (hothers : OwnSteps env cache) (hbase : [cache.base] <+: names)
    (hnames : ∀ name ∈ names, ValidName name) (hname : ValidName name)
    {remove : FileSystem → Loc → Option FileSystem}
    (hremove : ∀ fs loc fs', remove fs loc = some fs' → fs.erase loc = some fs') :
    KeepsTracked env cache outer mark names
      (removeEntry env remove (child (names.foldl child cache.dataPath) name)) := by
  intro w hw
  have hcalled := hw.interfere hothers hnames
  unfold removeEntry
  dsimp only
  split
  · exact hcalled.silent rfl fun h => h.congr rfl rfl
  next loc hloc =>
    split
    next node fs hnode herase =>
      split
      · exact hcalled.event rfl rfl fun h => h.congr rfl rfl
      · apply hcalled.extend rfl
        intro h
        -- no link stands on the way, so what goes is what the name says
        have hplace := h.noLink.resolve_eq h.resolve h.root_dir hnames hname hloc
        have hbelow : Below cache.loc loc := by
          obtain ⟨rest, rfl⟩ := hbase
          have hsplit : loc = cache.loc ++ (rest ++ [name]) := by
            rw [hplace, AppCache.loc]
            simp
          rw [hsplit]
          exact below_append (by simp)
        have hinside : Below cache.root loc := hbelow.lift (List.prefix_append _ _)
        have hagree := FileSystem.erase_agreeOff (hremove _ _ _ herase) hinside
        constructor
        · intro place hmem
          rw [List.mem_singleton.mp hmem]
          exact hbelow
        · refine ⟨h.leads.of_agree hagree, ?_, h.noLink.erase (hremove _ _ _ herase), h.working⟩
          exact (hagree _ fun hroot => hroot.2 rfl).trans h.root_dir
    · exact hcalled.silent rfl fun h => h.congr rfl rfl

theorem safeRemove_tracked (hothers : OwnSteps env cache) (hbase : [cache.base] <+: names)
    (hnames : ∀ name ∈ names, ValidName name) (hname : ValidName name) :
    KeepsTracked env cache outer mark names
      (safeRemove env (child (names.foldl child cache.dataPath) name)) := by
  refine .bind (tracked_within hothers hnames (.prim (.lstat _))) fun node => ?_
  cases node with
  | none => exact .pure fun _ h => h
  | some node =>
      refine .ite (fun _ => ?_) fun _ => ?_
      · exact removeEntry_tracked hothers hbase hnames hname
          fun _ _ _ h => (FileSystem.rmdir_eq_some h).2
      · exact removeEntry_tracked hothers hbase hnames hname
          fun _ _ _ h => (FileSystem.unlink_eq_some h).2

theorem enter_tracked (path : Bytes)
    (hpath : path = child (names.foldl child cache.dataPath) name) :
    Program.Triple (Straight env cache mark fun w => Tracked env cache outer names w ∧
        w.fs.NoLinkOn cache.root (names ++ [name]))
      (enter path) (fun _ => Straight env cache mark (Tracked env cache outer (names ++ [name])))
      (Straight env cache mark fun _ => True) := by
  subst hpath
  refine .update fun w hw => ?_
  exact hw.event rfl rfl fun h => h.1.enter h.2 rfl rfl

theorem leave_tracked (names : List Name) (name : Name) (path : Bytes) (completed : Bool) :
    Program.Triple (Straight env cache mark (Tracked env cache outer (names ++ [name])))
      (leave path completed) (fun _ => Straight env cache mark (Tracked env cache outer names))
      (Straight env cache mark fun _ => True) := by
  refine .update fun w hw => ?_
  exact hw.event rfl rfl fun h => h.leave rfl rfl

theorem idleScope_sub_calm : idleScope.Sub calmScope :=
  Scope.sub_logging fun event hevent => by cases event <;> first | rfl | exact hevent.elim

theorem batchScope_sub_calm : batchScope.Sub calmScope :=
  Scope.sub_logging fun event hevent => by cases event <;> first | rfl | exact hevent.elim

theorem foldl_child_snoc (path : Bytes) (names : List Name) (name : Name) :
    (names ++ [name]).foldl child path = child (names.foldl child path) name := by
  rw [List.foldl_append]
  rfl

theorem valid_snoc (hnames : ∀ name ∈ names, ValidName name) (hname : ValidName name) :
    ∀ other ∈ names ++ [name], ValidName other := by
  intro other hother
  rcases List.mem_append.mp hother with hmem | hmem
  · exact hnames other hmem
  · rwa [List.mem_singleton.mp hmem]

theorem removeChild_tracked (hothers : OwnSteps env cache) (hbase : [cache.base] <+: names)
    (hnames : ∀ name ∈ names, ValidName name) (hname : ValidName name)
    {recurse : Bytes → Daemon Bool}
    (hrecurse : KeepsTracked env cache outer mark names
      (recurse (child (names.foldl child cache.dataPath) name)))
    (filesRemoved : Int) (bytesFreed : UInt64) :
    KeepsTracked env cache outer mark names
      (removeChild env recurse (child (names.foldl child cache.dataPath) name)
        filesRemoved bytesFreed) := by
  refine .bind (tracked_within hothers hnames (.prim (.lstat _))) fun node => ?_
  cases node with
  | none => exact .pure fun _ h => h
  | some node =>
      refine .ite (fun _ => ?_) fun _ => ?_
      · refine .bind hrecurse fun completed => ?_
        exact .ite (fun _ => .pure fun _ h => h) fun _ => .pure fun _ h => h
      · refine .bind (safeRemove_tracked hothers hbase hnames hname) fun removed => ?_
        exact .ite (fun _ => .pure fun _ h => h) fun _ => .pure fun _ h => h

theorem removeChildren_tracked (hothers : OwnSteps env cache) (hbase : [cache.base] <+: names)
    (hnames : ∀ name ∈ names, ValidName name) {recurse : Bytes → Daemon Bool}
    (hrecurse : ∀ name, ValidName name → KeepsTracked env cache outer mark names
      (recurse (child (names.foldl child cache.dataPath) name)))
    {children : List Name} (hchildren : ∀ entry ∈ children, ValidName entry)
    (filesRemoved : Int) (bytesFreed : UInt64) :
    KeepsTracked env cache outer mark names
      (removeChildren env recurse (names.foldl child cache.dataPath) children
        filesRemoved bytesFreed) := by
  induction children generalizing filesRemoved bytesFreed with
  | nil => exact .pure fun _ h => h
  | cons entry rest ih =>
      have hentry := hchildren entry List.mem_cons_self
      have hrest := ih fun other hother => hchildren other (.tail _ hother)
      unfold removeChildren
      refine .bind (tracked_within hothers hnames
        (evaluateIdleState_within env idleScope_sub_calm)) fun idle => ?_
      refine .ite (fun _ => .pure fun _ h => h) fun _ => ?_
      refine .bind (removeChild_tracked hothers hbase hnames hentry (hrecurse entry hentry) _ _)
        fun counts => ?_
      cases counts with
      | none => exact .pure fun _ h => h
      | some counts =>
          refine .bind (tracked_within hothers hnames (.prim .getProcess)) fun process => ?_
          refine .ite (fun _ => ?_) fun _ => hrest _ _
          refine .bind (tracked_within hothers hnames
            (endBatch_within env batchScope_sub_calm _ _)) fun proceed => ?_
          refine .ite (fun _ => .pure fun _ h => h) fun _ => ?_
          exact .bind (tracked_within hothers hnames
            (startBatch_within env batchScope_sub_calm)) fun _ => hrest 0 0

/-- By induction on the depth: the recursion enters one more directory, cleans it, and is
back where it was when the directory itself is removed. -/
theorem removeRecursiveBatched_tracked (hothers : OwnSteps env cache) (depth : Nat)
    (hbase : [cache.base] <+: names) (hnames : ∀ name ∈ names, ValidName name)
    (hname : ValidName name) :
    KeepsTracked env cache outer mark names
      (removeRecursiveBatched env depth (child (names.foldl child cache.dataPath) name)) := by
  induction depth generalizing names name with
  | zero => exact .cut fun _ h => h.mono fun _ => trivial
  | succ depth ih =>
      have hnames' := valid_snoc hnames hname
      have hbase' : [cache.base] <+: names ++ [name] := hbase.trans (List.prefix_append _ _)
      unfold removeRecursiveBatched
      refine .bind (getDirectoryChildren_tracked hothers hnames hname) fun children => ?_
      cases children with
      | none => exact .pure fun _ h => h.failed
      | some children =>
          have hloop (hchildren : ∀ entry ∈ children, ValidName entry) :
              KeepsTracked env cache outer mark (names ++ [name]) (removeChildren env
                (removeRecursiveBatched env depth) (child (names.foldl child cache.dataPath) name)
                children 0 0) := by
            rw [← foldl_child_snoc]
            exact removeChildren_tracked hothers hbase' hnames'
              (fun entry hentry => ih hbase' hnames' hentry) hchildren 0 0
          apply Listed.found
          intro hchildren
          refine .bind (enter_tracked _ rfl) fun _ => ?_
          refine .bind (tracked_within hothers hnames'
            (startBatch_within env batchScope_sub_calm)) fun _ => ?_
          refine .bind (hloop hchildren) fun counts => ?_
          cases counts with
          | none => exact .bind (leave_tracked names name _ false) fun _ => .pure fun _ h => h
          | some counts =>
              refine .bind (tracked_within hothers hnames'
                (endBatch_within env batchScope_sub_calm _ _)) fun _ => ?_
              refine .bind (leave_tracked names name _ true) fun _ => ?_
              -- the loop is over, and the name is that of an entry again
              exact .bind (safeRemove_tracked hothers hbase hnames hname) fun _ =>
                .pure fun _ h => h

theorem cleanChildren_tracked (hothers : OwnSteps env cache) (depth : Nat)
    {children : List Name} (hchildren : ∀ entry ∈ children, ValidName entry) :
    KeepsTracked env cache outer mark [cache.base]
      (cleanChildren env depth cache.path children) := by
  have hnames : ∀ name ∈ [cache.base], ValidName name := by
    intro name hname
    rw [List.mem_singleton.mp hname]
    exact cache.base_valid
  induction children with
  | nil => exact .pure fun _ h => h
  | cons entry rest ih =>
      have hentry := hchildren entry List.mem_cons_self
      refine .bind (removeRecursiveBatched_tracked hothers depth (List.prefix_refl _) hnames
        hentry) fun completed => ?_
      exact .ite (fun _ => .pure fun _ h => h) fun _ =>
        ih fun other hother => hchildren other (.tail _ hother)

theorem cleanDirectorySafely_tracked (hothers : OwnSteps env cache) (depth : Nat)
    (targetDir : CacheDirInfo) (htarget : targetDir.path = cache.path) :
    KeepsTracked env cache outer mark [] (cleanDirectorySafely env depth targetDir) := by
  have hnames : ∀ name ∈ ([] : List Name), ValidName name := fun _ hmem => by cases hmem
  unfold cleanDirectorySafely
  rw [htarget]
  refine .bind (getDirectoryChildren_tracked hothers hnames cache.base_valid) fun children => ?_
  cases children with
  | none => exact .pure fun _ h => h.failed
  | some children =>
      apply Listed.found
      intro hchildren
      refine .bind (enter_tracked _ rfl) fun _ => ?_
      refine .bind (cleanChildren_tracked hothers depth hchildren) fun completed => ?_
      refine .bind (leave_tracked [] cache.base _ completed) fun _ => ?_
      refine .ite (fun _ => .pure fun _ h => h) fun _ => ?_
      apply tracked_within hothers hnames
      refine .bind (.prim .getProcess) fun process => ?_
      refine .bind (.prim (.sense _)) fun now => ?_
      refine .bind (.prim (.setProcess trivial)) fun _ => ?_
      refine .bind (.prim (.note rfl)) fun _ => ?_
      exact .bind (.prim (.save fun _ => rfl)) fun _ => .pure _

end Parts

/-- Whatever the app does inside its data directory, everything that cleaning its cache
directory removes stands below that directory, unless a directory that is being cleaned is
found to be a link. -/
theorem cleanDirectorySafely_confined (cache : AppCache) (depth : Nat)
    (targetDir : CacheDirInfo) (htarget : targetDir.path = cache.path) (w : World)
    (hleads : w.fs.Leads env.cwd true cache.dataPath cache.root)
    (hroot : w.fs.node cache.root = some .dir) (hothers : OwnSteps env cache)
    (hlinks : ¬ LinkSwapped env.cwd (eventsOf (cleanDirectorySafely env depth targetDir) w)) :
    Confined cache.loc (eventsOf (cleanDirectorySafely env depth targetDir) w) := by
  have hstart : Straight env cache w.log.length (Tracked env cache w.working []) w := by
    refine Unless.start _ ⟨?_, hleads, hroot, .nil _ _, rfl⟩
    rw [List.drop_length]
    exact confined_of_none (by simp)
  have hrun := cleanDirectorySafely_tracked hothers depth targetDir htarget w hstart
  have hend : Program.Post (fun _ => Straight env cache w.log.length fun _ => True)
      (Straight env cache w.log.length fun _ => True)
      ((cleanDirectorySafely env depth targetDir).run w) :=
    hrun.mono (fun _ _ h => h.mono fun _ => trivial) fun _ h => h
  exact (hend.state.of_not_occurs hlinks).1

/-! ## An app that lets the cleaner delete a system file -/

def hostileCache : AppCache where
  dataPath := lit "/data/com.a"
  root := [lit "data", lit "com.a"]
  base := lit "cache"
  base_valid := by decide +kernel

/-- Its cache directory holds a directory with a file; a file of the same name stands in
`/system`. -/
def hostileWorld : World where
  fs := FsStep.applyAll .bare [
    .mkdir [] (lit "data"),
    .mkdir [lit "data"] (lit "com.a"),
    .mkdir [lit "data", lit "com.a"] (lit "cache"),
    .mkdir [lit "data", lit "com.a", lit "cache"] (lit "d"),
    .create [lit "data", lit "com.a", lit "cache", lit "d"] (lit "f") 10,
    .mkdir [] (lit "system"),
    .create [lit "system"] (lit "f") 20]

def hostileTarget : CacheDirInfo where
  path := lit "/data/com.a/cache"
  pkgName := lit "com.a"

/-- The app takes these steps at the given moment. -/
def appSteps (moment : Nat) (steps : List FsStep) : Env :=
  { restingDevice with others := fun tick => if tick = moment then steps else [] }

/-- Move the directory away and put a link to `/system` in its place. -/
def swapSteps : List FsStep :=
  [.rename [lit "data", lit "com.a", lit "cache", lit "d"] [lit "data", lit "com.a"] (lit "d"),
    .symlink [lit "data", lit "com.a", lit "cache"] (lit "d") (lit "/system")]

/-- Between the last check of the file and its removal. -/
def hostileApp : Env := appSteps 7 swapSteps

/-- An app that only adds a file to the directory, at the same moment. -/
def busyApp : Env :=
  appSteps 7 [.create [lit "data", lit "com.a", lit "cache", lit "d"] (lit "g") 30]

theorem hostileCache_leads :
    hostileWorld.fs.Leads [] true hostileCache.dataPath hostileCache.root := by
  have hpath : hostileCache.dataPath = render hostileCache.root := by decide +kernel
  rw [hpath]
  exact FileSystem.leads_render (by decide +kernel) true

theorem appSteps_own {moment : Nat} {steps : List FsStep}
    (hsteps : ∀ step ∈ steps, step.Inside hostileCache.root) :
    OwnSteps (appSteps moment steps) hostileCache := by
  intro tick step hstep
  dsimp only [appSteps] at hstep
  split at hstep
  · exact hsteps step hstep
  · cases hstep

theorem cleanDirectorySafely_confined_busyApp :
    Confined hostileCache.loc
      (eventsOf (cleanDirectorySafely busyApp 3 hostileTarget) hostileWorld) :=
  cleanDirectorySafely_confined hostileCache 3 hostileTarget (by decide +kernel) hostileWorld
    hostileCache_leads (by decide +kernel) (appSteps_own (by decide +kernel)) (by decide +kernel)

/-- Without touching anything outside its data directory, the app has `/system/f` removed. -/
theorem cleanDirectorySafely_escapes :
    hostileWorld.fs.Leads hostileApp.cwd true hostileCache.dataPath hostileCache.root ∧
      OwnSteps hostileApp hostileCache ∧
      ¬ Confined hostileCache.loc
        (eventsOf (cleanDirectorySafely hostileApp 3 hostileTarget) hostileWorld) := by
  exact ⟨hostileCache_leads, appSteps_own (by decide +kernel), by decide +kernel⟩

end FreshCore
