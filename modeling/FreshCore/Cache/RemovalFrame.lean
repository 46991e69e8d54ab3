import FreshCore.Cache.RemovalRuns
import FreshCore.Imperative.History

/-!
# Where a removal goes

A removal stays at and below the place its name leads to: no name it builds leads through
a symbolic link. It comes to each entry once, to a directory after everything in it, and to
nothing in a directory that it could not look at.
-/

namespace FreshCore

open Posix Imperative Config Device Cache

/-! ## Places in the log -/

/-- The places that were emptied. -/
def removedLocs (events : List Event) : List Loc := events.filterMap Event.removedLoc?

/-- The place whose entry was removed, resisted or could not be looked at, where names lead on
the tree `fs`. -/
def Event.attempt (fs : FileSystem) (cwd : Loc) : Event → Option Loc
  | removed loc _ => some loc
  | removeFailed path => fs.resolve cwd false path
  | lstatFailed path => fs.resolve cwd false path
  | _ => none

def attempts (fs : FileSystem) (cwd : Loc) (events : List Event) : List Loc :=
  events.filterMap (Event.attempt fs cwd)

@[simp] theorem removedLocs_append (events new : List Event) :
    removedLocs (events ++ new) = removedLocs events ++ removedLocs new :=
  List.filterMap_append

@[simp] theorem attempts_append (fs : FileSystem) (cwd : Loc) (events new : List Event) :
    attempts fs cwd (events ++ new) = attempts fs cwd events ++ attempts fs cwd new :=
  List.filterMap_append

theorem mem_removedLocs {events : List Event} {loc : Loc} :
    loc ∈ removedLocs events ↔ ∃ node, .removed loc node ∈ events := by
  unfold removedLocs
  rw [List.mem_filterMap]
  constructor
  · rintro ⟨event, hevent, hloc⟩
    cases event <;> cases hloc
    exact ⟨_, hevent⟩
  · rintro ⟨node, hevent⟩
    exact ⟨_, hevent, rfl⟩

theorem Event.attempt_of_failed {fs : FileSystem} {cwd : Loc} {event : Event} {path : Bytes}
    (h : event.failedPath? = some path) : event.attempt fs cwd = fs.resolve cwd false path := by
  rcases Event.failedPath?_eq_some.mp h with rfl | rfl <;> rfl

theorem Event.removedLoc?_of_failed {event : Event} {path : Bytes}
    (h : event.failedPath? = some path) : event.removedLoc? = none := by
  rcases Event.failedPath?_eq_some.mp h with rfl | rfl <;> rfl

theorem removedLocs_failed {event : Event} {path : Bytes} (h : event.failedPath? = some path)
    (events : List Event) : removedLocs (event :: events) = removedLocs events :=
  List.filterMap_cons_none (Event.removedLoc?_of_failed h)

/-- The log says of the place that its entry resisted, or could not be looked at. -/
def FailedAt (fs : FileSystem) (cwd : Loc) (events : List Event) (loc : Loc) : Prop :=
  ∃ event ∈ events, ∃ path, event.failedPath? = some path ∧ fs.resolve cwd false path = some loc

theorem mem_attempts {fs : FileSystem} {cwd : Loc} {events : List Event} {loc : Loc} :
    loc ∈ attempts fs cwd events ↔ loc ∈ removedLocs events ∨ FailedAt fs cwd events loc := by
  unfold attempts
  rw [List.mem_filterMap, mem_removedLocs]
  constructor
  · rintro ⟨event, hevent, hloc⟩
    cases event <;> simp only [Event.attempt, reduceCtorEq] at hloc
    next place node =>
      cases hloc
      exact Or.inl ⟨node, hevent⟩
    next path => exact Or.inr ⟨_, hevent, path, rfl, hloc⟩
    next path => exact Or.inr ⟨_, hevent, path, rfl, hloc⟩
  · rintro (⟨node, hevent⟩ | ⟨event, hevent, path, hfailed, hloc⟩)
    · exact ⟨_, hevent, rfl⟩
    · exact ⟨_, hevent, (Event.attempt_of_failed hfailed).trans hloc⟩

/-- The event speaks of no place. -/
def Event.isPlaceless : Event → Bool
  | removed _ _ => false
  | removeFailed _ => false
  | lstatFailed _ => false
  | _ => true

theorem Event.isPlaceless_of_isPlain {event : Event} (h : event.isPlain = true) :
    event.isPlaceless = true := by
  cases event <;> first | rfl | cases h

section Placeless

variable {events : List Event} (hevents : ∀ event ∈ events, event.isPlaceless = true)

include hevents

theorem removedLocs_placeless : removedLocs events = [] := by
  apply List.filterMap_eq_nil_iff.mpr
  intro event hevent
  have hplaceless := hevents event hevent
  cases event <;> first | rfl | cases hplaceless

theorem attempts_placeless (fs : FileSystem) (cwd : Loc) : attempts fs cwd events = [] := by
  apply List.filterMap_eq_nil_iff.mpr
  intro event hevent
  have hplaceless := hevents event hevent
  cases event <;> first | rfl | cases hplaceless

end Placeless

/-! ## What a run takes -/

/-- What is removed stood there in `fs`, and all of its entries were removed before. -/
def TakenBare (fs : FileSystem) (front : List Event) (event : Event) : Prop :=
  ∀ loc node, event = .removed loc node →
    fs.node loc = some node ∧ ∀ name ∈ fs.children loc, loc ++ [name] ∈ removedLocs front

/-- From `fs` to `fs'` the tree lost what the log says, places in `owns` only, and once an entry
was tried, nothing at or below it was. -/
structure Takes (cwd : Loc) (owns : Loc → Prop) (fs : FileSystem) (events : List Event)
    (fs' : FileSystem) : Prop where
  pruned : Pruned (fun loc => loc ∈ removedLocs events) fs fs'
  bare : Throughout (TakenBare fs) events
  found : ∀ event ∈ events, ∀ path, event.failedPath? = some path → (fs.lstat cwd path).isSome
  owned : ∀ loc ∈ attempts fs cwd events, owns loc
  ordered : (attempts fs cwd events).Pairwise fun loc later => ¬ loc <+: later

namespace Takes

variable {cwd : Loc} {owns owns' : Loc → Prop} {fs fs' fs'' : FileSystem}
  {events new : List Event}

theorem mono (h : Takes cwd owns fs events fs') (hsub : ∀ loc, owns loc → owns' loc) :
    Takes cwd owns' fs events fs' :=
  ⟨h.pruned, h.bare, h.found, fun loc hloc => hsub loc (h.owned loc hloc), h.ordered⟩

/-- No entry was tried twice. -/
theorem nodup (h : Takes cwd owns fs events fs') : (attempts fs cwd events).Nodup := by
  refine h.ordered.imp fun {loc later} hnot => ?_
  rintro rfl
  exact hnot List.prefix_rfl

/-- Nothing was tried. -/
theorem of_placeless (hevents : ∀ event ∈ events, event.isPlaceless = true) :
    Takes cwd owns fs events fs := by
  have hremoved := removedLocs_placeless hevents
  have htried := attempts_placeless hevents fs cwd
  refine ⟨.refl (by simp [hremoved]), fun front event hpart loc node hevent => ?_,
    fun event hevent path hfailed => ?_, by simp [htried], by simp [htried]⟩
  · have hplaceless := hevents event (hpart.subset (by simp))
    rw [hevent] at hplaceless
    cases hplaceless
  · have hplaceless := hevents event hevent
    cases event <;> cases hfailed <;> cases hplaceless

/-- What fails later led to the same place before. -/
theorem attempts_eq (hpruned : Pruned (fun loc => loc ∈ removedLocs events) fs fs')
    (hfound : ∀ event ∈ new, ∀ path, event.failedPath? = some path →
      (fs'.lstat cwd path).isSome) :
    attempts fs cwd new = attempts fs' cwd new := by
  apply List.filterMap_congr
  intro event hevent
  cases hpath : event.failedPath? with
  | some path =>
      obtain ⟨node, hnode⟩ := Option.isSome_iff_exists.mp (hfound event hevent path hpath)
      obtain ⟨loc, hloc, _⟩ := Option.bind_eq_some_iff.mp hnode
      rw [Event.attempt_of_failed hpath, Event.attempt_of_failed hpath, hloc]
      exact hpruned.subtree.resolve hloc
  | none => cases event <;> first | rfl | cases hpath

theorem trans (h : Takes cwd owns fs events fs') (h' : Takes cwd owns' fs' new fs'')
    (hapart : ∀ loc, owns loc → ∀ later, owns' later → ¬ loc <+: later) :
    Takes cwd (fun loc => owns loc ∨ owns' loc) fs (events ++ new) fs'' := by
  have hsame := attempts_eq h.pruned h'.found
  have howned := h'.owned
  have hordered := h'.ordered
  rw [← hsame] at howned hordered
  refine ⟨?_, h.bare.append fun front event hpart => ?_, fun event hevent path hpath => ?_,
    fun loc hloc => ?_, ?_⟩
  · apply (h.pruned.trans h'.pruned).congr
    intro loc _
    rw [removedLocs_append, List.mem_append]
  · intro loc node hevent
    obtain ⟨hnode, hentries⟩ := h'.bare front event hpart loc node hevent
    refine ⟨h.pruned.node_of_eq_some hnode, fun name hname => ?_⟩
    rw [removedLocs_append, List.mem_append]
    by_cases hgone : loc ++ [name] ∈ removedLocs events
    · exact Or.inl hgone
    · exact Or.inr (hentries name (h.pruned.mem_children.mpr ⟨hname, hgone⟩))
  · rcases List.mem_append.mp hevent with hevent | hevent
    · exact h.found event hevent path hpath
    · obtain ⟨node, hnode⟩ := Option.isSome_iff_exists.mp (h'.found event hevent path hpath)
      rw [h.pruned.subtree.lstat hnode]
      rfl
  · rw [attempts_append, List.mem_append] at hloc
    exact hloc.imp (h.owned loc) (howned loc)
  · rw [attempts_append, List.pairwise_append]
    exact ⟨h.ordered, hordered, fun loc hloc later hlater =>
      hapart loc (h.owned loc hloc) later (howned later hlater)⟩

/-- What comes before it leaves the tree alone. -/
theorem after (h : Takes cwd owns fs new fs')
    (hevents : ∀ event ∈ events, event.isPlaceless = true) :
    Takes cwd owns fs (events ++ new) fs' := by
  have hbefore : Takes cwd (fun _ => False) fs events fs := .of_placeless hevents
  exact (hbefore.trans h fun _ hnever => hnever.elim).mono fun _ howns => howns.resolve_left id

theorem before (h : Takes cwd owns fs events fs')
    (hnew : ∀ event ∈ new, event.isPlaceless = true) : Takes cwd owns fs (events ++ new) fs' := by
  have hafter : Takes cwd (fun _ => False) fs' new fs' := .of_placeless hnew
  refine (h.trans hafter fun _ _ _ hnever => ?_).mono fun _ howns => howns.resolve_right id
  exact hnever.elim

theorem cons {event : Event} (h : Takes cwd owns fs events fs')
    (hevent : event.isPlaceless = true) : Takes cwd owns fs (event :: events) fs' := by
  have hsingle : ∀ other ∈ [event], other.isPlaceless = true := by simpa using hevent
  exact h.after hsingle

theorem glances (h : Takes cwd owns fs' new fs'') (hglances : Glances fs events fs')
    (halone : Alone events) : Takes cwd owns fs (events ++ new) fs'' := by
  rw [hglances.still halone] at h
  exact h.after fun event hevent => Event.isPlaceless_of_isPlain (hglances.plain event hevent)

theorem of_glances (h : Glances fs events fs') (halone : Alone events) :
    Takes cwd owns fs events fs' := by
  rw [h.still halone]
  exact of_placeless fun event hevent => Event.isPlaceless_of_isPlain (h.plain event hevent)

theorem failed {event : Event} {path : Bytes} {loc : Loc}
    (hfailed : event.failedPath? = some path) (hloc : fs.resolve cwd false path = some loc)
    (hnode : (fs.node loc).isSome) (howns : owns loc) :
    Takes cwd owns fs [event] fs := by
  have hplace : event.attempt fs cwd = some loc := (Event.attempt_of_failed hfailed).trans hloc
  have hnone := Event.removedLoc?_of_failed hfailed
  refine ⟨.refl (by simp [removedLocs, hnone]), fun front other hpart place node hother => ?_,
    fun other hother path' hpath => ?_, by simpa [attempts, hplace] using howns,
    by simp [attempts, hplace]⟩
  · have hmem : other ∈ [event] := hpart.subset (by simp)
    rw [← List.mem_singleton.mp hmem, hother] at hnone
    cases hnone
  · rw [List.mem_singleton.mp hother, hfailed] at hpath
    rwa [← Option.some.inj hpath, FileSystem.lstat, hloc]

theorem removed {loc : Loc} {node : Node} (hnode : fs.node loc = some node)
    (herase : fs.erase loc = some fs') (howns : owns loc) :
    Takes cwd owns fs [.removed loc node] fs' where
  pruned := (Pruned.of_erase herase).congr fun other _ => by simp [removedLocs, Event.removedLoc?]
  bare front event hpart place other hevent := by
    have hmem : event ∈ [Event.removed loc node] := hpart.subset (by simp)
    simp only [hevent, List.mem_singleton, Event.removed.injEq] at hmem
    obtain ⟨rfl, rfl⟩ := hmem
    have hsome : (fs.erase place).isSome := by rw [herase]; rfl
    exact ⟨hnode, by simp [(FileSystem.erase_isSome.mp hsome).2.2]⟩
  found event hevent path hpath := by
    rw [List.mem_singleton.mp hevent] at hpath
    cases hpath
  owned := by simpa [attempts, Event.attempt] using howns
  ordered := by simp [attempts, Event.attempt]

/-- What was removed had been there from the start. -/
theorem node_of_removed {loc : Loc} {node : Node} (h : Takes cwd owns fs events fs')
    (hevent : .removed loc node ∈ events) : fs.node loc = some node := by
  obtain ⟨front, back, rfl⟩ := List.append_of_mem hevent
  have hpart : front ++ [.removed loc node] <+: front ++ .removed loc node :: back := by simp
  exact (h.bare front _ hpart loc node rfl).1

section Failed

variable {front back : List Event} {event : Event} {path : Bytes} {loc place : Loc}
  (h : Takes cwd owns fs (front ++ event :: back) fs') (hfailed : event.failedPath? = some path)
  (hloc : fs.resolve cwd false path = some loc)

include h hfailed hloc

theorem ordered_failed :
    (∀ place ∈ attempts fs cwd front, ¬ place <+: loc) ∧
      ∀ later ∈ attempts fs cwd back, ¬ loc <+: later := by
  have hback : attempts fs cwd (event :: back) = loc :: attempts fs cwd back :=
    List.filterMap_cons_some ((Event.attempt_of_failed hfailed).trans hloc)
  have hordered := h.ordered
  rw [attempts_append, hback, List.pairwise_append, List.pairwise_cons] at hordered
  exact ⟨fun place hplace => hordered.2.2 place hplace loc List.mem_cons_self, hordered.2.1.1⟩

/-- Nothing at or below an entry that resisted was removed later. -/
theorem not_removed_later (hpre : loc <+: place) : place ∉ removedLocs back := by
  intro hremoved
  exact (h.ordered_failed hfailed hloc).2 place (mem_attempts.mpr (Or.inl hremoved)) hpre

/-- What resisted was not removed at all. -/
theorem not_removed : loc ∉ removedLocs (front ++ event :: back) := by
  rw [removedLocs_append, removedLocs_failed hfailed, List.mem_append]
  rintro (hbefore | hlater)
  · have htried : loc ∈ attempts fs cwd front := mem_attempts.mpr (Or.inl hbefore)
    exact (h.ordered_failed hfailed hloc).1 loc htried List.prefix_rfl
  · exact h.not_removed_later hfailed hloc List.prefix_rfl hlater

end Failed

/-- What resisted is still there. -/
theorem resists {event : Event} {path : Bytes} (h : Takes cwd owns fs events fs')
    (hevent : event ∈ events) (hfailed : event.failedPath? = some path) :
    ∃ loc, fs.resolve cwd false path = some loc ∧ owns loc ∧ (fs'.node loc).isSome := by
  obtain ⟨node, hnode⟩ := Option.isSome_iff_exists.mp (h.found event hevent path hfailed)
  obtain ⟨loc, hloc, hthere⟩ := Option.bind_eq_some_iff.mp hnode
  refine ⟨loc, hloc, ?_, ?_⟩
  · exact h.owned loc (mem_attempts.mpr (Or.inr ⟨event, hevent, path, hfailed, hloc⟩))
  · obtain ⟨front, back, rfl⟩ := List.append_of_mem hevent
    rw [h.pruned.kept loc (h.not_removed hfailed hloc), hthere]
    rfl

end Takes

/-- `SafeRemove` tries the place that the name leads to. -/
theorem SafeRemoves.takes {cwd : Loc} {path : Bytes} {fs fs' : FileSystem} {events : List Event}
    {removed : Bool} (h : SafeRemoves cwd path fs events fs' removed) (halone : Alone events)
    {owns : Loc → Prop} (howns : ∀ loc, fs.resolve cwd false path = some loc → owns loc) :
    Takes cwd owns fs events fs' := by
  cases h with
  | missed hglances _ => exact .of_glances hglances halone
  | failed hglances hevent hloc hnode =>
      rw [alone_append] at halone
      rw [← hglances.still halone.1] at howns
      exact (Takes.failed hevent hloc hnode (howns _ hloc)).glances hglances halone.1
  | removed hglances hloc hnode herase =>
      rw [alone_append] at halone
      rw [← hglances.still halone.1] at howns
      exact (Takes.removed hnode herase (howns _ hloc)).glances hglances halone.1

/-! ## The places of a job -/

/-- On the tree `fs` the entries of these names stand in the directory `loc`, unless their names
lead nowhere. -/
structure EntriesAt (cwd : Loc) (fs : FileSystem) (path : Bytes) (loc : Loc)
    (names : List Name) : Prop where
  nodup : names.Nodup
  leads : ∀ name ∈ names, ∀ place, fs.resolve cwd false (child path name) = some place →
    place = loc ++ [name]

/-- The job is about the directory `loc` or its entries. -/
def Job.At (cwd : Loc) (fs : FileSystem) (loc : Loc) : Job → Prop
  | .remove path => ∀ place, fs.resolve cwd false path = some place → place = loc
  | .head path names _ _ => EntriesAt cwd fs path loc names
  | .tail path rest _ _ => EntriesAt cwd fs path loc rest
  | .children path names => EntriesAt cwd fs path loc names

theorem Job.remove_at {cwd loc : Loc} {fs : FileSystem} {path : Bytes}
    (hloc : fs.resolve cwd false path = some loc) : (Job.remove path).At cwd fs loc :=
  fun _ hplace => Option.some.inj (hplace.symm.trans hloc)

/-- A name that leads nowhere is about every place, and so about none. -/
theorem Job.remove_at_of_none {cwd : Loc} {fs : FileSystem} {path : Bytes}
    (hnone : fs.resolve cwd false path = none) (loc : Loc) : (Job.remove path).At cwd fs loc := by
  intro place hplace
  rw [hnone] at hplace
  cases hplace

/-- The places that are the job's to remove. -/
def Job.Owns (loc : Loc) : Job → Loc → Prop
  | .remove _, place => loc <+: place
  | .head _ names _ _, place => ∃ name ∈ names, loc ++ [name] <+: place
  | .tail _ rest _ _, place => ∃ name ∈ rest, loc ++ [name] <+: place
  | .children _ names, place => ∃ name ∈ names, loc ++ [name] <+: place

namespace EntriesAt

variable {cwd loc : Loc} {fs fs' : FileSystem} {path : Bytes} {name : Name} {rest : List Name}

theorem subtree {names : List Name} (h : EntriesAt cwd fs path loc names)
    (hsub : fs'.Subtree fs) : EntriesAt cwd fs' path loc names :=
  ⟨h.nodup, fun name hname place hplace => h.leads name hname place (hsub.resolve hplace)⟩

theorem tail (h : EntriesAt cwd fs path loc (name :: rest)) : EntriesAt cwd fs path loc rest :=
  ⟨(List.nodup_cons.mp h.nodup).2, fun other hother => h.leads other (.tail _ hother)⟩

/-- Nothing is at or below two entries. -/
theorem apart (h : EntriesAt cwd fs path loc (name :: rest)) {place : Loc}
    (hname : loc ++ [name] <+: place) : ¬ ∃ other ∈ rest, loc ++ [other] <+: place := by
  rintro ⟨other, hother, hpart⟩
  have hsame : loc ++ [name] = loc ++ [other] :=
    (List.prefix_of_prefix_length_le hname hpart (by simp)).eq_of_length (by simp)
  have heq : name = other := by simpa using hsame
  exact (List.nodup_cons.mp h.nodup).1 (heq ▸ hother)

end EntriesAt

/-- The entries that were listed stand in the directory. -/
theorem Lists.entriesAt {cwd loc : Loc} {path : Bytes} {fs fs' : FileSystem} {looks : List Event}
    {names : List Name} (h : Lists cwd path fs looks fs' names)
    (hat : ∀ place, fs'.resolve cwd false path = some place → place = loc) :
    EntriesAt cwd fs' path loc names := by
  have hlisting := h.listing
  rw [FreshCore.listing] at hlisting
  obtain ⟨place, hplace, hdir⟩ := Option.bind_eq_some_iff.mp hlisting
  split at hdir
  next hnode =>
    cases hdir
    obtain rfl := hat place hplace
    refine ⟨fs'.children_nodup place, fun name hname entry hentry => ?_⟩
    have hfollow := FileSystem.resolve_follow hplace hnode
    rw [FileSystem.resolve_child hfollow hnode (FileSystem.children_valid hname)] at hentry
    split at hentry
    · exact (Option.some.inj hentry).symm
    · cases hentry
  next => cases hdir

section Runs

variable {cwd loc : Loc} {limit : Int} {depth : Nat} {job : Job} {fs fs' : FileSystem}
  {events : List Event} {out : JobEnd}

/-- A child that is gone through before the others. -/
theorem Takes.child {path : Bytes} {name : Name} {rest : List Name} {fs₁ : FileSystem}
    {inner : List Event} (hat : EntriesAt cwd fs path loc (name :: rest))
    (hinner : Takes cwd (fun place => loc ++ [name] <+: place) fs inner fs₁)
    (hrest : EntriesAt cwd fs₁ path loc rest →
      Takes cwd (fun place => ∃ other ∈ rest, loc ++ [other] <+: place) fs₁ events fs') :
    Takes cwd (fun place => ∃ other ∈ name :: rest, loc ++ [other] <+: place) fs
      (inner ++ events) fs' := by
  have hnext := hrest (hat.tail.subtree hinner.pruned.subtree)
  apply (hinner.trans hnext fun place hplace later hlater hpart =>
    hat.apart (hplace.trans hpart) hlater).mono
  intro place hplace
  simpa using hplace

theorem owns_of_entry {names : List Name} (place : Loc)
    (h : ∃ name ∈ names, loc ++ [name] <+: place) : loc <+: place := by
  obtain ⟨name, _, hpart⟩ := h
  exact (List.prefix_append _ _).trans hpart

theorem owns_of_rest {name : Name} {rest : List Name} (place : Loc)
    (h : ∃ other ∈ rest, loc ++ [other] <+: place) :
    ∃ other ∈ name :: rest, loc ++ [other] <+: place := by
  obtain ⟨other, hother, hpart⟩ := h
  exact ⟨other, .tail _ hother, hpart⟩

theorem owns_of_head {name : Name} {rest : List Name} (place : Loc)
    (h : loc ++ [name] <+: place) : ∃ other ∈ name :: rest, loc ++ [other] <+: place :=
  ⟨name, List.mem_cons_self, h⟩

/-- By induction on the run, each part of which has its own places. -/
theorem Run.takes (h : Run cwd limit depth job fs events fs' out) (halone : Alone events)
    (hat : job.At cwd fs loc) : Takes cwd (job.Owns loc) fs events fs' := by
  induction h generalizing loc with
  | deep => exact .of_placeless (by simp)
  | refused hglances => exact .of_glances hglances halone
  | givenUp hlists _ ih =>
      simp only [alone_append, alone_cons] at halone
      have hsame := hlists.glances.still halone.1
      have hloop := ih halone.2.2.1 (hlists.entriesAt (hsame ▸ hat))
      refine (((hloop.before ?_).cons rfl).glances hlists.glances halone.1).mono ?_
      · simp [Event.isPlaceless]
      · exact owns_of_entry
  | cutInside hlists _ ih =>
      simp only [alone_append, alone_cons] at halone
      have hsame := hlists.glances.still halone.1
      have hloop := ih halone.2.2 (hlists.entriesAt (hsame ▸ hat))
      exact ((hloop.cons rfl).glances hlists.glances halone.1).mono owns_of_entry
  | done hlists _ hslow hlast ih =>
      simp only [alone_append, alone_cons] at halone
      obtain ⟨halone₁, -, halone₂, halone₃, -, -, halone₄⟩ := halone
      have hsame := hlists.glances.still halone₁
      have hloop := ih halone₂ (hlists.entriesAt (hsame ▸ hat))
      have hself : Takes cwd (fun place => place = loc) _ _ _ :=
        hlast.takes halone₄ fun place hplace =>
          hat place (hsame ▸ hloop.pruned.subtree.resolve hplace)
      refine (((hloop.trans (((hself.cons rfl).cons rfl).glances hslow halone₃) ?_).cons
        rfl).glances hlists.glances halone₁).mono ?_
      · rintro place ⟨name, _, hpart⟩ _ rfl hbelow
        simpa using (hpart.trans hbelow).length_le
      · rintro place (hentry | rfl)
        · exact owns_of_entry place hentry
        · exact List.prefix_rfl
  | nil => exact .of_placeless (by simp)
  | busy hglances => exact .of_glances hglances halone
  | gone hchecks _ _ ih =>
      rw [alone_append] at halone
      have hsame := hchecks.glances.still halone.1
      have hrest := ih halone.2 (hsame ▸ hat.tail)
      exact (hrest.mono owns_of_rest).glances hchecks.glances halone.1
  | @unseen _ path name _ _ _ _ _ _ _ _ _ hchecks hthere _ ih =>
      simp only [alone_append, alone_cons] at halone
      have hsame := hchecks.glances.still halone.1
      rw [← hsame] at hat
      obtain ⟨node, hnode⟩ := Option.isSome_iff_exists.mp hthere
      obtain ⟨place, hplace, hnode⟩ := Option.bind_eq_some_iff.mp hnode
      have hentry : Takes cwd (fun place => loc ++ [name] <+: place) _
          [.lstatFailed (child path name)] _ :=
        .failed rfl hplace (Option.isSome_of_eq_some hnode)
          (by rw [hat.leads _ List.mem_cons_self place hplace])
      exact (Takes.child hat hentry (ih halone.2.2)).glances hchecks.glances halone.1
  | file hchecks _ _ hremoves _ ih =>
      simp only [alone_append] at halone
      have hsame := hchecks.glances.still halone.1
      rw [← hsame] at hat
      have hfile := hremoves.takes halone.2.1 fun place hplace => show loc ++ [_] <+: place by
        rw [hat.leads _ List.mem_cons_self place hplace]
      exact (Takes.child hat hfile (ih halone.2.2)).glances hchecks.glances halone.1
  | dir hchecks _ _ _ ihinner ih =>
      simp only [alone_append] at halone
      have hsame := hchecks.glances.still halone.1
      rw [← hsame] at hat
      have hinner := ihinner halone.2.1 (hat.leads _ List.mem_cons_self)
      exact (Takes.child hat hinner (ih halone.2.2)).glances hchecks.glances halone.1
  | aborted hchecks _ _ ih =>
      rw [alone_append] at halone
      have hsame := hchecks.glances.still halone.1
      have hinner := ih halone.2 ((hsame ▸ hat).leads _ List.mem_cons_self)
      exact (hinner.mono owns_of_head).glances hchecks.glances halone.1
  | cutBelow hchecks _ _ ih =>
      rw [alone_append] at halone
      have hsame := hchecks.glances.still halone.1
      have hinner := ih halone.2 ((hsame ▸ hat).leads _ List.mem_cons_self)
      exact (hinner.mono owns_of_head).glances hchecks.glances halone.1
  | onward _ _ ih => exact ih halone hat
  | full _ hslow =>
      rw [alone_append] at halone
      exact (Takes.of_placeless (by simp [Event.isPlaceless])).glances hslow halone.1
  | batch _ hslow _ ih =>
      simp only [alone_append, alone_cons] at halone
      exact ((ih halone.2.2 hat).cons rfl).glances hslow halone.1
  | none => exact .of_placeless (by simp)
  | next _ _ ihinner ih =>
      rw [alone_append] at halone
      have hinner := ihinner halone.1 (hat.leads _ List.mem_cons_self)
      exact Takes.child hat hinner (ih halone.2)
  | stop _ ih => exact (ih halone (hat.leads _ List.mem_cons_self)).mono owns_of_head
  | cutChild _ ih => exact (ih halone (hat.leads _ List.mem_cons_self)).mono owns_of_head

/-- The tree is not deeper than the recursion may go. -/
def Job.Fits (fs : FileSystem) (loc : Loc) (depth : Nat) : Job → Prop
  | .remove _ => 0 < depth ∧ fs.Shallow loc depth
  | .head _ _ _ _ => fs.Shallow loc (depth + 1)
  | .tail _ _ _ _ => fs.Shallow loc (depth + 1)
  | .children _ _ => 0 < depth ∧ fs.Shallow loc (depth + 1)

/-- A directory among the entries is not too deep. -/
theorem EntriesAt.fits {path child' : Bytes} {name : Name} {rest : List Name}
    (hat : EntriesAt cwd fs path loc (name :: rest)) (hshallow : fs.Shallow loc (depth + 1))
    (hdir : fs.lstat cwd (child path name) = some .dir) :
    (Job.remove child').Fits fs (loc ++ [name]) depth := by
  obtain ⟨place, hplace, hnode⟩ := Option.bind_eq_some_iff.mp hdir
  rw [hat.leads name List.mem_cons_self place hplace] at hnode
  exact ⟨hshallow.entry name [] (by rw [List.append_nil, hnode]), hshallow.entry name⟩

/-- By induction on the run, one level deeper with each directory. -/
theorem Run.not_cut (h : Run cwd limit depth job fs events fs' out) (halone : Alone events)
    (hat : job.At cwd fs loc) (hfits : job.Fits fs loc depth) : out ≠ .cut := by
  induction h generalizing loc with
  | deep => exact absurd hfits.1 (Nat.lt_irrefl 0)
  | cutInside hlists _ ih =>
      simp only [alone_append, alone_cons] at halone
      have hsame := hlists.glances.still halone.1
      exact ih halone.2.2 (hlists.entriesAt (hsame ▸ hat)) (hsame ▸ hfits.2)
  | gone hchecks _ _ ih =>
      rw [alone_append] at halone
      have hsame := hchecks.glances.still halone.1
      exact ih halone.2 (hsame ▸ hat.tail) (hsame ▸ hfits)
  | unseen hchecks _ _ ih =>
      simp only [alone_append, alone_cons] at halone
      have hsame := hchecks.glances.still halone.1
      exact ih halone.2.2 (hsame ▸ hat.tail) (hsame ▸ hfits)
  | file hchecks _ _ hremoves _ ih =>
      simp only [alone_append] at halone
      have hsame := hchecks.glances.still halone.1
      have hfile : Takes cwd (fun _ => True) _ _ _ :=
        hremoves.takes halone.2.1 fun _ _ => trivial
      rw [← hsame] at hat hfits
      have hsub := hfile.pruned.subtree
      exact ih halone.2.2 (hat.tail.subtree hsub) (hsub.shallow hfits)
  | dir hchecks _ hinner _ _ ih =>
      simp only [alone_append] at halone
      have hsame := hchecks.glances.still halone.1
      rw [← hsame] at hat hfits
      have hchild := hinner.takes halone.2.1 (hat.leads _ List.mem_cons_self)
      have hsub := hchild.pruned.subtree
      exact ih halone.2.2 (hat.tail.subtree hsub) (hsub.shallow hfits)
  | cutBelow hchecks hdir _ ih =>
      rw [alone_append] at halone
      have hsame := hchecks.glances.still halone.1
      rw [← hsame] at hat hfits
      exact ih halone.2 (hat.leads _ List.mem_cons_self) (hat.fits hfits hdir)
  | onward _ _ ih => exact ih halone hat hfits
  | batch _ _ _ ih =>
      simp only [alone_append, alone_cons] at halone
      exact ih halone.2.2 hat hfits
  | next hinner _ _ ih =>
      rw [alone_append] at halone
      have hchild := hinner.takes halone.1 (hat.leads _ List.mem_cons_self)
      have hsub := hchild.pruned.subtree
      exact ih halone.2 (hat.tail.subtree hsub) ⟨hfits.1, hsub.shallow hfits.2⟩
  | cutChild _ ih =>
      exact ih halone (hat.leads _ List.mem_cons_self) ⟨hfits.1, hfits.2.entry _⟩
  | _ => simp

end Runs

/-! ## The runs of the code -/

/-- The cleaner takes only what stands below its directory. -/
theorem Cleanup.takes {cwd loc : Loc} {limit : Int} {depth : Nat} {path : Bytes}
    {fs fs' : FileSystem} {events : List Event} {out : JobEnd}
    (h : Cleanup cwd limit depth path fs events fs' out) (halone : Alone events)
    (hat : ∀ place, fs.resolve cwd false path = some place → place = loc) :
    Takes cwd (Below loc) fs events fs' := by
  have hbelow {names : List Name} (place : Loc) (h : ∃ name ∈ names, loc ++ [name] <+: place) :
      Below loc place := by
    obtain ⟨name, _, hpart⟩ := h
    exact (below_child loc name).trans hpart
  cases h with
  | unlisted hglances => exact .of_glances hglances halone
  | cut hlists hrun =>
      simp only [alone_append, alone_cons] at halone
      have hsame := hlists.glances.still halone.1
      have hloop := hrun.takes halone.2.2 (hlists.entriesAt (hsame ▸ hat))
      exact ((hloop.cons rfl).glances hlists.glances halone.1).mono hbelow
  | stopped hlists hrun =>
      simp only [alone_append, alone_cons] at halone
      have hsame := hlists.glances.still halone.1
      have hloop := hrun.takes halone.2.2.1 (hlists.entriesAt (hsame ▸ hat))
      refine (((hloop.before ?_).cons rfl).glances hlists.glances halone.1).mono hbelow
      simp [Event.isPlaceless]
  | recorded hlists hrun hsaved =>
      simp only [alone_append, alone_cons] at halone
      have hsame := hlists.glances.still halone.1
      have hloop := hrun.takes halone.2.2.1 (hlists.entriesAt (hsame ▸ hat))
      refine (((hloop.before ?_).cons rfl).glances hlists.glances halone.1).mono hbelow
      have hplaceless : ∀ event ∈ _, Event.isPlaceless event = true :=
        fun event hevent => Event.isPlaceless_of_isPlain (hsaved.plain event hevent)
      simpa [Event.isPlaceless] using hplaceless

/-- A removal of what the name leads to: nothing else has changed, what is gone is what the log
says, and each directory went after all of its entries. -/
structure StaysBelow (cwd : Loc) (path : Bytes) (fs : FileSystem) (events : List Event)
    (fs' : FileSystem) : Prop where
  elsewhere : ∀ place, (∀ loc, fs.resolve cwd false path = some loc → ¬ loc <+: place) →
    fs'.node place = fs.node place
  pruned : Pruned (fun loc => loc ∈ removedLocs events) fs fs'
  bare : Throughout (TakenBare fs) events

section Code

variable {env : Env} {depth : Nat}

theorem removeRecursiveBatched_takes (hquiet : env.Quiet) (path : Bytes) (w : World) :
    Takes env.cwd (fun place => ∃ loc, w.fs.resolve env.cwd false path = some loc ∧ loc <+: place)
      w.fs (eventsOf (removeRecursiveBatched env depth path) w)
      ((removeRecursiveBatched env depth path).run w).2.fs := by
  obtain ⟨events, htraced, hrun⟩ := removeRecursiveBatched_does env depth path w
  have halone := htraced.alone hquiet
  rw [htraced.eventsOf_eq]
  cases hloc : w.fs.resolve env.cwd false path with
  | none =>
      have hnowhere := Job.remove_at_of_none hloc
      obtain ⟨hpruned, hbare, hfound, _, hordered⟩ := hrun.takes halone (hnowhere [])
      refine ⟨hpruned, hbare, hfound, fun place hplace => ?_, hordered⟩
      have hpart : place ++ [[]] <+: place :=
        (hrun.takes halone (hnowhere (place ++ [[]]))).owned place hplace
      exact absurd hpart.length_le (by simp)
  | some loc =>
      exact (hrun.takes halone (Job.remove_at hloc)).mono fun place hpart => ⟨loc, rfl, hpart⟩

theorem cleanDirectorySafely_takes (hquiet : env.Quiet) {targetDir : CacheDirInfo} {w : World}
    {loc : Loc} (hloc : w.fs.resolve env.cwd false targetDir.path = some loc) :
    Takes env.cwd (Below loc) w.fs (eventsOf (cleanDirectorySafely env depth targetDir) w)
      ((cleanDirectorySafely env depth targetDir).run w).2.fs := by
  obtain ⟨events, htraced, hcleanup⟩ := cleanDirectorySafely_does env depth targetDir w
  rw [htraced.eventsOf_eq]
  exact hcleanup.takes (htraced.alone hquiet) (Job.remove_at hloc)

/-- With enough depth the remover returns. -/
theorem removeRecursiveBatched_isSome {path : Bytes} {w : World}
    (hdepth : ∀ loc ∈ w.fs.locs, loc.length < depth)
    (halone : Alone (eventsOf (removeRecursiveBatched env depth path) w)) :
    ((removeRecursiveBatched env depth path).run w).1.isSome := by
  obtain ⟨events, htraced, hrun⟩ := removeRecursiveBatched_does env depth path w
  rw [htraced.eventsOf_eq] at halone
  have hreturns (loc : Loc) (hat : (Job.remove path).At env.cwd w.fs loc) :
      ((removeRecursiveBatched env depth path).run w).1.isSome := by
    have hnot := hrun.not_cut halone hat
      ⟨FileSystem.depth_pos hdepth, FileSystem.shallow_of_locs hdepth loc⟩
    cases hresult : ((removeRecursiveBatched env depth path).run w).1 with
    | none => simp [hresult, removeEnd] at hnot
    | some completed => rfl
  cases hloc : w.fs.resolve env.cwd false path with
  | none => exact hreturns [] (Job.remove_at_of_none hloc [])
  | some loc => exact hreturns loc (Job.remove_at hloc)

/-- What is not the run's stays. -/
theorem Takes.elsewhere {cwd : Loc} {owns : Loc → Prop} {fs fs' : FileSystem}
    {events : List Event} (h : Takes cwd owns fs events fs') {place : Loc}
    (hplace : ¬ owns place) : fs'.node place = fs.node place :=
  h.pruned.kept place fun hremoved => hplace (h.owned place (mem_attempts.mpr (Or.inl hremoved)))

/-- Whatever is read, refused or fails on the way, and wherever the run ends. -/
theorem removal_confined (hquiet : env.Quiet) (depth : Nat) (w : World) :
    (∀ path, StaysBelow env.cwd path w.fs (eventsOf (removeRecursiveBatched env depth path) w)
      ((removeRecursiveBatched env depth path).run w).2.fs) ∧
    ∀ targetDir loc, w.fs.resolve env.cwd false targetDir.path = some loc →
      ((cleanDirectorySafely env depth targetDir).run w).2.fs.node loc = w.fs.node loc := by
  constructor
  · intro path
    have htakes : Takes env.cwd _ w.fs (eventsOf (removeRecursiveBatched env depth path) w) _ :=
      removeRecursiveBatched_takes hquiet path w
    refine ⟨fun place hplace => htakes.elsewhere ?_, htakes.pruned, htakes.bare⟩
    rintro ⟨loc, hloc, hpart⟩
    exact hplace loc hloc hpart
  · intro targetDir loc hloc
    exact (cleanDirectorySafely_takes hquiet hloc).elsewhere fun hbelow => hbelow.2 rfl

end Code

/-- A directory with a file and a link to another directory. -/
def linkedFolderWorld : World where
  fs := FsStep.applyAll .bare [
    .mkdir [] (lit "a"),
    .mkdir [lit "a"] (lit "d"),
    .create [lit "a", lit "d"] (lit "f") 10,
    .symlink [lit "a", lit "d"] (lit "l") (lit "/b"),
    .mkdir [] (lit "b"),
    .create [lit "b"] (lit "g") 20]

theorem removal_confined_linked :
    let removal := (removeRecursiveBatched restingDevice 3 (lit "/a/d")).run linkedFolderWorld
    let cleaning := (cleanDirectorySafely restingDevice 3 ⟨lit "/a", lit "a", 0, false⟩).run
      linkedFolderWorld
    StaysBelow [] (lit "/a/d") linkedFolderWorld.fs
        (eventsOf (removeRecursiveBatched restingDevice 3 (lit "/a/d")) linkedFolderWorld)
        removal.2.fs ∧
      removal.2.fs.node [lit "a", lit "d"] = none ∧
      removal.2.fs.node [lit "b", lit "g"] = some (.file 20) ∧
      cleaning.2.fs.node [lit "a"] = linkedFolderWorld.fs.node [lit "a"] := by
  obtain ⟨hremoval, hcleaning⟩ := removal_confined restingDevice_quiet 3 linkedFolderWorld
  refine ⟨hremoval (lit "/a/d"), by decide +kernel, by decide +kernel, ?_⟩
  exact hcleaning ⟨lit "/a", lit "a", 0, false⟩ [lit "a"] (by decide +kernel)

end FreshCore
