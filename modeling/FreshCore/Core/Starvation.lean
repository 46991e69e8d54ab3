import FreshCore.Core.TargetTurns

/-!
# Targets that are never reached

What lies directly in a cache directory and is not a directory itself is never removed, and
stops each maintenance at that directory. Whatever the device is doing meanwhile, the targets of
lower priority are not reached for as long as it lies there, and the daemon leaves it there.
-/

namespace FreshCore

open Posix Imperative Config Device Cache

variable {env : Env} {depth : Nat} {cwd dir : Loc} {limit : Int} {fs fs' : FileSystem}
  {path : Bytes} {name : Name} {node : Node} {events : List Event} {out : JobEnd}

/-! ## What the cleaner spares -/

theorem not_lists (hat : ∀ place, fs.resolve cwd false path = some place → place = dir)
    (hnot : fs.node dir ≠ some .dir) (names : List Name) : listing fs cwd path ≠ some names := by
  intro hlisting
  rw [listing] at hlisting
  obtain ⟨place, hplace, hentries⟩ := Option.bind_eq_some_iff.mp hlisting
  rw [hat place hplace, if_neg hnot] at hentries
  cases hentries

/-- The remover does nothing to what is not a directory, and does not come to its end. -/
theorem Run.remove_spares (h : Run cwd limit depth (.remove path) fs events fs' out)
    (halone : Alone events)
    (hat : ∀ place, fs.resolve cwd false path = some place → place = dir)
    (hnot : fs.node dir ≠ some .dir) : fs' = fs ∧ out ≠ .returned true := by
  cases h with
  | deep => exact ⟨rfl, by simp⟩
  | refused hglances => exact ⟨hglances.still halone, by simp⟩
  | givenUp hlists _ | cutInside hlists _ =>
      rw [alone_append] at halone
      exact absurd (hlists.glances.still halone.1 ▸ hlists.listing) (not_lists hat hnot _)
  | done hlists _ _ _ =>
      rw [alone_append] at halone
      exact absurd (hlists.glances.still halone.1 ▸ hlists.listing) (not_lists hat hnot _)

/-- The loop over a cache directory spares its entry, and does not come to its end if it comes
to it. -/
theorem Run.children_spares {names : List Name}
    (h : Run cwd limit depth (.children path names) fs events fs' out) (halone : Alone events)
    (hat : EntriesAt cwd fs path dir names) (hnode : fs.node (dir ++ [name]) = some node)
    (hnot : node ≠ .dir) :
    fs'.node (dir ++ [name]) = some node ∧ (name ∈ names → out ≠ .returned true) := by
  induction names generalizing fs events with
  | nil =>
      cases h
      exact ⟨hnode, by simp⟩
  | cons first rest ih =>
      have hhead {inner : List Event} {fs₁ : FileSystem} {end₁ : JobEnd}
          (hinner : Run cwd limit depth (.remove (child path first)) fs inner fs₁ end₁)
          (halone₁ : Alone inner) :
          fs₁.node (dir ++ [name]) = some node ∧ (name = first → end₁ ≠ .returned true) := by
        have hleads := hat.leads first List.mem_cons_self
        by_cases hfirst : name = first
        · subst hfirst
          have hnotDir : fs.node (dir ++ [name]) ≠ some .dir := by simpa [hnode] using hnot
          obtain ⟨rfl, hend⟩ := hinner.remove_spares halone₁ hleads hnotDir
          exact ⟨hnode, fun _ => hend⟩
        · refine ⟨?_, fun h => absurd h hfirst⟩
          rw [(hinner.takes halone₁ hleads).elsewhere, hnode]
          exact HasEntries.not_under hfirst
      cases h with
      | next hinner hrest =>
          rw [alone_append] at halone
          obtain ⟨hthere, hself⟩ := hhead hinner halone.1
          have htakes := hinner.takes halone.1 (hat.leads first List.mem_cons_self)
          obtain ⟨hkept, hloop⟩ := ih hrest halone.2 (hat.tail.subtree htakes.pruned.subtree) hthere
          refine ⟨hkept, fun hmem => ?_⟩
          rcases List.mem_cons.mp hmem with hname | hname
          · exact absurd rfl (hself hname)
          · exact hloop hname
      | stop hinner => exact ⟨(hhead hinner halone).1, by simp⟩
      | cutChild hinner => exact ⟨(hhead hinner halone).1, by simp⟩

/-- So does the loop that comes after a listing. -/
theorem Lists.spares {names : List Name} {looks inner : List Event} {fs'' : FileSystem}
    (h : Lists cwd path fs looks fs' names) (hlooks : Alone looks)
    (hrun : Run cwd limit depth (.children path names) fs' inner fs'' out) (hinner : Alone inner)
    (hdir : DirAt cwd path dir fs) (hnode : fs.node (dir ++ [name]) = some node)
    (hnot : node ≠ .dir) : fs''.node (dir ++ [name]) = some node := by
  obtain rfl := h.glances.still hlooks
  have hentries := h.entriesAt (Job.remove_at hdir.leads.resolve)
  exact (hrun.children_spares hinner hentries hnode hnot).1

theorem Cleanup.spares (h : Cleanup cwd limit depth path fs events fs' out)
    (halone : Alone events) (hdir : DirAt cwd path dir fs)
    (hnode : fs.node (dir ++ [name]) = some node) (hnot : node ≠ .dir) :
    fs'.node (dir ++ [name]) = some node := by
  cases h with
  | unlisted hglances => rw [hglances.still halone, hnode]
  | cut hlists hrun =>
      simp only [alone_append, alone_cons] at halone
      exact hlists.spares halone.1 hrun halone.2.2 hdir hnode hnot
  | stopped hlists hrun =>
      simp only [alone_append, alone_cons] at halone
      exact hlists.spares halone.1 hrun halone.2.2.1 hdir hnode hnot
  | recorded hlists hrun _ =>
      simp only [alone_append, alone_cons] at halone
      exact hlists.spares halone.1 hrun halone.2.2.1 hdir hnode hnot

/-- The listing of a directory failed. -/
def Event.isListFailed : Event → Bool
  | listFailed _ => true
  | _ => false

/-- A directory that is there is listed, unless that fails. -/
theorem getDirectoryChildren_found (hquiet : env.Quiet) {w : World}
    (hdir : DirAt env.cwd path dir w.fs) :
    ∃ children w' new, (getDirectoryChildren env path).run w = (some children, w') ∧
      w'.fs = w.fs ∧ w'.log = w.log ++ new ∧
      (children = some (w.fs.children dir) ∨
        children = none ∧ Occurs Event.isListFailed new) := by
  obtain ⟨entries, w₁, new, hrun, hfs, _, hlog, hfound⟩ := listDirectory_quiet hquiet path w
  rw [getDirectoryChildren, Program.run_bind_of_some hrun]
  rw [hdir.listing] at hfound
  rcases hfound with ⟨hlisting, rfl⟩ | ⟨rfl, rfl⟩
  · refine ⟨_, _, [.listed path (some (w.fs.children dir))], rfl, hfs, ?_, Or.inl hlisting⟩
    rw [← hlisting, ← List.append_nil w.log, ← hlog]
    rfl
  · refine ⟨_, _, [.listFailed path, .listed path none], rfl, hfs, ?_, Or.inr ⟨rfl, ?_⟩⟩
    · rw [← List.singleton_append, ← List.append_assoc, ← hlog]
      rfl
    · exact ⟨.listFailed path, List.mem_cons_self, rfl⟩

/-- A cleaning comes to its end where not all are directories only if they were not listed. -/
theorem cleanDirectorySafely_unlisted (hquiet : env.Quiet) {w : World} {targetDir : CacheDirInfo}
    (hdir : DirAt env.cwd targetDir.path dir w.fs) (hnot : ¬ DirsOnly w.fs dir)
    (hresult : ((cleanDirectorySafely env depth targetDir).run w).1 = some true) :
    Occurs Event.isListFailed (eventsOf (cleanDirectorySafely env depth targetDir) w) := by
  obtain ⟨children, w₁, new, hlist, hfs, hlog, hfound⟩ := getDirectoryChildren_found hquiet hdir
  unfold eventsOf
  rw [cleanDirectorySafely, Program.run_bind_of_some hlist] at hresult ⊢
  rcases hfound with rfl | ⟨rfl, hfailed⟩
  · dsimp only at hresult
    rcases hrun : Program.run _ w₁ with ⟨result, w'⟩
    rw [hrun] at hresult
    cases hresult
    obtain ⟨_, w₂, henter, hrun⟩ := Program.run_bind_eq_some.mp hrun
    obtain ⟨completed, w₃, hloop, hrun⟩ := Program.run_bind_eq_some.mp hrun
    obtain ⟨_, w₄, _, hrun⟩ := Program.run_bind_eq_some.mp hrun
    cases completed with
    | false => cases hrun
    | true =>
        obtain ⟨w₂', henter', hfs₂, _⟩ := @enter_traced env targetDir.path w₁
        have hentered : w₂' = w₂ := congrArg Prod.snd (henter'.symm.trans henter)
        have hsame : w₂.fs = w.fs := by rw [← hentered, hfs₂, hfs]
        obtain ⟨events, htraced, hchildren⟩ :=
          cleanChildren_does env depth targetDir.path (w.fs.children dir) w₂
        rw [hloop, hsame] at hchildren
        have hlists : Lists env.cwd targetDir.path w.fs [] w.fs (w.fs.children dir) :=
          ⟨.refl w.fs, hdir.listing⟩
        obtain ⟨name, node, hnode, hother⟩ := not_dirsOnly_iff.mp hnot
        have hspares := hchildren.children_spares (htraced.alone hquiet)
          (hlists.entriesAt (Job.remove_at hdir.leads.resolve)) hnode hother
        exact absurd rfl
          (hspares.2 (FileSystem.mem_children.mpr (Option.isSome_of_eq_some hnode)))
  · have hend : ((Pure.pure true : Daemon Bool).run w₁).2.log = w.log ++ new := hlog
    rw [hend, List.drop_left]
    exact hfailed

/-! ## The loop over the targets -/

/-- Nothing has changed but below these directories, and what lies in one of them and is not a
directory itself is still there. -/
structure Held (dirs : List Loc) (dir : Loc) (fs fs' : FileSystem) : Prop where
  unchanged : ∀ place, ¬ Inside dirs place → fs'.node place = fs.node place
  kept : ∀ name node, fs.node (dir ++ [name]) = some node → node ≠ .dir →
    fs'.node (dir ++ [name]) = some node

theorem Held.refl {dirs : List Loc} : Held dirs dir fs fs where
  unchanged _ _ := rfl
  kept _ _ hnode _ := hnode

theorem Held.trans {dirs : List Loc} {fs'' : FileSystem} (h : Held dirs dir fs fs')
    (h' : Held dirs dir fs' fs'') : Held dirs dir fs fs'' where
  unchanged place hplace := (h'.unchanged place hplace).trans (h.unchanged place hplace)
  kept name node hnode hnot := h'.kept name node (h.kept name node hnode hnot) hnot

/-- What blocked the cleaner blocks it still. -/
theorem Held.blocked {dirs : List Loc} (h : Held dirs dir fs fs') (hnot : ¬ DirsOnly fs dir) :
    ¬ DirsOnly fs' dir := by
  obtain ⟨name, node, hnode, hother⟩ := not_dirsOnly_iff.mp hnot
  exact not_dirsOnly_iff.mpr ⟨name, node, h.kept name node hnode hother, hother⟩

/-- A cleaning of one of the directories. -/
theorem cleanDirectorySafely_held (hquiet : env.Quiet) {w : World} {targetDir : CacheDirInfo}
    {dirs : List Loc} {other : Loc} (hlaid : Laid env.cwd dirs targetDir.path other w.fs)
    (hmem : other ∈ dirs) (hapart : ¬ Inside dirs dir) :
    Held dirs dir w.fs ((cleanDirectorySafely env depth targetDir).run w).2.fs := by
  obtain ⟨gone, hgone, hpruned⟩ :=
    @cleanDirectorySafely_prunes env depth hquiet w targetDir other (hlaid.dirAt hmem)
  constructor
  · intro place hplace
    exact hpruned.kept place fun htaken => hplace ⟨other, hmem, hgone place htaken⟩
  · intro name node hnode hnot
    by_cases hself : dir = other
    · subst hself
      obtain ⟨events, htraced, hcleanup⟩ := cleanDirectorySafely_does env depth targetDir w
      exact hcleanup.spares (htraced.alone hquiet) (hlaid.dirAt hmem) hnode hnot
    · have hthere := not_gone_entry hgone hself (fun hbelow => hapart ⟨other, hmem, hbelow⟩) name
      rw [hpruned.kept _ hthere, hnode]

section Loop

variable {mark : Nat} {dirs : List Loc}

/-- The tree is held, unless a directory was not listed. -/
def Holding (mark : Nat) (dirs : List Loc) (dir : Loc) (fs : FileSystem) : World → Prop :=
  Unless Event.isListFailed mark fun w => Held dirs dir fs w.fs

theorem evaluateIdleState_holding :
    Program.Triple (Holding mark dirs dir fs) (evaluateIdleState env)
      (fun _ => Holding mark dirs dir fs) (Holding mark dirs dir fs) := by
  apply Program.Triple.of_state
  intro w hw
  obtain ⟨idle, w', looks, hrun, hfs, htraced, _⟩ := evaluateIdleState_traced env w
  rw [hrun]
  exact hw.extend htraced.log fun _ hheld => Or.inr (hfs ▸ hheld)

theorem cleanDirectorySafely_holding (hquiet : env.Quiet) {targetDir : CacheDirInfo} {other : Loc}
    (hlaid : Laid env.cwd dirs targetDir.path other fs) (hmem : other ∈ dirs)
    (hapart : ¬ Inside dirs dir) (hnot : ¬ DirsOnly fs dir) :
    Program.Triple (Holding mark dirs dir fs) (cleanDirectorySafely env depth targetDir)
      (fun completed => Unless Event.isListFailed mark fun w =>
        Held dirs dir fs w.fs ∧ (other = dir → completed = false))
      (Holding mark dirs dir fs) := by
  intro w hw
  obtain ⟨events, htraced, _⟩ := cleanDirectorySafely_does env depth targetDir w
  have hheld (h : Held dirs dir fs w.fs) :=
    h.trans (@cleanDirectorySafely_held env depth dir hquiet w targetDir dirs other
      (hlaid.agree h.unchanged) hmem hapart)
  have hstops (h : Held dirs dir fs w.fs) (hself : other = dir) :=
    @cleanDirectorySafely_unlisted env depth dir hquiet w targetDir
      (hself ▸ (hlaid.agree h.unchanged).dirAt hmem) (h.blocked hnot)
  rw [htraced.eventsOf_eq] at hstops
  rcases hrun : (cleanDirectorySafely env depth targetDir).run w with ⟨_ | completed, w'⟩ <;>
    rw [hrun] at htraced hheld hstops
  · rw [Program.post_none]
    exact Unless.extend hw htraced.log fun _ h => Or.inr (hheld h)
  · rw [Program.post_some]
    refine Unless.extend hw htraced.log fun _ h => ?_
    cases completed with
    | false => exact Or.inr ⟨hheld h, fun _ => rfl⟩
    | true =>
        by_cases hself : other = dir
        · exact Or.inl (hstops h hself rfl)
        · exact Or.inr ⟨hheld h, fun heq => absurd heq hself⟩

/-- Code that is not come to unless a directory was not listed. -/
theorem holding_of_false {α : Type} {x : Daemon α} {scope : Scope} (hwithin : Within env scope x)
    (state : α → World → Prop) :
    Program.Triple (Unless Event.isListFailed mark fun _ => False) x
      (fun a => Unless Event.isListFailed mark (state a)) (Holding mark dirs dir fs) := by
  intro w hw
  obtain ⟨hmark, new, hsince, _⟩ := (hwithin.reaches w).since hw.1
  have hoccurs := (hw.2.resolve_right id).append new
  rw [← hsince] at hoccurs
  rcases hrun : x.run w with ⟨_ | a, w'⟩ <;> rw [hrun] at hmark hoccurs
  · exact ⟨hmark, Or.inl hoccurs⟩
  · exact ⟨hmark, Or.inl hoccurs⟩

/-- By induction on the targets before the one that is blocked, where the loop ends if it has
not ended before. -/
theorem cleanTargets_holding (hquiet : env.Quiet) {before : List (MaintenanceTarget × Loc)}
    {blocked : MaintenanceTarget} (after : List MaintenanceTarget)
    (hlaid : ∀ place ∈ before ++ [(blocked, dir)], place.2 ∈ dirs ∧
      Laid env.cwd dirs place.1.cacheDir.path place.2 fs)
    (hapart : ¬ Inside dirs dir) (hnot : ¬ DirsOnly fs dir) :
    Program.Triple (Holding mark dirs dir fs)
      (cleanTargets env depth (before.map Prod.fst ++ blocked :: after))
      (fun completed => Unless Event.isListFailed mark fun w =>
        Held dirs dir fs w.fs ∧ completed = false)
      (Holding mark dirs dir fs) := by
  induction before with
  | nil =>
      obtain ⟨hmem, hblocked⟩ := hlaid (blocked, dir) (by simp)
      rw [List.map_nil, List.nil_append, cleanTargets]
      refine .bind evaluateIdleState_holding fun idle => .ite (fun _ => ?_) fun _ => ?_
      · exact .pure fun w hw => hw.mono fun h => ⟨h, rfl⟩
      refine .bind (cleanDirectorySafely_holding hquiet hblocked hmem hapart hnot)
        fun completed => .ite (fun _ => ?_) fun hgo => ?_
      · exact .pure fun w hw => hw.mono fun h => ⟨h.1, rfl⟩
      · refine (holding_of_false
          (cleanTargets_within env depth (Scope.Sub.refl cleanScope) after) _).strengthen
          fun w hw => hw.mono fun h => ?_
        simp [h.2 rfl] at hgo
  | cons place rest ih =>
      obtain ⟨target, other⟩ := place
      obtain ⟨hmem, hother⟩ := hlaid (target, other) (by simp)
      rw [List.map_cons, List.cons_append, cleanTargets]
      refine .bind evaluateIdleState_holding fun idle => .ite (fun _ => ?_) fun _ => ?_
      · exact .pure fun w hw => hw.mono fun h => ⟨h, rfl⟩
      refine .bind (cleanDirectorySafely_holding hquiet hother hmem hapart hnot)
        fun completed => .ite (fun _ => ?_) fun _ => ?_
      · exact .pure fun w hw => hw.mono fun h => ⟨h.1, rfl⟩
      · refine (ih fun place hplace => hlaid place (.tail _ hplace)).strengthen
          fun w hw => hw.mono fun h => h.1

end Loop

/-- A loop over targets of which one is blocked does not come to its end, and reaches nothing
behind that one. -/
theorem cleanTargets_stays (hquiet : env.Quiet) {w : World} {dirs : List Loc}
    {before : List (MaintenanceTarget × Loc)} {blocked : MaintenanceTarget}
    {after : List MaintenanceTarget}
    (hlaid : ∀ place ∈ before ++ [(blocked, dir)], place.2 ∈ dirs ∧
      Laid env.cwd dirs place.1.cacheDir.path place.2 w.fs)
    (hnot : ¬ DirsOnly w.fs dir)
    (hlists : ¬ Occurs Event.isListFailed
      (eventsOf (cleanTargets env depth (before.map Prod.fst ++ blocked :: after)) w)) :
    ((cleanTargets env depth (before.map Prod.fst ++ blocked :: after)).run w).1 ≠ some true ∧
      Held dirs dir w.fs
        ((cleanTargets env depth (before.map Prod.fst ++ blocked :: after)).run w).2.fs := by
  have hapart : ¬ Inside dirs dir := (hlaid (blocked, dir) (by simp)).2.apart
  have hpost := @cleanTargets_holding env depth dir w.fs w.log.length dirs hquiet before blocked
    after hlaid hapart hnot w (Unless.start _ .refl)
  unfold eventsOf at hlists
  rcases hrun : (cleanTargets env depth (before.map Prod.fst ++ blocked :: after)).run w with
    ⟨_ | completed, w'⟩ <;> rw [hrun] at hpost hlists
  · rw [Program.post_none] at hpost
    exact ⟨by simp, Unless.of_not_occurs hpost hlists⟩
  · rw [Program.post_some] at hpost
    obtain ⟨hheld, rfl⟩ := Unless.of_not_occurs hpost hlists
    exact ⟨by simp, hheld⟩

/-- Maintenance after maintenance, as far as the targets go: in each loop, those before the one
in `dir` lie in the directories `ahead`, all of them lead where they should, and the listings
succeed. Nobody else changes the tree. -/
inductive Rounds (env : Env) (depth : Nat) (ahead : List Loc) (dir : Loc) (fs : FileSystem) :
    FileSystem → Prop
  | start : Rounds env depth ahead dir fs fs
  | round {w : World} {before : List (MaintenanceTarget × Loc)} {blocked : MaintenanceTarget}
      {after : List MaintenanceTarget} :
      Rounds env depth ahead dir fs w.fs →
      (∀ place ∈ before ++ [(blocked, dir)], place.2 ∈ ahead ++ [dir] ∧
        Laid env.cwd (ahead ++ [dir]) place.1.cacheDir.path place.2 w.fs) →
      ¬ Occurs Event.isListFailed
        (eventsOf (cleanTargets env depth (before.map Prod.fst ++ blocked :: after)) w) →
      Rounds env depth ahead dir fs
        ((cleanTargets env depth (before.map Prod.fst ++ blocked :: after)).run w).2.fs

/-- However many rounds there are and whatever interrupts them, nothing that blocked the first
one is ever removed, nor anything else but below the directories up to that one. -/
theorem rounds_starve (hquiet : env.Quiet) {ahead : List Loc} (hnot : ¬ DirsOnly fs dir)
    (h : Rounds env depth ahead dir fs fs') : Held (ahead ++ [dir]) dir fs fs' := by
  induction h with
  | start => exact .refl
  | round _ hlaid hlists ih =>
      exact ih.trans (cleanTargets_stays hquiet hlaid (ih.blocked hnot) hlists).2

/-- With the file in the cache of `com.a`, that of `com.b` is not touched. -/
theorem rounds_starve_twoCaches :
    Held [cacheOfALoc] cacheOfALoc blockedCacheWorld.fs
      ((cleanTargets restingDevice 6 [targetA, targetB]).run blockedCacheWorld).2.fs := by
  have hround := @Rounds.round restingDevice 6 [] cacheOfALoc blockedCacheWorld.fs
    blockedCacheWorld [] targetA [targetB] .start ?_ ?_
  · exact rounds_starve restingDevice_quiet (by decide +kernel) hround
  · simp only [List.nil_append, List.mem_singleton, forall_eq, true_and]
    exact .of_render (by decide +kernel) (by decide +kernel) (by decide +kernel)
  · decide +kernel

end FreshCore
