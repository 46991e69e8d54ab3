import FreshCore.Core.EngineRuns
import FreshCore.Core.Invariants

/-!
# Records across restarts

A session is one life of the process, from `main` until it ends or is killed. The
state file is written in every maintenance run but not read when a session starts,
so each session starts its first analysis without any records.
-/

namespace FreshCore

open Posix Imperative Config Device Cache

def Event.analyzed? : Event → Option PackageStore
  | analyze states => some states
  | _ => none

def Event.saved? : Event → Option PackageStore
  | saved states => some states
  | _ => none

/-- The records in memory at the first analysis. -/
def firstAnalyzed (events : List Event) : Option PackageStore :=
  events.findSome? Event.analyzed?

/-- The records in memory at the last save that succeeded. -/
def lastSaved (events : List Event) : Option PackageStore :=
  (events.filterMap Event.saved?).getLast?

/-- The world a session starts in and the one it leaves. -/
abbrev Session := World × World

/-- The log entries of a session. -/
def Session.events (session : Session) : List Event :=
  session.2.log.drop session.1.log.length

/-- A history of sessions from the given world on, each of them a run of `main` over any
number of timer expirations, cut off at any depth of recursion. -/
inductive Sessions (env : Env) : World → List Session → Prop
  | nil (w : World) : Sessions env w []
  | cons {w w' : World} {depth expirations : Nat} {rest : List Session} :
      ((main env depth expirations).run w.restart).2 = w' → Sessions env w' rest →
      Sessions env w ((w.restart, w') :: rest)

/-! ## The first analysis of a session -/

/-- From the entry `mark` of the log on, an analysis has been made, and the first one was
without records. -/
def AnalyzedEmpty (mark : Nat) (w : World) : Prop :=
  mark ≤ w.log.length ∧ firstAnalyzed (w.log.drop mark) = some ∅

/-- Either no analysis has been made and there are no records yet, or the first one was
made without records. -/
def StartsEmpty (mark : Nat) (w : World) : Prop :=
  AnalyzedEmpty mark w ∨
    mark ≤ w.log.length ∧ firstAnalyzed (w.log.drop mark) = none ∧ w.process.states = ∅

/-- Everything but an analysis, as long as it does not touch the records. -/
def freshScope : Scope where
  event
    | .analyze _ => False
    | _ => True
  change f := ∀ p, (f p).states = p.states

theorem firstAnalyzed_append (events new : List Event) :
    firstAnalyzed (events ++ new) = (firstAnalyzed events).or (firstAnalyzed new) :=
  List.findSome?_append

theorem AnalyzedEmpty.reaches {scope : Scope} {mark : Nat} {w w' : World}
    (h : AnalyzedEmpty mark w) (hreach : scope.Reaches w w') : AnalyzedEmpty mark w' := by
  obtain ⟨hmark, new, hsince, _⟩ := hreach.since h.1
  refine ⟨hmark, ?_⟩
  rw [hsince, firstAnalyzed_append, h.2]
  rfl

theorem StartsEmpty.reaches {mark : Nat} {w w' : World} (h : StartsEmpty mark w)
    (hreach : freshScope.Reaches w w') : StartsEmpty mark w' := by
  rcases h with h | ⟨hmark, hnone, hstates⟩
  · exact Or.inl (h.reaches hreach)
  · obtain ⟨hmark', new, hsince, hnew⟩ := hreach.since hmark
    have hquiet : firstAnalyzed new = none := by
      refine List.findSome?_eq_none_iff.mpr fun event hevent => ?_
      rcases hnew event hevent with hfresh | hambient
      · cases event <;> first | rfl | exact hfresh.elim
      · cases event <;> first | rfl | cases hambient
    refine Or.inr ⟨hmark', ?_, ?_⟩
    · rw [hsince, firstAnalyzed_append, hnone, hquiet]
      rfl
    · have hkeep : w'.process.states = w.process.states :=
        hreach.observe fun _ hchange p => hchange p
      rw [hkeep, hstates]

section Session

variable {env : Env} {depth mark : Nat}

theorem startsEmpty_within (env : Env) {α : Type} {x : Daemon α}
    (hwithin : Within env freshScope x) :
    Program.Triple (StartsEmpty mark) x (fun _ => StartsEmpty mark) (StartsEmpty mark) :=
  hwithin.triple fun _ _ hw hreach => hw.reaches hreach

theorem analyzedEmpty_within (env : Env) (scope : Scope) {α : Type} {x : Daemon α}
    (hwithin : Within env scope x) :
    Program.Triple (AnalyzedEmpty mark) x (fun _ => AnalyzedEmpty mark) (AnalyzedEmpty mark) :=
  hwithin.triple fun _ _ hw hreach => hw.reaches hreach

theorem removalScope_sub_freshScope : removalScope.Sub freshScope where
  event event hevent := by cases event <;> first | exact hevent | exact trivial
  change f hf p := by
    obtain ⟨time, start, files, bytes, hremoval⟩ := hf p
    rw [hremoval]

theorem sweepScope_sub_freshScope : sweepScope.Sub freshScope where
  event event hevent := by cases event <;> first | exact hevent | exact trivial
  change f hf := removalScope_sub_freshScope.change f hf

theorem analyzeCaches_startsEmpty (scannedDirs : List CacheDirInfo) :
    Program.Triple (StartsEmpty mark) (analyzeCaches env depth scannedDirs)
      (fun _ => AnalyzedEmpty mark) (StartsEmpty mark) := by
  unfold analyzeCaches
  refine .bind (M := fun process w => StartsEmpty mark w ∧ process = w.process)
    (.inspect fun w hw => ⟨hw, rfl⟩) fun process => ?_
  refine .bind (M := fun _ => AnalyzedEmpty mark) (.update ?_) fun _ => ?_
  · rintro w ⟨hw, rfl⟩
    rcases hw with hw | ⟨hmark, hnone, hstates⟩
    · have hreach : analysisScope.Reaches w (w.record (.analyze w.process.states)) :=
        .event rfl rfl (Or.inl trivial)
      exact hw.reaches hreach
    · refine ⟨?_, ?_⟩
      · rw [World.record, List.length_append]
        exact Nat.le_add_right_of_le hmark
      · rw [World.record, List.drop_append_of_le_length hmark, firstAnalyzed_append, hnone,
          hstates]
        rfl
  -- once it has been made, no later event can be the first one
  · have hsub := Scope.Sub.refl analysisScope
    refine (analyzedEmpty_within env analysisScope ?_).mono (fun _ h => h)
      (fun _ _ h => h) fun _ h => Or.inl h
    refine .bind (.prim (.sense _)) fun now => ?_
    refine .bind (analyzeDirs_within env depth hsub now scannedDirs) fun _ => ?_
    refine .bind (.prim (.save fun states => hsub.event _ trivial)) fun _ => ?_
    exact .bind (.prim (.sense _)) fun _ => .pure _

theorem engineScope_sub_freshScope : engineScope.Sub freshScope where
  event event hevent := by cases event <;> first | exact hevent | exact trivial
  change f hf p := by
    obtain ⟨engine, time, hengine⟩ := hf p
    rw [hengine]

theorem main_startsEmpty (expirations : Nat) :
    Program.Triple (StartsEmpty mark) (main env depth expirations)
      (fun _ => StartsEmpty mark) (StartsEmpty mark) := by
  have hengine : engineScope.Keeps env (StartsEmpty mark) :=
    .of_reaches fun w w' hw hreach => hw.reaches (hreach.mono engineScope_sub_freshScope)
  have hsweeps : Program.Triple (StartsEmpty mark) (runSystemMaintenanceSweeps env depth)
      (fun _ => StartsEmpty mark) (StartsEmpty mark) :=
    startsEmpty_within env (runSystemMaintenanceSweeps_within env depth sweepScope_sub_freshScope)
  refine main_kept hengine (performMaintenance_kept hengine hsweeps ?_)
    (fun _ _ hw => hw) expirations
  refine maintainCaches_kept hengine fun dirs => ?_
  refine .bind (analyzeCaches_startsEmpty dirs) fun analysis => ?_
  exact (analyzedEmpty_within env cleanScope (cleanTargets_within env depth (Scope.Sub.refl _)
    analysis.2)).mono (fun _ h => h) (fun _ _ h => Or.inl h) fun _ h => Or.inl h

/-- A session makes its first analysis without any records, whatever the state file holds. -/
theorem session_firstAnalyzed (w : World) {expirations : Nat} {states : PackageStore}
    (hfirst : firstAnalyzed (Session.events
      (w.restart, ((main env depth expirations).run w.restart).2)) = some states) :
    states = ∅ := by
  have hstart : StartsEmpty w.restart.log.length w.restart := by
    refine Or.inr ⟨le_refl _, ?_, rfl⟩
    rw [List.drop_length]
    rfl
  have hend : StartsEmpty w.restart.log.length ((main env depth expirations).run w.restart).2 :=
    (main_startsEmpty expirations w.restart hstart).state
  -- either the first analysis saw no records, or there was none
  rcases hend with ⟨_, hempty⟩ | ⟨_, hnone, _⟩
  · exact Option.some.inj (hfirst.symm.trans hempty)
  · cases hfirst.symm.trans hnone

end Session

/-! ## Histories -/

/-- Every package's record at the first analysis is the one that the preceding session
saved last. -/
def RecordsSurvive (previous next : Session) : Prop :=
  ∀ saved analyzed, lastSaved previous.events = some saved →
    firstAnalyzed next.events = some analyzed →
    ∀ pkgName, getPackageState analyzed pkgName = getPackageState saved pkgName

/-- Unless the next session makes no analysis, the preceding one saved nothing but records
of packages never scanned and never cleaned. -/
def NothingToLose (previous next : Session) : Prop :=
  ∀ saved, lastSaved previous.events = some saved → (firstAnalyzed next.events).isSome →
    ∀ pkgName, getPackageState saved pkgName = { hash := hashPackageName pkgName }

theorem Sessions.mem {env : Env} {start : World} {sessions : List Session}
    (hsessions : Sessions env start sessions) {session : Session} (hmem : session ∈ sessions) :
    ∃ (w : World) (depth expirations : Nat),
      session = (w.restart, ((main env depth expirations).run w.restart).2) := by
  induction hsessions with
  | nil => cases hmem
  | @cons w w' depth expirations rest hrun _ ih =>
      rcases List.mem_cons.mp hmem with rfl | hrest
      · exact ⟨w, depth, expirations, by rw [hrun]⟩
      · exact ih hrest

theorem recordsSurvive_iff {env : Env} {w : World} {depth expirations : Nat} {previous : Session} :
    let next : Session := (w.restart, ((main env depth expirations).run w.restart).2)
    RecordsSurvive previous next ↔ NothingToLose previous next := by
  intro next
  constructor
  · intro hsurvive saved hsaved hanalysis pkgName
    obtain ⟨analyzed, hanalyzed⟩ := Option.isSome_iff_exists.mp hanalysis
    have hempty := session_firstAnalyzed w hanalyzed
    rw [← hsurvive saved analyzed hsaved hanalyzed pkgName, hempty]
    rfl
  · intro hdefault saved analyzed hsaved hanalyzed pkgName
    have hempty := session_firstAnalyzed w hanalyzed
    rw [hdefault saved hsaved (by rw [hanalyzed]; rfl) pkgName, hempty]
    rfl

/-- In a history of sessions, records survive the restarts exactly when there is nothing
to lose at any of them. -/
theorem sessions_recordsSurvive_iff {env : Env} {start : World} {sessions : List Session}
    (hsessions : Sessions env start sessions) :
    (∀ front previous next back, sessions = front ++ previous :: next :: back →
      RecordsSurvive previous next) ↔
    ∀ front previous next back, sessions = front ++ previous :: next :: back →
      NothingToLose previous next := by
  refine forall_congr' fun front => forall_congr' fun previous => forall_congr' fun next =>
    forall₂_congr fun back hsplit => ?_
  have hnext : next ∈ sessions := by simp [hsplit]
  obtain ⟨w, depth, expirations, rfl⟩ := hsessions.mem hnext
  exact recordsSurvive_iff

/-- One app is installed. -/
def onePackageDevice : Env :=
  { slowDevice with packagesList := fun _ => some (lit "com.a 10001 0 /data/user/0/com.a\n") }

/-- The app has an empty cache directory. -/
def onePackageWorld : World where
  fs := FsStep.applyAll .bare [
    .mkdir [] (lit "data"),
    .mkdir [lit "data"] (lit "user"),
    .mkdir [lit "data", lit "user"] (lit "0"),
    .mkdir [lit "data", lit "user", lit "0"] (lit "com.a"),
    .mkdir [lit "data", lit "user", lit "0", lit "com.a"] (lit "cache")]

/-- What a session of four evaluations leaves behind. -/
def afterSession (w : World) : World := ((main onePackageDevice 2 4).run w.restart).2

/-- Two sessions in a row. -/
def twoSessions : List Session :=
  [(onePackageWorld.restart, afterSession onePackageWorld),
    ((afterSession onePackageWorld).restart, afterSession (afterSession onePackageWorld))]

theorem sessions_twoSessions : Sessions onePackageDevice onePackageWorld twoSessions :=
  .cons rfl (.cons rfl (.nil _))

theorem sessions_recordsSurvive_twoSessions :
    (∀ front previous next back, twoSessions = front ++ previous :: next :: back →
      RecordsSurvive previous next) ↔
    ∀ front previous next back, twoSessions = front ++ previous :: next :: back →
      NothingToLose previous next :=
  sessions_recordsSurvive_iff sessions_twoSessions

/-- The record of the first session's scan is gone in the second one. -/
theorem sessions_recordsLost :
    ¬ ∀ sessions, Sessions onePackageDevice onePackageWorld sessions →
      ∀ front previous next back, sessions = front ++ previous :: next :: back →
        RecordsSurvive previous next := by
  intro hsurvive
  have hlast := hsurvive twoSessions sessions_twoSessions [] _ _ [] rfl
  let first : Session := (onePackageWorld.restart, afterSession onePackageWorld)
  have hsaved : (lastSaved first.events).map
      (fun saved => (getPackageState saved (lit "com.a")).lastScanMs) = some 1700000000000 := by
    decide +kernel
  have hanalysis : (firstAnalyzed (Session.events
      ((afterSession onePackageWorld).restart,
        afterSession (afterSession onePackageWorld)))).isSome := by decide +kernel
  obtain ⟨saved, hlastSaved, hscan⟩ := Option.map_eq_some_iff.mp hsaved
  obtain ⟨analyzed, hanalyzed⟩ := Option.isSome_iff_exists.mp hanalysis
  have hempty := session_firstAnalyzed (afterSession onePackageWorld) hanalyzed
  have hsame := hlast saved analyzed hlastSaved hanalyzed (lit "com.a")
  rw [← hsame, hempty] at hscan
  revert hscan
  decide +kernel

end FreshCore
