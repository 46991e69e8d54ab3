import FreshCore.Cache.SaveAtomic
import FreshCore.Core.Bookkeeping
import FreshCore.Core.Restart

/-!
# The records of a session

Whatever a session does to the records is made of get-modify-update steps that leave
the hash alone. So all the stores it ever has in memory or saves are among those
that survive a save and a load.
-/

namespace FreshCore

open Posix Imperative Config Device Cache

/-- The records in memory, and all that were saved from the entry `mark` on, come from
get-modify-update steps. -/
structure WellKept (mark : Nat) (w : World) : Prop where
  mark_le : mark ≤ w.log.length
  states : Reachable w.process.states
  saved : ∀ states, .saved states ∈ w.log.drop mark → Reachable states

theorem WellKept.reaches {mark : Nat} {w w' : World} (h : WellKept mark w)
    (hreach : aloofScope.Reaches w w') : WellKept mark w' := by
  obtain ⟨hmark, new, hsince, hnew⟩ := hreach.since h.mark_le
  have hsame : w'.process.states = w.process.states :=
    hreach.observe fun _ hchange p => hchange p
  refine ⟨hmark, hsame ▸ h.states, fun states hsaved => ?_⟩
  rw [hsince, List.mem_append] at hsaved
  rcases hsaved with hbefore | hnow
  · exact h.saved states hbefore
  · rcases hnew _ hnow with haloof | hambient
    · exact haloof.elim
    · cases hambient

/-- The get-modify-update step. -/
theorem WellKept.modifyRecord {mark : Nat} {w : World} (h : WellKept mark w) (pkgName : Bytes)
    {modify : PackageState → PackageState} (hmodify : KeepsHash modify) :
    WellKept mark (w.modifyRecord pkgName modify) where
  mark_le := h.mark_le
  states := .update pkgName hmodify h.states
  saved := h.saved

theorem WellKept.cleaned {mark : Nat} {w : World} (h : WellKept mark w) (pkgName : Bytes)
    (now : UInt64) : WellKept mark (w.record (.cleaned pkgName now)) := by
  obtain ⟨hmark, hlog⟩ := w.record_since h.mark_le (.cleaned pkgName now)
  refine ⟨hmark, h.states, fun states hsaved => ?_⟩
  rw [hlog] at hsaved
  simp only [List.mem_append, List.mem_singleton, reduceCtorEq, or_false] at hsaved
  exact h.saved states hsaved

/-- A save reports the records that are in memory. -/
theorem WellKept.saveStateAtomic {mark : Nat} {w : World} (h : WellKept mark w) (env : Env) :
    WellKept mark ((FreshCore.saveStateAtomic env).run w).2 := by
  unfold FreshCore.saveStateAtomic
  dsimp only
  split
  · obtain ⟨hmark, hlog⟩ := w.record_since h.mark_le (.saved w.process.states)
    refine ⟨hmark, h.states, fun states hsaved => ?_⟩
    replace hsaved : .saved states ∈ (w.record (.saved w.process.states)).log.drop mark := hsaved
    rw [hlog] at hsaved
    simp only [List.mem_append, List.mem_singleton, Event.saved.injEq] at hsaved
    rcases hsaved with hbefore | rfl
    · exact h.saved states hbefore
    · exact h.states
  · exact ⟨h.mark_le, h.states, h.saved⟩

theorem wellKept_bookkeeping (env : Env) (mark : Nat) : Bookkeeping env (WellKept mark) where
  aloof _ _ hw hreach := hw.reaches hreach
  scan _ pkgName now size hw := hw.modifyRecord pkgName (recordScan_keepsHash now size)
  clean _ pkgName now hw :=
    (hw.modifyRecord pkgName (recordCleanup_keepsHash now)).cleaned pkgName now
  save _ hw := hw.saveStateAtomic env

theorem main_wellKept {env : Env} {depth mark : Nat} (expirations : Nat) :
    Program.Triple (WellKept mark) (main env depth expirations) (fun _ => WellKept mark)
      (WellKept mark) :=
  (wellKept_bookkeeping env mark).main (fun _ _ hw => ⟨hw.mark_le, hw.states, hw.saved⟩)
    expirations

/-- In a history of sessions, every store that is left in memory or was saved is one that
get-modify-update steps lead to. -/
theorem Sessions.reachable {env : Env} {start : World} {sessions : List Session}
    (hsessions : Sessions env start sessions) {session : Session} (hmem : session ∈ sessions) :
    Reachable session.2.process.states ∧
      ∀ states, .saved states ∈ session.events → Reachable states := by
  obtain ⟨w, depth, expirations, rfl⟩ := hsessions.mem hmem
  have hstart : WellKept w.restart.log.length w.restart := by
    refine ⟨le_refl _, .empty, fun states hsaved => ?_⟩
    rw [List.drop_length] at hsaved
    cases hsaved
  have hend : WellKept w.restart.log.length ((main env depth expirations).run w.restart).2 :=
    (main_wellKept expirations w.restart hstart).state
  exact ⟨hend.states, hend.saved⟩

/-- What a session reports as saved is loaded back from every complete encoding of it. -/
theorem Sessions.saved_loads {env : Env} {start : World} {sessions : List Session}
    (hsessions : Sessions env start sessions) {session : Session} (hmem : session ∈ sessions)
    {states : PackageStore} (hsaved : .saved states ∈ session.events)
    (hcount : states.entries.length < 2 ^ 32) {file : Bytes} (hfile : Encodes states file) :
    SameRecords states (initializeStateStorage ∅ (some file)) := by
  obtain ⟨records, timestamp, padding, horder, rfl⟩ := hfile
  have hlength : records.length < 2 ^ 32 := by
    rw [List.Perm.length_eq horder, List.length_map]
    exact hcount
  rw [initializeStateStorage, Option.bind_some,
    readStateFile_encodeStates timestamp padding hlength]
  exact storeRecords_sameRecords ((hsessions.reachable hmem).2 states hsaved).keyedByHash horder

theorem lastSaved_mem {events : List Event} {saved : PackageStore}
    (h : lastSaved events = some saved) : .saved saved ∈ events := by
  obtain ⟨event, hmem, hsaved⟩ := List.mem_filterMap.mp (List.mem_of_getLast? h)
  cases event with
  | saved states =>
      cases hsaved
      exact hmem
  | _ => cases hsaved

/-- What the first of the two sessions has saved. -/
theorem Sessions.saved_loads_twoSessions :
    ∃ session ∈ twoSessions, ∃ states, .saved states ∈ session.events ∧
      states.entries.length = 1 ∧ ∀ file, Encodes states file →
        SameRecords states (initializeStateStorage ∅ (some file)) := by
  let first : Session := (onePackageWorld.restart, afterSession onePackageWorld)
  have hfirst : first ∈ twoSessions := List.mem_cons_self ..
  have hsaved : (lastSaved first.events).map (fun saved => saved.entries.length) = some 1 := by
    decide +kernel
  obtain ⟨saved, hlast, hlength⟩ := Option.map_eq_some_iff.mp hsaved
  have hmem := lastSaved_mem hlast
  refine ⟨first, hfirst, saved, hmem, hlength, fun file hfile => ?_⟩
  exact sessions_twoSessions.saved_loads hfirst hmem (by omega) hfile

/-- A save that reports success has put a complete encoding into the state file. -/
theorem saveStateAtomic_saved {env : Env} {w : World} {states : PackageStore}
    (hlog : ((saveStateAtomic env).run w).2.log = w.log ++ [.saved states]) :
    states = w.process.states ∧
      ∃ file, ((saveStateAtomic env).run w).2.files.current = some file ∧ Encodes states file := by
  have hfiles := saveStateAtomic_files env w
  unfold saveStateAtomic at hlog
  dsimp only at hlog
  split at hlog
  next hsaved =>
    obtain ⟨hopens, hrenames, hwhole⟩ := hsaved
    simp only [World.record, World.next, List.append_cancel_left_eq, List.cons.injEq,
      Event.saved.injEq, and_true] at hlog
    subst hlog
    refine ⟨rfl, headerToSave env w ++ imageToSave env w, ?_, encodes_toSave env w⟩
    rw [hfiles, writeStateFiles, if_neg (by simp [hopens])]
    simp only [hrenames, if_true]
    exact congrArg some hwhole
  next =>
    have hlength := congrArg List.length hlog
    simp [World.next] at hlength

end FreshCore
