import FreshCore.Core.Bookkeeping
import FreshCore.Core.Restart

/-!
# What the records tell

A record counts the cleanups of a package and keeps the time of the last one. So much of the
history of a session can be read off the records, at its end and in each state that it saved
on the way: every cleanup that was reported is in them, and no other.
-/

namespace FreshCore

open Posix Imperative Config Device Cache

/-- The time of a cleanup of a package with the given hash. -/
def Event.cleanupTime? (hash : UInt32) : Event → Option UInt64
  | cleaned pkgName time => if hashPackageName pkgName = hash then some time else none
  | _ => none

def cleanupTimes (hash : UInt32) (events : List Event) : List UInt64 :=
  events.filterMap (Event.cleanupTime? hash)

/-- The record of each package gives the number of its cleanups, as a 32-bit counter, and the
time of the last one. Packages with the same hash share a record. -/
def TellsHistory (states : PackageStore) (events : List Event) : Prop :=
  ∀ pkgName,
    let state := getPackageState states pkgName
    let times := cleanupTimes (hashPackageName pkgName) events
    state.cleanupCount = .ofNat times.length ∧ state.lastCleanupMs = times.getLast?.getD 0

/-- So do the records in memory, and did all that were saved, from the entry `mark` on. -/
structure Told (mark : Nat) (w : World) : Prop where
  mark_le : mark ≤ w.log.length
  states : TellsHistory w.process.states (w.log.drop mark)
  saved : Throughout (fun front event => ∀ states, event = .saved states →
    TellsHistory states front) (w.log.drop mark)

theorem cleanupTimes_append (hash : UInt32) (events new : List Event) :
    cleanupTimes hash (events ++ new) = cleanupTimes hash events ++ cleanupTimes hash new := by
  simp [cleanupTimes]

theorem TellsHistory.empty : TellsHistory ∅ [] := by
  intro pkgName
  simp [getPackageState, cleanupTimes]

/-- What is not a cleanup leaves the history of the cleanups as it is. -/
theorem TellsHistory.append {states : PackageStore} {events new : List Event}
    (h : TellsHistory states events) (hnew : ∀ hash, cleanupTimes hash new = []) :
    TellsHistory states (events ++ new) := by
  intro pkgName
  rw [cleanupTimes_append, hnew, List.append_nil]
  exact h pkgName

/-- A scan changes neither the count nor the time. -/
theorem TellsHistory.scan {states : PackageStore} {events : List Event}
    (h : TellsHistory states events) (pkgName : Bytes) (now size : UInt64) :
    TellsHistory (updatePackageState states pkgName
      (recordScan now size (getPackageState states pkgName))) events := by
  intro other
  rw [getPackageState_update]
  split
  next hsame =>
    rw [hsame]
    exact h pkgName
  next => exact h other

/-- A cleanup that is reported is counted for all packages of the hash. -/
theorem TellsHistory.clean {states : PackageStore} {events : List Event}
    (h : TellsHistory states events) (pkgName : Bytes) (now : UInt64) :
    TellsHistory (updatePackageState states pkgName
      (recordCleanup now (getPackageState states pkgName)))
      (events ++ [.cleaned pkgName now]) := by
  intro other
  rw [getPackageState_update, cleanupTimes_append]
  split
  next hsame =>
    have htime : cleanupTimes (hashPackageName other) [.cleaned pkgName now] = [now] := by
      simp [cleanupTimes, Event.cleanupTime?, hsame]
    rw [htime, hsame]
    dsimp only [recordCleanup]
    constructor
    · rw [(h pkgName).1, List.length_append, UInt32.ofNat_add]
      rfl
    · simp
  next hother =>
    have htime : cleanupTimes (hashPackageName other) [.cleaned pkgName now] = [] := by
      simp [cleanupTimes, Event.cleanupTime?, Ne.symm hother]
    rw [htime, List.append_nil]
    exact h other

theorem cleanupTimes_aloof {new : List Event}
    (hnew : ∀ event ∈ new, aloofScope.event event ∨ event.isAmbient) (hash : UInt32) :
    cleanupTimes hash new = [] := by
  apply List.filterMap_eq_nil_iff.mpr
  intro event hevent
  rcases hnew event hevent with haloof | hambient
  · cases event <;> first | rfl | exact haloof.elim
  · cases event <;> first | rfl | cases hambient

namespace Told

variable {mark : Nat} {w w' : World}

theorem reaches (h : Told mark w) (hreach : aloofScope.Reaches w w') : Told mark w' := by
  obtain ⟨hmark, new, hsince, hnew⟩ := hreach.since h.mark_le
  have hsame : w'.process.states = w.process.states :=
    hreach.observe fun _ hchange p => hchange p
  refine ⟨hmark, ?_, ?_⟩
  · rw [hsame, hsince]
    exact h.states.append (cleanupTimes_aloof hnew)
  · rw [hsince]
    apply h.saved.append
    rintro front _ hpart states rfl
    have hmem : .saved states ∈ new := hpart.subset (by simp)
    rcases hnew _ hmem with haloof | hambient
    · exact haloof.elim
    · cases hambient

theorem scan (h : Told mark w) (pkgName : Bytes) (now size : UInt64) :
    Told mark (w.modifyRecord pkgName (recordScan now size)) :=
  ⟨h.mark_le, h.states.scan pkgName now size, h.saved⟩

theorem clean (h : Told mark w) (pkgName : Bytes) (now : UInt64) :
    Told mark ((w.modifyRecord pkgName (recordCleanup now)).record (.cleaned pkgName now)) := by
  obtain ⟨hmark, hlog⟩ := (w.modifyRecord pkgName (recordCleanup now)).record_since h.mark_le
    (.cleaned pkgName now)
  refine ⟨hmark, ?_, ?_⟩
  · rw [hlog]
    exact h.states.clean pkgName now
  · rw [hlog]
    exact Throughout.concat_iff.mpr ⟨h.saved, nofun⟩

/-- What is saved is what is in memory. -/
theorem saveStateAtomic (h : Told mark w) (env : Env) :
    Told mark ((FreshCore.saveStateAtomic env).run w).2 := by
  unfold FreshCore.saveStateAtomic
  dsimp only
  split
  · obtain ⟨hmark, hlog⟩ := w.record_since h.mark_le (.saved w.process.states)
    have htold : Told mark (w.record (.saved w.process.states)) := by
      refine ⟨hmark, ?_, ?_⟩
      · rw [hlog]
        exact h.states.append fun _ => rfl
      · rw [hlog]
        refine Throughout.concat_iff.mpr ⟨h.saved, fun states hsaved => ?_⟩
        cases hsaved
        exact h.states
    exact ⟨htold.mark_le, htold.states, htold.saved⟩
  · exact ⟨h.mark_le, h.states, h.saved⟩

theorem bookkeeping (env : Env) (mark : Nat) : Bookkeeping env (Told mark) where
  aloof _ _ hw hreach := hw.reaches hreach
  scan _ pkgName now size hw := hw.scan pkgName now size
  clean _ pkgName now hw := hw.clean pkgName now
  save _ hw := hw.saveStateAtomic env

end Told

/-- Whatever a session comes across, its records tell the history of its cleanups, and each
state that it saved tells the history up to there. -/
theorem main_tellsHistory (env : Env) (depth expirations : Nat) (w : World) :
    let session : Session := (w.restart, ((main env depth expirations).run w.restart).2)
    TellsHistory session.2.process.states session.events ∧
      Throughout (fun front event => ∀ states, event = .saved states →
        TellsHistory states front) session.events := by
  have hstart : Told w.restart.log.length w.restart := by
    refine ⟨le_refl _, ?_, ?_⟩
    · rw [List.drop_length]
      exact .empty
    · rw [List.drop_length]
      exact .nil
  have hend : Told w.restart.log.length ((main env depth expirations).run w.restart).2 :=
    ((Told.bookkeeping env w.restart.log.length).main
      (fun _ _ hw => ⟨hw.mark_le, hw.states, hw.saved⟩) expirations w.restart hstart).state
  exact ⟨hend.states, hend.saved⟩

end FreshCore
