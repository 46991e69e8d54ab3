import FreshCore.Audio.PollLoop

/-!
# Readings that are lost during a call

A `dumpsys` that fails or takes too long yields an empty reading, and the call goes on. The
loop takes the empty reading for the end of the call, and the next one that shows the call
for the beginning of another.
-/

namespace FreshCore.MicFixer

open Posix Imperative

/-- The routines that run on these readings, after those before. -/
def routinesDuring (before states : List Bytes) : List Routine :=
  (pollLoop (before ++ states)).2.drop (pollLoop before).2.length

def Routine.isMicFix : Routine → Bool
  | .applyMicFix => true
  | _ => false

/-- How often `ApplyMicFix` ran. -/
def micFixes (routines : List Routine) : Nat := routines.countP Routine.isMicFix

/-- The readings of one call: the first shows it, and the others show it or are lost. -/
structure IsCall (states : List Bytes) : Prop where
  starts : ∃ state ∈ states.head?, audioMode state = .call
  goes_on : ∀ state ∈ states, audioMode state = .call ∨ state = []

/-- Within each call, the microphone is initialised at most once. -/
def InitialisedOnce (states : List Bytes) : Prop :=
  ∀ before call after, states = before ++ call ++ after → IsCall call →
    micFixes (routinesDuring before call) ≤ 1

/-- Readings of a call are not followed by lost ones and then by the call again, unless the
loop had seen a call when they began. -/
def NeverResumed (states : List Bytes) : Prop :=
  ∀ before shown lost next after, states = before ++ shown ++ lost ++ next :: after →
    shown ≠ [] → (∀ state ∈ shown, audioMode state = .call) →
    lost ≠ [] → (∀ state ∈ lost, state = []) → audioMode next = .call →
    HasCall (stretch before)

theorem audioMode_lost : audioMode [] = .other := by decide

/-! ## What runs during a part of the readings -/

theorem routinesDuring_append (before states : List Bytes) :
    (pollLoop (before ++ states)).2 = (pollLoop before).2 ++ routinesDuring before states := by
  have hpart : (pollLoop before).2 <+: (pollLoop (before ++ states)).2 := by
    induction states using List.reverseRecOn with
    | nil => simp
    | append_singleton states state ih =>
        rw [← List.append_assoc, pollLoop_concat]
        exact ih.trans (List.prefix_append _ _)
  obtain ⟨new, hnew⟩ := hpart
  rw [routinesDuring, ← hnew, List.drop_left]

theorem routinesDuring_concat (before states : List Bytes) (state : Bytes) :
    routinesDuring before (states ++ [state]) =
      routinesDuring before states ++ (pollTurn (pollLoop (before ++ states)).1 state).2 := by
  have hroutines := routinesDuring_append before (states ++ [state])
  rw [← List.append_assoc, pollLoop_concat, routinesDuring_append before states] at hroutines
  dsimp only at hroutines
  rw [List.append_assoc] at hroutines
  exact (List.append_cancel_left hroutines).symm

@[simp] theorem routinesDuring_nil (before : List Bytes) : routinesDuring before [] = [] := by
  simp [routinesDuring]

theorem pollTurn_micFixes (flags : PollFlags) (state : Bytes) :
    micFixes (pollTurn flags state).2 =
      if audioMode state = .call ∧ flags.active = false then 1 else 0 := by
  unfold pollTurn
  obtain ⟨active, preInit⟩ := flags
  cases audioMode state <;> cases active <;> cases preInit <;> rfl

theorem micFixes_concat (before states : List Bytes) (state : Bytes) :
    micFixes (routinesDuring before (states ++ [state])) =
      micFixes (routinesDuring before states) +
        if audioMode state = .call ∧ (pollLoop (before ++ states)).1.active = false then 1
        else 0 := by
  rw [routinesDuring_concat, micFixes, List.countP_append]
  exact congrArg _ (pollTurn_micFixes _ _)

/-- A reading that shows a call the loop has not seen yet. -/
theorem micFixes_concat_new {before states : List Bytes} {state : Bytes}
    (hcall : audioMode state = .call) (hnew : ¬ HasCall (stretch (before ++ states))) :
    micFixes (routinesDuring before (states ++ [state])) =
      micFixes (routinesDuring before states) + 1 := by
  have hactive : (pollLoop (before ++ states)).1.active = false := by
    rwa [← (pollLoop_flags _).1, Bool.not_eq_true] at hnew
  rw [micFixes_concat, if_pos ⟨hcall, hactive⟩]

theorem micFixes_concat_same {before states : List Bytes} {state : Bytes}
    (hsame : audioMode state = .call → HasCall (stretch (before ++ states))) :
    micFixes (routinesDuring before (states ++ [state])) =
      micFixes (routinesDuring before states) := by
  rw [micFixes_concat, if_neg, Nat.add_zero]
  rintro ⟨hcall, hactive⟩
  have hseen := (pollLoop_flags _).1.mpr (hsame hcall)
  rw [hactive] at hseen
  cases hseen

theorem micFixes_le_append (before states more : List Bytes) :
    micFixes (routinesDuring before states) ≤
      micFixes (routinesDuring before (states ++ more)) := by
  induction more using List.reverseRecOn with
  | nil => simp
  | append_singleton more state ih =>
      rw [← List.append_assoc, micFixes_concat]
      exact Nat.le_add_right_of_le ih

/-! ## Which stretches have a call -/

theorem hasCall_stretch_shown {states : List Bytes} {state : Bytes}
    (hcall : audioMode state = .call) : HasCall (stretch (states ++ [state])) := by
  rw [stretch_concat, if_neg (by simp [hcall]), hasCall_concat]
  exact Or.inr hcall

theorem not_hasCall_stretch_lost (states : List Bytes) {lost : List Bytes} (hne : lost ≠ [])
    (hlost : ∀ state ∈ lost, state = []) : ¬ HasCall (stretch (states ++ lost)) := by
  obtain ⟨init, last, rfl⟩ := (List.eq_nil_or_concat lost).resolve_left hne
  rw [List.concat_eq_append] at hlost ⊢
  have hlast : last = [] := hlost last (by simp)
  rw [hlast, ← List.append_assoc, stretch_concat, if_pos audioMode_lost]
  simp [HasCall]

/-! ## Runs -/

/-- The call was taken for a new one when it began to be shown, and was then shown until it was
lost, if it was. -/
def Began (before call : List Bytes) : Prop :=
  ∃ front shown lost, call = front ++ shown ++ lost ∧ shown ≠ [] ∧
    (∀ state ∈ shown, audioMode state = .call) ∧ (∀ state ∈ lost, state = []) ∧
    ¬ HasCall (stretch (before ++ front))

theorem Began.of_shown {before call : List Bytes} {state : Bytes}
    (hcall : audioMode state = .call) (hnew : ¬ HasCall (stretch (before ++ call))) :
    Began before (call ++ [state]) :=
  ⟨call, [state], [], by simp, by simp, by simpa using hcall, by simp, hnew⟩

theorem Began.lost {before call : List Bytes} (h : Began before call) :
    Began before (call ++ [[]]) := by
  obtain ⟨front, shown, lost, rfl, hshown, hcalls, hlost, hnew⟩ := h
  refine ⟨front, shown, lost ++ [[]], by simp, hshown, hcalls, ?_, hnew⟩
  intro state hstate
  rcases List.mem_append.mp hstate with hmem | hmem
  · exact hlost state hmem
  · simpa using hmem

/-- While the loop takes the call for one that goes on, nothing of it has been lost since. -/
theorem Began.shown {before call : List Bytes} {state : Bytes} (h : Began before call)
    (hcall : audioMode state = .call) (hactive : HasCall (stretch (before ++ call))) :
    Began before (call ++ [state]) := by
  obtain ⟨front, shown, lost, rfl, hshown, hcalls, hlost, hnew⟩ := h
  have hnone : lost = [] := by
    by_contra hne
    refine not_hasCall_stretch_lost (before ++ (front ++ shown)) hne hlost ?_
    rwa [List.append_assoc]
  refine ⟨front, shown ++ [state], [], by simp [hnone], by simp, ?_, by simp, hnew⟩
  intro other hother
  rcases List.mem_append.mp hother with hmem | hmem
  · exact hcalls other hmem
  · rwa [List.mem_singleton.mp hmem]

/-- Where calls are never resumed, one that has begun is not taken for a new one again. -/
theorem Began.goes_on {before call after : List Bytes} {state : Bytes} (h : Began before call)
    (hresumed : NeverResumed (before ++ call ++ state :: after))
    (hcall : audioMode state = .call) : HasCall (stretch (before ++ call)) := by
  obtain ⟨front, shown, lost, rfl, hshown, hcalls, hlost, hnew⟩ := h
  by_cases hne : lost = []
  · obtain ⟨init, last, rfl⟩ := (List.eq_nil_or_concat shown).resolve_left hshown
    rw [List.concat_eq_append] at hcalls ⊢
    have hlast : HasCall (stretch (before ++ (front ++ init) ++ [last])) :=
      hasCall_stretch_shown (hcalls last (by simp))
    simpa [hne] using hlast
  · exact absurd (hresumed (before ++ front) shown lost state after (by simp) hshown hcalls hne
      hlost hcall) hnew

theorem NeverResumed.micFixes {before call after : List Bytes}
    (h : NeverResumed (before ++ call ++ after))
    (hcall : ∀ state ∈ call, audioMode state = .call ∨ state = []) :
    micFixes (routinesDuring before call) = 0 ∨
      micFixes (routinesDuring before call) = 1 ∧ Began before call := by
  induction call using List.reverseRecOn generalizing after with
  | nil => exact Or.inl (by simp [FreshCore.MicFixer.micFixes])
  | append_singleton call state ih =>
      have hsplit : before ++ (call ++ [state]) ++ after = before ++ call ++ state :: after := by
        simp
      rw [hsplit] at h
      have hbefore := ih h fun other hother => hcall other (List.mem_append_left _ hother)
      rcases hcall state (by simp) with hshown | rfl
      · by_cases hactive : HasCall (stretch (before ++ call))
        · rw [micFixes_concat_same fun _ => hactive]
          exact hbefore.imp_right fun hone => ⟨hone.1, hone.2.shown hshown hactive⟩
        · rw [micFixes_concat_new hshown hactive]
          rcases hbefore with hnone | hone
          · exact Or.inr ⟨by rw [hnone], .of_shown hshown hactive⟩
          · exact absurd (hone.2.goes_on h hshown) hactive
      · rw [micFixes_concat_same (by simp [audioMode_lost])]
        exact hbefore.imp_right fun hone => ⟨hone.1, hone.2.lost⟩

/-- Each call is initialised at most once exactly if none is shown again after it was lost. -/
theorem pollLoop_initialisedOnce_iff (states : List Bytes) :
    InitialisedOnce states ↔ NeverResumed states := by
  constructor
  · intro honce before shown lost next after hstates hshown hcalls hne hlost hnext
    by_contra hnew
    cases shown with
    | nil => exact hshown rfl
    | cons first rest =>
        have hfirst : audioMode first = .call := hcalls first List.mem_cons_self
        have hcall : IsCall (first :: rest ++ lost ++ [next]) := by
          refine ⟨⟨first, rfl, hfirst⟩, fun state hstate => ?_⟩
          simp only [List.mem_append, List.mem_singleton] at hstate
          rcases hstate with (hstate | hstate) | rfl
          · exact Or.inl (hcalls state hstate)
          · exact Or.inr (hlost state hstate)
          · exact Or.inl hnext
        have htwice := honce before _ after (by simp [hstates]) hcall
        -- once on the first reading, and again on the one after the lost ones
        have hbegins : micFixes (routinesDuring before ([] ++ [first])) = 0 + 1 := by
          rw [micFixes_concat_new hfirst (by rwa [List.append_nil]), routinesDuring_nil]
          rfl
        have hgrows := micFixes_le_append before [first] (rest ++ lost)
        have hlast := not_hasCall_stretch_lost (before ++ first :: rest) hne hlost
        rw [List.append_assoc] at hlast
        rw [micFixes_concat_new hnext hlast] at htwice
        simp only [List.nil_append, List.cons_append] at *
        omega
  · rintro hresumed before call after rfl ⟨_, hcall⟩
    rcases hresumed.micFixes hcall with hnone | hone
    · omega
    · omega

/-- One lost reading in the middle of a call. -/
theorem pollLoop_initialisedTwice :
    ¬ InitialisedOnce [lit "mMode=2", [], lit "mMode=2"] := by
  intro honce
  have htwice := honce [] [lit "mMode=2", [], lit "mMode=2"] [] (by simp)
    ⟨⟨_, rfl, by decide +kernel⟩, by decide +kernel⟩
  revert htwice
  decide +kernel

end FreshCore.MicFixer
