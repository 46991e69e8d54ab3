import FreshCore.Audio.MicFixer
import FreshCore.Device.Readings
import FreshCore.Imperative.History

/-!
# The polling loop

Where the sound devices cannot be watched, the mode of the audio service is polled. Two
flags say whether a ringtone or a call was seen since the line was last idle. A ringtone
mutes the line and a call takes the mute back, each at its first reading only, so what
the line is left with depends on which of the two came first.
-/

namespace FreshCore.MicFixer

open Posix Device Imperative

inductive AudioMode where
  | ringtone
  | call
  | other
  deriving DecidableEq, Repr

/-- What the loop makes of the `mMode=` line of `dumpsys audio`, which may be empty. -/
def audioMode (state : Bytes) : AudioMode :=
  if contains (lit "MODE_RINGTONE") state || contains (lit "mMode=1") state then .ringtone
  else if contains (lit "MODE_IN_CALL") state || contains (lit "MODE_IN_COMMUNICATION") state ||
      contains (lit "mMode=2") state || contains (lit "mMode=3") state then .call
  else .other

/-- The two locals of `PollLoop`. -/
structure PollFlags where
  active : Bool := false
  preInit : Bool := false
  deriving DecidableEq, Repr

/-- One turn of the loop: the flags after it, and the routines it ran. -/
def pollTurn (flags : PollFlags) (state : Bytes) : PollFlags × List Routine :=
  match audioMode state with
  | .ringtone =>
      if !flags.preInit then ({ flags with preInit := true }, [.applyPreInit]) else (flags, [])
  | .call =>
      if !flags.active then
        ({ flags with active := true }, [.showNotification, .applyPreInit, .applyMicFix])
      else (flags, [])
  | .other =>
      if flags.active || flags.preInit then ({ active := false, preInit := false }, [])
      else (flags, [])

/-- `PollLoop` on the readings it took until it was stopped: the flags, and all routines
that ran. -/
def pollLoop (states : List Bytes) : PollFlags × List Routine :=
  states.foldl
    (fun (flags, routines) state =>
      let (flags, new) := pollTurn flags state
      (flags, routines ++ new))
    ({}, [])

theorem pollLoop_concat (states : List Bytes) (state : Bytes) :
    pollLoop (states ++ [state]) =
      let turn := pollTurn (pollLoop states).1 state
      (turn.1, (pollLoop states).2 ++ turn.2) := by
  simp [pollLoop, List.foldl_append]

/-! ## Stretches of ringtones and calls -/

/-- The readings since the last one that was neither ringtone nor call. -/
def stretch (states : List Bytes) : List Bytes :=
  states.rtakeWhile fun state => audioMode state ≠ .other

def HasCall (states : List Bytes) : Prop := ∃ state ∈ states, audioMode state = .call

def HasRing (states : List Bytes) : Prop := ∃ state ∈ states, audioMode state = .ringtone

def StartsRinging (states : List Bytes) : Prop :=
  ∃ state ∈ states.head?, audioMode state = .ringtone

def EndsRinging (states : List Bytes) : Prop :=
  ∃ state ∈ states.getLast?, audioMode state = .ringtone

/-- At the end of each turn but those on a ringtone, the line is not muted. -/
def NeverLeftMuted (states : List Bytes) : Prop :=
  Throughout (fun front state =>
    audioMode state ≠ .ringtone → IsUnmuted (pollLoop (front ++ [state])).2) states

/-- Whenever a ringtone is followed by something else, the stretch began with a ringtone, and
with what follows there is a call in it. -/
def RingsAreAnswered (states : List Bytes) : Prop :=
  Throughout (fun front next => EndsRinging front → audioMode next ≠ .ringtone →
    StartsRinging (stretch front) ∧ HasCall (stretch front ++ [next])) states

theorem stretch_concat (states : List Bytes) (state : Bytes) :
    stretch (states ++ [state]) =
      if audioMode state = .other then [] else stretch states ++ [state] := by
  rw [stretch, List.rtakeWhile_concat]
  by_cases hother : audioMode state = .other
  · simp [hother]
  · simp [hother, stretch]

@[simp] theorem hasCall_concat (states : List Bytes) (state : Bytes) :
    HasCall (states ++ [state]) ↔ HasCall states ∨ audioMode state = .call := by
  simp [HasCall, or_and_right, exists_or]

@[simp] theorem hasRing_concat (states : List Bytes) (state : Bytes) :
    HasRing (states ++ [state]) ↔ HasRing states ∨ audioMode state = .ringtone := by
  simp [HasRing, or_and_right, exists_or]

@[simp] theorem startsRinging_concat (states : List Bytes) (state : Bytes) :
    StartsRinging (states ++ [state]) ↔
      StartsRinging states ∨ states = [] ∧ audioMode state = .ringtone := by
  cases states with
  | nil => simp [StartsRinging]
  | cons first rest => simp [StartsRinging]

@[simp] theorem endsRinging_concat (states : List Bytes) (state : Bytes) :
    EndsRinging (states ++ [state]) ↔ audioMode state = .ringtone := by
  simp [EndsRinging]

theorem StartsRinging.hasRing {states : List Bytes} (h : StartsRinging states) :
    HasRing states := by
  obtain ⟨state, hstate, hring⟩ := h
  exact ⟨state, List.mem_of_mem_head? hstate, hring⟩

/-- A stretch begins with a ringtone or has a call. -/
theorem stretch_startsRinging_or_hasCall (states : List Bytes) :
    stretch states = [] ∨ StartsRinging (stretch states) ∨ HasCall (stretch states) := by
  cases hstretch : stretch states with
  | nil => exact Or.inl rfl
  | cons first rest =>
      right
      have hfirst : audioMode first ≠ .other := by
        have hmem : first ∈ stretch states := hstretch ▸ List.mem_cons_self
        simpa using List.mem_rtakeWhile_imp hmem
      cases hmode : audioMode first with
      | ringtone => exact Or.inl ⟨first, rfl, hmode⟩
      | call => exact Or.inr ⟨first, List.mem_cons_self, hmode⟩
      | other => exact absurd hmode hfirst

/-- A stretch ends with what was read last. -/
theorem stretch_endsRinging (states : List Bytes) :
    (EndsRinging states → HasRing (stretch states)) ∧
      (¬ EndsRinging states → stretch states = [] ∨ HasCall (stretch states)) := by
  induction states using List.reverseRecOn with
  | nil => simp [EndsRinging, stretch]
  | append_singleton states state _ =>
      rw [stretch_concat]
      cases hmode : audioMode state with
      | ringtone => simp [hmode]
      | call => simp [hmode]
      | other => simp [hmode]

/-! ## What a turn does -/

theorem pollTurn_flags (flags : PollFlags) (state : Bytes) :
    (pollTurn flags state).1 =
      match audioMode state with
      | .ringtone => { flags with preInit := true }
      | .call => { flags with active := true }
      | .other => {} := by
  unfold pollTurn
  obtain ⟨active, preInit⟩ := flags
  cases audioMode state <;> cases active <;> cases preInit <;> rfl

theorem pollTurn_isUnmuted (flags : PollFlags) (state : Bytes) (routines : List Routine) :
    IsUnmuted (routines ++ (pollTurn flags state).2) ↔
      match audioMode state with
      | .ringtone => IsUnmuted routines ∧ flags.preInit = true
      | .call => IsUnmuted routines ∨ flags.active = false
      | .other => IsUnmuted routines := by
  unfold pollTurn
  obtain ⟨active, preInit⟩ := flags
  cases audioMode state with
  | ringtone => cases preInit <;> simp [not_isUnmuted_applyPreInit]
  | call => cases active <;> simp [isUnmuted_applyMicFix]
  | other => cases active <;> cases preInit <;> simp

/-- The flags say what the stretch holds. -/
theorem pollLoop_flags (states : List Bytes) :
    ((pollLoop states).1.active = true ↔ HasCall (stretch states)) ∧
      ((pollLoop states).1.preInit = true ↔ HasRing (stretch states)) := by
  induction states using List.reverseRecOn with
  | nil => simp [pollLoop, stretch, HasCall, HasRing]
  | append_singleton states state ih =>
      obtain ⟨hactive, hpreInit⟩ := ih
      rw [pollLoop_concat, stretch_concat, pollTurn_flags]
      cases hmode : audioMode state with
      | ringtone => simp [hmode, hactive]
      | call => simp [hmode, hpreInit]
      | other => simp [HasCall, HasRing]

theorem pollLoop_isUnmuted_concat (states : List Bytes) (state : Bytes) :
    IsUnmuted (pollLoop (states ++ [state])).2 ↔
      match audioMode state with
      | .ringtone => IsUnmuted (pollLoop states).2 ∧ HasRing (stretch states)
      | .call => IsUnmuted (pollLoop states).2 ∨ ¬ HasCall (stretch states)
      | .other => IsUnmuted (pollLoop states).2 := by
  obtain ⟨hactive, hpreInit⟩ := pollLoop_flags states
  rw [pollLoop_concat, pollTurn_isUnmuted, ← hactive, ← hpreInit, Bool.not_eq_true]

/-! ## Runs -/

/-- As long as rings are answered, the line is muted by a ringtone only, and only until the
stretch that began with it has had a call. -/
theorem RingsAreAnswered.isUnmuted {states : List Bytes} (h : RingsAreAnswered states) :
    (IsUnmuted (pollLoop states).2 ↔
        (EndsRinging states → StartsRinging (stretch states) ∧ HasCall (stretch states))) ∧
      (¬ EndsRinging states → HasRing (stretch states) → StartsRinging (stretch states)) := by
  induction states using List.reverseRecOn with
  | nil => simp [pollLoop, stretch, EndsRinging, HasRing]
  | append_singleton states state ih =>
      obtain ⟨hbefore, hlast⟩ := Throughout.concat_iff.mp h
      obtain ⟨hunmuted, hstarts⟩ := ih hbefore
      obtain ⟨hrings, hcalls⟩ := stretch_endsRinging states
      rw [pollLoop_isUnmuted_concat, stretch_concat, endsRinging_concat, hunmuted]
      cases hmode : audioMode state with
      | ringtone =>
          simp only [reduceCtorEq, if_false, hasCall_concat, startsRinging_concat, hmode, or_false,
            and_true, forall_true_left, not_true_eq_false, false_imp_iff]
          constructor
          · rintro ⟨hanswered, hring⟩
            by_cases hends : EndsRinging states
            · obtain ⟨hstart, hcall⟩ := hanswered hends
              exact ⟨Or.inl hstart, hcall⟩
            · have hnonempty : stretch states ≠ [] := List.ne_nil_of_mem hring.choose_spec.1
              exact ⟨Or.inl (hstarts hends hring), (hcalls hends).resolve_left hnonempty⟩
          · rintro ⟨hstart | hnone, hcall⟩
            · exact ⟨fun _ => ⟨hstart, hcall⟩, hstart.hasRing⟩
            · exact absurd hnone (List.ne_nil_of_mem hcall.choose_spec.1)
      | call =>
          have hstart : EndsRinging states → StartsRinging (stretch states) :=
            fun hends => (hlast hends (by simp [hmode])).1
          simp only [reduceCtorEq, if_false, hasRing_concat, startsRinging_concat, hmode, or_false,
            and_false, false_imp_iff, iff_true, not_false_eq_true, forall_true_left]
          constructor
          · by_cases hcall : HasCall (stretch states)
            · exact Or.inl fun hends => ⟨hstart hends, hcall⟩
            · exact Or.inr hcall
          · intro hring
            by_cases hends : EndsRinging states
            · exact hstart hends
            · exact hstarts hends hring
      | other =>
          have hanswered : EndsRinging states →
              StartsRinging (stretch states) ∧ HasCall (stretch states) := by
            intro hends
            simpa [hmode] using hlast hends (by simp [hmode])
          simpa [HasRing] using hanswered

/-- The line is left muted in no turn but those on a ringtone exactly if every ringtone is
answered: what follows it belongs to a stretch that began with a ringtone and has a call. -/
theorem pollLoop_neverLeftMuted_iff (states : List Bytes) :
    NeverLeftMuted states ↔ RingsAreAnswered states := by
  induction states using List.reverseRecOn with
  | nil => simp [NeverLeftMuted, RingsAreAnswered]
  | append_singleton states state ih =>
      constructor
      · intro hnever
        obtain ⟨hbefore, hlast⟩ := Throughout.concat_iff.mp hnever
        have hanswered := ih.mp hbefore
        refine Throughout.concat_iff.mpr ⟨hanswered, fun hends hmode => ?_⟩
        have hunmuted := hlast hmode
        rw [pollLoop_isUnmuted_concat, hanswered.isUnmuted.1] at hunmuted
        cases hnext : audioMode state with
        | ringtone => exact absurd hnext hmode
        | call =>
            rw [hnext] at hunmuted
            simp only [hasCall_concat, hnext, or_true, and_true]
            rcases hunmuted with hanswer | hcall
            · exact (hanswer hends).1
            · have hring := (stretch_endsRinging states).1 hends
              rcases stretch_startsRinging_or_hasCall states with hnone | hstart | hcall'
              · exact absurd hnone (List.ne_nil_of_mem hring.choose_spec.1)
              · exact hstart
              · exact absurd hcall' hcall
        | other =>
            rw [hnext] at hunmuted
            simpa [hnext] using hunmuted hends
      · intro hanswered
        have hbefore := (Throughout.concat_iff.mp hanswered).1
        refine Throughout.concat_iff.mpr ⟨ih.mpr hbefore, fun hmode => ?_⟩
        apply hanswered.isUnmuted.1.mpr
        intro hends
        exact absurd ((endsRinging_concat states state).mp hends) hmode

/-- A call that is declined leaves the line muted. -/
theorem pollLoop_leftMuted_declined :
    ¬ NeverLeftMuted [lit "mMode=1", lit "mMode=0"] := by
  intro hnever
  have hunmuted := hnever [lit "mMode=1"] (lit "mMode=0") List.prefix_rfl (by decide +kernel)
  have hroutines : (pollLoop ([lit "mMode=1"] ++ [lit "mMode=0"])).2 = [] ++ [.applyPreInit] := by
    decide +kernel
  rw [hroutines] at hunmuted
  exact not_isUnmuted_applyPreInit [] hunmuted

end FreshCore.MicFixer
