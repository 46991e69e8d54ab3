import FreshCore.Daemon.Scope

/-!
# Assertions under a proviso

A run is followed under the proviso that events of a certain kind do not occur in it.
Once one has occurred it stays in the log, so that nothing more is to be shown; the
rules below leave only what has to be shown while none has.
-/

namespace FreshCore

open Posix Imperative

/-- One of the events is of the kind. -/
def Occurs (kind : Event → Bool) (events : List Event) : Prop :=
  ∃ event ∈ events, kind event = true

instance (kind : Event → Bool) (events : List Event) : Decidable (Occurs kind events) := by
  unfold Occurs
  infer_instance

theorem Occurs.append {kind : Event → Bool} {events : List Event} (h : Occurs kind events)
    (new : List Event) : Occurs kind (events ++ new) := by
  obtain ⟨event, hmem, hkind⟩ := h
  exact ⟨event, List.mem_append_left new hmem, hkind⟩

theorem Occurs.new {kind : Event → Bool} {new : List Event} (h : Occurs kind new)
    (events : List Event) : Occurs kind (events ++ new) := by
  obtain ⟨event, hmem, hkind⟩ := h
  exact ⟨event, List.mem_append_right events hmem, hkind⟩

/-- What holds since a later entry holds since an earlier one. -/
theorem Occurs.earlier {kind : Event → Bool} {events : List Event} {since before : Nat}
    (h : Occurs kind (events.drop since)) (hle : before ≤ since) :
    Occurs kind (events.drop before) := by
  obtain ⟨event, hmem, hkind⟩ := h
  exact ⟨event, List.drop_subset_drop_left events hle hmem, hkind⟩

theorem Occurs.single {kind : Event → Bool} {event : Event} (h : kind event = true) :
    Occurs kind [event] :=
  ⟨event, List.mem_singleton_self event, h⟩

/-- From the entry `mark` on, such an event occurred or the state is as described. -/
def Unless (kind : Event → Bool) (mark : Nat) (state : World → Prop) (w : World) : Prop :=
  mark ≤ w.log.length ∧ (Occurs kind (w.log.drop mark) ∨ state w)

namespace Unless

variable {kind : Event → Bool} {mark : Nat} {state state' : World → Prop} {w w' : World}

theorem start (kind : Event → Bool) (h : state w) : Unless kind w.log.length state w :=
  ⟨Nat.le_refl _, Or.inr h⟩

theorem mono (h : Unless kind mark state w) (hstate : state w → state' w) :
    Unless kind mark state' w :=
  ⟨h.1, h.2.imp_right hstate⟩

/-- A step that adds to the log owes something only while no such event has occurred. -/
theorem extend (h : Unless kind mark state w) {new : List Event} (hlog : w'.log = w.log ++ new)
    (hnext : w'.log.drop mark = w.log.drop mark ++ new → state w → Occurs kind new ∨ state' w') :
    Unless kind mark state' w' := by
  have hsince : w'.log.drop mark = w.log.drop mark ++ new := by
    rw [hlog, List.drop_append_of_le_length h.1]
  have hmark : mark ≤ w'.log.length := by
    rw [hlog, List.length_append]
    exact Nat.le_add_right_of_le h.1
  refine ⟨hmark, ?_⟩
  -- once such an event is in the log there is nothing to show
  rcases h.2 with hoccurs | hstate
  · rw [hsince]
    exact Or.inl (hoccurs.append new)
  · rcases hnext hsince hstate with hnew | hstate'
    · rw [hsince]
      exact Or.inl (hnew.new _)
    · exact Or.inr hstate'

/-- A step that logs nothing. -/
theorem silent (h : Unless kind mark state w) (hlog : w'.log = w.log)
    (hstate : state w → state' w') : Unless kind mark state' w' := by
  have hnone : w'.log = w.log ++ [] := by rw [hlog, List.append_nil]
  exact h.extend hnone fun _ hw => Or.inr (hstate hw)

/-- Nothing of the kind has occurred since the mark. -/
theorem of_not_occurs (h : Unless kind mark state w) (hnot : ¬ Occurs kind (w.log.drop mark)) :
    state w :=
  h.2.resolve_left hnot

/-- What is shown of the run from each state is shown with the state it started from. -/
theorem triple {env : Env} {scope : Scope} {α : Type} {x : Daemon α}
    (hwithin : Within env scope x) {result : World → α → World → Prop}
    {cutOff : World → World → Prop}
    (hx : ∀ w, state w → Program.Post (fun a => Unless kind w.log.length (result w a))
      (Unless kind w.log.length (cutOff w)) (x.run w)) :
    Program.Triple (Unless kind mark state) x
      (fun a => Unless kind mark fun w' => ∃ w, state w ∧ result w a w')
      (Unless kind mark fun w' => ∃ w, state w ∧ cutOff w w') := by
  intro w hw
  obtain ⟨hmark, new, hsince, _⟩ := (hwithin.reaches w).since hw.1
  rcases hw.2 with hoccurs | hstate
  · rcases hrun : x.run w with ⟨_ | a, w'⟩ <;>
      (rw [hrun] at hmark hsince; exact ⟨hmark, Or.inl (hsince ▸ hoccurs.append new)⟩)
  · have hpost := hx w hstate
    rcases hrun : x.run w with ⟨_ | a, w'⟩ <;> rw [hrun] at hpost hmark
    · rw [Program.post_none] at hpost ⊢
      exact ⟨hmark, hpost.2.imp (Occurs.earlier · hw.1) fun hcut => ⟨w, hstate, hcut⟩⟩
    · rw [Program.post_some] at hpost ⊢
      exact ⟨hmark, hpost.2.imp (Occurs.earlier · hw.1) fun hresult => ⟨w, hstate, hresult⟩⟩

end Unless

end FreshCore
