import Mathlib.Data.List.DropRight

/-!
# Histories

A history is a list that grows at its end. What is to hold at each of its points speaks of
the entry made there and of those before it, and is shown one entry at a time.
-/

namespace Imperative

variable {α : Type}

/-- At each point of the history, the entries before it and the one made there are as
described. -/
def Throughout (P : List α → α → Prop) (history : List α) : Prop :=
  ∀ front entry, front ++ [entry] <+: history → P front entry

namespace Throughout

variable {P Q : List α → α → Prop} {history history' : List α}

@[simp] theorem nil : Throughout P [] := by
  intro front entry hpart
  simp at hpart

@[simp] theorem concat_iff {entry : α} :
    Throughout P (history ++ [entry]) ↔ Throughout P history ∧ P history entry := by
  constructor
  · intro h
    constructor
    · intro front other hpart
      exact h front other (hpart.trans (List.prefix_append _ _))
    · exact h history entry List.prefix_rfl
  · rintro ⟨h, hlast⟩ front other hpart
    rcases List.prefix_concat_iff.mp hpart with hconcat | hpart
    · obtain ⟨hfront, hother⟩ := List.append_inj' hconcat rfl
      cases hfront
      cases hother
      exact hlast
    · exact h front other hpart

theorem of_prefix (h : Throughout P history') (hpart : history <+: history') :
    Throughout P history :=
  fun front entry hfront => h front entry (hfront.trans hpart)

theorem of_mem {entry : α} (h : Throughout P history) (hmem : entry ∈ history) :
    ∃ front, P front entry := by
  obtain ⟨front, rest, rfl⟩ := List.append_of_mem hmem
  exact ⟨front, h front entry ⟨rest, by simp⟩⟩

/-- A part that is added point by point. -/
theorem append {new : List α} (h : Throughout P history)
    (hnew : ∀ front entry, front ++ [entry] <+: new → P (history ++ front) entry) :
    Throughout P (history ++ new) := by
  induction new using List.reverseRecOn with
  | nil => simpa using h
  | append_singleton new entry ih =>
      rw [← List.append_assoc, concat_iff]
      constructor
      · apply ih
        intro front other hpart
        exact hnew front other (hpart.trans (List.prefix_append _ _))
      · exact hnew new entry List.prefix_rfl

theorem iff_getElem : Throughout P history ↔
    ∀ i : Fin history.length, P (history.take i) history[i] := by
  constructor
  · intro h i
    apply h
    rw [Fin.getElem_fin, List.take_append_getElem]
    exact List.take_prefix _ _
  · rintro h front entry ⟨rest, rfl⟩
    simpa using h ⟨front.length, by simp⟩

instance [∀ front entry, Decidable (P front entry)] : Decidable (Throughout P history) :=
  decidable_of_iff _ iff_getElem.symm

end Throughout

end Imperative
