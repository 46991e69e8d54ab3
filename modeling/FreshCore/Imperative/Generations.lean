import Mathlib.Data.List.Infix

/-!
# Two generations

Entries go to the current generation. Once that one is full it takes the place of the old
one, which is given up. What is left of a history is its end, and a full generation at
least if anything was given up.
-/

namespace Imperative

structure Generations (α : Type) where
  old : List α := []
  current : List α := []

namespace Generations

variable {α : Type} {full : List α → Prop} {history : List α} {g : Generations α}

def kept (g : Generations α) : List α := g.old ++ g.current

/-- A full generation makes way before the entry is added. -/
def add (full : List α → Prop) [DecidablePred full] (g : Generations α) (entry : α) :
    Generations α :=
  if full g.current then { old := g.current, current := [entry] }
  else { g with current := g.current ++ [entry] }

/-- What the generations hold of a history. -/
structure Holds (full : List α → Prop) (history : List α) (g : Generations α) : Prop where
  kept_suffix : g.kept <:+ history
  enough : g.kept = history ∨ full g.old
  /-- There was room for the last entry of the current generation, unless it is the first. -/
  room : ∀ front entry, g.current = front ++ [entry] → front = [] ∨ ¬ full front

theorem Holds.empty : Holds full [] {} where
  kept_suffix := List.suffix_rfl
  enough := Or.inl rfl
  room := by simp

theorem Holds.add [DecidablePred full] (h : Holds full history g) (entry : α) :
    Holds full (history ++ [entry]) (g.add full entry) := by
  unfold Generations.add
  split
  next hfull =>
    constructor
    · apply List.suffix_append_self_iff.mpr
      exact (List.suffix_append g.old g.current).trans h.kept_suffix
    · exact Or.inr hfull
    · intro front last heq
      have hsplit : front ++ [last] = [] ++ [entry] := heq.symm
      exact Or.inl (List.append_inj' hsplit rfl).1
  next hroom =>
    have hkept : kept { g with current := g.current ++ [entry] } = g.kept ++ [entry] :=
      (List.append_assoc _ _ _).symm
    constructor
    · rw [hkept]
      exact List.suffix_append_self_iff.mpr h.kept_suffix
    · rw [hkept]
      exact h.enough.imp (congrArg (· ++ [entry])) id
    · intro front last heq
      obtain ⟨rfl, _⟩ := List.append_inj' heq rfl
      exact Or.inr hroom

/-- The last entry of the current generation is the last of the history. -/
theorem Holds.getLast? (h : Holds full history g) {front : List α} {entry : α}
    (hcurrent : g.current = front ++ [entry]) : history.getLast? = some entry := by
  obtain ⟨gone, rfl⟩ := h.kept_suffix
  simp [kept, hcurrent]

end Generations

end Imperative
