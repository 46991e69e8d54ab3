import Mathlib.Data.List.Basic

/-!
# Looking for something until it is found

What is found is kept and not looked for again, so that after any number of turns it is what
the first turn found at which there was something.
-/

namespace Imperative

variable {World Found State : Type}

/-- One turn: what is known is kept, and only else is it looked for. -/
def remember (look : World → Option Found) (known : Option Found) (world : World) :
    Option Found :=
  known.or (look world)

@[simp] theorem remember_some (look : World → Option Found) (found : Found) (world : World) :
    remember look (some found) world = some found := rfl

@[simp] theorem remember_none (look : World → Option Found) (world : World) :
    remember look none world = look world := rfl

theorem foldl_remember (look : World → Option Found) (worlds : List World)
    (known : Option Found) :
    worlds.foldl (remember look) known = known.or (worlds.findSome? look) := by
  induction worlds generalizing known with
  | nil => simp
  | cons world rest ih =>
      rw [List.foldl_cons, ih, remember, Option.or_assoc, List.findSome?_cons]
      cases look world with
      | none => rfl
      | some found => simp

/-- A state of which the view `view` only looks until it knows. -/
def Remembers (step : State → World → State) (view : State → Option Found)
    (look : World → Option Found) : Prop :=
  ∀ state world, view (step state world) = remember look (view state) world

/-- A state that knows nothing yet comes to know what is found first. -/
theorem Remembers.view_foldl {step : State → World → State} {view : State → Option Found}
    {look : World → Option Found} (h : Remembers step view look) (worlds : List World)
    {state : State} (hnew : view state = none) :
    view (worlds.foldl step state) = worlds.findSome? look := by
  have hrun : view (worlds.foldl step state) = worlds.foldl (remember look) (view state) := by
    clear hnew
    induction worlds generalizing state with
    | nil => rfl
    | cons world rest ih => rw [List.foldl_cons, List.foldl_cons, ← h state world, ih]
  rw [hrun, hnew, foldl_remember, Option.none_or]

end Imperative
