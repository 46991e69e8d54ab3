import Mathlib.Logic.Basic

/-!
# Programs that may be cut off

A program moves a state and either returns a value or is cut off, which is how
a recursion that is only followed to a bounded depth ends. The state reached
until then is kept, so a safety property of everything done so far can be
stated of cut-off runs as well.
-/

namespace Imperative

/-- A program over the states `σ` with results in `α`; `none` marks a run that
was cut off. -/
structure Program (σ α : Type) where
  run : σ → Option α × σ

namespace Program

variable {σ α β γ : Type}

instance : Monad (Program σ) where
  pure a := ⟨fun s => (some a, s)⟩
  bind x f := ⟨fun s =>
    match x.run s with
    | (some a, s') => (f a).run s'
    | (none, s') => (none, s')⟩

/-- Give up here and keep the state. -/
def cut : Program σ α := ⟨fun s => (none, s)⟩

/-- Change the state. -/
def update (f : σ → σ) : Program σ Unit := ⟨fun s => (some (), f s)⟩

/-- Read something off the state. -/
def inspect (f : σ → α) : Program σ α := ⟨fun s => (some (f s), s)⟩

@[simp] theorem run_pure (a : α) (s : σ) : (pure a : Program σ α).run s = (some a, s) := rfl

@[simp] theorem run_cut (s : σ) : (cut : Program σ α).run s = (none, s) := rfl

@[simp] theorem run_update (f : σ → σ) (s : σ) : (update f).run s = (some (), f s) := rfl

@[simp] theorem run_inspect (f : σ → α) (s : σ) : (inspect f).run s = (some (f s), s) := rfl

theorem run_eq_of_result {x : Program σ α} {s : σ} {a : α} (hresult : (x.run s).1 = some a) :
    x.run s = (some a, (x.run s).2) :=
  Prod.ext hresult rfl

theorem run_bind (x : Program σ α) (f : α → Program σ β) (s : σ) :
    (x >>= f).run s =
      match x.run s with
      | (some a, s') => (f a).run s'
      | (none, s') => (none, s') := rfl

theorem run_bind_of_some {x : Program σ α} {f : α → Program σ β} {s s' : σ} {a : α}
    (hrun : x.run s = (some a, s')) : (x >>= f).run s = (f a).run s' := by
  rw [run_bind, hrun]

/-- A sequence that returned did so through both of its parts. -/
theorem run_bind_eq_some {x : Program σ α} {f : α → Program σ β} {s t : σ} {b : β} :
    (x >>= f).run s = (some b, t) ↔
      ∃ a s', x.run s = (some a, s') ∧ (f a).run s' = (some b, t) := by
  rw [run_bind]
  rcases hx : x.run s with ⟨_ | a, s'⟩
  · simp
  · constructor
    · intro h
      exact ⟨a, s', rfl, h⟩
    · rintro ⟨a', t', heq, h⟩
      cases heq
      exact h

/-! ## Triples -/

/-- The result satisfies `Q` if there is one, and the state satisfies `C` if the
run was cut off. -/
def Post (Q : α → σ → Prop) (C : σ → Prop) : Option α × σ → Prop
  | (some a, s) => Q a s
  | (none, s) => C s

@[simp] theorem post_some (Q : α → σ → Prop) (C : σ → Prop) (a : α) (s : σ) :
    Post Q C (some a, s) = Q a s := rfl

@[simp] theorem post_none (Q : α → σ → Prop) (C : σ → Prop) (s : σ) :
    Post Q C (none, s) = C s := rfl

theorem Post.mono {Q Q' : α → σ → Prop} {C C' : σ → Prop} {r : Option α × σ}
    (hpost : Post Q C r) (hQ : ∀ a s, Q a s → Q' a s) (hC : ∀ s, C s → C' s) :
    Post Q' C' r := by
  rcases r with ⟨_ | a, s⟩
  · exact hC s hpost
  · exact hQ a s hpost

/-- A postcondition that ignores the result speaks about the final state. -/
theorem Post.state {C : σ → Prop} {r : Option α × σ} (hpost : Post (fun _ => C) C r) :
    C r.2 := by
  rcases r with ⟨_ | a, s⟩ <;> exact hpost

/-- From every state satisfying `P`, returning establishes `Q` and being cut off
establishes `C`. -/
def Triple (P : σ → Prop) (x : Program σ α) (Q : α → σ → Prop) (C : σ → Prop) : Prop :=
  ∀ s, P s → Post Q C (x.run s)

namespace Triple

variable {P P' : σ → Prop} {C C' : σ → Prop}

theorem pure {Q : α → σ → Prop} {a : α} (h : ∀ s, P s → Q a s) :
    Triple P (Pure.pure a) Q C :=
  fun s hs => h s hs

theorem cut {Q : α → σ → Prop} (h : ∀ s, P s → C s) :
    Triple P (Program.cut : Program σ α) Q C :=
  fun s hs => h s hs

theorem update {Q : Unit → σ → Prop} {f : σ → σ} (h : ∀ s, P s → Q () (f s)) :
    Triple P (Program.update f) Q C :=
  fun s hs => h s hs

/-- What was read is remembered as an equation about the state. -/
theorem inspect {Q : α → σ → Prop} {f : σ → α} (h : ∀ s, P s → Q (f s) s) :
    Triple P (Program.inspect f) Q C :=
  fun s hs => h s hs

theorem bind {M : α → σ → Prop} {Q : β → σ → Prop} {x : Program σ α}
    {f : α → Program σ β} (hx : Triple P x M C) (hf : ∀ a, Triple (M a) (f a) Q C) :
    Triple P (x >>= f) Q C := by
  intro s hs
  have hmiddle := hx s hs
  rw [run_bind]
  rcases hrun : x.run s with ⟨_ | a, s'⟩
  · rw [hrun] at hmiddle
    exact hmiddle
  · rw [hrun] at hmiddle
    exact hf a s' hmiddle

/-- What holds of every final state. -/
theorem of_state {x : Program σ α} (h : ∀ s, P s → C (x.run s).2) :
    Triple P x (fun _ => C) C := by
  intro s hs
  have hfinal := h s hs
  rcases hrun : x.run s with ⟨_ | a, s'⟩ <;> (rw [hrun] at hfinal; exact hfinal)

theorem mono {Q Q' : α → σ → Prop} {x : Program σ α} (hx : Triple P x Q C)
    (hP : ∀ s, P' s → P s) (hQ : ∀ a s, Q a s → Q' a s) (hC : ∀ s, C s → C' s) :
    Triple P' x Q' C' :=
  fun s hs => (hx s (hP s hs)).mono hQ hC

theorem weaken {Q Q' : α → σ → Prop} {x : Program σ α} (hx : Triple P x Q C)
    (hQ : ∀ a s, Q a s → Q' a s) : Triple P x Q' C :=
  hx.mono (fun _ h => h) hQ (fun _ h => h)

theorem strengthen {Q : α → σ → Prop} {x : Program σ α} (hx : Triple P x Q C)
    (hP : ∀ s, P' s → P s) : Triple P' x Q C :=
  hx.mono hP (fun _ _ h => h) (fun _ h => h)

/-- A fact that does not depend on the state is there for the whole program. -/
theorem of_and {p : Prop} {Q : α → σ → Prop} {x : Program σ α}
    (h : p → Triple P x Q C) : Triple (fun s => p ∧ P s) x Q C :=
  fun s hs => h hs.1 s hs.2

theorem ite {Q : α → σ → Prop} {c : Prop} [Decidable c] {x y : Program σ α}
    (hx : c → Triple P x Q C) (hy : ¬ c → Triple P y Q C) :
    Triple P (if c then x else y) Q C := by
  split
  next hc => exact hx hc
  next hc => exact hy hc

end Triple

/-! ## What a program keeps -/

/-- Every run of `x` moves the state along `R`, also when it is cut off. -/
def Keeps (R : σ → σ → Prop) (x : Program σ α) : Prop :=
  ∀ s, R s (x.run s).2

/-- The programs put together from the given primitives by returning, sequencing
and cutting off. -/
inductive Built (prim : ∀ {β : Type}, Program σ β → Prop) : ∀ {α : Type}, Program σ α → Prop
  | prim {α : Type} {x : Program σ α} : prim x → Built prim x
  | pure {α : Type} (a : α) : Built prim (Pure.pure a : Program σ α)
  | cut {α : Type} : Built prim (Program.cut : Program σ α)
  | bind {α β : Type} {x : Program σ β} {f : β → Program σ α} :
      Built prim x → (∀ b, Built prim (f b)) → Built prim (x >>= f)

variable {prim : ∀ {β : Type}, Program σ β → Prop}

/-- A preorder kept by every primitive is kept by everything built from them. -/
theorem Built.keeps {R : σ → σ → Prop} (hrefl : ∀ s, R s s)
    (htrans : ∀ s t u, R s t → R t u → R s u)
    (hprim : ∀ {β : Type} (x : Program σ β), prim x → x.Keeps R)
    {x : Program σ α} (hbuilt : Built prim x) : x.Keeps R := by
  induction hbuilt with
  | prim h => exact hprim _ h
  | pure a => exact fun s => hrefl s
  | cut => exact fun s => hrefl s
  | @bind _ _ x f _ _ ihx ihf =>
      intro s
      have hx := ihx s
      rw [run_bind]
      rcases hrun : x.run s with ⟨_ | b, s'⟩
      · rw [hrun] at hx
        exact hx
      · rw [hrun] at hx
        exact htrans s s' _ hx (ihf b s')

/-- An assertion kept by every primitive is kept by everything built from them. -/
theorem Built.triple {I : σ → Prop}
    (hprim : ∀ {β : Type} (x : Program σ β), prim x → ∀ s, I s → I (x.run s).2)
    {x : Program σ α} (hbuilt : Built prim x) : Triple I x (fun _ => I) I := by
  have hkeeps : x.Keeps fun s t => I s → I t :=
    hbuilt.keeps (fun _ h => h) (fun _ _ _ h h' hs => h' (h hs))
      (fun x hx s => hprim x hx s)
  exact .of_state hkeeps

end Program

end Imperative
