import Mathlib.Logic.Relation
import FreshCore.Daemon.World

/-!
# What a part of the daemon may do

A scope lists the events a part may log itself and the changes it may make to the
globals. Code put together from actions within a scope stays within it, whatever
the surroundings answer; the frame properties of all larger parts are instances.
-/

namespace FreshCore

open Posix Imperative

structure Scope where
  event : Event → Prop
  change : (Process → Process) → Prop

/-- Events that the surroundings bring about during a call. -/
def Event.isAmbient : Event → Bool
  | listFailed _ => true
  | lstatFailed _ => true
  | removeFailed _ => true
  | others _ _ => true
  | _ => false

/-- The elementary actions within a scope. -/
inductive Action (env : Env) (scope : Scope) : ∀ {α : Type}, Daemon α → Prop
  | sense {α : Type} (read : Nat → α) : Action env scope (sense read)
  | note {event : Event} : scope.event event → Action env scope (note event)
  | moment : Action env scope moment
  | report {tick : Nat} {event : Event} :
      scope.event event → Action env scope (report tick event)
  | getProcess : Action env scope getProcess
  | setProcess {change : Process → Process} :
      scope.change change → Action env scope (setProcess change)
  | lstat (path : Bytes) : Action env scope (lstat env path)
  | realpath (path : Bytes) : Action env scope (realpath env path)
  | listDirectory (path : Bytes) : Action env scope (listDirectory env path)
  | removeEntry (remove : FileSystem → Loc → Option FileSystem) (path : Bytes) :
      (∀ loc node, scope.event (.removed loc node)) →
      Action env scope (removeEntry env remove path)
  | enter {path : Bytes} : scope.event (.entered path) → Action env scope (enter path)
  | leave {path : Bytes} {completed : Bool} :
      scope.event (.left path completed) → Action env scope (leave path completed)
  | save : (∀ states, scope.event (.saved states)) → Action env scope (saveStateAtomic env)

/-- Code put together from actions within the scope. -/
abbrev Within (env : Env) (scope : Scope) {α : Type} (x : Daemon α) : Prop :=
  Program.Built (Action env scope) x

/-- One scope is contained in another. -/
structure Scope.Sub (scope scope' : Scope) : Prop where
  event : ∀ event, scope.event event → scope'.event event
  change : ∀ change, scope.change change → scope'.change change

theorem Scope.Sub.refl (scope : Scope) : scope.Sub scope :=
  ⟨fun _ h => h, fun _ h => h⟩

theorem Scope.Sub.trans {scope scope' scope'' : Scope} (h : scope.Sub scope')
    (h' : scope'.Sub scope'') : scope.Sub scope'' :=
  ⟨fun event hevent => h'.event event (h.event event hevent),
    fun change hchange => h'.change change (h.change change hchange)⟩

theorem Action.mono {env : Env} {scope scope' : Scope} (hsub : scope.Sub scope') {α : Type}
    {x : Daemon α} (h : Action env scope x) : Action env scope' x := by
  cases h with
  | sense read => exact .sense read
  | note hevent => exact .note (hsub.event _ hevent)
  | moment => exact .moment
  | report hevent => exact .report (hsub.event _ hevent)
  | getProcess => exact .getProcess
  | setProcess hchange => exact .setProcess (hsub.change _ hchange)
  | lstat path => exact .lstat path
  | realpath path => exact .realpath path
  | listDirectory path => exact .listDirectory path
  | removeEntry remove path hevent =>
      exact .removeEntry remove path fun loc node => hsub.event _ (hevent loc node)
  | enter hevent => exact .enter (hsub.event _ hevent)
  | leave hevent => exact .leave (hsub.event _ hevent)
  | save hevent => exact .save fun states => hsub.event _ (hevent states)

/-- Everything that logs only such events of its own. -/
def Scope.logging (allowed : Event → Prop) : Scope where
  event := allowed
  change _ := True

theorem Scope.sub_logging {scope : Scope} {allowed : Event → Prop}
    (h : ∀ event, scope.event event → allowed event) : scope.Sub (.logging allowed) :=
  ⟨h, fun _ _ => trivial⟩

/-! ## The trace a part leaves -/

/-- The step from `w` to `w'` stays within the scope. -/
structure Scope.Reaches (scope : Scope) (w w' : World) : Prop where
  log : ∃ new, w'.log = w.log ++ new ∧ ∀ event ∈ new, scope.event event ∨ event.isAmbient
  process : Relation.ReflTransGen (fun p q => ∃ change, scope.change change ∧ q = change p)
    w.process w'.process

namespace Scope.Reaches

variable {scope : Scope} {w w' w'' : World}

theorem refl (w : World) : scope.Reaches w w :=
  ⟨⟨[], by simp, by simp⟩, .refl⟩

theorem trans (h : scope.Reaches w w') (h' : scope.Reaches w' w'') : scope.Reaches w w'' := by
  obtain ⟨new, hlog, hnew⟩ := h.log
  obtain ⟨new', hlog', hnew'⟩ := h'.log
  refine ⟨⟨new ++ new', by rw [hlog', hlog, List.append_assoc], ?_⟩, h.process.trans h'.process⟩
  intro event hevent
  rcases List.mem_append.mp hevent with hmem | hmem
  · exact hnew event hmem
  · exact hnew' event hmem

theorem silent (hlog : w'.log = w.log) (hprocess : w'.process = w.process) :
    scope.Reaches w w' :=
  ⟨⟨[], by rw [hlog, List.append_nil], by simp⟩, by rw [hprocess]⟩

theorem event {event : Event} (hlog : w'.log = w.log ++ [event])
    (hprocess : w'.process = w.process) (hevent : scope.event event ∨ event.isAmbient) :
    scope.Reaches w w' := by
  refine ⟨⟨[event], hlog, ?_⟩, by rw [hprocess]⟩
  intro other hother
  rw [List.mem_singleton.mp hother]
  exact hevent

theorem mono {scope' : Scope} (h : scope.Reaches w w') (hsub : scope.Sub scope') :
    scope'.Reaches w w' := by
  obtain ⟨new, hlog, hnew⟩ := h.log
  refine ⟨⟨new, hlog, fun event hevent => (hnew event hevent).imp_left (hsub.event event)⟩, ?_⟩
  refine Relation.ReflTransGen.mono (fun p q => ?_) _ _ h.process
  rintro ⟨change, hchange, hq⟩
  exact ⟨change, hsub.change change hchange, hq⟩

/-- What every change in the scope keeps is kept. -/
theorem observe {γ : Type} {obs : Process → γ} (h : scope.Reaches w w')
    (hobs : ∀ change, scope.change change → ∀ p, obs (change p) = obs p) :
    obs w'.process = obs w.process := by
  refine h.process.trans_induction_on (motive := fun {p q} _ => obs q = obs p) ?_ ?_ ?_
  · intro p
    rfl
  · rintro p q ⟨change, hchange, rfl⟩
    exact hobs change hchange p
  · intro p q r _ _ hpq hqr
    exact hqr.trans hpq

/-- The entries from a mark on grow as the log does. -/
theorem since (h : scope.Reaches w w') {mark : Nat} (hmark : mark ≤ w.log.length) :
    mark ≤ w'.log.length ∧ ∃ new, w'.log.drop mark = w.log.drop mark ++ new ∧
      ∀ event ∈ new, scope.event event ∨ event.isAmbient := by
  obtain ⟨new, hlog, hnew⟩ := h.log
  rw [hlog]
  refine ⟨?_, new, List.drop_append_of_le_length hmark, hnew⟩
  rw [List.length_append]
  exact Nat.le_add_right_of_le hmark

end Scope.Reaches

theorem reaches_interfere (scope : Scope) (env : Env) (w : World) :
    scope.Reaches w (w.interfere env) := by
  unfold World.interfere
  split
  · exact .refl w
  · exact .event rfl rfl (Or.inr rfl)

theorem Action.reaches {env : Env} {scope : Scope} {α : Type} {x : Daemon α}
    (h : Action env scope x) : x.Keeps scope.Reaches := by
  intro w
  cases h with
  | sense read => exact .silent rfl rfl
  | note hevent => exact .event rfl rfl (Or.inl hevent)
  | moment => exact .refl w
  | report hevent => exact .event rfl rfl (Or.inl hevent)
  | getProcess => exact .refl w
  | setProcess hchange =>
      exact ⟨⟨[], (List.append_nil _).symm, by simp⟩, .single ⟨_, hchange, rfl⟩⟩
  | lstat path =>
      apply (reaches_interfere scope env w).trans
      unfold FreshCore.lstat
      dsimp only
      split
      · exact .silent rfl rfl
      · split
        · exact .event rfl rfl (Or.inr rfl)
        · exact .silent rfl rfl
  | realpath path => exact (reaches_interfere scope env w).trans (.silent rfl rfl)
  | listDirectory path =>
      apply (reaches_interfere scope env w).trans
      unfold FreshCore.listDirectory
      dsimp only
      split
      · exact .silent rfl rfl
      · split
        · exact .silent rfl rfl
        · split
          · exact .event rfl rfl (Or.inr rfl)
          · exact .silent rfl rfl
  | removeEntry remove path hevent =>
      apply (reaches_interfere scope env w).trans
      unfold FreshCore.removeEntry
      dsimp only
      split
      · exact .silent rfl rfl
      · split
        · split
          · exact .event rfl rfl (Or.inr rfl)
          · exact .event rfl rfl (Or.inl (hevent _ _))
        · exact .silent rfl rfl
  | enter hevent => exact .event rfl rfl (Or.inl hevent)
  | leave hevent => exact .event rfl rfl (Or.inl hevent)
  | save hevent =>
      unfold saveStateAtomic
      dsimp only
      split
      · exact .event rfl rfl (Or.inl (hevent _))
      · exact .silent rfl rfl

/-- Code within a scope leaves only the traces the scope allows. -/
theorem Within.reaches {env : Env} {scope : Scope} {α : Type} {x : Daemon α}
    (h : Within env scope x) : x.Keeps scope.Reaches :=
  Program.Built.keeps Scope.Reaches.refl (fun _ _ _ => Scope.Reaches.trans)
    (fun _ haction => haction.reaches) h

/-- An assertion kept by every step within the scope is kept by code within it. -/
theorem Within.triple {env : Env} {scope : Scope} {I : World → Prop} {α : Type} {x : Daemon α}
    (h : Within env scope x) (hkept : ∀ w w', I w → scope.Reaches w w' → I w') :
    Program.Triple I x (fun _ => I) I :=
  Program.Built.triple (fun _ haction w hw => hkept w _ hw (haction.reaches w)) h

/-- Code within the scope keeps the assertion. -/
def Scope.Keeps (scope : Scope) (env : Env) (I : World → Prop) : Prop :=
  ∀ ⦃α : Type⦄ ⦃x : Daemon α⦄, Within env scope x → Program.Triple I x (fun _ => I) I

theorem Scope.Keeps.of_reaches {env : Env} {scope : Scope} {I : World → Prop}
    (hkept : ∀ w w', I w → scope.Reaches w w' → I w') : scope.Keeps env I :=
  fun _ _ h => h.triple hkept

end FreshCore
