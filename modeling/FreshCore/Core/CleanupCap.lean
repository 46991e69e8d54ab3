import Mathlib.Algebra.BigOperators.Group.List.Basic
import FreshCore.Core.EngineRuns
import FreshCore.Core.Invariants

/-!
# The cleanup cap

`EndBatch` refuses once the bytes handed over to it exceed the cap, but its answer
counts only between two children of one directory. A loop that begins or ends
while the cap is exceeded starts counting anew, and so the bound of one batch holds
as long as there is no such loop and what was removed has been handed over.
-/

namespace FreshCore

open Posix Imperative Config Device Cache

/-! ## Reading the log -/

/-- The size of the file that was removed, if one was. -/
def Event.removedBytes : Event → Nat
  | removed _ node => if node.isDir then 0 else node.size.toNat
  | _ => 0

def Event.removesFile : Event → Bool
  | removed _ node => !node.isDir
  | _ => false

/-- The bytes handed over at the end of a batch. -/
def Event.handedOver : Event → Nat
  | endBatch _ bytes _ => bytes.toNat
  | _ => 0

def Event.isBatchEnd : Event → Bool
  | endBatch _ _ _ => true
  | _ => false

/-- A removal loop begins, or comes to its end. -/
def Event.isLoopEdge : Event → Bool
  | entered _ => true
  | left _ completed => completed
  | _ => false

def removedBytes (events : List Event) : Nat := (events.map Event.removedBytes).sum

def handedOver (events : List Event) : Nat := (events.map Event.handedOver).sum

/-- How many files are removed after the size of those removed before, of which there were
`removed` bytes at the start, exceeds the cap. -/
def filesBeyond (cap : Nat) : Nat → List Event → Nat
  | _, [] => 0
  | removed, event :: rest =>
      (if cap < removed ∧ event.removesFile = true then 1 else 0) +
        filesBeyond cap (removed + event.removedBytes) rest

/-- While the size of the files removed exceeds the cap, a removal loop begins or comes to
its end, or a batch ends with no more than the cap handed over in all. -/
def escapesCap (cap : Nat) : Nat → Nat → List Event → Bool
  | _, _, [] => false
  | removed, handed, event :: rest =>
      (cap < removed && (event.isLoopEdge ||
        (event.isBatchEnd && !(cap < (handed + event.handedOver) % 2 ^ 64)))) ||
        escapesCap cap (removed + event.removedBytes) (handed + event.handedOver) rest

theorem filesBeyond_append (cap removed : Nat) (events new : List Event) :
    filesBeyond cap removed (events ++ new) =
      filesBeyond cap removed events + filesBeyond cap (removed + removedBytes events) new := by
  induction events generalizing removed with
  | nil => simp [filesBeyond, removedBytes]
  | cons event rest ih =>
      have hsum : removed + event.removedBytes + removedBytes rest =
          removed + removedBytes (event :: rest) := by
        simp [removedBytes, Nat.add_assoc]
      rw [List.cons_append, filesBeyond, filesBeyond, ih, hsum, Nat.add_assoc]

theorem escapesCap_append (cap removed handed : Nat) (events new : List Event) :
    escapesCap cap removed handed (events ++ new) =
      (escapesCap cap removed handed events ||
        escapesCap cap (removed + removedBytes events) (handed + handedOver events) new) := by
  induction events generalizing removed handed with
  | nil => simp [escapesCap, removedBytes, handedOver]
  | cons event rest ih =>
      have hremoved : removed + event.removedBytes + removedBytes rest =
          removed + removedBytes (event :: rest) := by
        simp [removedBytes, Nat.add_assoc]
      have hhanded : handed + event.handedOver + handedOver rest =
          handed + handedOver (event :: rest) := by
        simp [handedOver, Nat.add_assoc]
      rw [List.cons_append, escapesCap, escapesCap, ih, hremoved, hhanded, Bool.or_assoc]

theorem filesBeyond_eq_zero {cap removed : Nat} {events : List Event}
    (hunder : removed + removedBytes events ≤ cap) : filesBeyond cap removed events = 0 := by
  induction events generalizing removed with
  | nil => rfl
  | cons event rest ih =>
      have hsum : removed + removedBytes (event :: rest) =
          removed + event.removedBytes + removedBytes rest := by
        simp [removedBytes, Nat.add_assoc]
      rw [hsum] at hunder
      rw [filesBeyond, ih hunder, if_neg (by omega)]

theorem removedBytes_append (events new : List Event) :
    removedBytes (events ++ new) = removedBytes events + removedBytes new := by
  simp [removedBytes]

theorem handedOver_append (events new : List Event) :
    handedOver (events ++ new) = handedOver events + handedOver new := by
  simp [handedOver]

section Snoc

variable (cap : Nat) (events : List Event) (event : Event)

theorem removedBytes_snoc :
    removedBytes (events ++ [event]) = removedBytes events + event.removedBytes := by
  simp [removedBytes]

theorem handedOver_snoc :
    handedOver (events ++ [event]) = handedOver events + event.handedOver := by
  simp [handedOver]

theorem filesBeyond_snoc :
    filesBeyond cap 0 (events ++ [event]) = filesBeyond cap 0 events +
      if cap < removedBytes events ∧ event.removesFile = true then 1 else 0 := by
  rw [filesBeyond_append, Nat.zero_add]
  rfl

theorem escapesCap_snoc :
    escapesCap cap 0 0 (events ++ [event]) = (escapesCap cap 0 0 events ||
      (cap < removedBytes events && (event.isLoopEdge || (event.isBatchEnd &&
        !(cap < (handedOver events + event.handedOver) % 2 ^ 64))))) := by
  rw [escapesCap_append, Nat.zero_add, Nat.zero_add, escapesCap, escapesCap, Bool.or_false]

end Snoc

/-- Neither removes a file nor ends a batch. -/
def Event.IsNeutral (event : Event) : Prop :=
  event.removesFile = false ∧ event.isBatchEnd = false

theorem Event.IsNeutral.removedBytes {event : Event} (h : event.IsNeutral) :
    event.removedBytes = 0 := by
  obtain ⟨hremoves, _⟩ := h
  cases event <;> first | rfl | simp_all [Event.removesFile, Event.removedBytes]

theorem Event.IsNeutral.handedOver {event : Event} (h : event.IsNeutral) :
    event.handedOver = 0 := by
  obtain ⟨_, hbatch⟩ := h
  cases event <;> first | rfl | cases hbatch

theorem Event.isNeutral_of_isAmbient {event : Event} (h : event.isAmbient) :
    event.IsNeutral := by
  cases event <;> first | exact ⟨rfl, rfl⟩ | cases h

section Neutral

variable {new : List Event} (hnew : ∀ event ∈ new, event.IsNeutral)

include hnew

theorem removedBytes_neutral : removedBytes new = 0 := by
  apply List.sum_eq_zero
  intro bytes hbytes
  obtain ⟨event, hevent, rfl⟩ := List.mem_map.mp hbytes
  exact (hnew event hevent).removedBytes

theorem handedOver_neutral : handedOver new = 0 := by
  apply List.sum_eq_zero
  intro bytes hbytes
  obtain ⟨event, hevent, rfl⟩ := List.mem_map.mp hbytes
  exact (hnew event hevent).handedOver

theorem filesBeyond_neutral (cap removed : Nat) : filesBeyond cap removed new = 0 := by
  induction new generalizing removed with
  | nil => rfl
  | cons event rest ih =>
      rw [filesBeyond, ih (fun other hother => hnew other (.tail _ hother)),
        if_neg (by simp [(hnew event (.head _)).1])]

end Neutral

/-! ## Assertions about a run -/

/-- The cap in bytes. -/
def capBytes (config : Configuration) : Nat := config.maxCleanupMbPerRun.toInt.toNat * 2 ^ 20

/-- The run, which began at the entry `mark`, has the given configuration, and the total is
what was handed over. -/
structure Tallied (mark : Nat) (config : Configuration) (w : World) : Prop where
  mark_le : mark ≤ w.log.length
  config_eq : w.process.config = config
  total_eq : w.process.totalBytesFreedRun.toNat = handedOver (w.log.drop mark) % 2 ^ 64

/-- The run has escaped the cap, or the bytes removed and the files removed beyond the cap
are as asserted. -/
def Holds (mark : Nat) (config : Configuration) (Q : Nat → Nat → Prop) (w : World) : Prop :=
  Tallied mark config w ∧
    (escapesCap (capBytes config) 0 0 (w.log.drop mark) = true ∨
      Q (removedBytes (w.log.drop mark)) (filesBeyond (capBytes config) 0 (w.log.drop mark)))

/-- At most so many files were removed beyond the cap. -/
abbrev AtMost (mark : Nat) (config : Configuration) (count : Int) : World → Prop :=
  Holds mark config fun _ files => (files : Int) ≤ count

/-- The cap is not exceeded. -/
abbrev Under (mark : Nat) (config : Configuration) : World → Prop :=
  Holds mark config fun bytes _ => bytes ≤ capBytes config

variable {mark : Nat} {config : Configuration} {Q : Nat → Nat → Prop} {w w' : World}

theorem AtMost.mono {count count' : Int} (h : AtMost mark config count w)
    (hle : count ≤ count') : AtMost mark config count' w :=
  ⟨h.1, h.2.imp_right fun hfiles => le_trans hfiles hle⟩

theorem Under.atMost {count : Int} (h : Under mark config w) (hcount : 0 ≤ count) :
    AtMost mark config count w := by
  refine ⟨h.1, h.2.imp_right fun hunder => ?_⟩
  rw [filesBeyond_eq_zero (by simpa using hunder)]
  exact hcount

/-- Logs only neutral events, and keeps the configuration and the total. -/
def neutralScope : Scope where
  event event := event.IsNeutral
  change f := ∀ p, (f p).config = p.config ∧ (f p).totalBytesFreedRun = p.totalBytesFreedRun

theorem Holds.reaches (h : Holds mark config Q w) (hreach : neutralScope.Reaches w w') :
    Holds mark config Q w' := by
  obtain ⟨hmark, new, hsince, hnew⟩ := hreach.since h.1.mark_le
  have hneutral : ∀ event ∈ new, event.IsNeutral := fun event hevent =>
    (hnew event hevent).elim (fun hallowed => hallowed) Event.isNeutral_of_isAmbient
  have hconfig : w'.process.config = w.process.config :=
    hreach.observe fun _ hchange p => (hchange p).1
  have htotal : w'.process.totalBytesFreedRun = w.process.totalBytesFreedRun :=
    hreach.observe fun _ hchange p => (hchange p).2
  refine ⟨⟨hmark, hconfig.trans h.1.config_eq, ?_⟩, ?_⟩
  · rw [htotal, hsince, handedOver_append, handedOver_neutral hneutral, Nat.add_zero]
    exact h.1.total_eq
  · rw [hsince, escapesCap_append, removedBytes_append, removedBytes_neutral hneutral,
      filesBeyond_append, filesBeyond_neutral hneutral, Nat.add_zero, Nat.add_zero]
    exact h.2.imp_left fun hescapes => by rw [hescapes, Bool.true_or]

/-- The cap does not overflow. -/
theorem maxCleanupBytes_toNat (hcap : 0 ≤ config.maxCleanupMbPerRun.toInt) :
    (maxCleanupBytes config).toNat = capBytes config := by
  rw [maxCleanupBytes, toNat_megabytes hcap, capBytes]

/-! ## The parts of a run -/

section Parts

variable {env : Env} {depth : Nat}

theorem holds_within (env : Env) {α : Type} {x : Daemon α} (hwithin : Within env neutralScope x) :
    Program.Triple (Holds mark config Q) x (fun _ => Holds mark config Q)
      (Holds mark config Q) :=
  hwithin.triple fun _ _ hw hreach => hw.reaches hreach

/-- One more entry, which may hand over bytes. -/
theorem Holds.tallied (h : Holds mark config Q w) {event : Event}
    (hlog : w'.log = w.log ++ [event]) (hconfig : w'.process.config = w.process.config)
    (htotal : w'.process.totalBytesFreedRun.toNat =
      (w.process.totalBytesFreedRun.toNat + event.handedOver) % 2 ^ 64) :
    Tallied mark config w' ∧ w'.log.drop mark = w.log.drop mark ++ [event] := by
  have hsince : w'.log.drop mark = w.log.drop mark ++ [event] := by
    rw [hlog, List.drop_append_of_le_length h.1.mark_le]
  refine ⟨⟨?_, hconfig.trans h.1.config_eq, ?_⟩, hsince⟩
  · rw [hlog, List.length_append]
    exact Nat.le_add_right_of_le h.1.mark_le
  · rw [hsince, handedOver_snoc, htotal, h.1.total_eq, Nat.mod_add_mod]

theorem total_of_process_eq {event : Event} (hprocess : w'.process = w.process)
    (hhanded : event.handedOver = 0) : w'.process.totalBytesFreedRun.toNat =
      (w.process.totalBytesFreedRun.toNat + event.handedOver) % 2 ^ 64 := by
  rw [hprocess, hhanded, Nat.add_zero, Nat.mod_eq_of_lt (UInt64.toNat_lt _)]

/-- An event that begins or ends a loop leaves the run under the cap, or escaped. -/
theorem Holds.loopEdge (h : Holds mark config Q w) {event : Event}
    (hlog : w'.log = w.log ++ [event]) (hprocess : w'.process = w.process)
    (hedge : event.isLoopEdge = true) : Under mark config w' := by
  have hplain : event.handedOver = 0 ∧ event.removedBytes = 0 := by
    cases event <;> first | exact ⟨rfl, rfl⟩ | cases hedge
  obtain ⟨htallied, hsince⟩ := h.tallied hlog (by rw [hprocess])
    (total_of_process_eq hprocess hplain.1)
  refine ⟨htallied, ?_⟩
  rw [hsince, escapesCap_snoc, removedBytes_snoc, hplain.2, Nat.add_zero]
  by_cases hover : capBytes config < removedBytes (w.log.drop mark)
  · left
    simp [hedge, hover]
  · exact Or.inr (Nat.le_of_not_lt hover)

theorem enter_under (path : Bytes) :
    Program.Triple (Holds mark config Q) (enter path) (fun _ => Under mark config)
      (Holds mark config Q) :=
  fun _ hw => Holds.loopEdge hw rfl rfl rfl

theorem leave_under (path : Bytes) :
    Program.Triple (Holds mark config Q) (leave path true) (fun _ => Under mark config)
      (Holds mark config Q) :=
  fun _ hw => Holds.loopEdge hw rfl rfl rfl

/-- The end of a batch hands its bytes over; if the total stays within the cap, the run is
under it or has escaped. -/
theorem Holds.batchEnd (h : Holds mark config Q w) {files : Int} {bytes : UInt64}
    {proceed : Bool} (hlog : w'.log = w.log ++ [.endBatch files bytes proceed])
    (hconfig : w'.process.config = w.process.config)
    (htotal : w'.process.totalBytesFreedRun = w.process.totalBytesFreedRun + bytes) :
    Holds mark config Q w' ∧
      (w'.process.totalBytesFreedRun.toNat ≤ capBytes config → Under mark config w') := by
  obtain ⟨htallied, hsince⟩ := h.tallied hlog hconfig (by rw [htotal, UInt64.toNat_add]; rfl)
  have hhanded := htallied.total_eq
  rw [hsince, handedOver_snoc] at hhanded
  refine ⟨⟨htallied, ?_⟩, fun hle => ⟨htallied, ?_⟩⟩
  · rw [hsince, escapesCap_snoc, removedBytes_snoc, filesBeyond_snoc]
    exact h.2.imp (fun hescapes => by rw [hescapes, Bool.true_or]) fun hQ => by
      simpa [Event.removedBytes, Event.removesFile] using hQ
  · rw [hsince, escapesCap_snoc, removedBytes_snoc]
    by_cases hover : capBytes config < removedBytes (w.log.drop mark)
    · -- the cap is exceeded, so too little was handed over
      left
      rw [hhanded] at hle
      simp only [hover, Event.isBatchEnd, decide_true, Bool.true_and, decide_eq_false
        (Nat.not_lt.mpr hle), Bool.not_false, Bool.or_true]
    · exact Or.inr (Nat.le_of_not_lt hover)

/-- A batch that may be followed by another one is under the cap, or has escaped it. -/
theorem endBatch_holds (hcap : 0 ≤ config.maxCleanupMbPerRun.toInt) (filesProcessed : Int)
    (bytesFreed : UInt64) :
    Program.Triple (Holds mark config Q) (endBatch env filesProcessed bytesFreed)
      (fun proceed w => Holds mark config Q w ∧ (proceed = true → Under mark config w))
      (Holds mark config Q) := by
  intro w hw
  obtain ⟨tick, slow, proceed, hrun, hslow, hrefuses, _⟩ :=
    endBatch_run env filesProcessed bytesFreed w
  let w₁ : World := { w with tick, log := w.log ++ slow }
  have hreach : neutralScope.Reaches w w₁ := by
    refine ⟨⟨slow, rfl, fun event hevent => Or.inl ?_⟩, .refl⟩
    obtain ⟨durationMs, rfl⟩ := hslow event hevent
    exact ⟨rfl, rfl⟩
  rw [hrun, Program.post_some]
  generalize hw₂ : World.mk _ _ _ _ _ _ _ = w₂
  have hlog : w₂.log = w₁.log ++ [.endBatch filesProcessed bytesFreed proceed] := by
    rw [← hw₂]
    exact (List.append_assoc _ _ _).symm
  obtain ⟨hholds, hunder⟩ := (hw.reaches hreach).batchEnd hlog (by rw [← hw₂]) (by rw [← hw₂])
  refine ⟨hholds, fun hproceed => hunder ?_⟩
  by_contra hover
  rw [not_le, ← maxCleanupBytes_toNat hcap, ← UInt64.lt_iff_toNat_lt, ← hw.1.config_eq,
    ← hw₂] at hover
  rw [hrefuses hover] at hproceed
  cases hproceed

/-- A removal takes at most one file, and none unless it says so. -/
theorem safeRemove_holds (path : Bytes) :
    Program.Triple (Holds mark config Q) (safeRemove env path)
      (fun removed => Holds mark config fun bytes files =>
        ∃ bytes' files', Q bytes' files' ∧ bytes' ≤ bytes ∧ files' ≤ files ∧
          files ≤ files' + (if removed = true then 1 else 0) ∧
          (bytes' ≤ capBytes config → files = files'))
      (Holds mark config Q) := by
  intro w hw
  obtain ⟨removed, w₁, w', hrun, hsilent, hprocess, hend⟩ := safeRemove_returns env path w
  have hw₁ : Holds mark config Q w₁ := by
    obtain ⟨new, hlog, hnew⟩ := hsilent.log
    refine hw.reaches ⟨⟨new, hlog, fun event hevent => Or.inr ?_⟩, ?_⟩
    · exact (hnew event hevent).resolve_left id
    · rw [silentScope_process hsilent]
  rw [hrun, Program.post_some]
  rcases hend with ⟨rfl, hlog⟩ | ⟨rfl, loc, node, hlog⟩
  · apply (hw₁.reaches (.silent hlog hprocess)).imp_right
    exact Or.imp_right fun hQ =>
      ⟨_, _, hQ, le_refl _, le_refl _, Nat.le_add_right _ _, fun _ => rfl⟩
  · obtain ⟨htallied, hsince⟩ := hw₁.tallied hlog (by rw [hprocess])
      (total_of_process_eq hprocess rfl)
    refine ⟨htallied, ?_⟩
    rw [hsince, escapesCap_snoc, filesBeyond_snoc, removedBytes_snoc]
    refine hw₁.2.imp (fun h => by rw [h, Bool.true_or]) fun hQ => ⟨_, _, hQ, ?_⟩
    refine ⟨Nat.le_add_right _ _, Nat.le_add_right _ _, ?_, fun hunder => ?_⟩
    · rw [if_pos rfl]
      split <;> omega
    · rw [if_neg (by omega), Nat.add_zero]

theorem safeRemove_atMost {count : Int} (path : Bytes) :
    Program.Triple (AtMost mark config count) (safeRemove env path)
      (fun removed => AtMost mark config (if removed = true then count + 1 else count))
      (AtMost mark config count) := by
  refine (safeRemove_holds path).weaken fun removed w hw => hw.imp_right (Or.imp_right ?_)
  rintro ⟨bytes, files, hfiles, _, _, hle, _⟩
  cases removed <;> simp at hle ⊢ <;> omega

/-- A removal under the cap is not beyond it. -/
theorem safeRemove_under (path : Bytes) :
    Program.Triple (Under mark config) (safeRemove env path) (fun _ => AtMost mark config 0)
      (AtMost mark config 0) := by
  have hstart (w : World) (hw : Under mark config w) :
      Holds mark config (fun bytes files => bytes ≤ capBytes config ∧ files = 0) w := by
    refine hw.imp_right (Or.imp_right fun hunder => ⟨hunder, ?_⟩)
    exact filesBeyond_eq_zero (by simpa using hunder)
  refine (safeRemove_holds path).mono hstart (fun removed w hw => ?_) fun w hw => ?_
  · refine hw.imp_right (Or.imp_right ?_)
    rintro ⟨bytes, files, ⟨hunder, hfiles⟩, _, _, _, hsame⟩
    rw [hsame hunder, hfiles]
    rfl
  · refine hw.imp_right (Or.imp_right fun hboth => ?_)
    rw [hboth.2]
    rfl

/-! ## The removal loops -/

theorem idleScope_sub_neutralScope : idleScope.Sub neutralScope where
  event event hevent := by cases event <;> first | exact ⟨rfl, rfl⟩ | exact hevent.elim
  change f hf p := by
    obtain ⟨time, htime⟩ := hf p
    rw [htime]
    exact ⟨rfl, rfl⟩

theorem listScope_sub_neutralScope : listScope.Sub neutralScope where
  event event hevent := by cases event <;> first | exact ⟨rfl, rfl⟩ | exact hevent.elim
  change _ hchange := hchange.elim

theorem analysisScope_sub_neutralScope : analysisScope.Sub neutralScope where
  event event hevent := by cases event <;> first | exact ⟨rfl, rfl⟩ | exact hevent.elim
  change f hf p := by
    obtain ⟨states, hstates⟩ := hf p
    rw [hstates]
    exact ⟨rfl, rfl⟩

theorem startBatch_neutral : Within env neutralScope (startBatch env) :=
  .bind (.prim (.sense _)) fun _ => .prim (.setProcess fun _ => ⟨rfl, rfl⟩)

/-- What a removal owes when the cap has been exceeded by at most a batch: it keeps to that,
and if it comes to its end, no file was removed beyond the cap. -/
abbrev CappedTriple (mark : Nat) (config : Configuration) (x : Daemon Bool) : Prop :=
  Program.Triple (AtMost mark config config.maxFilesPerBatch.toInt) x
    (fun completed w => AtMost mark config config.maxFilesPerBatch.toInt w ∧
      (completed = true → AtMost mark config 0 w))
    (AtMost mark config config.maxFilesPerBatch.toInt)

theorem removeChild_capped {recurse : Bytes → Daemon Bool}
    (hrecurse : ∀ path, CappedTriple mark config (recurse path)) (childPath : Bytes)
    {filesRemoved : Int} (hnonneg : 0 ≤ filesRemoved)
    (hbatch : filesRemoved < config.maxFilesPerBatch.toInt) (bytesFreed : UInt64) :
    Program.Triple (AtMost mark config filesRemoved)
      (removeChild env recurse childPath filesRemoved bytesFreed)
      (fun counts w => AtMost mark config config.maxFilesPerBatch.toInt w ∧
        ∀ filesRemoved' bytesFreed', counts = some (filesRemoved', bytesFreed') →
          AtMost mark config filesRemoved' w ∧ filesRemoved ≤ filesRemoved')
      (AtMost mark config config.maxFilesPerBatch.toInt) := by
  have hstay (filesRemoved' : Int) (bytesFreed' : UInt64) (w : World)
      (hw : AtMost mark config filesRemoved' w)
      (hle : filesRemoved' ≤ config.maxFilesPerBatch.toInt) (hge : filesRemoved ≤ filesRemoved') :
      AtMost mark config config.maxFilesPerBatch.toInt w ∧
        ∀ files bytes, some (filesRemoved', bytesFreed') = some (files, bytes) →
          AtMost mark config files w ∧ filesRemoved ≤ files := by
    refine ⟨AtMost.mono hw hle, fun files bytes heq => ?_⟩
    cases heq
    exact ⟨hw, hge⟩
  have hcut (w : World) (hw : AtMost mark config filesRemoved w) :
      AtMost mark config config.maxFilesPerBatch.toInt w := AtMost.mono hw hbatch.le
  unfold removeChild
  refine .bind ((holds_within env (.prim (.lstat childPath))).mono (fun w hw => hw)
    (fun _ w hw => hw) hcut) fun node => ?_
  cases node with
  | none => exact .pure fun w hw => hstay _ _ w hw hbatch.le (le_refl _)
  | some node =>
      refine .ite (fun _ => ?_) fun _ => ?_
      · refine .bind ((hrecurse childPath).strengthen hcut)
          fun completed => .ite (fun hdone => ?_) fun _ => ?_
        · exact .pure fun w hw =>
            hstay _ _ w (AtMost.mono (hw.2 hdone) hnonneg) hbatch.le (le_refl _)
        · exact .pure fun w hw => ⟨hw.1, nofun⟩
      · refine .bind ((safeRemove_atMost childPath).mono (fun w hw => hw)
          (fun _ w hw => hw) hcut) fun removed => .ite (fun hremoved => ?_) fun hremoved => ?_
        · refine .pure fun w hw => ?_
          rw [if_pos hremoved] at hw
          exact hstay _ _ w hw (Int.add_one_le_of_lt hbatch) (Int.le_add_one (le_refl _))
        · refine .pure fun w hw => ?_
          rw [if_neg hremoved] at hw
          exact hstay _ _ w hw hbatch.le (le_refl _)

/-- The loop consults `EndBatch` before a batch is more than full. -/
theorem removeChildren_capped (hcap : 0 ≤ config.maxCleanupMbPerRun.toInt)
    {recurse : Bytes → Daemon Bool}
    (hrecurse : ∀ path, CappedTriple mark config (recurse path)) (path : Bytes)
    (names : List Name) {filesRemoved : Int} (hnonneg : 0 ≤ filesRemoved)
    (hbatch : filesRemoved < config.maxFilesPerBatch.toInt) (bytesFreed : UInt64) :
    Program.Triple (AtMost mark config filesRemoved)
      (removeChildren env recurse path names filesRemoved bytesFreed)
      (fun _ => AtMost mark config config.maxFilesPerBatch.toInt)
      (AtMost mark config config.maxFilesPerBatch.toInt) := by
  induction names generalizing filesRemoved bytesFreed with
  | nil => exact .pure fun w hw => AtMost.mono hw hbatch.le
  | cons name rest ih =>
      unfold removeChildren
      refine .bind ((holds_within env
        (evaluateIdleState_within env idleScope_sub_neutralScope)).mono (fun w hw => hw)
        (fun _ w hw => hw) fun w hw => AtMost.mono hw hbatch.le)
        fun idle => .ite (fun _ => .pure fun w hw => AtMost.mono hw hbatch.le) fun _ => ?_
      -- the count stays below a full batch, and is what may have gone beyond the cap
      refine .bind (removeChild_capped hrecurse _ hnonneg hbatch _) fun counts => ?_
      cases counts with
      | none => exact .pure fun w hw => hw.1
      | some counts =>
          obtain ⟨files, bytes⟩ := counts
          dsimp only
          refine .bind (M := fun process w => AtMost mark config config.maxFilesPerBatch.toInt w ∧
            AtMost mark config files w ∧ filesRemoved ≤ files ∧ process.config = config)
            (.inspect fun w hw => ?_) fun process => .ite (fun hfull => ?_) fun hroom => ?_
          · obtain ⟨hfiles, hle⟩ := hw.2 files bytes rfl
            exact ⟨hw.1, hfiles, hle, hw.1.1.config_eq⟩
          · refine .bind ((endBatch_holds hcap _ _).strengthen fun w hw => hw.1)
              fun proceed => .ite (fun _ => .pure fun w hw => hw.1) fun hproceed => ?_
            have hproceed' : proceed = true := by simpa using hproceed
            have hzero : (0 : Int) < config.maxFilesPerBatch.toInt :=
              lt_of_le_of_lt hnonneg hbatch
            refine .bind ((holds_within env startBatch_neutral).mono
              (fun w hw => (hw.2 hproceed').atMost (le_refl 0)) (fun _ w hw => hw)
              fun w hw => AtMost.mono hw hzero.le) fun _ => ih (le_refl 0) hzero 0
          · by_cases hready : process.config = config ∧ filesRemoved ≤ files
            · rw [hready.1] at hroom
              exact (ih (le_trans hnonneg hready.2) (not_le.mp hroom) bytes).strengthen
                fun w hw => hw.2.1
            · exact fun w hw => absurd ⟨hw.2.2.2, hw.2.2.1⟩ hready

theorem removeRecursiveBatched_capped (hcap : 0 ≤ config.maxCleanupMbPerRun.toInt)
    (hbatch : 1 ≤ config.maxFilesPerBatch.toInt) (path : Bytes) :
    CappedTriple mark config (removeRecursiveBatched env depth path) := by
  have hzero : (0 : Int) ≤ config.maxFilesPerBatch.toInt := le_trans (by decide) hbatch
  have hunder (w : World) (hw : Under mark config w) :
      AtMost mark config config.maxFilesPerBatch.toInt w := hw.atMost hzero
  induction depth generalizing path with
  | zero => exact .cut fun w hw => hw
  | succ depth ih =>
      unfold removeRecursiveBatched
      refine .bind (holds_within env
        (getDirectoryChildren_within env listScope_sub_neutralScope path)) fun children => ?_
      cases children with
      | none => exact .pure fun w hw => ⟨hw, nofun⟩
      | some children =>
          refine .bind (enter_under path) fun _ => ?_
          refine .bind ((holds_within env startBatch_neutral).mono (fun w hw => hw)
            (fun _ w hw => Under.atMost hw (le_refl 0)) hunder) fun _ => ?_
          refine .bind (removeChildren_capped hcap ih path children (le_refl 0)
            (Int.lt_of_lt_of_le (by decide) hbatch) 0) fun counts => ?_
          cases counts with
          | none =>
              exact .bind (holds_within env (.prim (.leave ⟨rfl, rfl⟩))) fun _ =>
                .pure fun w hw => ⟨hw, nofun⟩
          | some counts =>
              refine .bind ((endBatch_holds hcap _ _).weaken fun _ w hw => hw.1) fun _ => ?_
              -- a loop that comes to its end does so under the cap
              refine .bind (leave_under path) fun _ => ?_
              refine .bind ((safeRemove_under path).mono (fun w hw => hw) (fun _ w hw => hw)
                fun w hw => AtMost.mono hw hzero) fun _ => ?_
              exact .pure fun w hw => ⟨AtMost.mono hw hzero, fun _ => hw⟩

/-! ## Cleaning, sweeps and maintenance -/

/-- At most one batch of files was removed beyond the cap. -/
abbrev Capped (mark : Nat) (config : Configuration) : World → Prop :=
  AtMost mark config config.maxFilesPerBatch.toInt

theorem cleanChildren_capped (hcap : 0 ≤ config.maxCleanupMbPerRun.toInt)
    (hbatch : 1 ≤ config.maxFilesPerBatch.toInt) (path : Bytes) (names : List Name) :
    Program.Triple (Capped mark config) (cleanChildren env depth path names)
      (fun _ => Capped mark config) (Capped mark config) := by
  induction names with
  | nil => exact .pure fun w hw => hw
  | cons name rest ih =>
      unfold cleanChildren
      refine .bind (removeRecursiveBatched_capped hcap hbatch _)
        fun completed => .ite (fun _ => .pure fun w hw => hw.1) fun _ => ?_
      exact ih.strengthen fun w hw => hw.1

theorem cleanDirectorySafely_capped (hcap : 0 ≤ config.maxCleanupMbPerRun.toInt)
    (hbatch : 1 ≤ config.maxFilesPerBatch.toInt) (targetDir : CacheDirInfo) :
    Program.Triple (Capped mark config) (cleanDirectorySafely env depth targetDir)
      (fun _ => Capped mark config) (Capped mark config) := by
  have hzero : (0 : Int) ≤ config.maxFilesPerBatch.toInt := le_trans (by decide) hbatch
  unfold cleanDirectorySafely
  refine .bind (holds_within env
    (getDirectoryChildren_within env listScope_sub_neutralScope _)) fun children => ?_
  cases children with
  | none => exact .pure fun w hw => hw
  | some children =>
      refine .bind ((enter_under _).weaken fun _ w hw => Under.atMost hw hzero) fun _ => ?_
      refine .bind (cleanChildren_capped hcap hbatch _ children) fun completed => ?_
      have hleave : Program.Triple (Capped mark config) (leave targetDir.path completed)
          (fun _ => Capped mark config) (Capped mark config) := by
        cases completed with
        | true => exact (leave_under _).weaken fun _ w hw => Under.atMost hw hzero
        | false => exact holds_within env (.prim (.leave ⟨rfl, rfl⟩))
      refine .bind hleave fun _ => .ite (fun _ => .pure fun w hw => hw) fun _ => ?_
      apply holds_within env
      refine .bind (.prim .getProcess) fun process => ?_
      refine .bind (.prim (.sense _)) fun now => ?_
      refine .bind (.prim (.setProcess fun p => ⟨rfl, rfl⟩)) fun _ => ?_
      refine .bind (.prim (.note ⟨rfl, rfl⟩)) fun _ => ?_
      exact .bind (.prim (.save fun _ => ⟨rfl, rfl⟩)) fun _ => .pure _

theorem trimScope_sub_neutralScope : trimScope.Sub neutralScope where
  event event hevent := by cases event <;> first | exact ⟨rfl, rfl⟩ | exact hevent.elim
  change f hf := idleScope_sub_neutralScope.change f hf

theorem runSystemMaintenanceSweeps_capped (hcap : 0 ≤ config.maxCleanupMbPerRun.toInt)
    (hbatch : 1 ≤ config.maxFilesPerBatch.toInt) :
    Program.Triple (Capped mark config) (runSystemMaintenanceSweeps env depth)
      (fun _ => Capped mark config) (Capped mark config) := by
  have hzero : (0 : Int) ≤ config.maxFilesPerBatch.toInt := le_trans (by decide) hbatch
  apply runSystemMaintenanceSweeps_kept
  · intro path
    exact (removeRecursiveBatched_capped hcap hbatch path).weaken fun _ w hw => hw.1
  · intro w w' hw hreach
    exact Holds.reaches hw (hreach.mono trimScope_sub_neutralScope)
  · intro path
    exact holds_within env (getDirectoryChildren_within env listScope_sub_neutralScope path)
  · intro path
    exact (enter_under path).weaken fun _ w hw => Under.atMost hw hzero
  · intro path
    exact (leave_under path).weaken fun _ w hw => Under.atMost hw hzero

theorem engineScope_sub_neutralScope : engineScope.Sub neutralScope where
  event event hevent := by cases event <;> first | exact ⟨rfl, rfl⟩ | exact hevent.elim
  change f hf p := by
    obtain ⟨engine, time, hengine⟩ := hf p
    rw [hengine]
    exact ⟨rfl, rfl⟩

theorem performMaintenance_capped_of (hcap : 0 ≤ config.maxCleanupMbPerRun.toInt)
    (hbatch : 1 ≤ config.maxFilesPerBatch.toInt) :
    Program.Triple (Capped mark config) (performMaintenance env depth)
      (fun _ => Capped mark config) (Capped mark config) := by
  have hengine : engineScope.Keeps env (Capped mark config) :=
    .of_reaches fun w w' hw hreach =>
      Holds.reaches hw (hreach.mono engineScope_sub_neutralScope)
  refine performMaintenance_kept hengine (runSystemMaintenanceSweeps_capped hcap hbatch) ?_
  refine maintainCaches_kept hengine fun dirs => ?_
  have hanalysis := analyzeCaches_within env depth analysisScope_sub_neutralScope dirs
  exact .bind (holds_within env hanalysis) fun analysis =>
    cleanTargets_kept hengine (cleanDirectorySafely_capped hcap hbatch) analysis.2

end Parts

/-- In a maintenance run that starts with the total at zero and does not escape the cap, at
most one batch of files is removed after the size of those removed exceeds it. -/
theorem performMaintenance_capped (env : Env) (depth : Nat) (w : World)
    (hzero : w.process.totalBytesFreedRun = 0)
    (hcap : 0 ≤ w.process.config.maxCleanupMbPerRun.toInt)
    (hbatch : 1 ≤ w.process.config.maxFilesPerBatch.toInt)
    (hkept : escapesCap (capBytes w.process.config) 0 0 (maintenanceEvents env depth w) = false) :
    (filesBeyond (capBytes w.process.config) 0 (maintenanceEvents env depth w) : Int) ≤
      w.process.config.maxFilesPerBatch.toInt := by
  have hstart : Capped w.log.length w.process.config w := by
    have hnone : w.log.drop w.log.length = [] := List.drop_length
    refine ⟨⟨le_refl _, rfl, ?_⟩, Or.inr ?_⟩
    · rw [hzero, hnone]
      rfl
    · rw [hnone]
      have hfiles : filesBeyond (capBytes w.process.config) 0 [] = 0 := rfl
      rw [hfiles]
      exact le_trans (by decide) hbatch
  have hend : Capped w.log.length w.process.config ((performMaintenance env depth).run w).2 :=
    (performMaintenance_capped_of hcap hbatch w hstart).state
  apply hend.2.resolve_left
  rw [← maintenanceEvents, hkept]
  exact Bool.false_ne_true

/-- Batches of two files and a cap of zero megabytes. -/
def smallBatches : Configuration where
  cacheThresholdMb := 0
  maxCleanupMbPerRun := 0
  maxFilesPerBatch := 2

/-- A device with one app, whose readings allow for cleaning. -/
def oneAppDevice : Env :=
  { restingDevice with packagesList := fun _ => some (lit "com.a 10001 0 /data/com.a\n") }

/-- The app's cache holds three files in one directory. -/
def oneDirWorld : World where
  process.config := smallBatches
  fs := FsStep.applyAll .bare [
    .mkdir [] (lit "data"),
    .mkdir [lit "data"] (lit "com.a"),
    .mkdir [lit "data", lit "com.a"] (lit "cache"),
    .mkdir [lit "data", lit "com.a", lit "cache"] (lit "d"),
    .create [lit "data", lit "com.a", lit "cache", lit "d"] (lit "x") 10,
    .create [lit "data", lit "com.a", lit "cache", lit "d"] (lit "y") 10,
    .create [lit "data", lit "com.a", lit "cache", lit "d"] (lit "z") 10]

/-- Inside one directory the bound holds: the second file ends the run. -/
theorem performMaintenance_capped_oneDir :
    (filesBeyond (capBytes smallBatches) 0 (maintenanceEvents oneAppDevice 3 oneDirWorld) : Int) ≤
      smallBatches.maxFilesPerBatch.toInt :=
  performMaintenance_capped oneAppDevice 3 oneDirWorld rfl (by decide +kernel)
    (by decide +kernel) (by decide +kernel)

/-- The app's cache holds four directories of one file each. -/
def manyDirsWorld : World where
  process.config := smallBatches
  fs := FsStep.applyAll .bare ([
    .mkdir [] (lit "data"),
    .mkdir [lit "data"] (lit "com.a"),
    .mkdir [lit "data", lit "com.a"] (lit "cache")] ++
    [lit "d1", lit "d2", lit "d3", lit "d4"].flatMap fun name => [
      .mkdir [lit "data", lit "com.a", lit "cache"] name,
      .create [lit "data", lit "com.a", lit "cache", name] (lit "x") 10])

/-- Directories smaller than a batch are all removed, however far beyond the cap. -/
theorem performMaintenance_beyondCap :
    manyDirsWorld.process.totalBytesFreedRun = 0 ∧
      0 ≤ smallBatches.maxCleanupMbPerRun.toInt ∧ 1 ≤ smallBatches.maxFilesPerBatch.toInt ∧
      smallBatches.maxFilesPerBatch.toInt <
        (filesBeyond (capBytes smallBatches) 0
          (maintenanceEvents oneAppDevice 3 manyDirsWorld) : Int) := by
  decide +kernel

end FreshCore
