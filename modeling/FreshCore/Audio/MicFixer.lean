import Mathlib.Data.List.Basic

/-!
# The routes of the microphone

Both engines of the mic fixer run the same three routines, two of which set mixer
controls. Nothing in the process remembers what a control was set to: that is only
known from the commands that were run.
-/

namespace FreshCore.MicFixer

/-- A `RunTinymix` call: a control and the values it is set to. -/
structure Tinymix where
  control : String
  values : List String
  deriving DecidableEq, Repr

def voiceTxMute : String := "Voice Tx Mute"

def voipTxMute : String := "Voip Tx Mute"

/-- `ApplyPreInit`: mute the line and power on the inputs. -/
def applyPreInit : List Tinymix := [
  ⟨voiceTxMute, ["1", "1", "1"]⟩,
  ⟨voipTxMute, ["1", "1"]⟩,
  ⟨"TX_AIF1_CAP Mixer DEC0", ["1"]⟩,
  ⟨"TX_AIF1_CAP Mixer DEC1", ["1"]⟩,
  ⟨"ADC1_MIXER Switch", ["1"]⟩,
  ⟨"ADC2_MIXER Switch", ["1"]⟩,
  ⟨"ADC1 MUX", ["INP2"]⟩,
  ⟨"ADC2 MUX", ["INP3"]⟩,
  ⟨"IIR0 INP0 MUX", ["DEC0"]⟩]

/-- `ApplyMicFix`: set the routes and take the mute back. -/
def applyMicFix : List Tinymix := [
  ⟨"TX_CDC_DMA_TX_3 Channels", ["Two"]⟩,
  ⟨"TX DEC0 MUX", ["SWR_MIC"]⟩,
  ⟨"TX DEC1 MUX", ["SWR_MIC"]⟩,
  ⟨"TX SMIC MUX0", ["ADC0"]⟩,
  ⟨"TX SMIC MUX1", ["ADC2"]⟩,
  ⟨"IIR0 INP0 MUX", ["DEC0"]⟩,
  ⟨"RX_RX0 Digital Volume", ["84"]⟩,
  ⟨"TX_DEC0 Volume", ["84"]⟩,
  ⟨"TX_DEC1 Volume", ["84"]⟩,
  ⟨voiceTxMute, ["0", "0", "0"]⟩,
  ⟨voipTxMute, ["0", "0"]⟩]

inductive Routine where
  | applyPreInit
  | applyMicFix
  | showNotification
  deriving DecidableEq, Repr

/-- The mixer commands of a routine. -/
def Routine.commands : Routine → List Tinymix
  | .applyPreInit => MicFixer.applyPreInit
  | .applyMicFix => MicFixer.applyMicFix
  | .showNotification => []

/-! ## What the controls were set to -/

/-- The values a control was last set to, if it was set at all. -/
def lastWritten (control : String) (routines : List Routine) : Option (List String) :=
  (((routines.flatMap Routine.commands).reverse.find? fun command =>
    command.control = control)).map Tinymix.values

/-- The value last written to either mute control, if any was, is zero throughout. -/
def IsUnmuted (routines : List Routine) : Prop :=
  ∀ control ∈ [voiceTxMute, voipTxMute], ∀ values ∈ lastWritten control routines,
    ∀ value ∈ values, value = "0"

theorem lastWritten_append (control : String) (before after : List Routine) :
    lastWritten control (before ++ after) =
      (lastWritten control after).or (lastWritten control before) := by
  simp [lastWritten, List.find?_append, Option.map_or]

@[simp] theorem isUnmuted_nil : IsUnmuted [] := by
  simp [IsUnmuted, lastWritten]

/-- Routines that write both controls leave what they leave without those before. -/
theorem isUnmuted_append {after : List Routine}
    (hwrites : ∀ control ∈ [voiceTxMute, voipTxMute], (lastWritten control after).isSome)
    (before : List Routine) : IsUnmuted (before ++ after) ↔ IsUnmuted after := by
  have hlast : ∀ control ∈ [voiceTxMute, voipTxMute],
      lastWritten control (before ++ after) = lastWritten control after := by
    intro control hcontrol
    obtain ⟨values, hvalues⟩ := Option.isSome_iff_exists.mp (hwrites control hcontrol)
    rw [lastWritten_append, hvalues, Option.some_or]
  unfold IsUnmuted
  constructor
  · intro hunmuted control hcontrol
    rw [← hlast control hcontrol]
    exact hunmuted control hcontrol
  · intro hunmuted control hcontrol
    rw [hlast control hcontrol]
    exact hunmuted control hcontrol

theorem not_isUnmuted_applyPreInit (before : List Routine) :
    ¬ IsUnmuted (before ++ [.applyPreInit]) := by
  rw [isUnmuted_append (by decide)]
  intro hunmuted
  have hvalue := hunmuted voiceTxMute (by simp) ["1", "1", "1"] (by decide) "1" (by simp)
  exact absurd hvalue (by decide)

theorem isUnmuted_applyMicFix (before : List Routine) :
    IsUnmuted (before ++ [.showNotification, .applyPreInit, .applyMicFix]) := by
  rw [isUnmuted_append (by decide)]
  unfold IsUnmuted
  decide

end FreshCore.MicFixer
