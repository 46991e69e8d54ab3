import Mathlib.Data.List.DropRight
import Mathlib.Tactic.IntervalCases
import FreshCore.Config.Configuration

/-!
# Texts that set the configuration

A configuration file sets a field on each line of the form `key = value`, with blanks
anywhere around the two, and says nothing on any other line. What is loaded from it is, for
each key, what the last of its lines says.
-/

namespace FreshCore.Config

open Posix

/-! ## Keys and values -/

inductive Key where
  | enabled
  | cacheThresholdMb
  | includeUserApps
  | includeSystemApps
  | includeExternalCache
  | idleRequired
  | idleDelayMinutes
  | chargingPreferred
  | minimumBatteryPercent
  | thermalProtection
  | adaptiveScanning
  | loggingDebug
  | maxCleanupMbPerRun
  | maxFilesPerBatch
  | maxBatchTimeMs
  deriving DecidableEq, Repr

namespace Key

/-- How the key is written in the file. -/
def name : Key → Bytes
  | enabled => lit "enabled"
  | cacheThresholdMb => lit "cache_threshold_mb"
  | includeUserApps => lit "include_user_apps"
  | includeSystemApps => lit "include_system_apps"
  | includeExternalCache => lit "include_external_cache"
  | idleRequired => lit "idle_required"
  | idleDelayMinutes => lit "idle_delay_minutes"
  | chargingPreferred => lit "charging_preferred"
  | minimumBatteryPercent => lit "minimum_battery_percent"
  | thermalProtection => lit "thermal_protection"
  | adaptiveScanning => lit "adaptive_scanning"
  | loggingDebug => lit "logging"
  | maxCleanupMbPerRun => lit "max_cleanup_mb_per_run"
  | maxFilesPerBatch => lit "max_files_per_batch"
  | maxBatchTimeMs => lit "max_batch_time_ms"

def all : List Key := [enabled, cacheThresholdMb, includeUserApps, includeSystemApps,
  includeExternalCache, idleRequired, idleDelayMinutes, chargingPreferred, minimumBatteryPercent,
  thermalProtection, adaptiveScanning, loggingDebug, maxCleanupMbPerRun, maxFilesPerBatch,
  maxBatchTimeMs]

theorem mem_all (key : Key) : key ∈ all := by cases key <;> simp [all]

end Key

inductive Value where
  | bool (value : Bool)
  | int (value : Int32)
  deriving DecidableEq, Repr

/-- The value of the key's field. -/
def Configuration.field (config : Configuration) : Key → Value
  | .enabled => .bool config.enabled
  | .cacheThresholdMb => .int config.cacheThresholdMb
  | .includeUserApps => .bool config.includeUserApps
  | .includeSystemApps => .bool config.includeSystemApps
  | .includeExternalCache => .bool config.includeExternalCache
  | .idleRequired => .bool config.idleRequired
  | .idleDelayMinutes => .int config.idleDelayMinutes
  | .chargingPreferred => .bool config.chargingPreferred
  | .minimumBatteryPercent => .int config.minimumBatteryPercent
  | .thermalProtection => .bool config.thermalProtection
  | .adaptiveScanning => .bool config.adaptiveScanning
  | .loggingDebug => .bool config.loggingDebug
  | .maxCleanupMbPerRun => .int config.maxCleanupMbPerRun
  | .maxFilesPerBatch => .int config.maxFilesPerBatch
  | .maxBatchTimeMs => .int config.maxBatchTimeMs

/-- The fields that no key stands for. -/
def Configuration.intervals (config : Configuration) : Int32 × Int32 × Int32 :=
  (config.checkIntervalActiveSec, config.checkIntervalScreenOffSec, config.checkIntervalDeepIdleSec)

/-- Digits with a sign before them, if any, that denote the value. -/
def IsDecimal (text : Bytes) (value : Int) : Prop :=
  ∃ digits, digits ≠ [] ∧ (∀ byte ∈ digits, isDigit byte = true) ∧
    ((text = digits ∨ text = 43 :: digits) ∧ value = digitsToNat digits ∨
      text = 45 :: digits ∧ value = -digitsToNat digits)

/-- The text stands for the value. -/
def Value.IsWritten (text : Bytes) : Value → Prop
  | bool true => text = lit "true" ∨ text = lit "1"
  | bool false => text = lit "false" ∨ text = lit "0"
  | int value => IsDecimal text value.toInt

/-! ## Lines -/

/-- Blanks, tabs and carriage returns, or none. -/
def Blanks (text : Bytes) : Prop := ∀ byte ∈ text, isBlank byte = true

/-- Neither begins nor ends with a blank. -/
structure Solid (text : Bytes) : Prop where
  head : ∀ byte ∈ text.head?, isBlank byte = false
  last : ∀ byte ∈ text.getLast?, isBlank byte = false

/-- A line `key = value`, with blanks around it, the key and the value. -/
inductive IsSetting (key : Bytes) (value : Bytes) : Bytes → Prop
  | intro {before gap space after : Bytes} : Blanks before → Blanks gap → Blanks space →
      Blanks after →
      IsSetting key value (before ++ key ++ gap ++ 61 :: (space ++ value ++ after))

/-- A line that says nothing. -/
inductive IsIgnored : Bytes → Prop
  | blank {line : Bytes} : Blanks line → IsIgnored line
  | comment {before : Bytes} (rest : Bytes) : Blanks before → IsIgnored (before ++ 35 :: rest)
  | noDelimiter {line : Bytes} : 61 ∉ line → IsIgnored line
  | unknown {name value line : Bytes} : Solid name → 61 ∉ name → (∀ key : Key, name ≠ key.name) →
      Solid value → IsSetting name value line → IsIgnored line

/-- The lines make these settings, in their order. -/
inductive Says : List Bytes → List (Key × Bytes) → Prop
  | nil : Says [] []
  | setting {line value : Bytes} {key : Key} {lines : List Bytes}
      {settings : List (Key × Bytes)} : Solid value → IsSetting key.name value line →
      Says lines settings → Says (line :: lines) ((key, value) :: settings)
  | ignored {line : Bytes} {lines : List Bytes} {settings : List (Key × Bytes)} :
      IsIgnored line → Says lines settings → Says (line :: lines) settings

/-- What the last setting of the key says. -/
def lastText (key : Key) (settings : List (Key × Bytes)) : Option Bytes :=
  ((settings.filter fun setting => setting.1 = key).getLast?).map Prod.snd

/-- What the key's field becomes by such a line. -/
def Key.read (text : Bytes) : Key → Value
  | .enabled => .bool (isTrue text)
  | .cacheThresholdMb => .int (atoi text)
  | .includeUserApps => .bool (isTrue text)
  | .includeSystemApps => .bool (isTrue text)
  | .includeExternalCache => .bool (isTrue text)
  | .idleRequired => .bool (isTrue text)
  | .idleDelayMinutes => .int (atoi text)
  | .chargingPreferred => .bool (isTrue text)
  | .minimumBatteryPercent => .int (atoi text)
  | .thermalProtection => .bool (isTrue text)
  | .adaptiveScanning => .bool (isTrue text)
  | .loggingDebug => .bool (isTrue text)
  | .maxCleanupMbPerRun => .int (atoi text)
  | .maxFilesPerBatch => .int (atoi text)
  | .maxBatchTimeMs => .int (atoi text)

/-! ## Assignments -/

theorem lit_inj {s t : String} : lit s = lit t ↔ s = t := by
  unfold lit
  rw [Array.toList_inj, ← ByteArray.ext_iff, String.toByteArray_inj]

/-- A key's line sets its own field and no other. -/
theorem assign_field (config : Configuration) (key : Key) (text : Bytes) (other : Key) :
    (assign config key.name text).field other =
      if other = key then key.read text else config.field other := by
  cases key <;> simp only [Key.name, assign, lit_inj, reduceIte, String.reduceEq] <;>
    cases other <;> rfl

theorem assign_intervals (config : Configuration) (key : Key) (text : Bytes) :
    (assign config key.name text).intervals = config.intervals := by
  cases key <;> simp only [Key.name, assign, lit_inj, reduceIte, String.reduceEq] <;> rfl

theorem assign_unknown (config : Configuration) {name : Bytes} (text : Bytes)
    (hname : ∀ key : Key, name ≠ key.name) : assign config name text = config := by
  have hlit (key : Key) (s : String) (hs : key.name = lit s) : name ≠ lit s := hs ▸ hname key
  unfold assign
  rw [if_neg (hlit .enabled _ rfl), if_neg (hlit .cacheThresholdMb _ rfl),
    if_neg (hlit .includeUserApps _ rfl), if_neg (hlit .includeSystemApps _ rfl),
    if_neg (hlit .includeExternalCache _ rfl), if_neg (hlit .idleRequired _ rfl),
    if_neg (hlit .idleDelayMinutes _ rfl), if_neg (hlit .chargingPreferred _ rfl),
    if_neg (hlit .minimumBatteryPercent _ rfl), if_neg (hlit .thermalProtection _ rfl),
    if_neg (hlit .adaptiveScanning _ rfl), if_neg (hlit .loggingDebug _ rfl),
    if_neg (hlit .maxCleanupMbPerRun _ rfl), if_neg (hlit .maxFilesPerBatch _ rfl),
    if_neg (hlit .maxBatchTimeMs _ rfl)]

/-- The keys and the intervals make up the configuration. -/
theorem Configuration.ext_field {config config' : Configuration}
    (hfields : ∀ key, config.field key = config'.field key)
    (hintervals : config.intervals = config'.intervals) : config = config' := by
  have hall : ∀ key ∈ Key.all, config.field key = config'.field key := fun key _ => hfields key
  obtain ⟨⟩ := config
  obtain ⟨⟩ := config'
  simpa [Key.all, Configuration.field, Configuration.intervals, and_assoc] using
    And.intro hall hintervals

/-! ## Values -/

theorem isTrue_of_isWritten {text : Bytes} {value : Bool}
    (h : Value.IsWritten text (.bool value)) : isTrue text = value := by
  cases value with
  | true => rcases h with rfl | rfl <;> decide
  | false => rcases h with rfl | rfl <;> decide

/-- A digit is neither white space nor a blank, a sign or a delimiter. -/
theorem not_digit {byte : UInt8} (h : isDigit byte = true) :
    isSpace byte = false ∧ isBlank byte = false ∧ byte ≠ 45 ∧ byte ≠ 43 := by
  have hlow : 48 ≤ byte.toNat := by
    simp only [isDigit, Bool.and_eq_true, decide_eq_true_eq, UInt8.le_iff_toNat_le] at h
    exact h.1
  have hne (other : UInt8) (hother : other.toNat < 48) : byte ≠ other := by
    rintro rfl
    omega
  refine ⟨?_, ?_, hne 45 (by decide), hne 43 (by decide)⟩
  · have h13 : ¬ byte ≤ 13 := by
      have h13 : (13 : UInt8).toNat = 13 := rfl
      rw [UInt8.le_iff_toNat_le, h13]
      omega
    simp [isSpace, hne 32 (by decide), h13]
  · simp [isBlank, hne 32 (by decide), hne 9 (by decide), hne 13 (by decide), hne 10 (by decide)]

theorem takeWhile_digits {digits : Bytes} (hdigits : ∀ byte ∈ digits, isDigit byte = true) :
    digits.takeWhile isDigit = digits := by
  rwa [List.takeWhile_eq_self_iff]

/-- What is written as a decimal number reads as that number. -/
theorem atoi_of_isDecimal {text : Bytes} {value : Int32} (h : IsDecimal text value.toInt) :
    atoi text = value := by
  obtain ⟨digits, hne, hdigits, hform⟩ := h
  have hspace (byte : UInt8) (rest : Bytes) (hbyte : isSpace byte = false) :
      (byte :: rest).dropWhile isSpace = byte :: rest := by
    rw [List.dropWhile_cons_of_neg (by simp [hbyte])]
  have htake := takeWhile_digits hdigits
  unfold atoi
  rcases hform with ⟨rfl | rfl, hvalue⟩ | ⟨rfl, hvalue⟩
  · cases text with
    | nil => exact absurd rfl hne
    | cons first rest =>
        obtain ⟨hplain, _, hminus, hplus⟩ := not_digit (hdigits first List.mem_cons_self)
        rw [hspace first rest hplain, readSigned]
        · simp [htake, ← hvalue]
        · rintro _ heq
          exact hminus (List.cons_eq_cons.mp heq).1
        · rintro _ heq
          exact hplus (List.cons_eq_cons.mp heq).1
  · rw [hspace 43 digits (by decide)]
    simp [readSigned, htake, ← hvalue]
  · rw [hspace 45 digits (by decide)]
    simp [readSigned, htake, ← hvalue]

/-- The text of a key's value reads as the value. -/
theorem read_of_isWritten {config : Configuration} {key : Key} {text : Bytes}
    (h : (config.field key).IsWritten text) : key.read text = config.field key := by
  cases key with
  | cacheThresholdMb | idleDelayMinutes | minimumBatteryPercent | maxCleanupMbPerRun
  | maxFilesPerBatch | maxBatchTimeMs => exact congrArg Value.int (atoi_of_isDecimal h)
  | enabled | includeUserApps | includeSystemApps | includeExternalCache | idleRequired
  | chargingPreferred | thermalProtection | adaptiveScanning | loggingDebug =>
      exact congrArg Value.bool (isTrue_of_isWritten h)

/-- Every natural number has digits. -/
theorem exists_digits (n : Nat) : ∃ digits, digits ≠ [] ∧
    (∀ byte ∈ digits, isDigit byte = true) ∧ digitsToNat digits = n := by
  have hdigit (d : Nat) (hd : d < 10) :
      isDigit (.ofNat (48 + d)) = true ∧ (UInt8.ofNat (48 + d)).toNat - 48 = d := by
    interval_cases d <;> decide
  induction n using Nat.strong_induction_on with
  | _ n ih =>
    by_cases hsmall : n < 10
    · obtain ⟨hisDigit, hvalue⟩ := hdigit n hsmall
      exact ⟨[.ofNat (48 + n)], by simp, by simpa using hisDigit,
        by simpa [digitsToNat] using hvalue⟩
    · obtain ⟨digits, hne, hdigits, hvalue⟩ := ih (n / 10) (by omega)
      obtain ⟨hisDigit, hlast⟩ := hdigit (n % 10) (Nat.mod_lt _ (by decide))
      refine ⟨digits ++ [.ofNat (48 + n % 10)], by simp, ?_, ?_⟩
      · intro byte hbyte
        rcases List.mem_append.mp hbyte with hmem | hmem
        · exact hdigits byte hmem
        · rwa [List.mem_singleton.mp hmem]
      · rw [digitsToNat, List.foldl_append, List.foldl_cons, List.foldl_nil]
        rw [digitsToNat] at hvalue
        rw [hvalue, hlast]
        omega

/-- Every value can be written. -/
theorem exists_isWritten (value : Value) : ∃ text, value.IsWritten text := by
  cases value with
  | bool value => cases value <;> exact ⟨_, Or.inl rfl⟩
  | int value =>
      obtain ⟨digits, hne, hdigits, hvalue⟩ := exists_digits value.toInt.natAbs
      by_cases hneg : value.toInt < 0
      · exact ⟨45 :: digits, digits, hne, hdigits, Or.inr ⟨rfl, by omega⟩⟩
      · exact ⟨digits, digits, hne, hdigits, Or.inl ⟨Or.inl rfl, by omega⟩⟩

/-! ## Trimming -/

/-- Blanks go from the front up to what does not begin with one. -/
theorem dropWhile_blanks {before text : Bytes} (hbefore : Blanks before)
    (htext : ∀ byte ∈ text.head?, isBlank byte = false) :
    (before ++ text).dropWhile isBlank = text := by
  rw [List.dropWhile_append_of_pos hbefore]
  cases text with
  | nil => rfl
  | cons first rest => exact List.dropWhile_cons_of_neg (by simp [htext first rfl])

theorem rdropWhile_blanks {text after : Bytes} (hafter : Blanks after)
    (htext : ∀ byte ∈ text.getLast?, isBlank byte = false) :
    (text ++ after).rdropWhile isBlank = text := by
  rw [List.rdropWhile, List.reverse_append, dropWhile_blanks, List.reverse_reverse]
  · exact fun byte hbyte => hafter byte (List.mem_reverse.mp hbyte)
  · rwa [List.head?_reverse]

theorem trim_eq (text : Bytes) : trim text = (text.dropWhile isBlank).rdropWhile isBlank := rfl

theorem blanks_nil : Blanks [] := by simp [Blanks]

theorem trim_blanks {text : Bytes} (h : Blanks text) : trim text = [] := by
  rw [trim_eq, List.dropWhile_eq_nil_iff.mpr h]
  rfl

theorem Blanks.append {text text' : Bytes} (h : Blanks text) (h' : Blanks text') :
    Blanks (text ++ text') := by
  intro byte hbyte
  rcases List.mem_append.mp hbyte with hmem | hmem
  · exact h byte hmem
  · exact h' byte hmem

theorem trim_surrounded {before text after : Bytes} (hbefore : Blanks before) (htext : Solid text)
    (hafter : Blanks after) : trim (before ++ text ++ after) = text := by
  by_cases hnil : text = []
  · rw [hnil, List.append_nil]
    exact trim_blanks (hbefore.append hafter)
  · rw [trim_eq, List.append_assoc, dropWhile_blanks hbefore, rdropWhile_blanks hafter htext.last]
    rw [List.head?_append_of_ne_nil _ hnil]
    exact htext.head

theorem mem_of_mem_trim {text : Bytes} {byte : UInt8} (h : byte ∈ trim text) : byte ∈ text := by
  rw [trim_eq] at h
  exact (List.dropWhile_suffix _).subset ((List.rdropWhile_prefix _ _).subset h)

/-- What a byte that is no blank stands before is trimmed at its end only. -/
theorem rdropWhile_cons (front rest : Bytes) {byte : UInt8} (hbyte : isBlank byte = false) :
    (front ++ byte :: rest).rdropWhile isBlank =
      front ++ byte :: rest.rdropWhile isBlank := by
  induction rest using List.reverseRecOn with
  | nil => exact List.rdropWhile_concat_neg _ _ _ (by simp [hbyte])
  | append_singleton rest last ih =>
      have hsplit : front ++ byte :: (rest ++ [last]) = front ++ byte :: rest ++ [last] := by simp
      rw [hsplit, List.rdropWhile_concat, List.rdropWhile_concat]
      split
      · exact ih
      · simp

/-- Trimming at the end first makes no difference. -/
theorem trim_rdropWhile {before text after : Bytes} (hbefore : Blanks before)
    (htext : Solid text) (hafter : Blanks after) :
    trim ((before ++ text ++ after).rdropWhile isBlank) = text := by
  by_cases hnil : text = []
  · have hblanks : (before ++ text ++ after).rdropWhile isBlank = [] := by
      rw [List.rdropWhile_eq_nil_iff, hnil, List.append_nil]
      exact hbefore.append hafter
    rw [hblanks, hnil]
    rfl
  · have htrim : trim (before ++ text ++ []) = text := trim_surrounded hbefore htext blanks_nil
    rw [List.append_nil] at htrim
    rw [rdropWhile_blanks hafter, htrim]
    rw [List.getLast?_append_of_ne_nil _ hnil]
    exact htext.last

/-! ## What a line does -/

theorem delimiter_notMem_blanks {text : Bytes} (h : Blanks text) : 61 ∉ text := by
  intro hmem
  have hblank := h 61 hmem
  revert hblank
  decide

/-- What is left of a setting is split at its delimiter into the key and the value. -/
theorem IsSetting.split {name value line : Bytes} (h : IsSetting name value line)
    (hname : Solid name) (hdelimiter : 61 ∉ name) (hvalue : Solid value) :
    ∃ front rest, trim line = front ++ 61 :: rest ∧ 61 ∉ front ∧ trim front = name ∧
      trim rest = value ∧ (name ≠ [] → front.head? = name.head?) := by
  obtain ⟨hbefore, hgap, hspace, hafter⟩ := h
  rename_i before gap space after
  have hequals : isBlank 61 = false := by decide
  refine ⟨if name = [] then [] else name ++ gap,
    (space ++ value ++ after).rdropWhile isBlank, ?_, ?_, ?_, ?_, ?_⟩
  · rw [trim_eq]
    split
    next hnil =>
      rw [hnil, List.append_nil, dropWhile_blanks (hbefore.append hgap) (by simpa using hequals)]
      exact rdropWhile_cons [] _ hequals
    next hne =>
      rw [List.append_assoc, List.append_assoc, dropWhile_blanks hbefore,
        ← List.append_assoc, rdropWhile_cons _ _ hequals]
      rw [List.head?_append_of_ne_nil _ hne]
      exact hname.head
  · split
    · simp
    · rw [List.mem_append, not_or]
      exact ⟨hdelimiter, delimiter_notMem_blanks hgap⟩
  · split
    next hnil => rw [hnil]; rfl
    next hne => exact trim_surrounded blanks_nil hname hgap
  · exact trim_rdropWhile hspace hvalue hafter
  · intro hne
    rw [if_neg hne, List.head?_append_of_ne_nil _ hne]

/-- A line that is split into a key and a value is a comment or assigns the one to the other. -/
theorem loadLine_split (config : Configuration) {line front rest : Bytes}
    (htrim : trim line = front ++ 61 :: rest) (hfront : 61 ∉ front) :
    loadLine config line =
      if (front ++ 61 :: rest).head? = some 35 then config
      else assign config (trim front) (trim rest) := by
  have hbefore : ∀ byte ∈ front, (decide (byte ≠ 61)) = true := by
    intro byte hbyte
    simp only [ne_eq, decide_not, Bool.not_eq_true', decide_eq_false_iff_not]
    rintro rfl
    exact hfront hbyte
  have htake : (front ++ 61 :: rest).takeWhile (fun byte => decide (byte ≠ 61)) = front := by
    rw [List.takeWhile_append_of_pos hbefore]
    simp
  have hdrop : (front ++ 61 :: rest).dropWhile (fun byte => decide (byte ≠ 61)) = 61 :: rest := by
    rw [List.dropWhile_append_of_pos hbefore]
    simp
  rw [loadLine, htrim, hdrop, htake]
  simp

/-- No key is empty, begins or ends with a blank, has a delimiter in it or begins a comment. -/
theorem key_name (key : Key) :
    key.name ≠ [] ∧ Solid key.name ∧ 61 ∉ key.name ∧ key.name.head? ≠ some 35 := by
  have hnames : ∀ key ∈ Key.all, key.name ≠ [] ∧
      ((∀ byte ∈ key.name.head?, isBlank byte = false) ∧
        ∀ byte ∈ key.name.getLast?, isBlank byte = false) ∧
      61 ∉ key.name ∧ key.name.head? ≠ some 35 := by
    decide +kernel
  obtain ⟨hne, ⟨hhead, hlast⟩, hdelimiter, hcomment⟩ := hnames key key.mem_all
  exact ⟨hne, ⟨hhead, hlast⟩, hdelimiter, hcomment⟩

theorem loadLine_setting (config : Configuration) {key : Key} {value line : Bytes}
    (hvalue : Solid value) (h : IsSetting key.name value line) :
    loadLine config line = assign config key.name value := by
  obtain ⟨hne, hsolid, hdelimiter, hcomment⟩ := key_name key
  obtain ⟨front, rest, htrim, hfront, hname, hrest, hhead⟩ := h.split hsolid hdelimiter hvalue
  have hfrontNe : front ≠ [] := by
    rintro rfl
    exact hne hname.symm
  rw [loadLine_split config htrim hfront, hname, hrest, if_neg]
  rwa [List.head?_append_of_ne_nil _ hfrontNe, hhead hne]

theorem loadLine_ignored (config : Configuration) {line : Bytes} (h : IsIgnored line) :
    loadLine config line = config := by
  cases h with
  | blank hblanks =>
      rw [loadLine, trim_blanks hblanks, if_pos (Or.inl rfl)]
  | @comment before rest hbefore =>
      have hhash : isBlank 35 = false := by decide
      rw [loadLine, if_pos]
      right
      rw [trim_eq, dropWhile_blanks hbefore (by simpa using hhash)]
      exact congrArg List.head? (rdropWhile_cons [] rest hhash)
  | noDelimiter hnone =>
      have hdrop : (trim line).dropWhile (fun byte => decide (byte ≠ 61)) = [] := by
        rw [List.dropWhile_eq_nil_iff]
        intro byte hbyte
        simp only [ne_eq, decide_not, Bool.not_eq_true', decide_eq_false_iff_not]
        rintro rfl
        exact hnone (mem_of_mem_trim hbyte)
      rw [loadLine, hdrop]
      split <;> rfl
  | unknown hsolid hdelimiter hunknown hvalue hsetting =>
      obtain ⟨front, rest, htrim, hfront, hname, _⟩ := hsetting.split hsolid hdelimiter hvalue
      rw [loadLine_split config htrim hfront, hname, assign_unknown config _ hunknown]
      split <;> rfl

/-! ## What a text does -/

theorem Says.foldl {lines : List Bytes} {settings : List (Key × Bytes)}
    (h : Says lines settings) (config : Configuration) :
    lines.foldl loadLine config =
      settings.foldl (fun config setting => assign config setting.1.name setting.2) config := by
  induction h generalizing config with
  | nil => rfl
  | setting hvalue hsetting _ ih =>
      rw [List.foldl_cons, List.foldl_cons, loadLine_setting config hvalue hsetting, ih]
  | ignored hignored _ ih => rw [List.foldl_cons, loadLine_ignored config hignored, ih]

theorem lastText_concat (key : Key) (settings : List (Key × Bytes)) (setting : Key × Bytes) :
    lastText key (settings ++ [setting]) =
      if setting.1 = key then some setting.2 else lastText key settings := by
  rw [lastText, List.filter_append]
  by_cases hkey : setting.1 = key
  · simp [hkey]
  · simp [hkey, lastText]

/-- After all settings each field has what the last one of its key says. -/
theorem foldl_assign_field (config : Configuration) (settings : List (Key × Bytes)) (key : Key) :
    (settings.foldl (fun config setting => assign config setting.1.name setting.2) config).field
        key = ((lastText key settings).map key.read).getD (config.field key) := by
  induction settings using List.reverseRecOn with
  | nil => rfl
  | append_singleton settings setting ih =>
      rw [List.foldl_append, List.foldl_cons, List.foldl_nil, assign_field, lastText_concat]
      by_cases hkey : key = setting.1
      · simp [hkey]
      · rw [if_neg hkey, if_neg (Ne.symm hkey), ih]

theorem foldl_assign_intervals (config : Configuration) (settings : List (Key × Bytes)) :
    (settings.foldl (fun config setting => assign config setting.1.name setting.2)
      config).intervals = config.intervals := by
  induction settings generalizing config with
  | nil => rfl
  | cons setting rest ih => rw [List.foldl_cons, ih, assign_intervals]

/-- A text is read line by line; where it ends with a line break, there is one more line that
says nothing. -/
theorem foldl_getlines {lines : List Bytes} (hne : lines ≠ [])
    (hlines : ∀ line ∈ lines, 10 ∉ line) (config : Configuration) :
    (getlines ([10].intercalate lines)).foldl loadLine config =
      lines.foldl loadLine config := by
  have hempty (config : Configuration) : loadLine config [] = config :=
    loadLine_ignored config (.blank blanks_nil)
  rw [getlines, List.splitOn_intercalate 10 hlines hne]
  split
  next hlast =>
    obtain ⟨init, hinit⟩ := List.getLast?_eq_some_iff.mp hlast
    rw [hinit, List.dropLast_concat, List.foldl_append, List.foldl_cons, List.foldl_nil, hempty]
  next => rfl

/-- Whatever the configuration was, loading a text whose last setting of each key is written as
the key's value leaves those values, and the intervals as they were. -/
theorem loadConfig_says {lines : List Bytes} {settings : List (Key × Bytes)}
    (hsaid : Says lines settings) (hlines : ∀ line ∈ lines, 10 ∉ line) (values : Configuration)
    (hvalues : ∀ key, ∃ text ∈ lastText key settings, (values.field key).IsWritten text)
    (config : Configuration) :
    loadConfig config (some ([10].intercalate lines)) =
      (true, { values with
        checkIntervalActiveSec := config.checkIntervalActiveSec
        checkIntervalScreenOffSec := config.checkIntervalScreenOffSec
        checkIntervalDeepIdleSec := config.checkIntervalDeepIdleSec }) := by
  have hne : lines ≠ [] := by
    rintro rfl
    obtain ⟨text, htext, _⟩ := hvalues .enabled
    cases hsaid
    simp [lastText] at htext
  rw [loadConfig, foldl_getlines hne hlines, hsaid.foldl]
  refine congrArg (Prod.mk true) (Configuration.ext_field (fun key => ?_) ?_)
  · obtain ⟨text, htext, hwritten⟩ := hvalues key
    rw [foldl_assign_field, htext, Option.map_some, Option.getD_some, read_of_isWritten hwritten]
    cases key <;> rfl
  · rw [foldl_assign_intervals]
    rfl

/-- Every switch off and every number 7. -/
def sevens : Configuration where
  enabled := false
  cacheThresholdMb := 7
  includeUserApps := false
  includeSystemApps := false
  includeExternalCache := false
  idleRequired := false
  idleDelayMinutes := 7
  chargingPreferred := false
  minimumBatteryPercent := 7
  thermalProtection := false
  adaptiveScanning := false
  loggingDebug := false
  maxCleanupMbPerRun := 7
  maxFilesPerBatch := 7
  maxBatchTimeMs := 7

def sevensText (key : Key) : Bytes :=
  match sevens.field key with
  | .bool _ => lit "0"
  | .int _ => lit "+07"

/-- A comment, a setting that is overruled, and one line for each key. -/
def sevensLines : List Bytes :=
  lit " # all sevens" :: (lit "enabled" ++ 61 :: lit "true\r") ::
    Key.all.map fun key => [9] ++ key.name ++ [32] ++ 61 :: ([32] ++ sevensText key ++ [])

theorem sevensText_isWritten (key : Key) : (sevens.field key).IsWritten (sevensText key) := by
  have hseven : IsDecimal (lit "+07") (7 : Int32).toInt :=
    ⟨lit "07", by decide, by decide +kernel, Or.inl ⟨Or.inr (by decide), by decide⟩⟩
  cases key <;> first | exact Or.inr rfl | exact hseven

theorem sevensText_solid (key : Key) : Solid (sevensText key) := by
  have hsolid : ∀ key ∈ Key.all, (∀ byte ∈ (sevensText key).head?, isBlank byte = false) ∧
      ∀ byte ∈ (sevensText key).getLast?, isBlank byte = false := by
    decide +kernel
  exact ⟨(hsolid key key.mem_all).1, (hsolid key key.mem_all).2⟩

theorem says_sevens : Says sevensLines
    ((.enabled, lit "true") :: Key.all.map fun key => (key, sevensText key)) := by
  have hkeys (keys : List Key) : Says
      (keys.map fun key => [9] ++ key.name ++ [32] ++ 61 :: ([32] ++ sevensText key ++ []))
      (keys.map fun key => (key, sevensText key)) := by
    induction keys with
    | nil => exact .nil
    | cons key rest ih =>
        refine .setting (sevensText_solid key) (.intro ?_ ?_ ?_ ?_) ih <;>
          simp [Blanks, isBlank]
  have hblank (byte : UInt8) (hbyte : isBlank byte = true) : Blanks [byte] := by
    simpa [Blanks] using hbyte
  have hcomment : IsIgnored ([32] ++ 35 :: lit " all sevens") :=
    .comment _ (hblank 32 (by decide))
  have hoverruled : IsSetting Key.enabled.name (lit "true")
      ([] ++ lit "enabled" ++ [] ++ 61 :: ([] ++ lit "true" ++ [13])) :=
    .intro blanks_nil blanks_nil blanks_nil (hblank 13 (by decide))
  have hsolid : Solid (lit "true") := ⟨by decide +kernel, by decide +kernel⟩
  exact .ignored hcomment (.setting hsolid hoverruled (hkeys Key.all))

theorem loadConfig_says_sevens :
    loadConfig {} (some ([10].intercalate sevensLines)) = (true, sevens) := by
  refine loadConfig_says says_sevens (by decide +kernel) sevens (fun key => ?_) {}
  refine ⟨sevensText key, ?_, sevensText_isWritten key⟩
  cases key <;> decide +kernel

end FreshCore.Config
