import FreshCore.Config.Printing
import FreshCore.Device.Readings

/-!
# The list of packages

A line of `packages.list` names a package if it begins with a word, a number and two more
words, with white space between them. What is read from a text are the packages its lines
name, in their order; any other line is passed over.
-/

namespace FreshCore.Device

open Posix Config

/-! ## The grammar -/

def Spaces (text : Bytes) : Prop := ∀ byte ∈ text, isSpace byte = true

/-- A run of bytes that are not white space. -/
structure IsWord (text : Bytes) : Prop where
  ne_nil : text ≠ []
  solid : ∀ byte ∈ text, isSpace byte = false

/-- The text begins with the word, after white space, and the word does not go on. -/
def BeginsWord (word rest text : Bytes) : Prop :=
  ∃ gap, Spaces gap ∧ text = gap ++ (word ++ rest) ∧ IsWord word ∧
    ∀ byte ∈ rest.head?, isSpace byte = true

/-- The text begins with the number in decimal, after white space, and its digits do not go
on. -/
def BeginsNumber (number : Int32) (rest text : Bytes) : Prop :=
  ∃ gap decimal, Spaces gap ∧ text = gap ++ (decimal ++ rest) ∧
    IsDecimal decimal number.toInt ∧ ∀ byte ∈ rest.head?, isDigit byte = false

/-- The line names the package. What stands between its number and its directory, and after
the directory, makes no difference. -/
def Names (line : Bytes) (pkg : PackageInfo) : Prop :=
  (∃ afterName afterUid debuggable afterDebuggable rest,
    BeginsWord pkg.name afterName line ∧ BeginsNumber pkg.uid afterUid afterName ∧
      BeginsWord debuggable afterDebuggable afterUid ∧
      BeginsWord pkg.dataDir rest afterDebuggable) ∧
    pkg.isSystem = decide (pkg.uid < 10000)

/-- The lines that name a package name these. -/
inductive Lists : List Bytes → List PackageInfo → Prop
  | nil : Lists [] []
  | names {line : Bytes} {pkg : PackageInfo} {lines : List Bytes} {pkgs : List PackageInfo} :
      Names line pkg → Lists lines pkgs → Lists (line :: lines) (pkg :: pkgs)
  | other {line : Bytes} {lines : List Bytes} {pkgs : List PackageInfo} :
      (∀ pkg, ¬ Names line pkg) → Lists lines pkgs → Lists (line :: lines) pkgs

/-! ## Reading words and numbers -/

/-- Where `takeWhile` and `dropWhile` split a text. -/
theorem split_while_iff {p : UInt8 → Bool} {text front rest : Bytes} :
    text.takeWhile p = front ∧ text.dropWhile p = rest ↔
      text = front ++ rest ∧ (∀ byte ∈ front, p byte = true) ∧
        ∀ byte ∈ rest.head?, p byte = false := by
  constructor
  · rintro ⟨rfl, rfl⟩
    refine ⟨(List.takeWhile_append_dropWhile).symm, fun byte => List.mem_takeWhile_imp, ?_⟩
    intro byte hbyte
    have hhead := List.head?_dropWhile_not p text
    rw [Option.mem_def.mp hbyte] at hhead
    simpa using hhead
  · rintro ⟨rfl, hfront, hrest⟩
    rw [List.takeWhile_append_of_pos hfront, List.dropWhile_append_of_pos hfront]
    cases rest with
    | nil => simp
    | cons first rest => simp [hrest first rfl]

/-- Leading white space is skipped up to what does not begin with any. -/
theorem dropWhile_isSpace_eq_iff {text rest : Bytes} :
    text.dropWhile isSpace = rest ↔
      ∃ gap, Spaces gap ∧ text = gap ++ rest ∧ ∀ byte ∈ rest.head?, isSpace byte = false := by
  constructor
  · intro hdrop
    obtain ⟨htext, hgap, hrest⟩ := split_while_iff.mp ⟨rfl, hdrop⟩
    exact ⟨_, hgap, htext, hrest⟩
  · rintro ⟨gap, hgap, htext, hrest⟩
    exact (split_while_iff.mpr ⟨htext, hgap, hrest⟩).2

theorem readWord_eq_some_iff {text word rest : Bytes} :
    readWord text = some (word, rest) ↔ BeginsWord word rest text := by
  constructor
  · intro hread
    simp only [readWord, Option.ite_none_left_eq_some, Option.some.injEq, Prod.mk.injEq] at hread
    obtain ⟨hne, hsplit⟩ := hread
    obtain ⟨hwhole, hword, hrest⟩ := split_while_iff.mp hsplit
    obtain ⟨gap, hgap, htext, hstart⟩ := dropWhile_isSpace_eq_iff.mp hwhole
    refine ⟨gap, hgap, htext, ⟨?_, ?_⟩, ?_⟩
    · rintro rfl
      cases rest with
      | nil => exact hne hwhole
      | cons first rest =>
          have hspace := hrest first rfl
          have hsolid := hstart first rfl
          simp [hsolid] at hspace
    · intro byte hbyte
      simpa using hword byte hbyte
    · intro byte hbyte
      simpa using hrest byte hbyte
  · rintro ⟨gap, hgap, htext, hword, hrest⟩
    have hwhole : text.dropWhile isSpace = word ++ rest := by
      apply dropWhile_isSpace_eq_iff.mpr
      refine ⟨gap, hgap, htext, ?_⟩
      rw [List.head?_append_of_ne_nil _ hword.ne_nil]
      intro byte hbyte
      exact hword.solid byte (List.mem_of_mem_head? hbyte)
    have hsplit : (word ++ rest).takeWhile (!isSpace ·) = word ∧
        (word ++ rest).dropWhile (!isSpace ·) = rest := by
      apply split_while_iff.mpr
      refine ⟨rfl, fun byte hbyte => ?_, fun byte hbyte => ?_⟩
      · simp [hword.solid byte hbyte]
      · simp [hrest byte hbyte]
    rw [readWord, hwhole, hsplit.1, hsplit.2, if_neg (by simp [hword.ne_nil])]

theorem readSigned_unsigned {text : Bytes} (hminus : text.head? ≠ some 45)
    (hplus : text.head? ≠ some 43) :
    readSigned text = (false, text.takeWhile isDigit, text.dropWhile isDigit) := by
  rw [readSigned]
  · rintro rest rfl
    exact hminus rfl
  · rintro rest rfl
    exact hplus rfl

/-- The value that a sign and digits denote. -/
def signedValue (negative : Bool) (digits : Bytes) : Int :=
  if negative then -digitsToNat digits else digitsToNat digits

/-- What begins with a number is a sign or none, then digits. -/
theorem readSigned_eq_iff {text digits rest : Bytes} {value : Int} :
    (∃ negative, readSigned text = (negative, digits, rest) ∧ digits ≠ [] ∧
        value = signedValue negative digits) ↔
      ∃ sign, text = sign ++ (digits ++ rest) ∧ digits ≠ [] ∧
        (∀ byte ∈ digits, isDigit byte = true) ∧ (∀ byte ∈ rest.head?, isDigit byte = false) ∧
        ((sign = [] ∨ sign = [43]) ∧ value = digitsToNat digits ∨
          sign = [45] ∧ value = -digitsToNat digits) := by
  constructor
  · rintro ⟨negative, hread, hne, hvalue⟩
    by_cases hminus : text.head? = some 45
    · obtain ⟨unsigned, rfl⟩ := List.head?_eq_some_iff.mp hminus
      cases hread
      obtain ⟨htext, hdigits, hrest⟩ := (split_while_iff (p := isDigit)).mp ⟨rfl, rfl⟩
      exact ⟨[45], congrArg (45 :: ·) htext, hne, hdigits, hrest, Or.inr ⟨rfl, hvalue⟩⟩
    · by_cases hplus : text.head? = some 43
      · obtain ⟨unsigned, rfl⟩ := List.head?_eq_some_iff.mp hplus
        cases hread
        obtain ⟨htext, hdigits, hrest⟩ := (split_while_iff (p := isDigit)).mp ⟨rfl, rfl⟩
        exact ⟨[43], congrArg (43 :: ·) htext, hne, hdigits, hrest,
          Or.inl ⟨Or.inr rfl, hvalue⟩⟩
      · rw [readSigned_unsigned hminus hplus] at hread
        cases hread
        obtain ⟨htext, hdigits, hrest⟩ := (split_while_iff (p := isDigit)).mp ⟨rfl, rfl⟩
        exact ⟨[], htext, hne, hdigits, hrest, Or.inl ⟨Or.inl rfl, hvalue⟩⟩
  · rintro ⟨sign, rfl, hne, hdigits, hrest, hsign⟩
    obtain ⟨htake, hdrop⟩ := split_while_iff.mpr ⟨rfl, hdigits, hrest⟩
    rcases hsign with ⟨rfl | rfl, hvalue⟩ | ⟨rfl, hvalue⟩
    · refine ⟨false, ?_, hne, hvalue⟩
      have hfirst (byte : UInt8) (hbyte : (digits ++ rest).head? = some byte) :
          isDigit byte = true := by
        rw [List.head?_append_of_ne_nil _ hne] at hbyte
        exact hdigits byte (List.mem_of_mem_head? hbyte)
      rw [List.nil_append, readSigned_unsigned, htake, hdrop]
      · exact fun h45 => absurd (hfirst 45 h45) (by decide)
      · exact fun h43 => absurd (hfirst 43 h43) (by decide)
    · refine ⟨false, ?_, hne, hvalue⟩
      simp only [List.cons_append, List.nil_append, readSigned, htake, hdrop]
    · refine ⟨true, ?_, hne, hvalue⟩
      simp only [List.cons_append, List.nil_append, readSigned, htake, hdrop]

/-- The range check is that of the value, which is then not changed by storing it. -/
theorem ofInt_checked_iff {value : Int} {number : Int32} :
    ¬ (value < Int32.minValue.toInt ∨ Int32.maxValue.toInt < value) ∧
        Int32.ofInt value = number ↔ number.toInt = value := by
  have hmin : Int32.minValue.toInt = -2 ^ 31 := rfl
  have hmax : Int32.maxValue.toInt = 2 ^ 31 - 1 := rfl
  have hlow := number.le_toInt
  have hhigh := number.toInt_lt
  constructor
  · rintro ⟨hrange, rfl⟩
    rw [Int32.toInt_ofInt_of_le] <;> omega
  · rintro rfl
    exact ⟨by omega, Int32.ofInt_toInt number⟩

theorem readInt_eq_signed {text rest : Bytes} {number : Int32} :
    readInt text = some (number, rest) ↔
      ∃ digits negative, readSigned (text.dropWhile isSpace) = (negative, digits, rest) ∧
        digits ≠ [] ∧ number.toInt = signedValue negative digits := by
  unfold readInt
  generalize readSigned (text.dropWhile isSpace) = signed
  obtain ⟨negative, digits, rest'⟩ := signed
  simp only [Option.ite_none_left_eq_some, Option.some.injEq, Prod.mk.injEq]
  constructor
  · rintro ⟨hchecks, hvalue, rfl⟩
    rw [not_or] at hchecks
    exact ⟨digits, negative, ⟨rfl, rfl, rfl⟩, hchecks.1,
      ofInt_checked_iff.mp ⟨hchecks.2, hvalue⟩⟩
  · rintro ⟨digits', negative', ⟨rfl, rfl, rfl⟩, hne, hvalue⟩
    obtain ⟨hrange, hnumber⟩ := ofInt_checked_iff.mpr hvalue
    exact ⟨not_or.mpr ⟨hne, hrange⟩, hnumber, rfl⟩

theorem readInt_eq_some_iff {text rest : Bytes} {number : Int32} :
    readInt text = some (number, rest) ↔ BeginsNumber number rest text := by
  rw [readInt_eq_signed]
  constructor
  · rintro ⟨digits, hsigned⟩
    obtain ⟨sign, hstart, hne, hdigits, hrest, hsign⟩ := readSigned_eq_iff.mp hsigned
    obtain ⟨gap, hgap, htext, _⟩ := dropWhile_isSpace_eq_iff.mp hstart
    refine ⟨gap, sign ++ digits, hgap, by rw [htext, List.append_assoc],
      ⟨digits, hne, hdigits, ?_⟩, hrest⟩
    rcases hsign with ⟨rfl | rfl, hvalue⟩ | ⟨rfl, hvalue⟩
    · exact Or.inl ⟨Or.inl rfl, hvalue⟩
    · exact Or.inl ⟨Or.inr rfl, hvalue⟩
    · exact Or.inr ⟨rfl, hvalue⟩
  · rintro ⟨gap, decimal, hgap, htext, ⟨digits, hne, hdigits, hform⟩, hrest⟩
    obtain ⟨sign, rfl, hsign⟩ : ∃ sign, decimal = sign ++ digits ∧
        ((sign = [] ∨ sign = [43]) ∧ number.toInt = digitsToNat digits ∨
          sign = [45] ∧ number.toInt = -digitsToNat digits) := by
      rcases hform with ⟨rfl | rfl, hvalue⟩ | ⟨rfl, hvalue⟩
      · exact ⟨[], rfl, Or.inl ⟨Or.inl rfl, hvalue⟩⟩
      · exact ⟨[43], rfl, Or.inl ⟨Or.inr rfl, hvalue⟩⟩
      · exact ⟨[45], rfl, Or.inr ⟨rfl, hvalue⟩⟩
    have hfirst : ∀ byte ∈ (sign ++ digits ++ rest).head?, isSpace byte = false := by
      rcases hsign with ⟨rfl | rfl, _⟩ | ⟨rfl, _⟩
      · rw [List.nil_append, List.head?_append_of_ne_nil _ hne]
        intro byte hbyte
        exact (not_digit (hdigits byte (List.mem_of_mem_head? hbyte))).1
      · simp [isSpace]
      · simp [isSpace]
    refine ⟨digits, readSigned_eq_iff.mpr ⟨sign, ?_, hne, hdigits, hrest, hsign⟩⟩
    rw [← List.append_assoc]
    exact dropWhile_isSpace_eq_iff.mpr ⟨gap, hgap, htext, hfirst⟩

theorem parsePackage_eq_some_iff {line : Bytes} {pkg : PackageInfo} :
    parsePackage line = some pkg ↔ Names line pkg := by
  unfold parsePackage
  simp only [Option.bind_eq_bind, Option.bind_eq_some_iff, Prod.exists, readWord_eq_some_iff,
    readInt_eq_some_iff]
  constructor
  · rintro ⟨name, afterName, hname, uid, afterUid, huid, debuggable, afterDebuggable, hdebuggable,
      dataDir, rest, hdataDir, hpkg⟩
    cases hpkg
    exact ⟨⟨afterName, afterUid, debuggable, afterDebuggable, rest, hname, huid, hdebuggable,
      hdataDir⟩, rfl⟩
  · rintro ⟨⟨afterName, afterUid, debuggable, afterDebuggable, rest, hname, huid, hdebuggable,
      hdataDir⟩, hsystem⟩
    refine ⟨_, afterName, hname, _, afterUid, huid, debuggable, afterDebuggable, hdebuggable,
      _, rest, hdataDir, ?_⟩
    obtain ⟨name, dataDir, uid, isSystem⟩ := pkg
    simp_all

/-- The packages of a text are those that its lines name. -/
theorem filterMap_parsePackage_iff {lines : List Bytes} {pkgs : List PackageInfo} :
    lines.filterMap parsePackage = pkgs ↔ Lists lines pkgs := by
  constructor
  · rintro rfl
    induction lines with
    | nil => exact .nil
    | cons line rest ih =>
        rw [List.filterMap_cons]
        cases hparse : parsePackage line with
        | none =>
            apply Lists.other _ ih
            intro pkg hnames
            rw [parsePackage_eq_some_iff.mpr hnames] at hparse
            cases hparse
        | some pkg => exact .names (parsePackage_eq_some_iff.mp hparse) ih
  · intro hlists
    induction hlists with
    | nil => rfl
    | names hnames _ ih =>
        rw [List.filterMap_cons, parsePackage_eq_some_iff.mpr hnames, ih]
    | @other line lines pkgs hnone _ ih =>
        have hparse : parsePackage line = none :=
          Option.eq_none_iff_forall_ne_some.mpr
            fun pkg hparse => hnone pkg (parsePackage_eq_some_iff.mp hparse)
        rw [List.filterMap_cons, hparse, ih]

/-- The text after the last line break is no line of its own if it is empty, and then names
nothing. -/
theorem getInstalledPackages_some (text : Bytes) :
    getInstalledPackages (some text) = (text.splitOn 10).filterMap parsePackage := by
  rw [getInstalledPackages, getlines]
  split
  next hlast =>
    obtain ⟨init, hinit⟩ := List.getLast?_eq_some_iff.mp hlast
    have hempty : parsePackage [] = none := rfl
    rw [hinit, List.dropLast_concat, List.filterMap_append, List.filterMap_cons, hempty]
    simp
  next => rfl

/-- What is read from a text are the packages its lines name, in their order. -/
theorem getInstalledPackages_eq_iff {text : Bytes} {pkgs : List PackageInfo} :
    getInstalledPackages (some text) = pkgs ↔ Lists (text.splitOn 10) pkgs := by
  rw [getInstalledPackages_some, filterMap_parsePackage_iff]

/-! ## Which packages can be read -/

/-- What every package that is read is like. -/
structure PackageInfo.WellFormed (pkg : PackageInfo) : Prop where
  name : IsWord pkg.name
  dataDir : IsWord pkg.dataDir
  isSystem : pkg.isSystem = decide (pkg.uid < 10000)

theorem Lists.wellFormed {lines : List Bytes} {pkgs : List PackageInfo} (h : Lists lines pkgs) :
    ∀ pkg ∈ pkgs, pkg.WellFormed := by
  induction h with
  | nil => simp
  | names hnames _ ih =>
      obtain ⟨⟨_, _, _, _, _, hname, _, _, hdataDir⟩, hsystem⟩ := hnames
      obtain ⟨_, _, _, hname, _⟩ := hname
      obtain ⟨_, _, _, hdataDir, _⟩ := hdataDir
      exact List.forall_mem_cons.mpr ⟨⟨hname, hdataDir, hsystem⟩, ih⟩
  | other _ _ ih => exact ih

theorem IsWord.newline_notMem {text : Bytes} (h : IsWord text) : 10 ∉ text := by
  intro hmem
  have hsolid := h.solid 10 hmem
  revert hsolid
  decide

theorem isDecimal_newline_notMem {text : Bytes} {value : Int} (h : IsDecimal text value) :
    10 ∉ text := by
  obtain ⟨digits, _, hdigits, hform⟩ := h
  have hnone : 10 ∉ digits := by
    intro hmem
    have hdigit := hdigits 10 hmem
    revert hdigit
    decide
  rcases hform with ⟨rfl | rfl, _⟩ | ⟨rfl, _⟩ <;> simp [hnone]

/-- Any such package is named by a line. -/
theorem PackageInfo.WellFormed.exists_line {pkg : PackageInfo} (h : pkg.WellFormed) :
    ∃ line, 10 ∉ line ∧ Names line pkg := by
  obtain ⟨uid, huid⟩ := exists_isWritten (.int pkg.uid)
  have hspace : Spaces [32] := by simp [Spaces, isSpace]
  have hzero : IsWord [48] := ⟨by simp, by simp [isSpace]⟩
  refine ⟨pkg.name ++ 32 :: (uid ++ 32 :: (48 :: 32 :: pkg.dataDir)), ?_, ⟨_, _, [48], _, [],
    ⟨[], by simp [Spaces], rfl, h.name, ?_⟩, ⟨[32], uid, hspace, rfl, huid, ?_⟩,
    ⟨[32], hspace, rfl, hzero, ?_⟩, ⟨[32], hspace, by simp, h.dataDir, by simp⟩⟩, h.isSystem⟩
  · simp [h.name.newline_notMem, h.dataDir.newline_notMem, isDecimal_newline_notMem huid]
  · simp [isSpace]
  · simp [isDigit]
  · simp [isSpace]

/-- Exactly the lists of such packages are read from some text. -/
theorem exists_getInstalledPackages_iff {pkgs : List PackageInfo} :
    (∃ text, getInstalledPackages (some text) = pkgs) ↔ ∀ pkg ∈ pkgs, pkg.WellFormed := by
  constructor
  · rintro ⟨text, htext⟩
    rw [getInstalledPackages_some, filterMap_parsePackage_iff] at htext
    exact htext.wellFormed
  · intro hpkgs
    have hlines : ∃ lines, (∀ line ∈ lines, 10 ∉ line) ∧ Lists lines pkgs := by
      induction pkgs with
      | nil => exact ⟨[], by simp, .nil⟩
      | cons pkg rest ih =>
          obtain ⟨hpkg, hrest⟩ := List.forall_mem_cons.mp hpkgs
          obtain ⟨line, hline, hnames⟩ := hpkg.exists_line
          obtain ⟨lines, hlines, hlists⟩ := ih hrest
          exact ⟨line :: lines, List.forall_mem_cons.mpr ⟨hline, hlines⟩, .names hnames hlists⟩
    obtain ⟨lines, hlines, hlists⟩ := hlines
    cases lines with
    | nil =>
        cases hlists
        exact ⟨[], rfl⟩
    | cons line rest =>
        refine ⟨[10].intercalate (line :: rest), ?_⟩
        rwa [getInstalledPackages_some, filterMap_parsePackage_iff,
          List.splitOn_intercalate 10 hlines (by simp)]

end FreshCore.Device
