import FreshCore.Audio.PollLoop
import FreshCore.Posix.Stdio

/-!
# The commands of the mic fixer

A command's output is read through a small buffer and put together again, so that what is
looked for in it is found also where it crosses from one piece to the next.
-/

namespace FreshCore.MicFixer

open Posix Config Device

/-! ## Looking for a text in another -/

theorem contains_iff {needle text : Bytes} : contains needle text = true ↔ needle <:+: text := by
  induction text with
  | nil => simp [contains]
  | cons byte rest ih =>
      rw [contains, Bool.or_eq_true, ih, List.isPrefixOf_iff_prefix, List.infix_cons_iff]

/-- Dropping bytes at the end loses nothing that does not end in one of them. -/
theorem infix_rdropWhile_iff {p : UInt8 → Bool} {needle text : Bytes} (hne : needle ≠ [])
    (hlast : ∀ byte ∈ needle.getLast?, p byte = false) :
    needle <:+: text.rdropWhile p ↔ needle <:+: text := by
  induction text using List.reverseRecOn with
  | nil => simp
  | append_singleton text byte ih =>
      rw [List.rdropWhile_concat]
      split
      next hbyte =>
        rw [ih, List.infix_concat_iff]
        constructor
        · exact Or.inr
        · rintro (hsuffix | hinfix)
          · obtain ⟨front, hfront⟩ := hsuffix
            have hend := congrArg List.getLast? hfront
            rw [List.getLast?_append_of_ne_nil _ hne, List.getLast?_concat] at hend
            rw [hlast byte hend] at hbyte
            cases hbyte
          · exact hinfix
      next => rfl

/-! ## Running commands -/

/-- `ExecCommand` on what the command prints, if it can be run. -/
def execCommand (output : Option Bytes) : Bytes :=
  match output with
  | none => []
  | some stream => readAll 128 (by decide) stream

/-- Where `RunTinymix` takes a route for failed. -/
def failureWords : List Bytes := ["Invalid", "Could not", "usage:", "No such", "error"].map lit

/-- Whether `RunTinymix` reports success; the line breaks at the end go first. -/
def runTinymix (printed : Option Bytes) : Bool :=
  let output := (execCommand printed).rdropWhile fun byte => byte = 10 || byte = 13
  !(failureWords.any fun word => contains word output)

/-- The search for `tinymix` at the start of both loops, on what `command -v` prints. -/
def tinymixPath (found : Option Bytes) (path : Bytes) : Bytes :=
  let pathCheck := execCommand found
  if pathCheck ≠ [] ∧ contains (lit "tinymix") pathCheck then pathCheck.rdropWhile isBlank
  else path

/-! ## What becomes of the output -/

theorem execCommand_eq {stream : Bytes} (h : 0 ∉ stream) : execCommand (some stream) = stream :=
  readAll_eq_self_iff.mpr h

/-- A route counts as set unless one of the words stands somewhere in what `tinymix` printed,
whether or not a piece or the end of a line comes in between. -/
theorem runTinymix_iff {stream : Bytes} (h : 0 ∉ stream) :
    runTinymix (some stream) = true ↔ ∀ word ∈ failureWords, ¬ word <:+: stream := by
  have hwords : ∀ word ∈ failureWords, word ≠ [] ∧
      ∀ byte ∈ word.getLast?, (decide (byte = 10) || decide (byte = 13)) = false := by
    decide +kernel
  rw [runTinymix, execCommand_eq h, Bool.not_eq_true', List.any_eq_false]
  refine forall₂_congr fun word hword => not_congr ?_
  obtain ⟨hne, hlast⟩ := hwords word hword
  rw [contains_iff, infix_rdropWhile_iff hne hlast]

/-- A word that begins in one piece and ends in the next. -/
theorem runTinymix_acrossPieces :
    runTinymix (some (List.replicate 124 32 ++ lit "Invalid\r\n")) = true ↔
      ∀ word ∈ failureWords, ¬ word <:+: List.replicate 124 32 ++ lit "Invalid\r\n" :=
  runTinymix_iff (by decide +kernel)

/-- The mode is told from all of the output. -/
theorem audioMode_execCommand {stream : Bytes} (h : 0 ∉ stream) :
    audioMode (execCommand (some stream)) = .ringtone ↔
      lit "MODE_RINGTONE" <:+: stream ∨ lit "mMode=1" <:+: stream := by
  rw [execCommand_eq h, audioMode, ← contains_iff, ← contains_iff]
  split
  next hring => simpa using hring
  next hring =>
    split <;> simpa using hring

/-! ## The path of tinymix -/

/-- What every path that is used is like. -/
structure NamesTinymix (path : Bytes) : Prop where
  named : lit "tinymix" <:+: path
  trimmed : ∀ byte ∈ path.getLast?, isBlank byte = false

theorem namesTinymix_default : NamesTinymix (lit "tinymix") where
  named := List.infix_rfl
  trimmed := by decide +kernel

theorem NamesTinymix.tinymixPath {path : Bytes} (h : NamesTinymix path) (found : Option Bytes) :
    NamesTinymix (tinymixPath found path) := by
  unfold MicFixer.tinymixPath
  dsimp only
  split
  next hfound =>
    constructor
    · rw [infix_rdropWhile_iff (by decide +kernel) (by decide +kernel)]
      exact contains_iff.mp hfound.2
    · intro byte hbyte
      obtain ⟨hne, rfl⟩ := List.mem_getLast?_eq_getLast hbyte
      simpa using List.rdropWhile_last_not isBlank _ hne
  next => exact h

/-- Whatever the searches at the starts of the loops print, a path that is used is that of a
`tinymix`, without blanks at its end. -/
theorem namesTinymix_foldl (searches : List (Option Bytes)) :
    NamesTinymix (searches.foldl (fun path found => tinymixPath found path) (lit "tinymix")) := by
  have hrun : ∀ path, NamesTinymix path →
      NamesTinymix (searches.foldl (fun path found => tinymixPath found path) path) := by
    induction searches with
    | nil => exact fun _ h => h
    | cons found rest ih => exact fun path h => ih _ (h.tinymixPath found)
  exact hrun _ namesTinymix_default

end FreshCore.MicFixer
