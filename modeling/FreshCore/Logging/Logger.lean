import Mathlib.Logic.Function.Basic
import FreshCore.Config.Configuration

/-!
# The logger

Lines are appended to one file. A file that has grown over the limit is renamed before the
next line is written, over the one that was renamed before it.
-/

namespace FreshCore.Logging

open Posix Config

inductive LogLevel where
  | debug
  | info
  | warning
  | error
  deriving DecidableEq, Repr

def levelToString : LogLevel → Bytes
  | .debug => lit "DEBUG"
  | .info => lit "INFO "
  | .warning => lit "WARN "
  | .error => lit "ERROR"

/-- The globals of the logger and the files, by their names. A log file that is open is the
one named `logPath`: it is renamed only while it is closed. -/
structure Logger where
  opened : Bool := false
  logPath : Bytes := []
  maxSize : UInt64 := 0
  files : Bytes → Option Bytes

/-- The name of the file that is kept. -/
def oldPath (path : Bytes) : Bytes := path ++ lit ".old"

namespace Logger

/-- What a file holds, nothing if there is none. -/
def contents (s : Logger) (path : Bytes) : Bytes := (s.files path).getD []

def unlink (s : Logger) (path : Bytes) : Logger :=
  { s with files := Function.update s.files path none }

def rename (s : Logger) (src dst : Bytes) : Logger :=
  match s.files src with
  | none => s
  | some contents =>
      { s with files := Function.update (Function.update s.files dst (some contents)) src none }

/-- `fopen` with `"a"`, which creates the file if there is none. -/
def openLog (opens : Bool) (s : Logger) : Logger :=
  if opens then
    { s with
      opened := true
      files := Function.update s.files s.logPath (some (s.contents s.logPath)) }
  else { s with opened := false }

def append (s : Logger) (text : Bytes) : Logger :=
  { s with files := Function.update s.files s.logPath (some (s.contents s.logPath ++ text)) }

end Logger

/-- How the system answers the calls of `Initialize`. -/
structure InitOutcome where
  now : Int
  /-- The time at which the log file was last changed, if there is one. -/
  mtime : Int
  unlinksLog : Bool := true
  unlinksOld : Bool := true
  opens : Bool := true
  deriving DecidableEq, Repr

/-- Logs that nothing was written to for three days are deleted. -/
def deleteExpired (outcome : InitOutcome) (path : Bytes) (s : Logger) : Logger :=
  if (s.files path).isSome ∧ 259200 < outcome.now - outcome.mtime then
    let s := if outcome.unlinksLog then s.unlink path else s
    if outcome.unlinksOld then s.unlink (oldPath path) else s
  else s

def initializeLogger (outcome : InitOutcome) (logFilePath : Bytes) (maxSizeBytes : UInt64)
    (s : Logger) : Bool × Logger :=
  if s.opened then (true, s)
  else
    let s := deleteExpired outcome logFilePath
      { s with logPath := logFilePath, maxSize := maxSizeBytes }
    let s := s.openLog outcome.opens
    (s.opened, s)

/-- A call of `Log`: the time as `strftime` prints it, and the format with its arguments
put in. -/
structure LogCall where
  level : LogLevel
  time : Bytes
  message : Bytes
  /-- `g_config.logging_debug` at the time of the call. -/
  loggingDebug : Bool := false
  deriving DecidableEq, Repr

/-- How the system answers the calls of one `Log`. A line that cannot be written ends after
so many bytes. -/
structure LogOutcome where
  stats : Bool := true
  renames : Bool := true
  opens : Bool := true
  written : Option Nat := none
  deriving DecidableEq, Repr

def LogCall.isLogged (call : LogCall) : Bool := call.level ≠ .debug || call.loggingDebug

/-- `[time] [level] message` and a line break. -/
def LogCall.line (call : LogCall) : Bytes :=
  lit "[" ++ call.time ++ lit "] [" ++ levelToString call.level ++ lit "] " ++ call.message ++
    lit "\n"

/-- The file is closed, renamed and opened again. -/
def rotate (outcome : LogOutcome) (s : Logger) : Logger :=
  let s := { s with opened := false }
  let s := if outcome.renames then s.rename s.logPath (oldPath s.logPath) else s
  s.openLog outcome.opens

/-- Files that have outgrown the limit are rotated; `fstat` gives the length of the file. -/
def checkSize (outcome : LogOutcome) (s : Logger) : Logger :=
  if outcome.stats ∧ s.maxSize.toNat < (s.contents s.logPath).length then rotate outcome s else s

def writeLine (outcome : LogOutcome) (line : Bytes) (s : Logger) : Logger :=
  match outcome.written with
  | none => s.append line
  | some count => s.append (line.take count)

def log (outcome : LogOutcome) (call : LogCall) (s : Logger) : Logger :=
  if !call.isLogged then s
  else if !s.opened then s
  else
    let s := checkSize outcome s
    if !s.opened then s else writeLine outcome call.line s

/-- Calls of `Log` one after the other. -/
def runLog (s : Logger) (calls : List (LogCall × LogOutcome)) : Logger :=
  calls.foldl (fun s step => log step.2 step.1 s) s

/-- The lines that the calls write. -/
def writtenLines (calls : List (LogCall × LogOutcome)) : List Bytes :=
  (calls.filter fun step => step.1.isLogged).map fun step => step.1.line

end FreshCore.Logging
