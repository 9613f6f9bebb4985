import Pseudonym.CommandLine.Command
import Pseudonym.Text.ControlSequence

/-!
# What ends the reading of arguments early

Arguments are refused for a cause, and the help and the version are asked for in the same way: nothing is read behind them. The
text names the cause, gives a hint where there is one, and shows how the command is used. It is written for a terminal, with the
words that matter in bold face; a reader that is no terminal gets it without control sequences, those of the arguments included.
-/

namespace Pseudonym.CommandLine

/-- Where a value belongs: to the switch of a long name, or to the positional argument. -/
inductive Slot where
  | switch (long : Text)
  | positional
  deriving DecidableEq, Repr

/-- Why the reading ends early. -/
inductive Cause where
  | help (long : Bool)
  | version
  /-- A subcommand is needed and nothing was given. -/
  | nothingGiven
  /-- An argument that the command does not take, perhaps one that is similar to it, and whether it could be meant as a value. -/
  | unknownArgument (shown : Text) (similar : Option Text) (asValue : Bool)
  | repeated (label : Text)
  | unexpectedValue (value label : Text)
  | valueMissing (label : Text)
  | valueInvalid (value label reason : Text)
  | notUtf8
  | unknownSubcommand (shown : Text) (similar : List Text)
  /-- A subcommand's name behind the two hyphens that end the switches. -/
  | subcommandAsValue (shown : Text)
  deriving DecidableEq, Repr

/-- An early end: its cause, the command whose arguments were being read, and the arguments that had been given to it. -/
structure Refusal where
  cause : Cause
  command : Command
  used : List Slot := []
  /-- Do the command's own arguments stand for those that had been given? -/
  asGroup : Bool := false

namespace Cause

/-- A word in single quotes, in bold face. -/
def boldQuoted (t : Text) : Text := '\'' :: ControlSequence.bold t ++ ['\'']

/-- What goes wrong, in one line. -/
def headline : Cause → Text
  | .help _ | .version | .nothingGiven => []
  | .unknownArgument shown _ _ => "unexpected argument ".toList ++ boldQuoted shown ++ " found".toList
  | .repeated label => "the argument ".toList ++ boldQuoted label ++ " cannot be used multiple times".toList
  | .unexpectedValue value label =>
    "unexpected value ".toList ++ boldQuoted value ++ " for ".toList ++ boldQuoted label ++
      " found; no more were expected".toList
  | .valueMissing label => "a value is required for ".toList ++ boldQuoted label ++ " but none was supplied".toList
  | .valueInvalid value label reason =>
    "invalid value ".toList ++ boldQuoted value ++ " for ".toList ++ boldQuoted label ++ ": ".toList ++ reason
  | .notUtf8 => "invalid UTF-8 was detected in one or more arguments".toList
  | .unknownSubcommand shown _ => "unrecognized subcommand ".toList ++ boldQuoted shown
  | .subcommandAsValue shown => "unexpected argument ".toList ++ boldQuoted shown ++ " found".toList

/-- Words in single quotes, with commas between them. -/
def enumerated (words : List Text) : Text := ((words.map boldQuoted).intersperse ", ".toList).flatten

/-- The hints that go with a cause. -/
def hints : Cause → List Text
  | .unknownArgument shown similar asValue =>
    (match similar with
      | some s => ["a similar argument exists: ".toList ++ boldQuoted s]
      | none => []) ++
    if asValue then ["to pass ".toList ++ boldQuoted shown ++ " as a value, use ".toList ++ boldQuoted ("-- ".toList ++ shown)]
    else []
  | .unknownSubcommand _ [] => []
  | .unknownSubcommand _ [s] => ["a similar subcommand exists: ".toList ++ enumerated [s]]
  | .unknownSubcommand _ ss => ["some similar subcommands exist: ".toList ++ enumerated ss]
  | .subcommandAsValue shown =>
    ["subcommand ".toList ++ boldQuoted shown ++ " exists; to use it, remove the ".toList ++ boldQuoted "--".toList ++
      " before it".toList]
  | _ => []

/-- Does the use of the command help with this cause? -/
def showsUsage : Cause → Bool
  | .valueMissing _ | .valueInvalid _ _ _ => false
  | _ => true

end Cause

/-- Words behind a space each. -/
def spaced (words : List Text) : Text := words.flatMap fun w => ' ' :: w

/-- How the command is used, in one line. -/
def usage (c : Command) : Text :=
  let options := if c.switches.isEmpty then [] else ["[OPTIONS]".toList]
  let positional := (c.positional.map (·.label)).toList
  let subcommand :=
    if c.subcommands.isEmpty then [] else if c.needsSubcommand then ["<COMMAND>".toList] else ["[COMMAND]".toList]
  c.name ++ spaced (options ++ positional ++ subcommand)

/-- How the command is used once arguments have been given, which stand in place of the possible ones; where they are shown as a
group, only switches that tell about the command stand beside it. -/
def usageWith (c : Command) (used : List Slot) (asGroup : Bool) : Text :=
  let switches := (used.filterMap fun
    | .switch long => c.switch? long
    | .positional => none).filter fun s => !asGroup || s.isInformative
  let others :=
    if asGroup then [c.group]
    else (c.positional.map fun p => if used.contains .positional then p.givenLabel else p.label).toList
  c.name ++ spaced (switches.map Switch.label ++ others ++ if c.needsSubcommand then ["<COMMAND>".toList] else [])

namespace Refusal

/-- How the command that was being read is used. -/
def usage (r : Refusal) : Text :=
  if r.used.isEmpty then CommandLine.usage r.command else usageWith r.command r.used r.asGroup

/-- The text of a refusal that is a fault. -/
def faultText (r : Refusal) : Text :=
  let bold (t : String) := ControlSequence.bold t.toList
  bold "error:" ++ ' ' :: r.cause.headline ++ ['\n'] ++
    (if r.cause.hints.isEmpty then []
      else '\n' :: r.cause.hints.flatMap fun h => "  ".toList ++ bold "tip:" ++ ' ' :: h ++ ['\n']) ++
    (if r.cause.showsUsage then '\n' :: bold "Usage:" ++ ' ' :: r.usage ++ ['\n'] else []) ++
    if r.command.tellsAboutItself then "\nFor more information, try ".toList ++ Cause.boldQuoted "--help".toList ++ ".\n".toList
    else []

end Refusal

end Pseudonym.CommandLine
