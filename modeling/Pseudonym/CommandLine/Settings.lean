import Pseudonym.CommandLine.Reading
import Pseudonym.Path
import Pseudonym.Token

/-!
# The settings of the program

The program takes the project's root and some switches. Numbers are decimal, with a plus sign if one likes, and fit in 64 bits; a
length for class tokens is at least one.
-/

namespace Pseudonym.CommandLine

/-- Why a text is no number. -/
inductive NumberFault where
  | empty
  | invalidDigit
  | tooLarge
  deriving DecidableEq, Repr

/-- The text of the fault. -/
def NumberFault.message : NumberFault → Text
  | .empty => "cannot parse integer from empty string".toList
  | .invalidDigit => "invalid digit found in string".toList
  | .tooLarge => "number too large to fit in target type".toList

/-- The number that digits stand for behind the digits of another. -/
def digitsFrom (acc : Nat) : Text → Except NumberFault Nat
  | [] => .ok acc
  | c :: cs =>
    if !c.isDigit then .error .invalidDigit
    else
      let n := acc * 10 + (c.toNat - '0'.toNat)
      if UInt64.size ≤ n then .error .tooLarge else digitsFrom n cs

/-- The number that a text stands for. -/
def parseNumber : Text → Except NumberFault Nat
  | [] => .error .empty
  | ['+'] => .error .invalidDigit
  | '+' :: t => digitsFrom 0 t
  | t => digitsFrom 0 t

/-- The length of class tokens that a text asks for, or why it asks for none. -/
def parseClassLength (t : Text) : Except Text Nat :=
  match parseNumber t with
  | .error _ => .error ("Invalid class name length '".toList ++ t ++ "', expected a positive number".toList)
  | .ok 0 => .error "Class name length must be at least 1".toList
  | .ok n => .ok n

/-- The switches of the program, apart from those that every command has. -/
def programSwitches : List Switch := [
  { long := "dry-run".toList, help := "Perform a dry run without making changes".toList },
  { long := "diff".toList, help := "Show a diff of every content change".toList },
  { long := "seed".toList
    effect := .take { name := "SEED".toList, check := checkText fun t => ((parseNumber t).map fun _ => ()).mapError (·.message) }
    help := "Seed the name generator for reproducible names".toList },
  { long := "class-length".toList
    effect := .take { name := "CLASS_LENGTH".toList, check := checkText fun t => (parseClassLength t).map fun _ => () }
    help := "Length of generated class names".toList
    byDefault := some (toString Token.defaultClassTokenLength).toList },
  { long := "yes".toList, letter := some 'y', help := "Skip the confirmation prompt".toList },
  { long := "print-mapping".toList, help := "Print the class and image name mappings when done".toList },
  { long := "verbose".toList, letter := some 'v' },
  { long := "quiet".toList, letter := some 'q' }]

/-- The program as a command. -/
def program : Command where
  name := "scramble".toList
  about := "Obfuscate CSS class names and image filenames across a web project".toList
  longAbout := some
    ("A CLI tool that renames every CSS class selector and every file under the project's img directory to random names, and " ++
      "rewrites the CSS, HTML and JS files that reference them. Move third-party libraries out of the project before " ++
      "running it.").toList
  version := some "0.1.0".toList
  switches := programSwitches
  positional := some {
    name := "TARGET".toList
    check := fun bytes => if bytes.isEmpty then .error .missing else .ok ()
    help := "Project root (defaults to current directory)".toList }

/-- What the arguments ask of the program. -/
structure Settings where
  target : Option Path := none
  dryRun : Bool := false
  diff : Bool := false
  seed : Option Nat := none
  classLength : Nat := Token.defaultClassTokenLength
  yes : Bool := false
  printMapping : Bool := false
  verbose : Bool := false
  quiet : Bool := false
  deriving DecidableEq, Repr

namespace Settings

/-- The settings that a reading of the arguments comes to. -/
def ofReading (r : Reading) : Settings where
  target := (r.values .positional).head?.map Path.mk
  dryRun := r.has "dry-run".toList
  diff := r.has "diff".toList
  seed := (r.value? "seed".toList).bind fun v => (Utf8.decode? v).bind fun t => (parseNumber t).toOption
  classLength :=
    ((r.value? "class-length".toList).bind fun v => (Utf8.decode? v).bind fun t => (parseClassLength t).toOption).getD
      Token.defaultClassTokenLength
  yes := r.has "yes".toList
  printMapping := r.has "print-mapping".toList
  verbose := r.has "verbose".toList
  quiet := r.has "quiet".toList

/-- The settings that arguments ask for. -/
def parse (args : List Bytes) : Except Refusal Settings := (read program args).map ofReading

/-- Is the user to be asked before anything is renamed? Only where there is a terminal to answer on. -/
def needsConfirmation (s : Settings) (onTerminal : Bool) : Bool := !s.dryRun && !s.yes && onTerminal

end Settings

end Pseudonym.CommandLine
