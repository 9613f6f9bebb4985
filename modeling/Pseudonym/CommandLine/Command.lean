import Pseudonym.Text.Utf8

/-!
# Commands and their arguments

A command takes switches, written with two hyphens and some also with one hyphen and a letter, perhaps a positional argument, and
perhaps subcommands. What a command takes is data: the reader of arguments and the help are functions of it.
-/

namespace Pseudonym.CommandLine

/-- Why the bytes of a value are refused. -/
inductive ValueFault where
  | missing
  | notUtf8
  | invalid (reason : Text)
  deriving DecidableEq, Repr

/-- A check on the text that bytes stand for. -/
def checkText (check : Text → Except Text Unit) (bytes : Bytes) : Except ValueFault Unit :=
  match Utf8.decode? bytes with
  | none => .error .notUtf8
  | some t => (check t).mapError .invalid

/-- A value that an argument takes: the name it goes by and the check that it has to pass. -/
structure Value where
  name : Text
  check : Bytes → Except ValueFault Unit

/-- What a switch does. -/
inductive Effect where
  | set
  | take (value : Value)
  | showHelp
  | showVersion

/-- A switch. Only a switch without a value has a letter. -/
structure Switch where
  long : Text
  letter : Option Char := none
  effect : Effect := .set
  help : Text := []
  byDefault : Option Text := none

namespace Switch

/-- The value that the switch takes. -/
def value? (s : Switch) : Option Value :=
  match s.effect with
  | .take v => some v
  | _ => none

/-- The switch as it is written. -/
def label (s : Switch) : Text :=
  "--".toList ++ s.long ++
    match s.value? with
    | some v => " <".toList ++ v.name ++ ['>']
    | none => []

/-- Does the switch tell about the command, and do nothing else? -/
def isInformative (s : Switch) : Bool :=
  match s.effect with
  | .showHelp | .showVersion => true
  | _ => false

end Switch

/-- An argument known by its place. A greedy one takes every argument that is left, whatever it looks like. -/
structure Positional where
  name : Text
  greedy : Bool := false
  check : Bytes → Except ValueFault Unit
  help : Text := []

namespace Positional

/-- The argument as it is written where it may be left out. -/
def label (p : Positional) : Text := '[' :: p.name ++ ']' :: if p.greedy then "...".toList else []

/-- The argument as it is written where it has been given. A greedy one is written the same, since it may stand for no
values at all. -/
def givenLabel (p : Positional) : Text := if p.greedy then p.label else '<' :: p.name ++ ['>']

end Positional

/-- A command. -/
structure Command where
  /-- The words by which the command is called. -/
  name : Text
  about : Text
  longAbout : Option Text := none
  version : Option Text := none
  switches : List Switch := []
  positional : Option Positional := none
  /-- Are there switches that tell about the command? -/
  tellsAboutItself : Bool := true
  needsSubcommand : Bool := false
  subcommands : List (Text × Command) := []

namespace Command

/-- The name of the subcommand that explains the others. -/
def helpName : Text := "help".toList

/-- What the help says about itself. -/
def helpAbout : Text := "Print this message or the help of the given subcommand(s)".toList

/-- The names of the subcommands, the one that explains the others last. -/
def subcommandNames (c : Command) : List Text :=
  if c.subcommands.isEmpty then [] else c.subcommands.map (·.1) ++ [helpName]

/-- The subcommand that explains the others. -/
def helpCommand (c : Command) : Command where
  name := c.name ++ ' ' :: helpName
  about := helpAbout
  tellsAboutItself := false
  positional := some {
    name := "COMMAND".toList
    greedy := true
    check := fun _ => .ok ()
    help := "Print help for the subcommand(s)".toList }

/-- The subcommand of a name. -/
def subcommand? (c : Command) (name : Text) : Option Command :=
  if name = helpName ∧ !c.subcommands.isEmpty then some c.helpCommand else c.subcommands.lookup name

/-- The command's own arguments, those that do not tell about it, as alternatives in one pair of brackets. -/
def group (c : Command) : Text :=
  '<' :: (((c.positional.map (·.name)).toList ++ c.switches.map Switch.label).intersperse ['|']).flatten ++ ['>']

/-- Does the command say more when asked at length? -/
def hasLongHelp (c : Command) : Bool := c.longAbout.isSome

/-- The switches that tell about the command: one for its help, and one for its version if it has one. -/
def informative (c : Command) : List Switch :=
  let help : Switch := { long := "help".toList, letter := some 'h', effect := .showHelp, help := "Print help".toList }
  let version : Switch := { long := "version".toList, letter := some 'V', effect := .showVersion, help := "Print version".toList }
  if c.tellsAboutItself then help :: if c.version.isSome then [version] else [] else []

/-- Every switch of the command. -/
def allSwitches (c : Command) : List Switch := c.switches ++ c.informative

/-- The switch of a long name. -/
def switch? (c : Command) (long : Text) : Option Switch := c.allSwitches.find? fun s => s.long == long

/-- The switch of a letter. -/
def switchOfLetter? (c : Command) (letter : Char) : Option Switch := c.allSwitches.find? fun s => s.letter == some letter

end Command

end Pseudonym.CommandLine
