import Pseudonym.CommandLine.Refusal

/-!
# The help of a command

The short help has a line for each argument, with the explanations in a column of their own. The long help, for commands that have
more to say, puts each explanation below its argument.
-/

namespace Pseudonym.CommandLine

/-- A number of spaces. -/
def spaces (n : Nat) : Text := List.replicate n ' '

/-- What is listed in a section of the help: how it is written, what explains it, and its default value. -/
structure Listed where
  written : Text
  explanation : Text
  byDefault : Option Text := none

namespace Listed

/-- The default value as it is noted. -/
def note (l : Listed) : Option Text := l.byDefault.map fun d => "[default: ".toList ++ d ++ [']']

/-- The line of the short help, with the explanation in a column. -/
def short (column : Nat) (l : Listed) : Text :=
  spaces 2 ++ l.written ++ spaces (column - l.written.length) ++ l.explanation ++
    (match l.note with
      | some n => ' ' :: n
      | none => []) ++ ['\n']

/-- The lines of the long help. -/
def long (l : Listed) : Text :=
  let margin := spaces 10
  spaces 2 ++ l.written ++ '\n' :: margin ++ l.explanation ++ ['\n'] ++
    match l.note with
    | some n => margin ++ '\n' :: margin ++ n ++ ['\n']
    | none => []

end Listed

/-- A section of the help; there is none without anything to list. -/
def helpSection (long : Bool) (title : Text) (items : List Listed) : List Text :=
  if items.isEmpty then []
  else
    let column := items.foldl (fun n l => max n l.written.length) 0 + 2
    let body := if long then ((items.map Listed.long).intersperse ['\n']).flatten else items.flatMap (Listed.short column)
    [title ++ ":\n".toList ++ body]

/-- What the help says about the switch that shows it. -/
def helpOnHelp (c : Command) (long : Bool) (s : Switch) : Text :=
  match s.effect with
  | .showHelp =>
    if !c.hasLongHelp then s.help
    else s.help ++ (if long then " (see a summary with '-h')" else " (see more with '--help')").toList
  | _ => s.help

/-- A switch in the help. -/
def listedSwitch (c : Command) (long : Bool) (s : Switch) : Listed where
  written :=
    (match s.letter with
      | some l => ['-', l, ',', ' ']
      | none => spaces 4) ++ s.label
  explanation := helpOnHelp c long s
  byDefault := s.byDefault

/-- The help of a command, at length if that is asked for and there is more to say. -/
def helpText (c : Command) (atLength : Bool) : Text :=
  let long := atLength && c.hasLongHelp
  let about := if long then c.longAbout.getD c.about else c.about
  let commands := c.subcommands.map (fun (n, s) => ({ written := n, explanation := s.about } : Listed)) ++
    if c.subcommands.isEmpty then [] else [{ written := Command.helpName, explanation := Command.helpAbout }]
  let arguments := (c.positional.map fun p => ({ written := p.label, explanation := p.help } : Listed)).toList
  let sections :=
    helpSection false "Commands".toList commands ++ helpSection long "Arguments".toList arguments ++
      helpSection long "Options".toList (c.allSwitches.map (listedSwitch c long))
  about ++ "\n\nUsage: ".toList ++ usage c ++ ['\n'] ++ sections.flatMap ('\n' :: ·)

/-- The version of a command. -/
def versionText (c : Command) : Text := c.name ++ ' ' :: c.version.getD [] ++ ['\n']

/-- Is the early end one that was asked for? -/
def Refusal.isAnswer (r : Refusal) : Bool :=
  match r.cause with
  | .help _ | .version => true
  | _ => false

/-- What is shown at an early end; `resumes` says how control sequences that white space breaks off are taken out of it. -/
def Refusal.text (resumes : Bool) (r : Refusal) : Text :=
  match r.cause with
  | .help long => helpText r.command long
  | .version => versionText r.command
  | .nothingGiven => helpText r.command false
  | _ => ControlSequence.strip resumes r.faultText

/-- The text as a value. -/
def Refusal.message : Refusal → Text := Refusal.text false

/-- The text as it is written to a stream, where a sequence that was broken off is resumed. -/
def Refusal.written : Refusal → Text := Refusal.text true

end Pseudonym.CommandLine
