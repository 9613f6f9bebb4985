import Pseudonym.CommandLine.Refusal
import Pseudonym.CommandLine.Similarity

/-!
# Reading arguments

Arguments are read from left to right. Two hyphens alone end the switches; everything behind them is positional. A value is
checked when the next argument is taken up or the arguments end, so that of two faults the earlier one counts, save that an
argument that the command does not know is reported at once. A subcommand reads the arguments that follow its name.
-/

namespace Pseudonym.CommandLine

/-- What has been read so far for a command. -/
structure Progress where
  /-- The arguments that were settled, with their values, in order. -/
  settled : List (Slot × List Bytes) := []
  /-- The argument whose values are still being gathered. -/
  pending : Option (Slot × List Bytes) := none
  /-- Is the pending argument a switch without its value? -/
  awaiting : Bool := false
  /-- Have the switches ended? -/
  trailing : Bool := false

/-- What arguments say: the subcommands that were named, and the arguments of the last of them with their values. -/
structure Reading where
  path : List Text := []
  found : List (Slot × List Bytes) := []
  deriving DecidableEq, Repr

namespace Reading

/-- Was a switch given? -/
def has (r : Reading) (long : Text) : Bool := r.found.any fun f => f.1 == .switch long

/-- The values of an argument. -/
def values (r : Reading) (slot : Slot) : List Bytes := (r.found.lookup slot).getD []

/-- The value of a switch. -/
def value? (r : Reading) (long : Text) : Option Bytes := (r.values (.switch long)).head?

end Reading

/-- How an argument is written. -/
def Command.labelOf (c : Command) : Slot → Text
  | .switch long => ((c.switch? long).map Switch.label).getD []
  | .positional => (c.positional.map (·.label)).getD []

/-- The check that the values of an argument have to pass. -/
def Command.checkOf (c : Command) : Slot → Bytes → Except ValueFault Unit
  | .switch long => ((c.switch? long).bind Switch.value?).elim (fun _ => .ok ()) Value.check
  | .positional => c.positional.elim (fun _ => .ok ()) Positional.check

/-- Does an argument take a value? -/
def Command.takesValue (c : Command) : Slot → Bool
  | .switch long => ((c.switch? long).bind Switch.value?).isSome
  | .positional => true

/-- The cause that a fault of a value is. -/
def ValueFault.cause (label : Text) (value : Bytes) : ValueFault → Cause
  | .missing => .valueMissing label
  | .notUtf8 => .notUtf8
  | .invalid reason => .valueInvalid (Utf8.decodeLossy value) label reason

/-- The first fault among the values of an argument. -/
def Command.faultOf? (c : Command) (slot : Slot) : List Bytes → Option Cause
  | [] => none
  | v :: vs =>
    match c.checkOf slot v with
    | .ok () => c.faultOf? slot vs
    | .error f => some (f.cause (c.labelOf slot) v)

/-- What is wrong with an argument and its values, given the arguments before it. -/
def Command.objection? (c : Command) (before : List (Slot × List Bytes)) (slot : Slot) (values : List Bytes) : Option Cause :=
  if c.takesValue slot && values.isEmpty then some (.valueMissing (c.labelOf slot))
  else if before.any fun f => f.1 == slot then some (.repeated (c.labelOf slot))
  else c.faultOf? slot values

namespace Progress

/-- The arguments that count as given when a fault is reported; the pending one counts unless it lacks its value, and one that is
given twice does not. -/
def used (c : Command) (p : Progress) : List Slot :=
  let before := p.settled.map (·.1)
  match p.pending with
  | none => before
  | some (slot, values) =>
    if c.takesValue slot && values.isEmpty then before
    else if before.contains slot then before.filter (· != slot)
    else before ++ [slot]

/-- An argument with all of its values. -/
def settle (c : Command) (p : Progress) (slot : Slot) (values : List Bytes) : Except Refusal Progress :=
  match c.objection? p.settled slot values with
  | some cause =>
    let used := match cause with
      | .repeated _ | .notUtf8 => []
      | _ => p.settled.map (·.1)
    .error { cause, command := c, used }
  | none => .ok { p with settled := p.settled ++ [(slot, values)] }

/-- The pending argument settled, if there is one. -/
def resolve (c : Command) (p : Progress) : Except Refusal Progress :=
  match p.pending with
  | none => .ok p
  | some (slot, values) => settle c { p with pending := none, awaiting := false } slot values

end Progress

/-- Refuses an argument of two hyphens that the command does not know. -/
def refuseLong (c : Command) (p : Progress) (name : Text) : Refusal :=
  let similar := (suggestions name (c.allSwitches.map Switch.long)).getLast?
  let used := p.used c
  let used := match similar with
    | some s => if used.contains (.switch s) then used else used ++ [.switch s]
    | none => used
  let asValue := c.positional.any fun p => p.greedy || similar.isNone
  { cause := .unknownArgument ("--".toList ++ name) (similar.map ("--".toList ++ ·)) asValue, command := c, used }

/-- A switch without a value. -/
def takeFlag (c : Command) (p : Progress) (s : Switch) (long : Bool) : Except Refusal Progress := do
  let p ← p.resolve c
  match s.effect with
  | .showHelp => .error { cause := .help long, command := c }
  | .showVersion => .error { cause := .version, command := c }
  | _ => p.settle c (.switch s.long) []

/-- A switch of two hyphens that the command knows, with the value attached to it, if there is one. -/
def takeLong (c : Command) (p : Progress) (s : Switch) (attached : Option Bytes) : Except Refusal Progress :=
  match s.value?, attached with
  | some _, some v => do (← p.resolve c).settle c (.switch s.long) [v]
  | some _, none => do return { (← p.resolve c) with pending := some (.switch s.long, []), awaiting := true }
  | none, some v =>
    .error {
      cause := .unexpectedValue (Utf8.decodeLossy v) s.label, command := c
      used := [.switch s.long], asGroup := !p.settled.isEmpty }
  | none, none => takeFlag c p s true

/-- The letters behind one hyphen, one after the other. -/
def takeLetters (c : Command) (p : Progress) : List Utf8.Chunk → Except Refusal Progress
  | [] => .ok p
  | .char l :: us =>
    match c.switchOfLetter? l with
    | some s => do takeLetters c (← takeFlag c p s false) us
    | none => .error { cause := .unknownArgument ['-', l] none c.positional.isSome, command := c }
  | .broken bs :: us =>
    let rest := bs ++ us.flatMap fun
      | .char l => Utf8.encodeChar l
      | .broken bs => bs
    .error { cause := .unknownArgument ('-' :: Utf8.decodeLossy rest) none c.positional.isSome, command := c }

/-- Is every chunk one of the command's letters? -/
def allLetters (c : Command) (us : List Utf8.Chunk) : Bool := us.all fun
  | .char l => (c.switchOfLetter? l).isSome
  | .broken _ => false

/-- An argument that stands for itself. -/
def takePositional (c : Command) (p : Progress) (arg : Bytes) : Except Refusal Progress :=
  match c.positional with
  | none => refuse
  | some pos =>
    if pos.greedy then
      match p.pending with
      | some (.positional, vs) => .ok { p with pending := some (.positional, vs ++ [arg]), trailing := true }
      | _ => do return { (← p.resolve c) with pending := some (.positional, [arg]), trailing := true }
    else if (p.used c).contains .positional then refuse
    else do return { (← p.resolve c) with pending := some (.positional, [arg]) }
where
  /-- Refuses the argument: as a subcommand where the command has some, as a value otherwise. -/
  refuse : Except Refusal Progress :=
    let shown := Utf8.decodeLossy arg
    let similar := suggestions shown c.subcommandNames
    let cause :=
      if p.trailing && c.subcommandNames.contains shown then .subcommandAsValue shown
      else if !c.subcommands.isEmpty then .unknownSubcommand shown similar
      else .unknownArgument shown none false
    .error { cause, command := c }

/-- The bytes before the first equals sign and, if there is one, those behind it. -/
def splitAtEquals (bs : Bytes) : Bytes × Option Bytes :=
  match bs.dropWhile (· != 0x3D) with
  | _ :: value => (bs.takeWhile (· != 0x3D), some value)
  | [] => (bs, none)

/-- Is the positional argument one that takes what looks like a switch? -/
def takesHyphens (c : Command) : Bool := c.positional.any (·.greedy)

/-- One argument that is no subcommand. -/
def takeArgument (c : Command) (p : Progress) (arg : Bytes) : Except Refusal Progress :=
  if p.trailing then takePositional c p arg
  else
    match arg with
    | [0x2D, 0x2D] => .ok { p with trailing := true }
    | 0x2D :: 0x2D :: body =>
      let (name, attached) := splitAtEquals body
      match Utf8.decode? name with
      | none => .error (refuseLong c p (Utf8.decodeLossy name))
      | some name =>
        match c.switch? name with
        | some s => takeLong c p s attached
        | none => if takesHyphens c then takePositional c p arg else .error (refuseLong c p name)
    | 0x2D :: b :: body =>
      let letters := Utf8.chunks (b :: body)
      if takesHyphens c && !allLetters c letters then takePositional c p arg else takeLetters c p letters
    | _ =>
      match p.awaiting, p.pending with
      | true, some (slot, vs) => .ok { p with pending := some (slot, vs ++ [arg]), awaiting := false }
      | _, _ => takePositional c p arg

/-- The help for the subcommand that names lead to. -/
def helpFor (c : Command) : List Bytes → Refusal
  | [] => { cause := .help true, command := c }
  | name :: names =>
    match (Utf8.decode? name).bind c.subcommand? with
    | some s => helpFor s names
    | none => { cause := .unknownSubcommand (Utf8.decodeLossy name) [], command := c }

/-- The end of the arguments of a command. -/
def finish (c : Command) (p : Progress) : Except Refusal Reading := do
  let p ← p.resolve c
  if c.needsSubcommand && p.settled.isEmpty then .error { cause := .nothingGiven, command := c }
  else .ok { found := p.settled }

/-- The subcommand that an argument names, where one can stand. -/
def subcommandAt? (c : Command) (p : Progress) (arg : Bytes) : Option (Text × Command) :=
  if p.trailing || p.awaiting then none
  else (Utf8.decode? arg).bind fun name => (c.subcommand? name).map (name, ·)

/-- Reads the arguments of a command that has been read up to some progress. -/
def readFrom (c : Command) (p : Progress) : List Bytes → Except Refusal Reading
  | [] => finish c p
  | arg :: args =>
    match subcommandAt? c p arg with
    | some (name, s) =>
      if name = Command.helpName then .error (helpFor c args)
      else do
        let r ← readFrom s {} args
        return { r with path := name :: r.path }
    | none => do readFrom c (← takeArgument c p arg) args

/-- Reads the arguments of a command. -/
def read (c : Command) (args : List Bytes) : Except Refusal Reading := readFrom c {} args

end Pseudonym.CommandLine
