import Pseudonym.CommandLine.Help
import Pseudonym.CommandLine.Settings
import Pseudonym.LineDiff.Rendered
import Pseudonym.Project.Run
import Pseudonym.Random.Keystream

/-!
# A run of the program

The program reads its arguments, looks whether the target is a directory, asks on a terminal whether to go ahead, runs over the
project, and reports. What it says goes to three places: the output, the log, and the complaint with which it ends when it stops
short. How the terminal shows the question and reads the reply is its own affair; without one nothing is asked.
-/

namespace Pseudonym.CommandLine

/-- Why a question has no reply: the text of the error and the texts of its causes. -/
structure Unanswered where
  message : Text
  causes : List Text := []

/-- What the program reads from: a terminal, with what comes of a question there, or something else. -/
inductive Console where
  | terminal (reply : Except Unanswered Bool)
  | other

/-- Is it a terminal? -/
def Console.isTerminal : Console → Bool
  | .terminal _ => true
  | .other => false

/-- Why a run of the program stops short. -/
inductive Stop where
  /-- The arguments were refused. -/
  | refused (r : Refusal)
  /-- The target does not exist. -/
  | noTarget (root : Path)
  /-- The target is no directory. -/
  | noDirectory (root : Path)
  /-- The question whether to go ahead has no reply. -/
  | unanswered (u : Unanswered)
  /-- The run over the project failed. -/
  | failed (f : Failure)

/-- What a run of the program comes to. -/
structure Outcome where
  /-- Nothing when all went well. -/
  stop : Option Stop := none
  output : Text := []
  log : List (Level × Text) := []
  /-- The changes that were announced; in a dry run none of them was made. -/
  events : List Event := []
  /-- The mint that the names came from, as it was left; none if the run over the project was never begun. -/
  mint : Option (Mint Keystream) := none
  disk : Disk

namespace Settings

/-- How far down the log goes. -/
def logLimit (s : Settings) : Level := if s.quiet then .error else if s.verbose then .debug else .info

/-- The lines of a log that are kept, with nothing in them for a terminal to obey. -/
def keptLog (s : Settings) (log : List (Level × Text)) : List (Level × Text) :=
  (log.filter fun line => line.1.within s.logLimit).map fun line => (line.1, ControlSequence.disarm line.2)

/-- What is asked of the run over the project. -/
def options (s : Settings) : Options := { dryRun := s.dryRun, classLength := s.classLength }

/-- The project's root. -/
def root (s : Settings) (d : Disk) : Path :=
  s.target.getD ⟨Path.slash :: (d.workingDirectory.intersperse [Path.slash]).flatten⟩

/-- What comes of the question whether to go ahead, where it is asked. -/
def reply? (s : Settings) : Console → Option (Except Unanswered Bool)
  | .terminal reply => if s.needsConfirmation true then some reply else none
  | .other => none

end Settings

/-- What is shown of a change. -/
def showEvent : Event → Text
  | .content path old new =>
    "\n📝 Content change: ".toList ++ path.shown ++ ['\n'] ++
      (LineDiff.render? old new).getD "No changes detected.\n".toList
  | .rename old new =>
    "\n📁 File rename:\n".toList ++ "  \x1b[31m- ".toList ++ old.shown ++ "\x1b[0m\n".toList ++ "  \x1b[32m+ ".toList ++
      new.shown ++ "\x1b[0m\n".toList

/-- A line with a number. -/
def countLine (label : String) (n : Nat) : Text := "  ".toList ++ label.toList ++ ": ".toList ++ Notice.number n ++ ['\n']

/-- The report of a run. -/
def showReport (root : Path) (dryRun : Bool) (r : Report) : Text :=
  (if dryRun then "Dry run complete, no files in ".toList ++ root.shown ++ " were changed.\n".toList
    else "Class and image names have been updated across CSS, HTML, and JS files.\n".toList) ++
    countLine "Class names mapped" r.classNames.size ++
    countLine "Image names mapped" r.imageNames.size ++
    countLine "Files processed" (r.classes.filesProcessed + r.images.filesProcessed) ++
    countLine "Paths renamed" r.images.pathsRenamed ++
    countLine "Content changes" (r.classes.contentChanges + r.images.contentChanges)

/-- The entries of a codebook. -/
def showCodebook (title : String) (b : Codebook) : Text :=
  '\n' :: title.toList ++ ":\n".toList ++
    (if b.isEmpty then "  (none)\n".toList else []) ++
    b.entries.flatMap fun (name, pseudonym) => "  ".toList ++ name ++ " -> ".toList ++ pseudonym ++ ['\n']

/-- The text of an error with its causes. -/
def showError (message : Text) (causes : List Text) : Text :=
  let listed := match causes with
    | [] => []
    | [c] => "\n\nCaused by:\n    ".toList ++ c
    | cs =>
      "\n\nCaused by:".toList ++ cs.zipIdx.flatMap fun (c, i) => "\n    ".toList ++ Notice.number i ++ ": ".toList ++ c
  "Error: ".toList ++ message ++ listed ++ ['\n']

namespace Stop

/-- The status that the program ends with. -/
def status : Stop → Nat
  | .refused _ => 2
  | _ => 1

/-- What the program complains of in the end. -/
def complaint : Stop → Text
  | .refused r => r.written
  | .noTarget root => showError ("Target directory does not exist: ".toList ++ root.quoted) []
  | .noDirectory root => showError ("Target must be a directory: ".toList ++ root.quoted) []
  | .unanswered u => showError u.message u.causes
  | .failed f => showError f.message f.causes

end Stop

namespace Outcome

/-- The status that the program ends with, zero when all went well. -/
def status (o : Outcome) : Nat := (o.stop.map Stop.status).getD 0

/-- What the program complains of in the end, nothing when all went well. -/
def complaint (o : Outcome) : Text := (o.stop.map Stop.complaint).getD []

end Outcome

/-- What the log says before the run over the project. -/
def openingLog (s : Settings) (root : Path) : List (Level × Text) :=
  [(.info, "Starting scramble".toList), (.info, "Target directory: ".toList ++ root.quoted),
    (.info, "Class name length: ".toList ++ Notice.number s.classLength)] ++
  if s.dryRun then [(.warn, "Dry run mode - no changes will be made".toList)] else []

/-- What the log says in the end if nothing went wrong. -/
def closingLog : List (Level × Text) := [(.info, "Scramble completed successfully".toList)]

/-- What is shown before the question whether to go ahead. -/
def warning (root : Path) : Text :=
  "Every CSS class and every file under img/ in ".toList ++ root.shown ++ " will be renamed.\n".toList ++
    "Move third-party libraries (Bootstrap, jQuery, ...) out of the project first.\n".toList

/-- What the log says once the run may go ahead. -/
def approvalLog (s : Settings) (console : Console) : List (Level × Text) :=
  (if !s.dryRun && !s.yes && !console.isTerminal then
    [(.warn, ("No terminal to confirm on, renaming without asking. " ++
      "Move third-party libraries out of the project first.").toList)]
  else []) ++
  match s.seed with
  | some n => [(.info, "Using seed: ".toList ++ Notice.number n)]
  | none => []

/-- The run over the project, with names from the seed, or from a key where there is none. -/
def runProject (s : Settings) (d : Disk) (key : Key) : Except Failure Report × Workspace Keystream :=
  let source : Keystream := match s.seed with
    | some n => .ofSeed n.toUInt64
    | none => { key }
  (Project.run (s.root d) s.options).run { disk := d, mint := { source } }

/-- What becomes of a run before it gets to the project, if it does not get there. -/
def turnedAway? (s : Settings) (d : Disk) (console : Console) : Option Outcome :=
  let root := s.root d
  let log := openingLog s root
  if !d.holds root then some { stop := some (.noTarget root), log := s.keptLog log, disk := d }
  else if !d.isDirectory root then some { stop := some (.noDirectory root), log := s.keptLog log, disk := d }
  else
    match s.reply? console with
    | some (.error u) => some { stop := some (.unanswered u), output := warning root, log := s.keptLog log, disk := d }
    | some (.ok false) =>
      some {
        output := warning root ++ "Aborted, nothing was changed.\n".toList
        log := s.keptLog (log ++ closingLog), disk := d }
    | some (.ok true) | none => none

/-- A run of the program with its settings. -/
def runWith (s : Settings) (d : Disk) (key : Key) (console : Console) : Outcome :=
  match turnedAway? s d console with
  | some o => o
  | none =>
    let root := s.root d
    let asked := if (s.reply? console).isSome then warning root else []
    let (result, w) := runProject s d key
    let log := openingLog s root ++ approvalLog s console ++ w.trace.filterMap Notice.log?
    let shown := asked ++ if s.diff then w.events.flatMap showEvent else []
    match result with
    | .error f =>
      { stop := some (.failed f), output := shown, log := s.keptLog log
        events := w.events, mint := some w.mint, disk := w.disk }
    | .ok r =>
      let books :=
        if s.printMapping then showCodebook "Class names" r.classNames ++ showCodebook "Image names" r.imageNames else []
      { output := shown ++ showReport root s.dryRun r ++ books
        log := s.keptLog (log ++ closingLog)
        events := w.events, mint := some w.mint, disk := w.disk }

/-- A run of the program. -/
def run (args : List Bytes) (d : Disk) (key : Key) (console : Console := .other) : Outcome :=
  match Settings.parse args with
  | .ok s => runWith s d key console
  | .error r => if r.isAnswer then { output := r.written, disk := d } else { stop := some (.refused r), disk := d }

end Pseudonym.CommandLine
