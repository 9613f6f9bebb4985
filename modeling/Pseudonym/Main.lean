import Pseudonym.CommandLine.Program

/-!
# The program

The program itself: it reads the target from the disk into a value, asks whether to go ahead if there is a terminal, runs on that
value, prints what the run says, and makes the changes that the run announced.
-/

namespace Pseudonym.Live

/-- The names of a path as locations have them. -/
def namesOf (path : String) : Location := (Path.ofText path.toList).components

/-- What stands at a place and below it. A link is taken to lead straight to where it ends. -/
partial def entriesAt (loc : Location) (e : IO.FS.DirEntry) : IO (List (Location × Entry)) := do
  match (← e.path.symlinkMetadata).type with
  | .dir =>
    let below ← (← e.path.readDir).toList.mapM fun f => entriesAt (loc ++ [Utf8.encode f.fileName.toList]) f
    return (loc, .directory) :: below.flatten
  | .symlink => return [(loc, .link (Path.ofText (← IO.FS.realPath e.path).toString.toList))]
  | _ => return [(loc, .file (← IO.FS.readBinFile e.path).toList)]

/-- Adds the directories that lead to a place. -/
def withDirectories (d : Disk) (loc : Location) : Disk :=
  (List.range loc.length).foldl (fun d n => if (d.entry? (loc.take n)).isSome then d else d.put (loc.take n) .directory) d

/-- The place that names lead to when no link is on the way. -/
def plainPlace (start : Location) (names : List Name) : Location :=
  names.foldl (fun loc n => if n = Path.here then loc else if n = Path.above then loc.dropLast else loc ++ [n]) start

/-- The part of the disk that a run can see: the target and what is below it. -/
def diskFor (target : Option Path) : IO Disk := do
  let cwd ← IO.currentDir
  let start : Disk := { workingDirectory := namesOf cwd.toString }
  let start := (withDirectories start start.workingDirectory).put start.workingDirectory .directory
  let text := (target.map fun p => String.ofList p.shown).getD "."
  let path := cwd / text
  if !(← path.pathExists) then return start
  let real ← IO.FS.realPath path
  let realPlace := namesOf real.toString
  let entries ← entriesAt realPlace { root := real, fileName := "." }
  let disk := entries.foldl (fun d (loc, e) => if loc = [] then d else d.put loc e) (withDirectories start realPlace)
  let place := plainPlace (if (Path.ofText text.toList).isAbsolute then [] else start.workingDirectory) (namesOf text)
  if (disk.entry? place).isSome then return disk
  return (withDirectories disk place).put place (.link (Path.ofText real.toString.toList))

/-- Makes a change on the disk. -/
def make : Event → IO Unit
  | .content path _ new => do
    let file := String.ofList path.shown
    let (_, charset) := Charset.decode (← IO.FS.readBinFile file).toList
    IO.FS.writeBinFile file ⟨(charset.encode new).toArray⟩
  | .rename old new => IO.FS.rename (String.ofList old.shown) (String.ofList new.shown)

/-- Asks on the terminal whether to go ahead; no answer means no. -/
def ask (question : Text) : IO Bool := do
  IO.print (String.ofList question ++ "Proceed with renaming? (y/N) ")
  (← IO.getStdout).flush
  let line ← (← IO.getStdin).getLine
  return ["y", "yes"].contains line.trimAscii.toString.toLower

/-- What the program reads from, and what has been shown there. A question is asked where a run on the disk would ask it. -/
def consoleFor (settings : CommandLine.Settings) (disk : Disk) : IO (CommandLine.Console × Text) := do
  if !(← (← IO.getStdin).isTty) then return (.other, [])
  if !settings.needsConfirmation true || (CommandLine.turnedAway? settings disk .other).isSome then
    return (.terminal (.ok false), [])
  let warning := CommandLine.warning (settings.root disk)
  return (.terminal (.ok (← ask warning)), warning)

/-- A key of random words. -/
def randomKey : IO Key := do
  let seed ← IO.getRandomBytes 8
  return Key.ofSeed seed.toUInt64LE!

end Pseudonym.Live

open Pseudonym Pseudonym.Live in
/-- Runs the program on the command line's arguments. -/
def main (args : List String) : IO UInt32 := do
  let bytes := args.map fun a => Utf8.encode a.toList
  let settings := CommandLine.Settings.parse bytes
  let (disk, console, told) ← match settings with
    | .ok s =>
      let disk ← diskFor s.target
      pure (disk, ← consoleFor s disk)
    | .error _ => pure ({}, .other, [])
  let outcome := CommandLine.run bytes disk (← randomKey) console
  let stderr ← IO.getStderr
  for (level, message) in outcome.log do
    stderr.putStrLn (level.label ++ " " ++ String.ofList message)
  IO.print (String.ofList (outcome.output.drop told.length))
  let dryRun := settings.toOption.any (·.dryRun)
  if !dryRun then
    for e in outcome.events do
      try make e catch err => if outcome.status = 0 then throw err
  stderr.putStr (String.ofList outcome.complaint)
  return outcome.status.toUInt32
