import Pseudonym.CommandLine.Help
import Pseudonym.CommandLine.Reading
import Pseudonym.Disk.Basic

/-!
# The chores of the program's workshop

A second command builds, installs, runs and tests the program by calling the build tool. The build tool is known by what it is
called with and by the status with which each call ends, or by its not being there at all.
-/

namespace Pseudonym.Chores

open CommandLine

/-- A command that takes no argument of its own. -/
def plain (name about : String) : Command := { name := name.toList, about := about.toList }

/-- The command that runs the program with arguments. -/
def runCommand : Command :=
  { plain "scramble-xtask run" "Build and run scramble with arguments" with
    positional := some {
      name := "args".toList
      greedy := true
      check := checkText fun _ => .ok ()
      help := "Arguments to pass to scramble".toList } }

/-- The command that tests the program. -/
def testCommand : Command :=
  { plain "scramble-xtask test" "Test Operations" with
    subcommands := [
      ("all".toList, plain "scramble-xtask test all" "Run all tests for the entire project"),
      ("core".toList, plain "scramble-xtask test core" "Run tests for scramble-core"),
      ("bin".toList, plain "scramble-xtask test bin" "Run tests for scramble-bin"),
      ("integration".toList, plain "scramble-xtask test integration" "Run integration tests")] }

/-- The command for all chores. -/
def command : Command :=
  { plain "scramble-xtask" "Scramble: Xtask" with
    version := some "0.1.0".toList
    needsSubcommand := true
    subcommands := [
      ("install".toList, plain "scramble-xtask install" "Install scramble binary locally"),
      ("run".toList, runCommand),
      ("test".toList, testCommand)] }

/-- The workshop while chores are done: the statuses of the next calls of the build tool, the calls so far, and what was said. -/
structure Shop where
  /-- Nothing when there is no build tool; behind the end of the list every call ends well. -/
  statuses : Option (List Nat)
  calls : List (List Text) := []
  said : Text := []

/-- A chore may fail with a message. -/
abbrev Chore := ExceptT Text (StateM Shop)

/-- Says a line. -/
def say (line : String) : Chore Unit := modify fun s => { s with said := s.said ++ line.toList ++ ['\n'] }

/-- Calls the build tool; a status other than zero is a failure, and so is it that there is no such program. -/
def build (args : List Text) (failure : String) : Chore Unit := do
  let s ← get
  match s.statuses with
  | none => throw DiskError.noEntry.message.toList
  | some statuses =>
    set { s with statuses := some statuses.tail, calls := s.calls ++ [args] }
    if statuses.headD 0 ≠ 0 then throw failure.toList

/-- Words as arguments. -/
def words (ws : List String) : List Text := ws.map String.toList

/-- Installs the program. -/
def install : Chore Unit := do
  say "Installing scramble..."
  build (words ["install", "--path", "crates/scramble-bin"]) "Failed to install scramble"
  say "✓ scramble installed successfully"

/-- Builds the program and runs it with arguments. -/
def runProgram (args : List Text) : Chore Unit := do
  say "Building and running scramble..."
  build (words ["run", "--bin", "scramble", "--"] ++ args) "Failed to run scramble"

/-- Tests the core library. -/
def testCore : Chore Unit := do
  say "🧪 Running scramble-core tests..."
  build (words ["test", "--package", "scramble-core", "--lib"]) "Core tests failed"

/-- Tests the command line. -/
def testBin : Chore Unit := do
  say "🧪 Running scramble-bin tests..."
  build (words ["test", "--package", "scramble-bin"]) "Binary tests failed"

/-- Tests everything together. -/
def testWorkspace : Chore Unit := do
  say "🧪 Running workspace tests..."
  build (words ["test", "--workspace"]) "Workspace tests failed"

/-- Tests whole runs, and that the command line answers. -/
def testIntegration : Chore Unit := do
  say "🧪 Running integration tests..."
  build (words ["test", "--package", "scramble-core", "--test", "end_to_end_test"]) "Integration tests failed"
  build (words ["run", "--bin", "scramble", "--", "--help"]) "CLI help command failed"
  build (words ["run", "--bin", "scramble", "--", "--version"]) "CLI version command failed"

/-- Says how a suite of tests went, and whether it went well. -/
def testSuite (name : String) (suite : Chore Unit) : Chore Bool := do
  tryCatch (do suite; say ("✅ " ++ name ++ " tests passed\n"); return true) fun e => do
    say ("❌ " ++ name ++ " tests failed: " ++ String.ofList e ++ "\n")
    return false

/-- Runs every suite, also behind one that fails. -/
def testAll : Chore Unit := do
  say "🧪 Running all tests for the scramble project...\n"
  let core ← testSuite "scramble-core" testCore
  let bin ← testSuite "scramble-bin" testBin
  let workspace ← testSuite "workspace" testWorkspace
  let integration ← testSuite "integration" testIntegration
  if core && bin && workspace && integration then say "🎉 All tests passed successfully!"
  else
    say "💥 Some tests failed. Please check the output above."
    throw "Test suite failed".toList

/-- Lists the tests there are. -/
def listTests : Chore Unit := do
  say "Available test commands:"
  say "  all          - Run all tests for the entire project"
  say "  core         - Run tests for scramble-core"
  say "  bin          - Run tests for scramble-bin"
  say "  integration  - Run integration tests"

/-- The chore that a reading of the arguments asks for. -/
def chore (r : Reading) : Chore Unit :=
  match r.path.map String.ofList with
  | ["install"] => install
  | ["run"] => runProgram ((r.values .positional).filterMap Utf8.decode?)
  | ["test", "all"] => testAll
  | ["test", "core"] => testCore
  | ["test", "bin"] => testBin
  | ["test", "integration"] => testIntegration
  | _ => listTests

/-- What doing a chore comes to. -/
structure Outcome where
  status : Nat := 0
  output : Text := []
  complaint : Text := []
  calls : List (List Text) := []

/-- Does the chore that arguments ask for. -/
def run (args : List Bytes) (statuses : Option (List Nat)) : Outcome :=
  match read command args with
  | .error r => if r.isAnswer then { output := r.written } else { status := 2, complaint := r.written }
  | .ok r =>
    let (result, shop) := (chore r).run { statuses }
    match result with
    | .ok () => { output := shop.said, calls := shop.calls }
    | .error e => { status := 1, output := shop.said, complaint := "Error: ".toList ++ e ++ ['\n'], calls := shop.calls }

end Pseudonym.Chores
