import ObjectMachine.CommandLine.Options
import ObjectMachine.Demo
import ObjectMachine.Listing

/-!
# Running a command line

A command line lists the demonstration programs, runs one of them on an integer, or shows its
instructions. What comes of it is an exit code and two texts.
-/

namespace ObjectMachine.CommandLine

/-- What a command line comes to. -/
structure Result where
  code : Nat
  output : String
  errors : String
  deriving DecidableEq, Repr

/-- How to use the command line. -/
def usage : String :=
  "usage: PROGRAM [INTEGER] [--heap-size BYTES] [--max-heap-size BYTES] [--gc-threshold BYTES] " ++
    "[--gc-stress] [-d|--disassemble] [-v|--verbose]\n"

/-- The list of the programs. -/
def programList : String :=
  String.join (Demo.all.map fun demo => Text.padRight 10 demo.name ++ " " ++ demo.summary ++ "\n")

/-- The causes of a failure, indented. More than one are numbered. -/
def causesText : List String → String
  | [] => ""
  | [cause] => "\n\nCaused by:\n    " ++ cause
  | causes =>
    let numbered := causes.zipIdx.map fun (cause, n) =>
      "\n" ++ Text.padLeft ' ' 5 (Nat.repr n) ++ ": " ++ cause
    "\n\nCaused by:" ++ String.join numbered

/-- The report of a failure. -/
def failureText (failure : Failure) : String :=
  match failure.messages with
  | [] => "Error: \n"
  | message :: causes => "Error: " ++ message ++ causesText causes ++ "\n"

/-- The result of a failure. -/
def failed (failure : Failure) : Result :=
  ⟨1, "", failureText failure⟩

/-- The result of a fatal stop. -/
def stopped (cause : Fatal) : Result :=
  ⟨101, "", cause.message?.getD "" ++ "\n"⟩

open ObjectMachine.Action Machine

/-- Installs the programs and shows the instructions of one. -/
def disassembly (demo : Demo) : Action String := do
  Demo.installAll
  match ← ask (·.symbol? demo.selector) with
  | none => fail .notInterned
  | some selector =>
    let cls := (← getCore).cls .integer
    match ← read (Class.lookupMethod? · cls selector) with
    | none => fail .notInstalled
    | some method => return s!"Integer>>#{demo.selector}\n" ++ (← inspect (Listing.text · method))

/-- Runs a program and describes its result. -/
def evaluation (fuel : Nat) (demo : Demo) (argument : Int) : Action String := do
  let result ← Demo.run fuel demo.name argument
  return (← inspect (·.describe result)) ++ "\n"

/-- Makes a machine and does what the options ask for. -/
def session (fuel : Nat) (options : Options) (demo : Demo) : Action String := do
  within .bootstrapping bootstrap
  if options.disassemble then disassembly demo else evaluation fuel demo options.argument

/-- Does what options ask for. -/
def runOptions (fuel : Nat) (options : Options) : Result :=
  if options.program == "list" then ⟨0, programList, ""⟩
  else match Demo.find? options.program with
    | none => failed (.noListedProgram options.program)
    | some demo =>
      match Machine.ofConfig { heap := options.heap } with
      | .error failure => failed (.during .bootstrapping failure)
      | .ok machine =>
        match session fuel options demo machine with
        | .ok output _ => ⟨0, output, ""⟩
        | .failed failure _ => failed failure
        | .stopped cause => stopped cause
        | .unfinished => stopped (.fault .endless)

/-- Runs a command line. -/
def run (fuel : Nat) (args : List String) : Result :=
  match readArguments args with
  | .ok options => runOptions fuel options
  | .error .help => ⟨0, usage, ""⟩
  | .error .usageError => ⟨2, "", usage⟩

end ObjectMachine.CommandLine
