import ObjectMachine.Kernel.Bootstrap

/-!
# Command line options

A command line names a program and optionally the integer that it is sent to, with options anywhere
between them. Options begin with a hyphen; after `--` nothing is an option any more. Right after the
program, as long as the integer is missing, anything with a single hyphen is taken for it.
-/

namespace ObjectMachine.CommandLine

/-- What a command line asks for. -/
structure Options where
  program : String
  argument : Int
  heap : HeapConfig
  /-- Whether to list the program instead of running it. -/
  disassemble : Bool
  deriving Repr

/-- What a command line said so far. -/
structure Scan where
  program? : Option String := none
  argument? : Option Int := none
  heapSize? : Option Nat := none
  maxHeapSize? : Option Nat := none
  threshold? : Option Nat := none
  stress : Bool := false
  disassemble : Bool := false
  verbose : Bool := false
  /-- The option whose value comes next. -/
  awaited? : Option String := none
  /-- Whether options are over. -/
  isPlain : Bool := false

/-- Why a command line is not followed. -/
inductive Stop where
  | help
  | usageError
  deriving DecidableEq, Repr

/-! ## Numbers -/

/-- The number with some digits, at least one. -/
def digitsValue? (digits : List Char) : Option Nat :=
  if digits.isEmpty || !digits.all Char.isDigit then none
  else some (digits.foldl (fun n c => n * 10 + (c.toNat - '0'.toNat)) 0)

/-- A count that fits 64 bits. A plus sign may stand before it. -/
def count? (text : String) : Option Nat :=
  let digits := match text.toList with
    | '+' :: rest => rest
    | all => all
  (digitsValue? digits).filter (· < countLimit)

/-- An integer that fits 64 bits. A sign may stand before it. -/
def integer? (text : String) : Option Int :=
  let value : Option Int := match text.toList with
    | '-' :: rest => (digitsValue? rest).map fun n => -(n : Int)
    | '+' :: rest => (digitsValue? rest).map fun n => (n : Int)
    | all => (digitsValue? all).map fun n => (n : Int)
  value.filter fun i => -9223372036854775808 ≤ i && i < 9223372036854775808

/-! ## Options -/

namespace Scan

/-- Takes an argument that is no option: the program, then the integer, then nothing. -/
def positional (p : Scan) (text : String) : Option Scan :=
  match p.program?, p.argument? with
  | none, _ => some { p with program? := some text }
  | some _, none => (integer? text).map fun i => { p with argument? := some i }
  | some _, some _ => none

/-- Whether the integer is the next thing that is no option. -/
def awaitsInteger (p : Scan) : Bool :=
  p.program?.isSome && p.argument?.isNone

/-- Sets an option without a value. It may be given once. -/
def setFlag (p : Scan) (name : String) : Option Scan :=
  match name with
  | "gc-stress" => if p.stress then none else some { p with stress := true }
  | "disassemble" => if p.disassemble then none else some { p with disassemble := true }
  | "verbose" => if p.verbose then none else some { p with verbose := true }
  | _ => none

/-- Sets an option with a value. It may be given once. -/
def setCount (p : Scan) (name value : String) : Option Scan := do
  let n ← count? value
  match name with
  | "heap-size" => if p.heapSize?.isSome then none else some { p with heapSize? := some n }
  | "max-heap-size" => if p.maxHeapSize?.isSome then none else some { p with maxHeapSize? := some n }
  | "gc-threshold" => if p.threshold?.isSome then none else some { p with threshold? := some n }
  | _ => none

/-- Whether an option takes a value. -/
def takesValue (name : String) : Bool :=
  name == "heap-size" || name == "max-heap-size" || name == "gc-threshold"

/-- Takes an option by its name, with the value attached to it if there is one. -/
def setLong (p : Scan) (name : String) (value? : Option String) : Option Scan :=
  match takesValue name, value? with
  | true, some value => p.setCount name value
  | true, none => some { p with awaited? := some name }
  | false, some _ => none
  | false, none => p.setFlag name

/-- The name of an option of one letter. -/
def longName (letter : Char) : String :=
  match letter with
  | 'd' => "disassemble"
  | 'v' => "verbose"
  | 'h' => "help"
  | _ => ""

/-- Splits an option into its name and the value attached to it by an equals sign. -/
def splitOption (option : List Char) : String × Option String :=
  match option.dropWhile (· != '=') with
  | [] => (String.ofList option, none)
  | _ :: value => (String.ofList (option.takeWhile (· != '=')), some (String.ofList value))

/-- A usage error where there is nothing to go on with. -/
def orUsageError : Option Scan → Except Stop Scan
  | some p => .ok p
  | none => .error .usageError

/-- Takes an option by its name. -/
def takeLong (p : Scan) (name : String) (value? : Option String) : Except Stop Scan :=
  if name == "help" then .error .help else orUsageError (p.setLong name value?)

/-- Takes options of one letter each. -/
def takeLetters (p : Scan) : List Char → Except Stop Scan
  | [] => .ok p
  | letter :: rest => do (← p.takeLong (longName letter) none).takeLetters rest

/-- Takes the value of an option. -/
def takeValue (p : Scan) (name value : String) : Option Scan :=
  { p with awaited? := none }.setCount name value

/-- Takes an argument where options may stand. -/
def takeOption (p : Scan) (text : String) : Except Stop Scan :=
  match text.toList with
  | ['-', '-'] => .ok { p with isPlain := true }
  | '-' :: '-' :: option =>
    let (name, value?) := splitOption option
    p.takeLong name value?
  | '-' :: letter :: letters =>
    if p.awaitsInteger then orUsageError (p.positional text) else p.takeLetters (letter :: letters)
  | _ => orUsageError (p.positional text)

/-- Takes an argument. -/
def take (p : Scan) (text : String) : Except Stop Scan :=
  match p.awaited? with
  | some name => orUsageError (p.takeValue name text)
  | none => if p.isPlain then orUsageError (p.positional text) else p.takeOption text

/-- What a complete command line asks for. -/
def complete (p : Scan) : Except Stop Options :=
  match p.awaited?, p.program? with
  | none, some program =>
    let defaults : HeapConfig := {}
    .ok
      { program
        argument := p.argument?.getD 25
        heap := { defaults with
          initialBytes := p.heapSize?.getD defaults.initialBytes
          maxBytes := p.maxHeapSize?.getD defaults.maxBytes
          threshold := p.threshold?.getD defaults.threshold
          stress := p.stress }
        disassemble := p.disassemble }
  | _, _ => .error .usageError

end Scan

/-- Reads a command line. -/
def readArguments (args : List String) : Except Stop Options := do
  (← args.foldlM Scan.take {}).complete

end ObjectMachine.CommandLine
