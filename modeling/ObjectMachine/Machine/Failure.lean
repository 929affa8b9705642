import ObjectMachine.Assembler.Problem
import ObjectMachine.Heap.Config
import ObjectMachine.Method.Header

/-!
# Failures

What a request to the machine may fail with. A failure is an answer: the machine goes on from the
state in which it arose. A failure may have another one as its cause.
-/

namespace ObjectMachine

/-- Why a program cannot go on. Objects are named by their descriptions where the report does so. -/
inductive ExecutionProblem where
  | alreadyActive
  | argumentMismatch (expected given : Nat)
  | pcPastEnd (pc length : Nat) (method : Ref)
  | literalOutOfRange (index : Nat) (method : Ref)
  | notAnAssociation (index : Nat) (method : Ref)
  | temporaryOutOfRange (index : Nat) (method : Ref)
  | noField (receiver : Ref) (index : Nat)
  | noFieldToAnswer (receiver : String) (index : Nat)
  | noLiteralToAnswer (method : Ref)
  | reservedFlag (method : Ref) (header : MethodHeader)
  | jumpLeavesMethod (pc : Nat) (offset : Int)
  | escapedWithoutCaller
  | superWithoutClass (selector : String)
  | notUnderstood (receiver selector : String)
  | wrongArgumentCount (selector : String) (expected given : Nat)
  | blockWithoutJump (pc : Nat)
  | unknownOpcode (opcode : UInt8) (pc : Nat) (method : Ref)
  deriving DecidableEq, Repr

/-- The report of a program that cannot go on. -/
def ExecutionProblem.message : ExecutionProblem → String
  | .alreadyActive => "an activation is already in progress"
  | .argumentMismatch expected given => s!"method expects {expected} arguments, {given} given"
  | .pcPastEnd pc length method =>
    s!"pc {pc} ran past the end of the {length} bytes of bytecode of {method.text}"
  | .literalOutOfRange index method => s!"literal {index} out of range in {method.text}"
  | .notAnAssociation index method => s!"literal {index} of {method.text} is not an association"
  | .temporaryOutOfRange index method => s!"temporary {index} out of range in {method.text}"
  | .noField receiver index => s!"receiver {receiver.text} has no instance variable {index}"
  | .noFieldToAnswer receiver index => s!"{receiver} has no instance variable {index} to answer"
  | .noLiteralToAnswer method => s!"literal-answering method {method.text} has no literal"
  | .reservedFlag method header => s!"method {method.text} has a reserved flag in {header.text}"
  | .jumpLeavesMethod pc offset => s!"jump from pc {pc} by {Text.decimal offset} leaves the method"
  | .escapedWithoutCaller => "a block escaped its home context and has no caller to report to"
  | .superWithoutClass selector =>
    s!"super send of {selector} from a method without a class binding"
  | .notUnderstood receiver selector =>
    s!"{receiver} does not understand {selector}, and has no doesNotUnderstand: method"
  | .wrongArgumentCount selector expected given =>
    s!"{selector} takes {expected} arguments but was sent with {given}"
  | .blockWithoutJump pc =>
    s!"block creation at pc {pc} is not followed by a jump over the block"
  | .unknownOpcode opcode pc method =>
    s!"unknown opcode {Text.hexByte opcode} at pc {pc} in {method.text}"

/-- What the machine was doing when another failure arose. -/
inductive Activity where
  | assembling
  | installing (cls selector : String)
  | installingKernel
  | bootstrapping
  deriving DecidableEq, Repr

/-- The report of what the machine was doing. -/
def Activity.message : Activity → String
  | .assembling => "malformed method"
  | .installing cls selector => s!"cannot assemble {cls}>>#{selector}"
  | .installingKernel => "could not install the kernel methods"
  | .bootstrapping => "could not bootstrap the virtual machine"

/-- Why a request failed. -/
inductive Failure where
  | config (problem : ConfigProblem)
  | cacheSize (size : Nat)
  | header (problem : HeaderProblem)
  | assembly (problem : AssemblyProblem)
  | execution (problem : ExecutionProblem)
  /-- There is no program with this name. -/
  | noProgram (name : String)
  /-- The same, from the command line, which offers a list. -/
  | noListedProgram (name : String)
  | notSmallInteger (value : Int)
  | notInterned
  | notInstalled
  /-- Another failure arose during an activity. -/
  | during (activity : Activity) (cause : Failure)
  deriving DecidableEq, Repr

namespace Failure

/-- The reports of a failure and its causes, the outermost first. -/
def messages : Failure → List String
  | .config problem => [problem.message]
  | .cacheSize size => [s!"method cache size must be a power of two, got {size}"]
  | .header problem => [problem.message]
  | .assembly problem => [problem.message]
  | .execution problem => [problem.message]
  | .noProgram name => [s!"no demo program named {name}"]
  | .noListedProgram name => ["no demo program named \x60" ++ name ++ "\x60 (try \x60list\x60)"]
  | .notSmallInteger value => [s!"{Text.decimal value} is not a small integer"]
  | .notInterned => ["demo selector was not interned"]
  | .notInstalled => ["demo method was not installed"]
  | .during activity cause => activity.message :: cause.messages

/-- A failure and its causes on one line. -/
def message (f : Failure) : String :=
  String.intercalate ": " f.messages

end Failure

end ObjectMachine
