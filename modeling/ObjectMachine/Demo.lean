import ObjectMachine.Execution.Run

/-!
# Demonstration programs

Methods that are installed in the class of integers and run on an integer.
-/

namespace ObjectMachine

/-- A demonstration program. -/
structure Demo where
  /-- What the command line calls it. -/
  name : String
  /-- What it is installed under. It takes no arguments. -/
  selector : String
  summary : String
  code : Assembler

namespace Demo

/-- A method without arguments. -/
def method (temporaries : Nat) (code : List Code) : Assembler :=
  ((Assembler.ofArgCount 0).withTemporaries temporaries).addAll code

/-- `self < 2 ifTrue: [^self]. ^(self - 1) fib + (self - 2) fib` -/
def fib : Demo where
  name := "fib"
  selector := "fib"
  summary := "doubly recursive Fibonacci numbers"
  code := method 0
    [.constant .self, .integer 2, .send "<" 1, .jump .ifFalse (.named "recurse"),
      .methodReturn .self,
      .bind (.named "recurse"),
      .constant .self, .integer 1, .send "-" 1, .send "fib" 0,
      .constant .self, .integer 2, .send "-" 1, .send "fib" 0,
      .send "+" 1, .methodReturn .top]

/-- `self <= 1 ifTrue: [^1]. ^self * (self - 1) factorial` -/
def factorial : Demo where
  name := "factorial"
  selector := "factorial"
  summary := "recursive factorial, overflowing into large integers"
  code := method 0
    [.constant .self, .integer 1, .send "<=" 1, .jump .ifFalse (.named "recurse"),
      .integer 1, .methodReturn .top,
      .bind (.named "recurse"),
      .constant .self, .constant .self, .integer 1, .send "-" 1, .send "factorial" 0,
      .send "*" 1, .methodReturn .top]

/-- `| sum i | sum := 0. i := 1. [i <= self] whileTrue: [sum := sum + i. i := i + 1]. ^sum` -/
def sumTo : Demo where
  name := "sum"
  selector := "sumTo"
  summary := "sum of 1 to n with an inlined loop"
  code := method 2
    [.integer 0, .popInto (.temporary 0), .integer 1, .popInto (.temporary 1),
      .whileTrue [.push (.temporary 1), .constant .self, .send "<=" 1]
        [.push (.temporary 0), .push (.temporary 1), .send "+" 1, .popInto (.temporary 0),
          .push (.temporary 1), .integer 1, .send "+" 1, .popInto (.temporary 1)],
      .push (.temporary 0), .methodReturn .top]

/-- `| total | total := 0. 1 to: self do: [:k | total := total + (k * k)]. ^total` -/
def sumOfSquares : Demo where
  name := "squares"
  selector := "sumOfSquares"
  summary := "sum of the first n squares, through to:do: and a block"
  code := method 2
    [.integer 0, .popInto (.temporary 0),
      .integer 1, .constant .self,
      .block 1
        [.popInto (.temporary 1),
          .push (.temporary 0), .push (.temporary 1), .push (.temporary 1), .send "*" 1,
          .send "+" 1, .dup, .popInto (.temporary 0), .blockReturn],
      .send "to:do:" 2, .pop,
      .push (.temporary 0), .methodReturn .top]

/-- `| last | 1 to: self do: [:k | last := Array new: 10. last at: 1 put: k]. ^last at: 1` -/
def churn : Demo where
  name := "churn"
  selector := "churn"
  summary := "allocates n arrays, answers the last index stored"
  code := method 2
    [.integer 1, .constant .self,
      .block 1
        [.popInto (.temporary 1),
          .push (.global "Array"), .integer 10, .send "new:" 1, .popInto (.temporary 0),
          .push (.temporary 0), .integer 1, .push (.temporary 1), .send "at:put:" 2, .blockReturn],
      .send "to:do:" 2, .pop,
      .push (.temporary 0), .integer 1, .send "at:" 1, .methodReturn .top]

/-- `1 to: self do: [:k | k * k > self ifTrue: [^k]]. ^nil` -/
def firstSquareAbove : Demo where
  name := "escape"
  selector := "firstSquareAbove"
  summary := "smallest k whose square exceeds n, returned from inside a block"
  code := method 1
    [.integer 1, .constant .self,
      .block 1
        [.popInto (.temporary 0),
          .push (.temporary 0), .push (.temporary 0), .send "*" 1, .constant .self, .send ">" 1,
          .jump .ifFalse (.named "keep going"),
          .push (.temporary 0), .methodReturn .top,
          .bind (.named "keep going"),
          .constant .nil, .blockReturn],
      .send "to:do:" 2, .pop, .methodReturn .nil]

/-- The programs, in the order in which they are installed and listed. -/
def all : List Demo :=
  [fib, factorial, sumTo, sumOfSquares, churn, firstSquareAbove]

/-- The program with a name. -/
def find? (name : String) : Option Demo :=
  all.find? (·.name == name)

open ObjectMachine.Action Machine

/-- Installs programs in a class. -/
def installEach (cls : Ref) : List Demo → Action Unit
  | [] => return
  | demo :: rest => do
    pin cls
    let installed ← attempt (install demo.code cls demo.selector)
    let _ ← unpin
    resume installed
    installEach cls rest

/-- Installs all programs in the class of integers. They may call each other. -/
def installAll : Action Unit := do
  installEach ((← getCore).cls .integer) all

/-- Installs all programs and sends one of them to an integer. -/
def run (fuel : Nat) (name : String) (argument : Int) : Action Ref := do
  match find? name with
  | none => fail (.noProgram name)
  | some demo =>
    match Ref.ofInt? argument with
    | none => fail (.notSmallInteger argument)
    | some receiver =>
      installAll
      sendMessage fuel receiver demo.selector []

end Demo

end ObjectMachine
