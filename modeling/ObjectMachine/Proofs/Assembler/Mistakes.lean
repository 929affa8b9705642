import Mathlib
import ObjectMachine.Machine.Build
import ObjectMachine.Proofs.Assembler.Jumps

/-!
# Mistakes and their reports

An assembler that is asked for what cannot be written writes something else in its place and takes a
note. What the notes say is read off the requests here. A method is refused as long as there is a
note, and later on if its jumps do not land or its counts do not fit. A note is gone once it was
reported.

Labels are numbers to an assembler: one of another assembler is told from one of its own only by a
number that it did not give yet.

## Main results

* `MethodHeader.make_reads`: a header says what it was made with.
* `Assembler.Notes.add`: what is noted of a piece of code.
* `Assembler.draft_ok_iff`, `Assembler.draft_fatal_iff`: when there is a draft of a method.
* `Assembler.takeAll_reports`: which of the methods that are asked for are refused, and that the
  machine is then left as it was.
-/

namespace ObjectMachine

/-! ## Headers -/

/-- A number in front of another one that has fewer bits. -/
theorem or_shiftLeft_eq (a b : Nat) {i n : Nat} (hb : b < 2 ^ n) :
    a <<< (i + n) ||| b <<< i = (a * 2 ^ n + b) <<< i := by
  rw [Nat.add_comm i n, Nat.shiftLeft_add, ← Nat.shiftLeft_or_distrib, ← Nat.shiftLeft_add_eq_or_of_lt hb,
    Nat.shiftLeft_eq a]

namespace MethodHeader

/-- A number is shifted by so little that none of its bits is lost. -/
theorem toNat_shifted {n i j : Nat} (hn : n < 2 ^ j) (hi : i < 32) (hij : i + j ≤ 32) :
    (n.toUInt32 <<< i.toUInt32).toNat = n <<< i := by
  have hpow : 2 ^ j * 2 ^ i ≤ 2 ^ 32 := by
    rw [← Nat.pow_add]
    exact Nat.pow_le_pow_right (by decide) (by omega)
  have hshifted : n * 2 ^ i < 2 ^ j * 2 ^ i := Nat.mul_lt_mul_of_pos_right hn (Nat.two_pow_pos i)
  have hword : n < 2 ^ 32 :=
    Nat.lt_of_le_of_lt (Nat.le_mul_of_pos_right n (Nat.two_pow_pos i)) (by omega)
  simp only [UInt32.toNat_shiftLeft, Nat.toUInt32, UInt32.toNat_ofNat', Nat.shiftLeft_eq]
  rw [Nat.mod_eq_of_lt hword, Nat.mod_eq_of_lt (a := i) (by omega), Nat.mod_eq_of_lt (a := i) hi,
    Nat.mod_eq_of_lt (by omega)]

/-- A header is the sum of its parts, each from its first bit on. -/
theorem toNat_pack (flag : MethodFlag) {arguments temporaries depth primitive : Nat}
    (ha : arguments ≤ maxArguments) (ht : temporaries ≤ maxTemporaries)
    (hd : depth ≤ maxStackDepth) (hp : primitive ≤ maxPrimitive) :
    (pack flag arguments temporaries depth primitive).bits.toNat =
      ((((flag.code * 2 ^ 5 + arguments) * 2 ^ 6 + temporaries) * 2 ^ 8 + depth) * 2 ^ 8 + primitive) *
        2 ^ 2 + 1 := by
  have ha : arguments < 2 ^ 5 := Nat.lt_succ_of_le ha
  have ht : temporaries < 2 ^ 6 := Nat.lt_succ_of_le ht
  have hd : depth < 2 ^ 8 := Nat.lt_succ_of_le hd
  have hp : primitive < 2 ^ 8 := Nat.lt_succ_of_le hp
  have hf : flag.code < 2 ^ 3 := by cases flag <;> decide
  unfold pack
  simp only [UInt32.toNat_or]
  rw [show (29 : UInt32) = Nat.toUInt32 29 from rfl, show (24 : UInt32) = Nat.toUInt32 24 from rfl,
    show (18 : UInt32) = Nat.toUInt32 18 from rfl, show (10 : UInt32) = Nat.toUInt32 10 from rfl,
    show (2 : UInt32) = Nat.toUInt32 2 from rfl,
    toNat_shifted hf (by decide) (by decide), toNat_shifted ha (by decide) (by decide),
    toNat_shifted ht (by decide) (by decide), toNat_shifted hd (by decide) (by decide),
    toNat_shifted hp (by decide) (by decide),
    or_shiftLeft_eq _ _ (i := 24) ha, or_shiftLeft_eq _ _ (i := 18) ht, or_shiftLeft_eq _ _ (i := 10) hd,
    or_shiftLeft_eq _ _ (i := 2) hp]
  exact (Nat.shiftLeft_add_eq_or_of_lt (show 1 < 2 ^ 2 by decide) _).symm.trans (by rw [Nat.shiftLeft_eq])

/-- A part of a header, from its first bit on. -/
theorem toNat_part (bits : UInt32) {first mask : UInt32} {i n : Nat} (hfirst : first.toNat % 32 = i)
    (hmask : mask.toNat = 2 ^ n - 1) : ((bits >>> first) &&& mask).toNat = bits.toNat / 2 ^ i % 2 ^ n := by
  rw [UInt32.toNat_and, hmask, Nat.and_two_pow_sub_one_eq_mod, UInt32.toNat_shiftRight, hfirst,
    Nat.shiftRight_eq_div_pow]

/-- What a header says is what it was made with. -/
theorem make_reads {flag : MethodFlag} {arguments temporaries depth primitive : Nat} {header : MethodHeader}
    (h : make flag arguments temporaries depth primitive = .ok header) :
    header.flag? = some flag ∧ header.argCount = arguments ∧ header.tempCount = temporaries ∧
      header.stackDepth = depth ∧ header.primitiveIndex = primitive := by
  unfold make at h
  split at h
  · cases h
  split at h
  · cases h
  split at h
  · cases h
  split at h
  · cases h
  split at h
  · cases h
  cases h
  rename_i ha ht hcover hd hp
  have hbits := toNat_pack flag (Nat.le_of_not_lt ha) (Nat.le_of_not_lt ht) (Nat.le_of_not_lt hd)
    (Nat.le_of_not_lt hp)
  have ha : arguments ≤ 31 := Nat.le_of_not_lt ha
  have ht : temporaries ≤ 63 := Nat.le_of_not_lt ht
  have hd : depth ≤ 255 := Nat.le_of_not_lt hd
  have hp : primitive ≤ 255 := Nat.le_of_not_lt hp
  have hf : flag.code < 8 := by cases flag <;> decide
  generalize (pack flag arguments temporaries depth primitive) = header at hbits ⊢
  refine ⟨?_, ?_, ?_, ?_, ?_⟩
  · rw [← flag.ofCode?_code]
    unfold flag?
    congr 1
    rw [UInt32.toNat_shiftRight, hbits, Nat.shiftRight_eq_div_pow]
    show _ / 536870912 = _
    omega
  · rw [argCount, toNat_part (i := 24) (n := 5) _ rfl rfl, hbits]
    omega
  · rw [tempCount, toNat_part (i := 18) (n := 6) _ rfl rfl, hbits]
    omega
  · rw [stackDepth, toNat_part (i := 10) (n := 8) _ rfl rfl, hbits]
    omega
  · rw [primitiveIndex, toNat_part (i := 2) (n := 8) _ rfl rfl, hbits]
    omega

end MethodHeader

namespace Assembler

/-! ## Requests -/

/-- What an assembler may be asked for. -/
inductive Request where
  | code (piece : Code)
  | newLabel
  | temporaries (count : Nat)
  | primitive (index : Nat)
  | returnsSelf
  | returnsField (index : Nat)
  | returnsLiteral (value : Literal)

/-- Does what is asked for. -/
def take (a : Assembler) : Request → Assembler
  | .code piece => a.add piece
  | .newLabel => a.newLabel.2
  | .temporaries count => a.withTemporaries count
  | .primitive index => a.withPrimitive index
  | .returnsSelf => a.returningSelf
  | .returnsField index => a.returningField index
  | .returnsLiteral value => a.returningLiteral value

/-- Does one thing after another. -/
def takeAll (a : Assembler) : List Request → Assembler
  | [] => a
  | request :: rest => (a.take request).takeAll rest

/-- The lines that requests say. -/
def linesOf (a : Assembler) : List Request → List Line
  | [] => []
  | .code piece :: rest => a.lines piece ++ (a.add piece).linesOf rest
  | request :: rest => (a.take request).linesOf rest

theorem Written.takeAll {a : Assembler} {lines : List Line} (h : Written a lines)
    (requests : List Request) : Written (a.takeAll requests) (lines ++ a.linesOf requests) := by
  induction requests generalizing a lines with
  | nil =>
    rw [linesOf, List.append_nil]
    exact h
  | cons request rest ih =>
    cases request with
    | code piece =>
      rw [linesOf, ← List.append_assoc]
      exact ih (h.add piece)
    | newLabel => exact ih h.newLabel
    | temporaries count => exact ih (h.withTemporaries count)
    | primitive index => exact ih (h.withPrimitive index)
    | returnsSelf => exact ih h.returningSelf
    | returnsField index => exact ih (h.returningField index)
    | returnsLiteral value => exact ih (h.returningLiteral value)

/-! ## What is wrong with a request -/

/-- An operand has to fit a byte. -/
def operandMistakes (kind : OperandKind) (value : Nat) : List AssemblyProblem :=
  if value < 256 then [] else [.operandTooLarge kind value]

/-- So does the place of a literal. -/
def literalMistakes (a : Assembler) (value : Literal) : List AssemblyProblem :=
  operandMistakes .literal (a.literalPlace value).1

def placeMistakes (a : Assembler) : Place → List AssemblyProblem
  | .temporary index => operandMistakes .temporary index
  | .field index => operandMistakes .field index
  | .global name => a.literalMistakes (.global name)

def sendMistakes (a : Assembler) (selector : String) (argCount : Nat) : List AssemblyProblem :=
  a.literalMistakes (.symbol selector) ++ operandMistakes .argCount argCount

/-- A label has to be one that exists and is not bound. -/
def bindMistakes (a : Assembler) (number : Nat) : List AssemblyProblem :=
  match a.labels[number]? with
  | some none => []
  | some (some _) => [.labelBoundTwice number]
  | none => [.foreignLabel number]

mutual

/-- What is wrong with a piece of code, in the order of emission. -/
def mistakes (a : Assembler) : Code → List AssemblyProblem
  | .push place => a.placeMistakes place
  | .store place => a.placeMistakes place
  | .popInto place => a.placeMistakes place
  | .integer value =>
    if value = -1 ∨ value = 0 ∨ value = 1 ∨ value = 2 then [] else a.literalMistakes (.integer value)
  | .literal value => a.literalMistakes value
  | .send selector argCount =>
    if (specialIndex? selector argCount).isSome then [] else a.sendMistakes selector argCount
  | .sendGeneral selector argCount => a.sendMistakes selector argCount
  | .superSend selector argCount => a.sendMistakes selector argCount
  | .bind label => let (number, a) := a.labelNumber label; a.bindMistakes number
  | .block argCount body =>
    let (last, opened) := a.openBlock argCount
    let entered := { opened with depth := 0 }.grow argCount
    operandMistakes .blockArgCount argCount ++ entered.mistakesAll body ++
      (entered.addAll body).bindMistakes last
  | .whileTrue condition body =>
    let (start, a) := a.newLabel
    let (done, a) := a.newLabel
    let entered := a.bindNumber start
    let left := (entered.addAll condition).jumpToNumber .ifFalse true done
    a.bindMistakes start ++ entered.mistakesAll condition ++ left.mistakesAll body ++
      ((left.addAll body).jumpToNumber .always true start).bindMistakes done
  | .ifTrueIfFalse yes no =>
    let (otherwise, a) := a.newLabel
    let (done, a) := a.newLabel
    let a := a.jumpToNumber .ifFalse true otherwise
    let left := { (a.addAll yes).jumpToNumber .always true done with depth := a.depth }
    let entered := left.bindNumber otherwise
    a.mistakesAll yes ++ left.bindMistakes otherwise ++ entered.mistakesAll no ++
      (entered.addAll no).bindMistakes done
  | .constant _ | .thisContext | .dup | .pop | .methodReturn _ | .blockReturn | .jump _ _
  | .shortJump _ _ => []

/-- What is wrong with pieces of code. -/
def mistakesAll (a : Assembler) : List Code → List AssemblyProblem
  | [] => []
  | piece :: rest => a.mistakes piece ++ (a.add piece).mistakesAll rest

end

/-- What is wrong with requests. -/
def mistakesOf (a : Assembler) : List Request → List AssemblyProblem
  | [] => []
  | .code piece :: rest => a.mistakes piece ++ (a.add piece).mistakesOf rest
  | .returnsLiteral value :: rest =>
    a.literalMistakes value ++ (a.returningLiteral value).mistakesOf rest
  | request :: rest => (a.take request).mistakesOf rest

/-! ## Notes -/

/-- The first mistake is noted, unless there is a note already. -/
def Notes (a : Assembler) (problems : List AssemblyProblem) (b : Assembler) : Prop :=
  b.problem? = a.problem?.or problems.head?

namespace Notes

variable {a b c : Assembler} {problems more : List AssemblyProblem}

theorem of_eq (h : b.problem? = a.problem?) : a.Notes [] b := by
  rw [Notes, h]
  exact (Option.or_none).symm

theorem trans (h : a.Notes problems b) (h' : b.Notes more c) : a.Notes (problems ++ more) c := by
  rw [Notes] at h h' ⊢
  rw [h', h, List.head?_append, Option.or_assoc]

/-- Whatever leaves the notes alone may come before or after. -/
theorem before (h : b.problem? = a.problem?) (h' : b.Notes problems c) : a.Notes problems c :=
  (of_eq h).trans h'

theorem after (h : a.Notes problems b) (h' : c.problem? = b.problem?) : a.Notes problems c := by
  rw [Notes, h']
  exact h

theorem report (a : Assembler) (problem : AssemblyProblem) : a.Notes [problem] (a.report problem) := by
  unfold Notes Assembler.report
  cases hnote : a.problem? <;> simp [hnote]

theorem operand (a : Assembler) (kind : OperandKind) (value : Nat) :
    a.Notes (operandMistakes kind value) (a.operand kind value).2 := by
  unfold Assembler.operand operandMistakes
  split
  · exact of_eq rfl
  · exact report a _

theorem literalOperand (a : Assembler) (value : Literal) :
    a.Notes (a.literalMistakes value) (a.literalOperand value).2 := by
  refine before (b := (a.literalPlace value).2) ?_ (operand _ .literal _)
  unfold literalPlace
  split <;> rfl

theorem placeOperand (a : Assembler) (place : Place) :
    a.Notes (a.placeMistakes place) (a.placeOperand place).2.2 := by
  cases place with
  | temporary index => exact operand a .temporary index
  | field index => exact operand a .field index
  | global name => exact literalOperand a (.global name)

theorem bindNumber (a : Assembler) (number : Nat) :
    a.Notes (a.bindMistakes number) (a.bindNumber number) := by
  unfold Assembler.bindNumber bindMistakes
  cases a.labels[number]? with
  | none => exact report a _
  | some bound =>
    cases bound with
    | none => exact of_eq rfl
    | some position => exact report a _

theorem emitSendBy (a : Assembler) (make : UInt8 → UInt8 → Instruction) (selector : String)
    (argCount : Nat) : a.Notes (a.sendMistakes selector argCount) (a.emitSendBy make selector argCount) :=
  ((literalOperand a (.symbol selector)).trans (operand _ .argCount argCount)).after rfl

theorem problem_labelNumber (a : Assembler) (label : Label) :
    (a.labelNumber label).2.problem? = a.problem? := by
  cases label with
  | numbered number => rfl
  | named name =>
    unfold labelNumber
    cases h : a.labelNames.lookup name <;> simp [h, newLabel]

theorem problem_jumpToNumber (a : Assembler) (branch : Branch) (isLong : Bool) (number : Nat) :
    (a.jumpToNumber branch isLong number).problem? = a.problem? := by
  simp only [jumpToNumber, Assembler.emit]
  split <;> rfl

theorem openBlock (a : Assembler) (argCount : Nat) :
    a.Notes (operandMistakes .blockArgCount argCount) (a.openBlock argCount).2 :=
  (operand a .blockArgCount argCount).after (problem_jumpToNumber _ _ _ _)

/-- Whether the place of a literal fits depends on the literals alone. -/
theorem literalMistakes_congr {a b : Assembler} (h : b.literals = a.literals) (value : Literal) :
    b.literalMistakes value = a.literalMistakes value := by
  unfold literalMistakes literalPlace
  rw [h]
  cases a.literals.findIdx? (·.shares value) <;> rfl

mutual

/-- What is noted of a piece of code is the first thing that is wrong with it. -/
theorem add (a : Assembler) (piece : Code) : a.Notes (a.mistakes piece) (a.add piece) := by
  cases piece with
  | push place => exact (placeOperand a place).after rfl
  | store place => exact (placeOperand a place).after rfl
  | popInto place => exact (placeOperand a place).after rfl
  | constant value => exact of_eq rfl
  | thisContext => exact of_eq rfl
  | integer value =>
    simp only [Assembler.add, mistakes, emitInteger]
    by_cases hown : value = -1 ∨ value = 0 ∨ value = 1 ∨ value = 2
    · rw [if_pos hown]
      rcases hown with rfl | rfl | rfl | rfl <;> exact of_eq rfl
    · obtain ⟨hminusOne, hzero, hone, htwo⟩ := by simpa only [not_or] using hown
      rw [if_neg hown, if_neg hminusOne, if_neg hzero, if_neg hone, if_neg htwo]
      exact (literalOperand a (.integer value)).after rfl
  | literal value => exact (literalOperand a value).after rfl
  | dup => exact of_eq rfl
  | pop => exact of_eq rfl
  | methodReturn answer =>
    refine of_eq ?_
    simp only [Assembler.add, emitReturn]
    split <;> rfl
  | blockReturn => exact of_eq rfl
  | send selector argCount =>
    simp only [Assembler.add, mistakes, emitSend]
    cases specialIndex? selector argCount with
    | some index => exact of_eq rfl
    | none => exact emitSendBy a .send selector argCount
  | sendGeneral selector argCount => exact emitSendBy a .send selector argCount
  | superSend selector argCount =>
    have hsend := emitSendBy { a with usesSuper := true } .superSend selector argCount
    rw [sendMistakes, literalMistakes_congr (a := a) (b := { a with usesSuper := true }) rfl] at hsend
    exact hsend.before rfl
  | bind label => exact (bindNumber _ _).before (problem_labelNumber a label)
  | jump branch label =>
    exact of_eq ((problem_jumpToNumber _ branch true _).trans (problem_labelNumber a label))
  | shortJump branch label =>
    exact of_eq ((problem_jumpToNumber _ branch false _).trans (problem_labelNumber a label))
  | block argCount body =>
    have hopened : a.Notes (operandMistakes .blockArgCount argCount)
        ({ (a.openBlock argCount).2 with depth := 0 }.grow argCount) := (openBlock a argCount).after rfl
    exact ((hopened.trans (addAll _ body)).trans (bindNumber _ _)).after rfl
  | whileTrue condition body =>
    have hentered := (bindNumber a.newLabel.2.newLabel.2 a.newLabel.1).before (a := a) rfl
    have hleft := ((addAll (a.newLabel.2.newLabel.2.bindNumber a.newLabel.1) condition).after
      (problem_jumpToNumber _ .ifFalse true a.newLabel.2.newLabel.1))
    have hback := (addAll (((a.newLabel.2.newLabel.2.bindNumber a.newLabel.1).addAll
      condition).jumpToNumber .ifFalse true a.newLabel.2.newLabel.1) body).after
        (problem_jumpToNumber _ .always true a.newLabel.1)
    exact ((hentered.trans hleft).trans hback).trans (bindNumber _ a.newLabel.2.newLabel.1)
  | ifTrueIfFalse yes no =>
    have hyes := addAll (a.newLabel.2.newLabel.2.jumpToNumber .ifFalse true a.newLabel.1) yes
    have hleft : a.Notes
        ((a.newLabel.2.newLabel.2.jumpToNumber .ifFalse true a.newLabel.1).mistakesAll yes)
        { ((a.newLabel.2.newLabel.2.jumpToNumber .ifFalse true a.newLabel.1).addAll yes).jumpToNumber
            .always true a.newLabel.2.newLabel.1 with
          depth := (a.newLabel.2.newLabel.2.jumpToNumber .ifFalse true a.newLabel.1).depth } :=
      (hyes.after (problem_jumpToNumber _ .always true a.newLabel.2.newLabel.1)).before
        (problem_jumpToNumber _ .ifFalse true a.newLabel.1)
    exact ((hleft.trans (bindNumber _ a.newLabel.1)).trans (addAll _ no)).trans
      (bindNumber _ a.newLabel.2.newLabel.1)

theorem addAll (a : Assembler) (code : List Code) : a.Notes (a.mistakesAll code) (a.addAll code) := by
  cases code with
  | nil => exact of_eq rfl
  | cons piece rest =>
    rw [Assembler.addAll, mistakesAll]
    exact (add a piece).trans (addAll _ rest)

end

/-- What is noted of requests is the first thing that is wrong with them. -/
theorem takeAll (a : Assembler) (requests : List Request) :
    a.Notes (a.mistakesOf requests) (a.takeAll requests) := by
  induction requests generalizing a with
  | nil => exact of_eq rfl
  | cons request rest ih =>
    cases request with
    | code piece =>
      rw [Assembler.takeAll, mistakesOf]
      exact (add a piece).trans (ih _)
    | returnsLiteral value =>
      have hliteral := literalOperand { a with flag := .returnLiteral } value
      rw [literalMistakes_congr (a := a) (b := { a with flag := .returnLiteral }) rfl] at hliteral
      exact (hliteral.before rfl).trans (ih _)
    | newLabel => exact (ih a.newLabel.2).before rfl
    | temporaries count => exact (ih (a.withTemporaries count)).before rfl
    | primitive index => exact (ih (a.withPrimitive index)).before rfl
    | returnsSelf => exact (ih a.returningSelf).before rfl
    | returnsField index => exact (ih (a.returningField index)).before rfl

end Notes

/-! ## Drafts -/

variable {a : Assembler} {lines : List Line}

/-- A jump lands as the table of labels says. -/
theorem Keeps.lands_iff (h : a.Keeps lines) (jump : Fixup) :
    Lands (Line.position? 0 · lines) jump ↔ ∃ target, a.labels[jump.label]? = some (some target) ∧
      Fits jump.isLong (target - jump.endPosition) := by
  refine exists_congr fun target => and_congr_left' ?_
  by_cases hlt : jump.label < a.labels.size
  · rw [h.labels _ hlt, Option.some_inj]
  · have hfresh : Line.position? 0 jump.label lines = none := h.fresh _ (Nat.le_of_not_lt hlt)
    simp [Array.getElem?_eq_none (Nat.le_of_not_lt hlt), hfresh]

theorem patch_ok_iff (bytes : Array UInt8) (jump : Fixup) (target : Nat) :
    (∃ bytes', patch bytes jump target = .ok bytes') ↔
      Fits jump.isLong (target - jump.endPosition) := by
  unfold patch Fits
  cases jump.isLong with
  | true =>
    by_cases hfits : -32768 ≤ (target : Int) - jump.endPosition ∧ (target : Int) - jump.endPosition ≤ 32767
    · exact iff_of_true ⟨_, if_pos hfits⟩ hfits
    · refine iff_of_false (fun ⟨_, h⟩ => ?_) hfits
      cases (if_neg hfits).symm.trans h
  | false =>
    by_cases hfits : -128 ≤ (target : Int) - jump.endPosition ∧ (target : Int) - jump.endPosition ≤ 127
    · exact iff_of_true ⟨_, if_pos hfits⟩ hfits
    · refine iff_of_false (fun ⟨_, h⟩ => ?_) hfits
      cases (if_neg hfits).symm.trans h

/-- The first jump that does not land, if there is one, leads to a label that does not exist. -/
def Strays (labels : Array (Option Nat)) : List Fixup → Prop
  | [] => False
  | jump :: rest =>
    match labels[jump.label]? with
    | none => True
    | some none => False
    | some (some target) => Fits jump.isLong (target - jump.endPosition) ∧ Strays labels rest

/-- The offsets are filled in if all jumps land. Without a label there is no table entry to read. -/
theorem resolve_cases (labels : Array (Option Nat)) (bytes : Array UInt8) (jumps : List Fixup) :
    ((∃ bytes', resolve labels bytes jumps = .ok bytes') ↔ ∀ jump ∈ jumps, ∃ target,
      labels[jump.label]? = some (some target) ∧ Fits jump.isLong (target - jump.endPosition)) ∧
    ((∃ cause, resolve labels bytes jumps = .error (.fatal cause)) ↔ Strays labels jumps) := by
  induction jumps generalizing bytes with
  | nil => simp [resolve, Strays]
  | cons jump rest ih =>
    cases hlabel : labels[jump.label]? with
    | none => simp [resolve, Strays, hlabel]
    | some bound =>
      cases bound with
      | none => simp [resolve, Strays, hlabel]
      | some target =>
        have hpatch := patch_ok_iff bytes jump target
        cases hpatched : patch bytes jump target with
        | error problem =>
          rw [hpatched] at hpatch
          have hfar : ¬ Fits jump.isLong (target - jump.endPosition) := fun h => by
            obtain ⟨_, h⟩ := hpatch.mpr h
            cases h
          simp [resolve, Strays, hlabel, hpatched, hfar]
        | ok patched =>
          have hfits := hpatch.mp ⟨patched, hpatched⟩
          simp [resolve, Strays, hlabel, hpatched, hfits, ih patched]

/-- The counts that the header of a method says are small enough. -/
structure HeaderFits (a : Assembler) : Prop where
  args : a.argCount ≤ MethodHeader.maxArguments
  temporaries : a.argCount + a.extraTemps ≤ MethodHeader.maxTemporaries
  depth : a.maxDepth + spareSlots ≤ MethodHeader.maxStackDepth
  primitive : a.primitive ≤ MethodHeader.maxPrimitive

theorem header_ok_iff (a : Assembler) : (∃ header, a.header = .ok header) ↔ a.HeaderFits := by
  constructor
  · rintro ⟨header, hok⟩
    unfold Assembler.header MethodHeader.make at hok
    repeat' split at hok
    all_goals cases hok
    constructor <;> omega
  · rintro ⟨hargs, htemporaries, hdepth, hprimitive⟩
    unfold Assembler.header MethodHeader.make
    rw [if_neg (by omega), if_neg (by omega), if_neg (by omega), if_neg (by omega), if_neg (by omega)]
    exact ⟨_, rfl⟩

/-- Jumps land and counts fit. -/
structure Sound (a : Assembler) (lines : List Line) : Prop extends a.HeaderFits where
  lands : ∀ jump ∈ Line.fixups 0 lines, Lands (Line.position? 0 · lines) jump
  literals : a.allLiterals.length ≤ maxLiterals

/-- Assembling ends for good: a jump leads to a label that does not exist, and all jumps before it
land, or all of them land and a count does not fit a word. -/
def Crashes (a : Assembler) (lines : List Line) : Prop :=
  Strays a.labels (Line.fixups 0 lines) ∨
    (∀ jump ∈ Line.fixups 0 lines, Lands (Line.position? 0 · lines) jump) ∧ a.countsFit = false

/-- Counts that a header says fit a word. -/
theorem HeaderFits.countsFit (h : a.HeaderFits) : a.countsFit = true := by
  have hdepth : a.maxDepth + spareSlots < countLimit := Nat.lt_of_le_of_lt h.depth (by decide)
  have htemporaries : a.argCount + a.extraTemps < countLimit :=
    Nat.lt_of_le_of_lt h.temporaries (by decide)
  simp [Assembler.countsFit, hdepth, htemporaries]

section Draft

variable {bytes : Array UInt8} {header : MethodHeader}

theorem draft_of_error {refusal : Refusal}
    (h : resolve a.labels a.bytes a.fixups.toList = .error refusal) : a.draft = .error refusal := by
  unfold draft
  rw [h]
  rfl

variable (h : resolve a.labels a.bytes a.fixups.toList = .ok bytes)

include h

theorem draft_of_overflow (hcounts : a.countsFit = false) :
    a.draft = .error (.fatal (.fault .overflow)) := by
  unfold draft
  rw [h, hcounts]
  rfl

theorem draft_of_badHeader (hcounts : a.countsFit = true) {problem : HeaderProblem}
    (hheader : a.header = .error problem) : a.draft = .error (.failure (.header problem)) := by
  unfold draft
  rw [h, hcounts, hheader]
  rfl

theorem draft_of_header (hcounts : a.countsFit = true) (hheader : a.header = .ok header) :
    a.draft = if maxLiterals < a.allLiterals.length then
      .error (.failure (.assembly (.tooManyLiterals a.allLiterals.length)))
    else .ok ⟨header, a.allLiterals, bytes.toList⟩ := by
  unfold draft
  rw [h, hcounts, hheader]
  by_cases hmany : maxLiterals < a.allLiterals.length
  · rw [if_pos hmany]
    show (if maxLiterals < a.allLiterals.length then _ else _) = _
    rw [if_pos hmany]
    rfl
  · rw [if_neg hmany]
    show (if maxLiterals < a.allLiterals.length then _ else _) = _
    rw [if_neg hmany]
    rfl

end Draft

theorem error_ne_ok {α ε : Type} {e : ε} : ¬ ∃ value : α, Except.error e = .ok value := by
  rintro ⟨_, h⟩
  cases h

theorem failure_ne_fatal {α : Type} {failure : Failure} :
    ¬ ∃ cause, (.error (.failure failure) : Except Refusal α) = .error (.fatal cause) := by
  rintro ⟨_, h⟩
  cases h

theorem ok_ne_fatal {α : Type} {value : α} :
    ¬ ∃ cause, (.ok value : Except Refusal α) = .error (.fatal cause) := by
  rintro ⟨_, h⟩
  cases h

/-- There is a draft of a method exactly if its jumps land and its counts fit. Otherwise there is a
report, unless assembling ends for good. -/
theorem Keeps.draft_cases (h : a.Keeps lines) :
    ((∃ draft, a.draft = .ok draft) ↔ a.Sound lines) ∧
    ((∃ cause, a.draft = .error (.fatal cause)) ↔ a.Crashes lines) := by
  obtain ⟨hok, hfatal⟩ := resolve_cases a.labels a.bytes (Line.fixups 0 lines)
  simp only [← h.lands_iff] at hok
  rw [← h.fixups] at hok hfatal
  unfold Crashes
  rw [← h.fixups]
  cases hresolve : resolve a.labels a.bytes a.fixups.toList with
  | error refusal =>
    rw [hresolve] at hok hfatal
    rw [draft_of_error hresolve]
    have hnot : ¬ ∀ jump ∈ a.fixups.toList, Lands (Line.position? 0 · lines) jump :=
      fun hlands => error_ne_ok (hok.mpr hlands)
    have hcause : (∃ cause, (.error refusal : Except Refusal Draft) = .error (.fatal cause)) ↔
        Strays a.labels a.fixups.toList := by
      rw [← hfatal]
      simp
    refine ⟨iff_of_false error_ne_ok fun hsound => hnot (h.fixups ▸ hsound.lands), ?_⟩
    rw [hcause]
    exact ⟨.inl, fun h => h.elim id fun h => absurd h.1 hnot⟩
  | ok bytes =>
    rw [hresolve] at hok hfatal
    have hlands := hok.mp ⟨bytes, rfl⟩
    have hstays : ¬ Strays a.labels a.fixups.toList := fun hstrays => ok_ne_fatal (hfatal.mpr hstrays)
    have hheader := a.header_ok_iff
    cases hcounts : a.countsFit with
    | false =>
      rw [draft_of_overflow hresolve hcounts]
      refine ⟨iff_of_false error_ne_ok fun hsound => ?_, iff_of_true ⟨_, rfl⟩ (.inr ⟨hlands, rfl⟩)⟩
      rw [hsound.countsFit] at hcounts
      cases hcounts
    | true =>
      have hcrashes : ¬ (Strays a.labels a.fixups.toList ∨
          (∀ jump ∈ a.fixups.toList, Lands (Line.position? 0 · lines) jump) ∧ true = false) :=
        fun h => h.elim hstays fun h => Bool.noConfusion h.2
      cases hmade : a.header with
      | error problem =>
        rw [hmade] at hheader
        rw [draft_of_badHeader hresolve hcounts hmade]
        exact ⟨iff_of_false error_ne_ok fun hsound => error_ne_ok (hheader.mpr hsound.toHeaderFits),
          iff_of_false failure_ne_fatal hcrashes⟩
      | ok header =>
        have hfits := hheader.mp ⟨header, hmade⟩
        rw [draft_of_header hresolve hcounts hmade]
        by_cases hmany : maxLiterals < a.allLiterals.length
        · rw [if_pos hmany]
          exact ⟨iff_of_false error_ne_ok fun hsound => Nat.not_le.mpr hmany hsound.literals,
            iff_of_false failure_ne_fatal hcrashes⟩
        · rw [if_neg hmany]
          exact ⟨iff_of_true ⟨_, rfl⟩ ⟨hfits, h.fixups ▸ hlands, Nat.le_of_not_lt hmany⟩,
            iff_of_false ok_ne_fatal hcrashes⟩

/-! ## Methods asked for one after another -/

/-- The assembler after so many methods were asked of it. -/
def asked (a : Assembler) : Nat → Assembler
  | 0 => a
  | count + 1 => (a.asked count).finish.2

/-- Only the note of an assembler is forgotten, and only if something was reported. -/
theorem finish_snd (a : Assembler) (hdepth : a.maxDepth < countLimit) :
    a.finish.2 = { a with problem? := none } := by
  unfold finish
  rw [if_neg (Nat.not_le.mpr hdepth)]
  cases hnote : a.problem? with
  | none => exact congrArg (fun note => { a with problem? := note }) hnote
  | some problem => rfl

theorem asked_succ (a : Assembler) (hdepth : a.maxDepth < countLimit) (count : Nat) :
    a.asked (count + 1) = { a with problem? := none } := by
  induction count with
  | zero => exact finish_snd a hdepth
  | succ count ih => rw [asked, ih, finish_snd _ (by exact hdepth)]

/-- Values that are deeper than a word can count end it for good, whoever asks. -/
theorem asked_of_deep (a : Assembler) (hdepth : countLimit ≤ a.maxDepth) (count : Nat) :
    (a.asked count).finish.1 = .error (.fatal (.fault .overflow)) := by
  have hasked : a.asked count = a := by
    induction count with
    | zero => rfl
    | succ count ih =>
      rw [asked, ih, finish, if_pos hdepth]
  rw [hasked, finish, if_pos hdepth]

/-- What is noted when a method is asked for again. -/
def notedAfter (count : Nat) (problems : List AssemblyProblem) : List AssemblyProblem :=
  if count = 0 then problems else []

/-- A note is reported instead of a draft. -/
theorem finish_fst (a : Assembler) (hdepth : a.maxDepth < countLimit) :
    (∃ problem, a.problem? = some problem ∧
      a.finish.1 = .error (.failure (.during .assembling (.assembly problem)))) ∨
    a.problem? = none ∧ a.finish.1 = a.draft := by
  unfold finish
  rw [if_neg (Nat.not_le.mpr hdepth)]
  cases a.problem? with
  | none => exact .inr ⟨rfl, rfl⟩
  | some problem => exact .inl ⟨problem, rfl, rfl⟩

/-- What is reported when a method is asked for once more: the first mistake the first time, and from
then on only what is still wrong. -/
theorem finish_asked {requests : List Request} {argCount : Nat}
    (ha : (ofArgCount argCount).takeAll requests = a) (hdepth : a.maxDepth < countLimit)
    (count : Nat) :
    (∃ problem, (notedAfter count ((ofArgCount argCount).mistakesOf requests)).head? = some problem ∧
      (a.asked count).finish.1 = .error (.failure (.during .assembling (.assembly problem)))) ∨
    notedAfter count ((ofArgCount argCount).mistakesOf requests) = [] ∧
      (a.asked count).finish.1 = a.draft := by
  cases count with
  | zero =>
    have hnotes := Notes.takeAll (ofArgCount argCount) requests
    rw [Notes, ha, show (ofArgCount argCount).problem? = none from rfl, Option.none_or] at hnotes
    rw [notedAfter, if_pos rfl, ← List.head?_eq_none_iff, ← hnotes]
    exact finish_fst a hdepth
  | succ count =>
    refine .inr ⟨rfl, ?_⟩
    rw [asked_succ a hdepth, finish, if_neg (Nat.not_le.mpr hdepth)]
    rfl

end Assembler

namespace Machine

variable {a : Assembler} {failure : Failure}

/-- A method that is refused leaves the machine as it was. -/
theorem build_refused (h : a.finish.1 = .error (.failure failure)) (cls : Ref) (m : Machine) :
    build a cls m = .failed failure m := by
  unfold build
  rw [h]
  rfl

/-- Nothing is added to a class then, and the report names the class. -/
theorem install_refused (h : a.finish.1 = .error (.failure failure)) {m : Machine} {cls : Ref}
    {name : String} (hname : m.className cls = .ok name) (selector : String) :
    install a cls selector m = .failed (.during (.installing name selector) failure) m := by
  have hbuild : Action.attempt (build a cls) { m with pinned := m.pinned.push cls } =
      .ok (.error failure) { m with pinned := m.pinned.push cls } := by
    unfold Action.attempt
    rw [build_refused h]
  have hunpin : unpin { m with pinned := m.pinned.push cls } = .ok cls m := by
    simp [unpin]
  have hcompile : compileFor a cls m = .ok (.error failure, cls) m := by
    show (Action.bind (Action.attempt (build a cls)) fun method => Action.bind unpin fun cls =>
      Action.pure (method, cls)) { m with pinned := m.pinned.push cls } = _
    unfold Action.bind
    rw [hbuild]
    dsimp only
    rw [hunpin]
    rfl
  unfold install buildInto
  simp only [bind, Action.bind, hcompile, Action.inspect, hname]
  rfl

end Machine

namespace Assembler

/-- Whatever an assembler is asked to write, and however often a method is asked of it: there is a
draft exactly if nothing wrong is noted, every jump lands and the counts fit. The notes are the
operands that do not fit a byte, the labels bound twice and the labels with a number that was not
given yet; they are gone after the first time. Assembling ends for good only if values are too deep to
be counted, a jump leads to a label with no number or counts do not fit a word. In all other cases the
method is refused, and the machine and its classes are what they were. -/
theorem takeAll_reports (argCount : Nat) (requests : List Request) (count : Nat) {a : Assembler}
    {lines : List Line} {noted : List AssemblyProblem}
    (ha : (ofArgCount argCount).takeAll requests = a)
    (hlines : (ofArgCount argCount).linesOf requests = lines)
    (hnoted : notedAfter count ((ofArgCount argCount).mistakesOf requests) = noted) :
    ((∃ draft, (a.asked count).finish.1 = .ok draft) ↔ noted = [] ∧ a.Sound lines) ∧
    ((∃ cause, (a.asked count).finish.1 = .error (.fatal cause)) ↔
      countLimit ≤ a.maxDepth ∨ noted = [] ∧ a.Crashes lines) ∧
    (a.maxDepth < countLimit → noted ≠ [] ∨ ¬ a.Sound lines ∧ ¬ a.Crashes lines →
      ∃ failure, ∀ (m : Machine) (cls : Ref), Machine.build (a.asked count) cls m = .failed failure m ∧
        ∀ selector name, m.className cls = .ok name → Machine.install (a.asked count) cls selector m =
          .failed (.during (.installing name selector) failure) m) := by
  have hkeeps : a.Keeps lines := by
    rw [← ha, ← hlines]
    exact ((Written.begin argCount).takeAll requests).keeps
  obtain ⟨hok, hfatal⟩ := hkeeps.draft_cases
  by_cases hdepth : a.maxDepth < countLimit
  · have hresult := finish_asked ha hdepth count
    rw [hnoted] at hresult
    obtain ⟨problem, hhead, hreport⟩ | ⟨rfl, hdraft⟩ := hresult
    · have hne : noted ≠ [] := by
        rintro rfl
        cases hhead
      rw [hreport]
      refine ⟨iff_of_false error_ne_ok fun h => hne h.1, iff_of_false failure_ne_fatal ?_, ?_⟩
      · exact fun h => h.elim (Nat.not_le.mpr hdepth) fun h => hne h.1
      · intro _ _
        exact ⟨_, fun m cls => ⟨Machine.build_refused hreport cls m,
          fun selector name hname => Machine.install_refused hreport hname selector⟩⟩
    · rw [hdraft]
      refine ⟨by simp [hok], by simp [hfatal, Nat.not_le.mpr hdepth], fun _ hwrong => ?_⟩
      obtain ⟨hunsound, hgoes⟩ := hwrong.resolve_left fun h => h rfl
      cases hresult : a.draft with
      | ok draft => exact absurd (hok.mp ⟨draft, hresult⟩) hunsound
      | error refusal =>
        cases refusal with
        | fatal cause => exact absurd (hfatal.mp ⟨cause, hresult⟩) hgoes
        | failure failure =>
          have hrefused := hdraft.trans hresult
          exact ⟨failure, fun m cls => ⟨Machine.build_refused hrefused cls m,
            fun selector name hname => Machine.install_refused hrefused hname selector⟩⟩
  · have hdeep := Nat.le_of_not_lt hdepth
    rw [asked_of_deep a hdeep]
    refine ⟨iff_of_false error_ne_ok fun h => ?_, iff_of_true ⟨_, rfl⟩ (.inl hdeep),
      fun h => absurd h hdepth⟩
    have hfits := h.2.depth
    have hlimit : MethodHeader.maxStackDepth < countLimit := by decide
    omega

/-- A temporary whose index does not fit a byte. -/
def farTemporary : List Request := [.code (.push (.temporary 300)), .code (.methodReturn .top)]

/-- The method is refused the first time and leaves the machine as it was; asked for once more it is
there, with the operand that stands in for the index. -/
theorem farTemporary_reports :
    (∃ failure, ∀ (m : Machine) (cls : Ref),
      Machine.build (((ofArgCount 0).takeAll farTemporary).asked 0) cls m = .failed failure m ∧
        ∀ selector name, m.className cls = .ok name →
          Machine.install (((ofArgCount 0).takeAll farTemporary).asked 0) cls selector m =
            .failed (.during (.installing name selector) failure) m) ∧
    ∃ draft, (((ofArgCount 0).takeAll farTemporary).asked 1).finish.1 = .ok draft := by
  refine ⟨(takeAll_reports 0 farTemporary 0 rfl rfl rfl).2.2 (by decide) (.inl (by decide)),
    (takeAll_reports 0 farTemporary 1 rfl rfl rfl).1.mpr ⟨rfl, ?_⟩⟩
  exact
    { args := by decide
      temporaries := by decide
      depth := by decide
      primitive := by decide
      lands := by decide
      literals := by decide }

end Assembler

end ObjectMachine
