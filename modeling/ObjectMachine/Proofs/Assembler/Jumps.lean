import ObjectMachine.Assembler.Draft
import ObjectMachine.Proofs.Instruction.Codec

/-!
# Jumps and their labels

Jumps are written before it is known where they lead, and their offsets are filled in at the end. The
lines of a method are what an assembler is told to write, with a mark where a label is bound. The
bytes, the labels and the jumps to fill in are read off the lines, and filling in the offsets, one
jump after another, changes the operands of jumps and nothing else.

## Main results

* `Assembler.Keeps.add`: what an assembler holds is what its lines say.
* `Assembler.resolve_eq`: the offsets are filled in, or one cannot be.
* `Assembler.Written.resolve`: jumps land on their labels.
-/

namespace ObjectMachine

namespace Assembler

/-! ## Lines -/

/-- What an assembler is told to write. -/
inductive Line where
  /-- An instruction that is no jump to a label. -/
  | instruction (i : Instruction)
  | jump (branch : Branch) (isLong : Bool) (label : Nat)
  /-- A label designates what comes next. -/
  | mark (label : Nat)

/-- A jump by an offset that fits. -/
def jumpBy (branch : Branch) (isLong : Bool) (offset : Int) : Instruction :=
  if isLong then .longJump branch (Int16.ofInt offset) else .jump branch (Int8.ofInt offset)

namespace Line

/-- What stands in the bytes for a line before the offsets are known. -/
def draft : Line → List Instruction
  | .instruction i => [i]
  | .jump branch isLong _ => [jumpBy branch isLong 0]
  | .mark _ => []

/-- The jumps of lines, the first of which is at `pc`. -/
def fixups (pc : Nat) : List Line → List Fixup
  | [] => []
  | .instruction i :: rest => fixups (pc + i.width) rest
  | .jump branch isLong label :: rest =>
    let next := pc + (jumpBy branch isLong 0).width
    ⟨label, next, isLong⟩ :: fixups next rest
  | .mark _ :: rest => fixups pc rest

/-- Where a label is bound for the first time in lines, the first of which is at `pc`. -/
def position? (pc : Nat) (label : Nat) : List Line → Option Nat
  | [] => none
  | .instruction i :: rest => position? (pc + i.width) label rest
  | .jump branch isLong _ :: rest => position? (pc + (jumpBy branch isLong 0).width) label rest
  | .mark number :: rest => if number = label then some pc else position? pc label rest

end Line

/-- The lines of a mark, which is made only for a label that exists. -/
def markLines (a : Assembler) (number : Nat) : List Line :=
  if number < a.labels.size then [.mark number] else []

/-- The line of a send by an instruction with a selector and an argument count. -/
def sendLine (a : Assembler) (make : UInt8 → UInt8 → Instruction) (selector : String)
    (argCount : Nat) : Line :=
  let (index, a) := a.literalOperand (.symbol selector)
  .instruction (make index (a.operand .argCount argCount).1)

mutual

/-- The lines of a piece of code. -/
def lines (a : Assembler) : Code → List Line
  | .push place => let (kind, index, _) := a.placeOperand place; [.instruction (.push kind index)]
  | .store place => let (kind, index, _) := a.placeOperand place; [.instruction (.store kind index)]
  | .popInto place =>
    let (kind, index, _) := a.placeOperand place
    [.instruction (.popInto kind index)]
  | .constant value => [.instruction (.constant value)]
  | .thisContext => [.instruction .thisContext]
  | .integer value =>
    if value = -1 then [.instruction (.constant .minusOne)]
    else if value = 0 then [.instruction (.constant .zero)]
    else if value = 1 then [.instruction (.constant .one)]
    else if value = 2 then [.instruction (.constant .two)]
    else [.instruction (.pushLiteral (a.literalOperand (.integer value)).1)]
  | .literal value => [.instruction (.pushLiteral (a.literalOperand value).1)]
  | .dup => [.instruction .dup]
  | .pop => [.instruction .pop]
  | .methodReturn answer => [.instruction (.methodReturn answer)]
  | .blockReturn => [.instruction .blockReturn]
  | .send selector argCount =>
    match specialIndex? selector argCount with
    | some index => [.instruction (.special index.toUInt8)]
    | none => [a.sendLine .send selector argCount]
  | .sendGeneral selector argCount => [a.sendLine .send selector argCount]
  | .superSend selector argCount =>
    [{ a with usesSuper := true }.sendLine .superSend selector argCount]
  | .bind label => let (number, a) := a.labelNumber label; a.markLines number
  | .jump branch label => [.jump branch true (a.labelNumber label).1]
  | .shortJump branch label => [.jump branch false (a.labelNumber label).1]
  | .block argCount body =>
    let (last, opened) := a.openBlock argCount
    [.instruction (.createBlock (a.operand .blockArgCount argCount).1), .jump .always true last] ++
      ({ opened with depth := 0 }.grow argCount).linesAll body ++ [.mark last]
  | .whileTrue condition body =>
    let (start, a) := a.newLabel
    let (done, a) := a.newLabel
    let entered := a.bindNumber start
    let left := (entered.addAll condition).jumpToNumber .ifFalse true done
    .mark start :: entered.linesAll condition ++ .jump .ifFalse true done :: left.linesAll body ++
      [.jump .always true start, .mark done]
  | .ifTrueIfFalse yes no =>
    let (otherwise, a) := a.newLabel
    let (done, a) := a.newLabel
    let a := a.jumpToNumber .ifFalse true otherwise
    let last := (a.addAll yes).jumpToNumber .always true done
    .jump .ifFalse true otherwise :: a.linesAll yes ++
      [.jump .always true done, .mark otherwise] ++
      ({ last with depth := a.depth }.bindNumber otherwise).linesAll no ++ [.mark done]

/-- The lines of pieces of code. -/
def linesAll (a : Assembler) : List Code → List Line
  | [] => []
  | piece :: rest => a.lines piece ++ (a.add piece).linesAll rest

end

/-! ## Lines one after another -/

/-- The bytes of lines before the offsets are known. -/
def draftBytes (lines : List Line) : List UInt8 :=
  Instruction.bytesOf (lines.flatMap Line.draft)

@[simp] theorem draftBytes_nil : draftBytes [] = [] := rfl

theorem draftBytes_cons (line : Line) (lines : List Line) :
    draftBytes (line :: lines) = Instruction.bytesOf line.draft ++ draftBytes lines := by
  simp [draftBytes]

namespace Line

theorem fixups_append (pc : Nat) (lines more : List Line) :
    fixups pc (lines ++ more) = fixups pc lines ++ fixups (pc + (draftBytes lines).length) more := by
  induction lines generalizing pc with
  | nil => rfl
  | cons line lines ih =>
    cases line <;>
      simp [fixups, ih, draftBytes_cons, draft, Instruction.length_encode, Nat.add_assoc]

theorem position?_append (pc label : Nat) (lines more : List Line) :
    position? pc label (lines ++ more) =
      (position? pc label lines).or (position? (pc + (draftBytes lines).length) label more) := by
  induction lines generalizing pc with
  | nil => rfl
  | cons line lines ih =>
    cases line with
    | mark number =>
      rw [List.cons_append, position?, position?]
      split
      · rfl
      · simp [ih, draftBytes_cons, draft]
    | _ => simp [position?, ih, draftBytes_cons, draft, Instruction.length_encode, Nat.add_assoc]

end Line

/-! ## What an assembler holds -/

/-- What the jumps of an assembler depend on. -/
def listing (a : Assembler) : Array UInt8 × Array Fixup × Array (Option Nat) :=
  (a.bytes, a.fixups, a.labels)

@[simp] theorem listing_report (a : Assembler) (problem : AssemblyProblem) :
    (a.report problem).listing = a.listing := by
  unfold report
  split <;> rfl

@[simp] theorem listing_grow (a : Assembler) (count : Nat) : (a.grow count).listing = a.listing :=
  rfl

@[simp] theorem listing_shrink (a : Assembler) (count : Nat) :
    (a.shrink count).listing = a.listing :=
  rfl

@[simp] theorem listing_operand (a : Assembler) (kind : OperandKind) (value : Nat) :
    (a.operand kind value).2.listing = a.listing := by
  unfold operand
  split <;> simp

@[simp] theorem listing_literalOperand (a : Assembler) (value : Literal) :
    (a.literalOperand value).2.listing = a.listing := by
  have hplace : (a.literalPlace value).2.listing = a.listing := by
    unfold literalPlace
    split <;> rfl
  rw [literalOperand, listing_operand, hplace]

@[simp] theorem listing_placeOperand (a : Assembler) (place : Place) :
    (a.placeOperand place).2.2.listing = a.listing := by
  cases place <;> simp [placeOperand]

/-- An assembler holds what lines say: the bytes, the jumps to fill in, and where each of its labels
is bound. -/
structure Keeps (a : Assembler) (lines : List Line) : Prop where
  bytes : a.bytes.toList = draftBytes lines
  fixups : a.fixups.toList = Line.fixups 0 lines
  labels : ∀ number < a.labels.size, a.labels[number]? = some (Line.position? 0 number lines)
  fresh : ∀ number, a.labels.size ≤ number → Line.position? 0 number lines = none
  valid : ∀ i, .instruction i ∈ lines → i.IsValid

namespace Keeps

variable {a a' : Assembler} {lines : List Line}

theorem of_listing (h : a.Keeps lines) (heq : a'.listing = a.listing) : a'.Keeps lines := by
  obtain ⟨hbytes, hfixups, hlabels⟩ : a'.bytes = a.bytes ∧ a'.fixups = a.fixups ∧
      a'.labels = a.labels := by simpa [listing] using heq
  exact ⟨hbytes ▸ h.bytes, hfixups ▸ h.fixups, hlabels ▸ h.labels, hlabels ▸ h.fresh, h.valid⟩

theorem length (h : a.Keeps lines) : (draftBytes lines).length = a.position := by
  rw [← h.bytes, Array.length_toList, position]

theorem ofArgCount (argCount : Nat) : (ofArgCount argCount).Keeps [] where
  bytes := rfl
  fixups := rfl
  labels := by simp [Assembler.ofArgCount]
  fresh := by simp [Line.position?]
  valid := by simp

theorem emit (h : a.Keeps lines) {i : Instruction} (hi : i.IsValid) :
    (a.emit i).Keeps (lines ++ [.instruction i]) where
  bytes := by
    simp [Assembler.emit, h.bytes, draftBytes, Line.draft]
  fixups := by simp [Assembler.emit, h.fixups, Line.fixups_append, Line.fixups]
  labels number hnumber := by
    simpa [Assembler.emit, Line.position?_append, Line.position?] using h.labels number hnumber
  fresh number hnumber := by
    simpa [Line.position?_append, Line.position?] using h.fresh number hnumber
  valid j hj := by
    obtain hj | hj := List.mem_append.mp hj
    · exact h.valid j hj
    · obtain rfl : j = i := by simpa using hj
      exact hi

theorem newLabel (h : a.Keeps lines) : a.newLabel.2.Keeps lines where
  bytes := h.bytes
  fixups := h.fixups
  labels number hnumber := by
    have hcases : number < a.labels.size ∨ number = a.labels.size := by
      simp [Assembler.newLabel] at hnumber
      omega
    obtain hlt | rfl := hcases
    · have hold := h.labels number hlt
      simpa [Assembler.newLabel, Array.getElem?_push, Nat.ne_of_lt hlt] using hold
    · simp [Assembler.newLabel, h.fresh _ (Nat.le_refl _)]
  fresh number hnumber := by
    apply h.fresh
    simp [Assembler.newLabel] at hnumber
    omega
  valid := h.valid

/-- A mark has no bytes and no jump. Its label is bound unless it is already. -/
theorem mark (h : a.Keeps lines) {number : Nat} (labels : Array (Option Nat))
    (hsize : labels.size = a.labels.size) (hlt : number < a.labels.size)
    (hself : labels[number]? = some ((Line.position? 0 number lines).or (some a.position)))
    (hother : ∀ k, k ≠ number → labels[k]? = a.labels[k]?) :
    Keeps { a with labels } (lines ++ [.mark number]) where
  bytes := by simp [h.bytes, draftBytes, Line.draft]
  fixups := by simp [h.fixups, Line.fixups_append, Line.fixups]
  labels k hk := by
    rw [Line.position?_append, Nat.zero_add, h.length]
    by_cases heq : k = number
    · subst heq
      simpa [Line.position?] using hself
    · rw [hother k heq, h.labels k (hsize ▸ hk)]
      simp [Line.position?, Ne.symm heq]
  fresh k hk := by
    have hne : number ≠ k := by
      simp only [hsize] at hk
      omega
    rw [Line.position?_append, h.fresh k (hsize ▸ hk)]
    simp [Line.position?, hne]
  valid i hi := h.valid i (by simpa using hi)

/-- Only the first mark of a label counts. -/
theorem bindNumber (h : a.Keeps lines) (number : Nat) :
    (a.bindNumber number).Keeps (lines ++ a.markLines number) := by
  unfold markLines
  by_cases hlt : number < a.labels.size
  · have hlabel := h.labels number hlt
    rw [if_pos hlt]
    cases hposition : Line.position? 0 number lines with
    | none =>
      rw [hposition] at hlabel
      simp only [Assembler.bindNumber, hlabel]
      refine h.mark (a.labels.setIfInBounds number (some a.position)) (by simp) hlt
        (by simp [hposition, hlt]) fun k hk => ?_
      simp [Ne.symm hk]
    | some position =>
      rw [hposition] at hlabel
      have hsame : (a.bindNumber number).listing = a.listing := by
        simp [Assembler.bindNumber, hlabel]
      refine (h.mark a.labels rfl hlt ?_ fun _ _ => rfl).of_listing hsame
      rw [hlabel, hposition, Option.some_or]
  · rw [if_neg hlt, List.append_nil]
    have hnone : a.labels[number]? = none := Array.getElem?_eq_none (Nat.le_of_not_lt hlt)
    exact h.of_listing (by simp [Assembler.bindNumber, hnone])

theorem jumpToNumber (h : a.Keeps lines) (branch : Branch) (isLong : Bool) (number : Nat) :
    (a.jumpToNumber branch isLong number).Keeps (lines ++ [.jump branch isLong number]) := by
  have hdraft : (if isLong then Instruction.longJump branch 0 else .jump branch 0) =
      jumpBy branch isLong 0 := by cases isLong <;> rfl
  have hshrunk : (if branch = .always then a else a.shrink 1).Keeps lines :=
    h.of_listing (by split <;> rfl)
  have hemitted := hshrunk.emit (i := jumpBy branch isLong 0) (by cases isLong <;> trivial)
  have hlength := hemitted.length
  simp only [Assembler.jumpToNumber, hdraft]
  refine ⟨?_, ?_, ?_, ?_, fun i hi => h.valid i (by simpa using hi)⟩
  · simpa [draftBytes, Line.draft] using hemitted.bytes
  · have hfixups := hemitted.fixups
    rw [Line.fixups_append] at hfixups ⊢
    simp only [Line.fixups, List.append_nil] at hfixups
    simp only [Array.toList_push, hfixups, Line.fixups, ← hlength]
    simp [draftBytes, Line.draft, Instruction.length_encode]
  · simpa [Line.position?_append, Line.position?] using hemitted.labels
  · simpa [Line.position?_append, Line.position?] using hemitted.fresh

end Keeps

/-- An assembler that became another one by what lines say. -/
structure Extends (a : Assembler) (lines : List Line) (a' : Assembler) : Prop where
  keeps : ∀ before, a.Keeps before → a'.Keeps (before ++ lines)
  labels : a.labels.size ≤ a'.labels.size

namespace Extends

variable {a b c : Assembler} {lines more : List Line}

theorem of_listing (heq : b.listing = a.listing) : a.Extends [] b where
  keeps before h := by
    rw [List.append_nil]
    exact h.of_listing heq
  labels := by
    have hlabels : b.labels = a.labels := congrArg (·.2.2) heq
    exact Nat.le_of_eq (congrArg Array.size hlabels.symm)

theorem trans (h : a.Extends lines b) (h' : b.Extends more c) : a.Extends (lines ++ more) c where
  keeps before hbefore := by
    rw [← List.append_assoc]
    exact h'.keeps _ (h.keeps before hbefore)
  labels := Nat.le_trans h.labels h'.labels

/-- Bookkeeping after something was written. -/
theorem listing (h : a.Extends lines b) (heq : c.listing = b.listing) : a.Extends lines c := by
  simpa using h.trans (of_listing heq)

theorem emit (a : Assembler) {i : Instruction} (hi : i.IsValid) :
    a.Extends [.instruction i] (a.emit i) where
  keeps _ h := h.emit hi
  labels := Nat.le_refl _

/-- An instruction after bookkeeping. -/
theorem emit_after (heq : b.listing = a.listing) {i : Instruction} (hi : i.IsValid) :
    a.Extends [.instruction i] (b.emit i) :=
  (of_listing heq).trans (emit b hi)

theorem newLabel (a : Assembler) : a.Extends [] a.newLabel.2 where
  keeps before h := by
    rw [List.append_nil]
    exact h.newLabel
  labels := by simp [Assembler.newLabel]

theorem lt_newLabel (a : Assembler) : a.newLabel.1 < a.newLabel.2.labels.size := by
  simp [Assembler.newLabel]

theorem lt_openBlock (a : Assembler) (argCount : Nat) :
    (a.openBlock argCount).1 < (a.openBlock argCount).2.labels.size :=
  Nat.lt_of_lt_of_le (lt_newLabel _) (Nat.le_of_eq rfl)

theorem labelNumber (a : Assembler) (label : Label) : a.Extends [] (a.labelNumber label).2 := by
  cases label with
  | numbered number => exact of_listing rfl
  | named name =>
    simp only [Assembler.labelNumber]
    split
    · exact of_listing rfl
    · exact (newLabel a).listing rfl

theorem bindNumber (a : Assembler) (number : Nat) :
    a.Extends (a.markLines number) (a.bindNumber number) where
  keeps _ h := h.bindNumber number
  labels := by
    unfold Assembler.bindNumber report
    repeat (first | split | simp)

/-- A label that exists is marked. -/
theorem bind (b : Assembler) {number : Nat} (hlt : number < b.labels.size) :
    b.Extends [.mark number] (b.bindNumber number) := by
  simpa [markLines, hlt] using bindNumber b number

theorem jumpToNumber (a : Assembler) (branch : Branch) (isLong : Bool) (number : Nat) :
    a.Extends [.jump branch isLong number] (a.jumpToNumber branch isLong number) where
  keeps _ h := h.jumpToNumber branch isLong number
  labels := by
    simp only [Assembler.jumpToNumber, Assembler.emit]
    split <;> exact Nat.le_refl _

theorem emitSendBy (a : Assembler) {make : UInt8 → UInt8 → Instruction}
    (hmake : ∀ index count, (make index count).IsValid) (selector : String) (argCount : Nat) :
    a.Extends [a.sendLine make selector argCount] (a.emitSendBy make selector argCount) :=
  (emit_after (b := ((a.literalOperand (.symbol selector)).2.operand .argCount argCount).2)
    (by simp) (hmake _ _)).listing (listing_shrink _ _)

theorem emitLiteral (a : Assembler) (value : Literal) :
    a.Extends [.instruction (.pushLiteral (a.literalOperand value).1)] (a.emitLiteral value) :=
  (emit_after (listing_literalOperand a value) (by trivial)).listing (listing_grow _ _)

theorem openBlock (a : Assembler) (argCount : Nat) :
    a.Extends [.instruction (.createBlock (a.operand .blockArgCount argCount).1),
      .jump .always true (a.openBlock argCount).1] (a.openBlock argCount).2 :=
  ((emit_after (listing_operand a .blockArgCount argCount) (by trivial)).trans (newLabel _)).trans
    (jumpToNumber _ .always true _)

/-- There are thirty-two special selectors. -/
theorem isValid_special {selector : String} {argCount index : Nat}
    (h : specialIndex? selector argCount = some index) :
    (Instruction.special index.toUInt8).IsValid := by
  obtain ⟨hlt, -⟩ := Array.findIdx?_eq_some_iff_getElem.mp h
  have hsize : specialSelectors.size = 32 := rfl
  show index % 256 < 32
  omega

/-! ## Code -/

mutual

/-- What an assembler takes is what the lines of the code say. -/
theorem add (a : Assembler) (piece : Code) : a.Extends (a.lines piece) (a.add piece) := by
  cases piece with
  | push place => exact (emit_after (listing_placeOperand a place) (by trivial)).listing (listing_grow _ _)
  | store place => exact emit_after (listing_placeOperand a place) (by trivial)
  | popInto place => exact (emit_after (listing_placeOperand a place) (by trivial)).listing (listing_shrink _ _)
  | constant value => exact (emit a (by trivial)).listing (listing_grow _ _)
  | thisContext => exact (emit a (by trivial)).listing (listing_grow _ _)
  | integer value =>
    simp only [Assembler.add, lines, emitInteger]
    split
    · exact (emit a (by trivial)).listing (listing_grow _ _)
    split
    · exact (emit a (by trivial)).listing (listing_grow _ _)
    split
    · exact (emit a (by trivial)).listing (listing_grow _ _)
    split
    · exact (emit a (by trivial)).listing (listing_grow _ _)
    · exact emitLiteral a _
  | literal value => exact emitLiteral a value
  | dup => exact (emit a (by trivial)).listing (listing_grow _ _)
  | pop => exact (emit a (by trivial)).listing (listing_shrink _ _)
  | methodReturn answer =>
    refine (emit a (i := .methodReturn answer) (by trivial)).listing ?_
    simp only [Assembler.add, emitReturn]
    split <;> rfl
  | blockReturn => exact (emit a (by trivial)).listing (listing_shrink _ _)
  | send selector argCount =>
    simp only [Assembler.add, lines, emitSend]
    cases hindex : specialIndex? selector argCount with
    | some index => exact (emit a (isValid_special hindex)).listing (listing_shrink _ _)
    | none => exact emitSendBy a (fun _ _ => by trivial) selector argCount
  | sendGeneral selector argCount => exact emitSendBy a (fun _ _ => by trivial) selector argCount
  | superSend selector argCount =>
    have hsuper : a.Extends [] { a with usesSuper := true } := of_listing rfl
    exact hsuper.trans (emitSendBy _ (fun _ _ => by trivial) selector argCount)
  | bind label => exact (labelNumber a label).trans (bindNumber _ _)
  | jump branch label => exact (labelNumber a label).trans (jumpToNumber _ branch true _)
  | shortJump branch label => exact (labelNumber a label).trans (jumpToNumber _ branch false _)
  | block argCount body =>
    have hopened : a.Extends _ ({ (a.openBlock argCount).2 with depth := 0 }.grow argCount) :=
      (openBlock a argCount).listing rfl
    have hbody := addAll ({ (a.openBlock argCount).2 with depth := 0 }.grow argCount) body
    have hlast := Nat.lt_of_lt_of_le (lt_openBlock a argCount) hbody.labels
    exact ((hopened.trans hbody).trans (bind _ hlast)).listing rfl
  | whileTrue condition body =>
    have hdone := newLabel a.newLabel.2
    have hentered := bind a.newLabel.2.newLabel.2 (Nat.lt_of_lt_of_le (lt_newLabel a) hdone.labels)
    have hcondition := addAll (a.newLabel.2.newLabel.2.bindNumber a.newLabel.1) condition
    have hleft := jumpToNumber ((a.newLabel.2.newLabel.2.bindNumber a.newLabel.1).addAll condition)
      .ifFalse true a.newLabel.2.newLabel.1
    have hbody := addAll (((a.newLabel.2.newLabel.2.bindNumber a.newLabel.1).addAll
      condition).jumpToNumber .ifFalse true a.newLabel.2.newLabel.1) body
    have hback := hbody.trans (jumpToNumber _ .always true a.newLabel.1)
    have hafter := hentered.trans ((hcondition.trans hleft).trans hback)
    have hlast := Nat.lt_of_lt_of_le (lt_newLabel a.newLabel.2) hafter.labels
    simpa [Assembler.add, lines] using
      (((newLabel a).trans hdone).trans hafter).trans (bind _ hlast)
  | ifTrueIfFalse yes no =>
    have hdone := newLabel a.newLabel.2
    have hdecided := jumpToNumber a.newLabel.2.newLabel.2 .ifFalse true a.newLabel.1
    have hyes := addAll (a.newLabel.2.newLabel.2.jumpToNumber .ifFalse true a.newLabel.1) yes
    have hleft : (a.newLabel.2.newLabel.2.jumpToNumber .ifFalse true a.newLabel.1).Extends _
        { ((a.newLabel.2.newLabel.2.jumpToNumber .ifFalse true a.newLabel.1).addAll yes).jumpToNumber
            .always true a.newLabel.2.newLabel.1 with
          depth := (a.newLabel.2.newLabel.2.jumpToNumber .ifFalse true a.newLabel.1).depth } :=
      (hyes.trans (jumpToNumber _ .always true a.newLabel.2.newLabel.1)).listing rfl
    have hotherwise := Nat.lt_of_lt_of_le (lt_newLabel a)
      (Nat.le_trans hdone.labels (Nat.le_trans hdecided.labels hleft.labels))
    have hbound := hleft.trans (bind _ hotherwise)
    have hafter := hdecided.trans (hbound.trans (addAll _ no))
    have hlast := Nat.lt_of_lt_of_le (lt_newLabel a.newLabel.2) hafter.labels
    simpa [Assembler.add, lines] using
      (((newLabel a).trans hdone).trans hafter).trans (bind _ hlast)

theorem addAll (a : Assembler) (code : List Code) : a.Extends (a.linesAll code) (a.addAll code) := by
  cases code with
  | nil => exact of_listing rfl
  | cons piece rest =>
    rw [Assembler.addAll, linesAll]
    exact (add a piece).trans (addAll _ rest)

end

end Extends

/-! ## Filling in the offsets -/

/-- A position that a jump leads to if the offset fits. -/
def Fits (isLong : Bool) (offset : Int) : Prop :=
  if isLong then -32768 ≤ offset ∧ offset ≤ 32767 else -128 ≤ offset ∧ offset ≤ 127

/-- A jump to a label that is bound, at a distance that fits. -/
def Lands (position : Nat → Option Nat) (jump : Fixup) : Prop :=
  ∃ target, position jump.label = some target ∧ Fits jump.isLong (target - jump.endPosition)

instance (isLong : Bool) (offset : Int) : Decidable (Fits isLong offset) :=
  inferInstanceAs (Decidable (if isLong then -32768 ≤ offset ∧ offset ≤ 32767
    else -128 ≤ offset ∧ offset ≤ 127))

instance (position : Nat → Option Nat) (jump : Fixup) : Decidable (Lands position jump) :=
  inferInstanceAs (Decidable (∃ target ∈ position jump.label,
    Fits jump.isLong (target - jump.endPosition)))

/-- The instructions that lines come to when the labels are at certain positions, the first line at
`pc`. A jump leads from its end to its label. -/
inductive Assembles (position : Nat → Option Nat) : Nat → List Line → List Instruction → Prop
  | nil (pc : Nat) : Assembles position pc [] []
  | instruction {pc : Nat} {i : Instruction} {rest : List Line} {code : List Instruction}
      (hrest : Assembles position (pc + i.width) rest code) :
      Assembles position pc (.instruction i :: rest) (i :: code)
  | mark {pc label : Nat} {rest : List Line} {code : List Instruction}
      (hrest : Assembles position pc rest code) : Assembles position pc (.mark label :: rest) code
  | jump {pc label target : Nat} {branch : Branch} {isLong : Bool} {i : Instruction} {offset : Int}
      {rest : List Line} {code : List Instruction}
      (hopcode : i.opcode = if isLong then .longJump branch else .jump branch)
      (htarget : position label = some target) (hoffset : i.jumpOffset? = some offset)
      (hlands : ((pc + i.width : Nat) : Int) + offset = target)
      (hrest : Assembles position (pc + i.width) rest code) :
      Assembles position pc (.jump branch isLong label :: rest) (i :: code)

theorem toList_overwrite {front old back : List UInt8} {bytes : Array UInt8} (values : List UInt8)
    (hbytes : bytes.toList = front ++ (old ++ back)) (hlength : old.length = values.length) :
    (overwrite bytes front.length values).toList = front ++ (values ++ back) := by
  induction values generalizing front old bytes with
  | nil =>
    obtain rfl := List.eq_nil_of_length_eq_zero hlength
    simpa [overwrite] using hbytes
  | cons b values ih =>
    obtain ⟨first, old, rfl⟩ := List.exists_cons_of_length_eq_add_one hlength
    have hset : (bytes.setIfInBounds front.length b).toList = (front ++ [b]) ++ (old ++ back) := by
      simp [hbytes]
    have hrest := ih hset (by simpa using hlength)
    rw [List.length_append, List.length_singleton] at hrest
    rw [overwrite, hrest]
    simp

theorem opcode_jumpBy (branch : Branch) (isLong : Bool) (offset : Int) :
    (jumpBy branch isLong offset).opcode = if isLong then .longJump branch else .jump branch := by
  cases isLong <;> rfl

theorem width_jumpBy (branch : Branch) (isLong : Bool) (offset : Int) :
    (jumpBy branch isLong offset).width = if isLong then 3 else 2 := by
  cases isLong <;> rfl

/-- An offset that fits is not changed by the operand. -/
theorem jumpOffset?_jumpBy {isLong : Bool} {offset : Int} (h : Fits isLong offset) (branch : Branch) :
    (jumpBy branch isLong offset).jumpOffset? = some offset := by
  cases isLong with
  | true =>
    have h : -32768 ≤ offset ∧ offset ≤ 32767 := h
    show some (Int16.ofInt offset).toInt = some offset
    rw [Int16.toInt_ofInt_of_le (by omega) (by omega)]
  | false =>
    have h : -128 ≤ offset ∧ offset ≤ 127 := h
    show some (Int8.ofInt offset).toInt = some offset
    rw [Int8.toInt_ofInt_of_le (by omega) (by omega)]

/-- The offset of a jump is filled in, and nothing else is changed. -/
theorem patch_eq_ok {front back : List UInt8} {bytes : Array UInt8} {branch : Branch} {isLong : Bool}
    {target next : Nat} (label : Nat)
    (hbytes : bytes.toList = front ++ ((jumpBy branch isLong 0).encode ++ back))
    (hnext : next = front.length + (jumpBy branch isLong 0).width)
    (hfits : Fits isLong (target - next)) :
    ∃ bytes', patch bytes ⟨label, next, isLong⟩ target = .ok bytes' ∧
      bytes'.toList = front ++ ((jumpBy branch isLong (target - next)).encode ++ back) := by
  rw [width_jumpBy] at hnext
  cases isLong with
  | true =>
    have hstart : next - 2 = (front ++ [(Opcode.longJump branch).byte]).length := by
      simp [hnext]
    have hfits : -32768 ≤ (target : Int) - next ∧ (target : Int) - next ≤ 32767 := hfits
    refine ⟨_, if_pos hfits, ?_⟩
    have hdraft : bytes.toList =
        (front ++ [(Opcode.longJump branch).byte]) ++ ([0, 0] ++ back) := by
      rw [hbytes, List.append_assoc]
      rfl
    rw [hstart, toList_overwrite (Instruction.longBytes (Int16.ofInt (target - next))) hdraft rfl]
    simp [jumpBy, Instruction.encode, Instruction.opcode, Instruction.operands]
  | false =>
    have hstart : next - 1 = (front ++ [(Opcode.jump branch).byte]).length := by
      simp [hnext]
    have hfits : -128 ≤ (target : Int) - next ∧ (target : Int) - next ≤ 127 := hfits
    refine ⟨_, if_pos hfits, ?_⟩
    have hdraft : bytes.toList = (front ++ [(Opcode.jump branch).byte]) ++ ([0] ++ back) := by
      rw [hbytes, List.append_assoc]
      rfl
    rw [hstart, toList_overwrite [(Int8.ofInt (target - next)).toUInt8] hdraft rfl]
    simp [jumpBy, Instruction.encode, Instruction.opcode, Instruction.operands]

theorem patch_eq_error (bytes : Array UInt8) {isLong : Bool} {next target : Nat} (label : Nat)
    (h : ¬ Fits isLong (target - next)) :
    ∃ problem, patch bytes ⟨label, next, isLong⟩ target = .error problem := by
  cases isLong <;> exact ⟨_, if_neg h⟩

/-- One jump after another is filled in, up to one that leads to no label or too far. -/
theorem resolve_eq {labels : Array (Option Nat)} {position : Nat → Option Nat}
    (hlabels : ∀ number < labels.size, labels[number]? = some (position number))
    {lines : List Line} {front : List UInt8} {bytes : Array UInt8}
    (hbytes : bytes.toList = front ++ draftBytes lines)
    (hown : ∀ jump ∈ Line.fixups front.length lines, jump.label < labels.size) :
    (∃ bytes' code, resolve labels bytes (Line.fixups front.length lines) = .ok bytes' ∧
      Assembles position front.length lines code ∧
      bytes'.toList = front ++ Instruction.bytesOf code ∧
      ∀ jump ∈ Line.fixups front.length lines, Lands position jump) ∨
    (∃ problem, resolve labels bytes (Line.fixups front.length lines) =
        .error (.failure (.assembly problem))) ∧
      ∃ jump ∈ Line.fixups front.length lines, ¬ Lands position jump := by
  induction lines generalizing front bytes with
  | nil =>
    refine .inl ⟨bytes, [], rfl, .nil _, ?_, by simp [Line.fixups]⟩
    simpa using hbytes
  | cons line rest ih =>
    rw [draftBytes_cons] at hbytes
    cases line with
    | instruction i =>
      have hfront : (front ++ i.encode).length = front.length + i.width := by
        rw [List.length_append, Instruction.length_encode]
      rw [Line.fixups, ← hfront] at hown ⊢
      obtain ⟨bytes', code, hok, hcode, hbytes', hlands⟩ | herror :=
        ih (by simpa [Line.draft] using hbytes) hown
      · rw [hfront] at hcode
        exact .inl ⟨bytes', i :: code, hok, .instruction hcode, by simpa using hbytes', hlands⟩
      · exact .inr herror
    | mark label =>
      rw [Line.fixups] at hown ⊢
      obtain ⟨bytes', code, hok, hcode, hrest⟩ | herror := ih (by simpa [Line.draft] using hbytes) hown
      · exact .inl ⟨bytes', code, hok, .mark hcode, hrest⟩
      · exact .inr herror
    | jump branch isLong label =>
      have hlabel := hlabels label (hown _ List.mem_cons_self)
      have hdraft : bytes.toList = front ++ ((jumpBy branch isLong 0).encode ++ draftBytes rest) := by
        simpa [Line.draft] using hbytes
      rw [Line.fixups] at hown ⊢
      generalize hnext : front.length + (jumpBy branch isLong 0).width = next at hown ⊢
      -- the first jump decides, unless it lands
      cases htarget : position label with
      | none =>
        refine .inr ⟨⟨.unboundLabel next, ?_⟩, _, List.mem_cons_self, fun ⟨target, h, _⟩ => ?_⟩
        · simp [resolve, hlabel, htarget]
        · simp [htarget] at h
      | some target =>
        rw [htarget] at hlabel
        by_cases hfits : Fits isLong (target - next)
        · obtain ⟨patched, hpatch, hpatched⟩ := patch_eq_ok label hdraft hnext.symm hfits
          have hfront : (front ++ (jumpBy branch isLong (target - next)).encode).length = next := by
            rw [List.length_append, Instruction.length_encode, width_jumpBy, ← hnext, width_jumpBy]
          have hresolve : resolve labels bytes (⟨label, next, isLong⟩ :: Line.fixups next rest) =
              resolve labels patched (Line.fixups next rest) := by
            simp [resolve, hlabel, hpatch]
          have hlands : Lands position ⟨label, next, isLong⟩ := ⟨target, htarget, hfits⟩
          have hfilled := @ih (front ++ (jumpBy branch isLong (target - next)).encode) patched
            (by simpa using hpatched)
          rw [hfront] at hfilled
          rw [hresolve]
          obtain ⟨bytes', code, hok, hcode, hbytes', hrest⟩ | ⟨herror, jump, hjump, hnot⟩ :=
            hfilled fun jump hjump => hown jump (List.mem_cons_of_mem _ hjump)
          · have hwidth : front.length + (jumpBy branch isLong (target - next)).width = next := by
              rw [width_jumpBy, ← hnext, width_jumpBy]
            refine .inl ⟨bytes', jumpBy branch isLong (target - next) :: code, hok, ?_,
              by simpa using hbytes', ?_⟩
            · refine .jump (opcode_jumpBy branch isLong _) htarget (jumpOffset?_jumpBy hfits branch) ?_
                (hwidth.symm ▸ hcode)
              rw [hwidth]
              omega
            · intro jump hjump
              obtain rfl | hjump := List.mem_cons.mp hjump
              · exact hlands
              · exact hrest jump hjump
          · exact .inr ⟨herror, jump, List.mem_cons_of_mem _ hjump, hnot⟩
        · obtain ⟨problem, hproblem⟩ := patch_eq_error bytes label hfits
          refine .inr ⟨⟨problem, ?_⟩, _, List.mem_cons_self, fun ⟨target', h, hfits'⟩ => ?_⟩
          · simp [resolve, hlabel, hproblem]
          · obtain rfl : target = target' := Option.some.inj (htarget.symm.trans h)
            exact hfits hfits'

/-! ## Boundaries -/

/-- A label is bound where an instruction begins, or at the end of the code. -/
theorem Assembles.boundary {position : Nat → Option Nat} {pc label target : Nat} {lines : List Line}
    {code : List Instruction} (h : Assembles position pc lines code)
    (htarget : Line.position? pc label lines = some target) :
    target ∈ (Instruction.located pc code).map Prod.fst ∨
      target = pc + (Instruction.bytesOf code).length := by
  -- the position where the lines begin is a boundary of any code
  have hfirst (pc : Nat) (code : List Instruction) :
      pc ∈ (Instruction.located pc code).map Prod.fst ∨ pc = pc + (Instruction.bytesOf code).length := by
    cases code with
    | nil => exact .inr rfl
    | cons i code => exact .inl List.mem_cons_self
  have hlater {pc : Nat} {i : Instruction} {code : List Instruction}
      (h : target ∈ (Instruction.located (pc + i.width) code).map Prod.fst ∨
        target = pc + i.width + (Instruction.bytesOf code).length) :
      target ∈ (Instruction.located pc (i :: code)).map Prod.fst ∨
        target = pc + (Instruction.bytesOf (i :: code)).length := by
    rw [Instruction.bytesOf_cons, List.length_append, Instruction.length_encode, ← Nat.add_assoc]
    exact h.imp_left (List.mem_cons_of_mem _)
  induction h with
  | nil pc => simp [Line.position?] at htarget
  | instruction _ ih => exact hlater (ih htarget)
  | mark hrest ih =>
    rw [Line.position?] at htarget
    split at htarget
    · obtain rfl := Option.some.inj htarget
      exact hfirst _ _
    · exact ih htarget
  | jump hopcode _ _ _ _ ih =>
    refine hlater (ih ?_)
    rw [Instruction.width, hopcode, ← opcode_jumpBy _ _ 0]
    exact htarget

theorem Assembles.valid {position : Nat → Option Nat} {pc : Nat} {lines : List Line}
    {code : List Instruction} (h : Assembles position pc lines code)
    (hlines : ∀ i, .instruction i ∈ lines → i.IsValid) : ∀ i ∈ code, i.IsValid := by
  induction h with
  | nil pc => simp
  | instruction _ ih =>
    rw [List.forall_mem_cons]
    exact ⟨hlines _ List.mem_cons_self, ih fun i hi => hlines i (List.mem_cons_of_mem _ hi)⟩
  | mark _ ih => exact ih fun i hi => hlines i (List.mem_cons_of_mem _ hi)
  | jump hopcode _ _ _ _ ih =>
    rw [List.forall_mem_cons]
    refine ⟨?_, ih fun i hi => hlines i (List.mem_cons_of_mem _ hi)⟩
    rw [Instruction.IsValid, hopcode]
    split <;> trivial

/-! ## Methods in the making -/

/-- The assemblers that come of the requests made to one, with the lines that these requests say. -/
inductive Written : Assembler → List Line → Prop
  | begin (argCount : Nat) : Written (ofArgCount argCount) []
  | add {a : Assembler} {lines : List Line} (h : Written a lines) (piece : Code) :
      Written (a.add piece) (lines ++ a.lines piece)
  | newLabel {a : Assembler} {lines : List Line} (h : Written a lines) : Written a.newLabel.2 lines
  | withTemporaries {a : Assembler} {lines : List Line} (h : Written a lines) (count : Nat) :
      Written (a.withTemporaries count) lines
  | withPrimitive {a : Assembler} {lines : List Line} (h : Written a lines) (index : Nat) :
      Written (a.withPrimitive index) lines
  | returningSelf {a : Assembler} {lines : List Line} (h : Written a lines) :
      Written a.returningSelf lines
  | returningField {a : Assembler} {lines : List Line} (h : Written a lines) (index : Nat) :
      Written (a.returningField index) lines
  | returningLiteral {a : Assembler} {lines : List Line} (h : Written a lines) (value : Literal) :
      Written (a.returningLiteral value) lines

theorem Written.addAll {a : Assembler} {lines : List Line} (h : Written a lines) (code : List Code) :
    Written (a.addAll code) (lines ++ a.linesAll code) := by
  induction code generalizing a lines with
  | nil =>
    rw [linesAll, List.append_nil]
    exact h
  | cons piece rest ih =>
    rw [Assembler.addAll, linesAll, ← List.append_assoc]
    exact ih (h.add piece)

theorem Written.keeps {a : Assembler} {lines : List Line} (h : Written a lines) : a.Keeps lines := by
  induction h with
  | begin argCount => exact .ofArgCount argCount
  | add _ piece ih => exact (Extends.add _ piece).keeps _ ih
  | newLabel _ ih => exact ih.newLabel
  | withTemporaries _ count ih => exact ih.of_listing rfl
  | withPrimitive _ index ih => exact ih.of_listing rfl
  | returningSelf _ ih => exact ih.of_listing rfl
  | returningField _ index ih => exact ih.of_listing rfl
  | returningLiteral _ value ih => exact ih.of_listing (listing_literalOperand _ value)

/-- The bytes of a method are assembled exactly if every jump leads to a label that is bound, at a
distance that fits. Then the instructions of the method are read back from its bytes, to their end,
in the order in which they were written and with their operands. A jump leads from its end to where
its label is bound, which is where an instruction begins or at the end. -/
theorem Written.resolve_lands {a : Assembler} {lines : List Line} (h : Written a lines)
    (hown : ∀ jump ∈ Line.fixups 0 lines, jump.label < a.labels.size) :
    ((∃ failure, resolve a.labels a.bytes a.fixups.toList = .error (.failure failure)) ↔
      ∃ jump ∈ Line.fixups 0 lines, ¬ Lands (Line.position? 0 · lines) jump) ∧
    ((∀ jump ∈ Line.fixups 0 lines, Lands (Line.position? 0 · lines) jump) →
      ∃ bytes code, resolve a.labels a.bytes a.fixups.toList = .ok bytes ∧
        Assembles (Line.position? 0 · lines) 0 lines code ∧
        Instruction.decodeFrom bytes.toList 0 = Instruction.located 0 code ∧
        Instruction.endOf (Instruction.decodeFrom bytes.toList 0) = bytes.size ∧
        ∀ label target, Line.position? 0 label lines = some target →
          target ∈ (Instruction.located 0 code).map Prod.fst ∨ target = bytes.size) := by
  have hkeeps := h.keeps
  have hresolve := @resolve_eq a.labels _ hkeeps.labels lines [] a.bytes hkeeps.bytes hown
  simp only [List.length_nil, List.nil_append, ← hkeeps.fixups] at hresolve
  obtain ⟨bytes, code, hok, hcode, hbytes, hlands⟩ | ⟨⟨problem, herror⟩, jump, hjump, hnot⟩ := hresolve
  · rw [hkeeps.fixups] at hlands
    refine ⟨⟨fun ⟨failure, herror⟩ => ?_, fun ⟨jump, hjump, hnot⟩ => absurd (hlands jump hjump) hnot⟩,
      fun _ => ?_⟩
    · simp [hok] at herror
    · have hdrop : bytes.toList.drop 0 = Instruction.bytesOf code ++ [] := by simpa using hbytes
      have hread := Instruction.decodeFrom_eq_located (hcode.valid hkeeps.valid) hdrop rfl
      have hsize : bytes.size = (Instruction.bytesOf code).length := by
        rw [← Array.length_toList, hbytes]
      refine ⟨bytes, code, hok, hcode, hread, ?_, fun label target htarget => ?_⟩
      · rw [hread, Instruction.endOf_located_zero, hsize]
      · rw [hsize]
        simpa using hcode.boundary htarget
  · rw [hkeeps.fixups] at hjump
    exact ⟨⟨fun _ => ⟨jump, hjump, hnot⟩, fun _ => ⟨_, herror⟩⟩,
      fun hlands => absurd (hlands jump hjump) hnot⟩

/-- A loop around a block, with a short jump that leaves it. -/
def loopAroundBlock : List Code :=
  [.whileTrue [.push (.temporary 0)]
    [.block 0 [.constant .nil, .blockReturn], .pop, .shortJump .always (.named "out")],
    .bind (.named "out"), .methodReturn .self]

/-- The jumps of the loop, of the block in it and out of both land on their labels. -/
theorem loopAroundBlock_lands : ∃ bytes code,
    resolve ((ofArgCount 1).addAll loopAroundBlock).labels
      ((ofArgCount 1).addAll loopAroundBlock).bytes
      ((ofArgCount 1).addAll loopAroundBlock).fixups.toList = .ok bytes ∧
    Assembles (Line.position? 0 · ((ofArgCount 1).linesAll loopAroundBlock)) 0
      ((ofArgCount 1).linesAll loopAroundBlock) code ∧
    Instruction.decodeFrom bytes.toList 0 = Instruction.located 0 code := by
  have hlines := (Written.begin 1).addAll loopAroundBlock
  rw [List.nil_append] at hlines
  obtain ⟨bytes, code, hok, hcode, hread, -⟩ := (hlines.resolve_lands (by decide)).2 (by decide)
  exact ⟨bytes, code, hok, hcode, hread⟩

end Assembler

end ObjectMachine
