import ObjectMachine.Proofs.Assembler.Mistakes
import ObjectMachine.Proofs.Number.Equality

/-!
# Literals and their places

Constants are kept among the literals of a method in the order in which they are asked for, except those
that share a place with one that is kept already. The instruction that is written for a constant designates
the first constant that was asked for and shares its place: the constant itself, unless it is a zero and the
zero that was asked for first has the other sign.

## Main results

* `Literal.shares_iff`: which constants share a place.
* `Assembler.Shelves.add`: what the instructions of a piece of code designate.
* `Assembler.Shelves.draft_stands`: what the instructions of a method designate.
-/

namespace ObjectMachine

/-- The place among the literals that an instruction designates. -/
def Instruction.literal? : Instruction → Option Nat
  | .push .literal index | .store .literal index | .popInto .literal index | .pushLiteral index
  | .send index _ | .superSend index _ => some index.toNat
  | _ => none

theorem Instruction.filterMap_located (pc : Nat) (code : List Instruction) :
    (located pc code).filterMap (·.2.literal?) = code.filterMap literal? := by
  conv_rhs => rw [← map_snd_located pc code, List.filterMap_map]
  rfl

namespace Literal

/-- A number that is not one. -/
def isNaN : Literal → Bool
  | .float x => x.isNaN
  | _ => .false

/-- A zero among the numbers with fractions. -/
def isZero : Literal → Bool
  | .float x => x.isZero
  | _ => .false

variable {a b c : Literal} {asked more : List Literal}

/-- Constants share a place if they are the same, unless they are NaNs, or if both are zeros. -/
theorem shares_iff : a.shares b ↔ a = b ∧ a.isNaN = .false ∨ a.isZero ∧ b.isZero := by
  unfold shares
  split
  · rw [Binary64.equals_iff, float.injEq]
    rfl
  · rename_i hother
    rw [decide_eq_true_iff]
    constructor
    · rintro rfl
      refine .inl ⟨rfl, ?_⟩
      cases a <;> first | rfl | exact absurd rfl (hother _ _ rfl)
    · rintro (⟨rfl, -⟩ | ⟨ha, hb⟩)
      · rfl
      · cases a <;> first | cases ha | cases b <;> first | cases hb | exact absurd rfl (hother _ _ rfl)

theorem shares_trans (h : a.shares b) (h' : b.shares c) : a.shares c := by
  rw [shares_iff] at h h' ⊢
  obtain ⟨rfl, -⟩ | ⟨ha, hb⟩ := h
  · exact h'
  · obtain ⟨rfl, -⟩ | ⟨-, hc⟩ := h'
    · exact .inr ⟨ha, hb⟩
    · exact .inr ⟨ha, hc⟩

/-! ## The constants that are kept -/

/-- The constants that are kept once one more is asked for. -/
def place (kept : List Literal) (value : Literal) : List Literal :=
  if kept.any (·.shares value) then kept else kept ++ [value]

/-- The constants that are kept of those that were asked for. -/
def collect (asked : List Literal) : List Literal := asked.foldl place []

/-- The constant that stands for one that was asked for: the first one that shares its place. -/
def standIn (asked : List Literal) (value : Literal) : Literal :=
  (asked.find? (·.shares value)).getD value

theorem prefix_foldl_place (kept more : List Literal) : kept <+: more.foldl place kept := by
  induction more generalizing kept with
  | nil => exact List.prefix_rfl
  | cons value rest ih =>
    refine List.IsPrefix.trans ?_ (ih (place kept value))
    unfold place
    split
    · exact List.prefix_rfl
    · exact List.prefix_append _ _

theorem collect_append (asked more : List Literal) :
    collect (asked ++ more) = more.foldl place (collect asked) :=
  List.foldl_append

theorem collect_concat (asked : List Literal) (value : Literal) :
    collect (asked ++ [value]) = place (collect asked) value :=
  collect_append asked [value]

/-- Of the constants that share a place the first one is kept. -/
theorem find?_collect (asked : List Literal) (value : Literal) :
    (collect asked).find? (·.shares value) = asked.find? (·.shares value) := by
  induction asked using List.reverseRecOn with
  | nil => rfl
  | append_singleton asked last ih =>
    rw [collect_concat, place, List.find?_append]
    split
    · rename_i hany
      obtain ⟨kept, hmem, hkept⟩ := List.any_eq_true.mp hany
      cases hshares : last.shares value with
      | false => rw [List.find?_singleton, hshares, ih]; simp
      | true =>
        have hfound : ((collect asked).find? (·.shares value)).isSome :=
          List.find?_isSome.mpr ⟨kept, hmem, shares_trans hkept hshares⟩
        rw [ih] at hfound ⊢
        rw [Option.or_of_isSome hfound]
    · rw [List.find?_append, ih]

/-- A constant that was asked for keeps what stands for it. -/
theorem standIn_append (hmem : a ∈ asked) : standIn (asked ++ more) a = standIn asked a := by
  unfold standIn
  rw [List.find?_append]
  cases hfound : asked.find? (·.shares a) with
  | some kept => rfl
  | none =>
    have hself : ¬ a.shares a := by simpa using List.find?_eq_none.mp hfound a hmem
    rw [shares_iff, not_or] at hself
    have hnone : more.find? (·.shares a) = none := by
      rw [List.find?_eq_none]
      intro other _ hother
      rw [shares_iff] at hother
      obtain ⟨rfl, h⟩ | ⟨-, h⟩ := hother
      · exact hself.1 ⟨rfl, h⟩
      · exact hself.2 ⟨h, h⟩
    rw [hnone]
    rfl

/-- Nothing but a zero stands for another constant, and that is another zero. -/
theorem standIn_eq_or (asked : List Literal) (value : Literal) : standIn asked value = value ∨
    value.isZero ∧ asked.find? (·.isZero) = some (standIn asked value) := by
  unfold standIn
  cases hfound : asked.find? (·.shares value) with
  | none => exact .inl rfl
  | some kept =>
    have hkept : kept.shares value := by simpa using List.find?_some hfound
    obtain ⟨heq, -⟩ | ⟨-, hzero⟩ := shares_iff.mp hkept
    · exact .inl heq
    · refine .inr ⟨hzero, ?_⟩
      have hsame : isZero = fun other => other.shares value := by
        funext other
        rw [Bool.eq_iff_iff, shares_iff]
        constructor
        · exact fun h => .inr ⟨h, hzero⟩
        · rintro (⟨rfl, -⟩ | ⟨h, -⟩)
          · exact hzero
          · exact h
      rw [hsame]
      exact hfound

/-- A place among the literals holds what stands for a constant that was asked for. -/
def Stands (asked : List Literal) (index : Nat) (value : Literal) : Prop :=
  value ∈ asked ∧ (collect asked)[index]? = some (standIn asked value)

theorem Stands.append {index : Nat} (h : Stands asked index a) (more : List Literal) :
    Stands (asked ++ more) index a := by
  refine ⟨List.mem_append_left _ h.1, ?_⟩
  rw [standIn_append h.1, collect_append]
  obtain ⟨rest, hrest⟩ := prefix_foldl_place (collect asked) more
  obtain ⟨hlt, -⟩ := List.getElem?_eq_some_iff.mp h.2
  rw [← hrest, List.getElem?_append_left hlt, h.2]

end Literal

/-! ## What code asks for -/

/-- The constant that a place asks for. -/
def Place.constants : Place → List Literal
  | .global name => [.global name]
  | .temporary _ | .field _ => []

mutual

/-- The constants that a piece of code asks for, in the order of emission. -/
def Code.constants : Code → List Literal
  | .push place => place.constants
  | .store place => place.constants
  | .popInto place => place.constants
  | .integer value => if value = -1 ∨ value = 0 ∨ value = 1 ∨ value = 2 then [] else [.integer value]
  | .literal value => [value]
  | .send selector argCount =>
    if (specialIndex? selector argCount).isSome then [] else [.symbol selector]
  | .sendGeneral selector _ => [.symbol selector]
  | .superSend selector _ => [.symbol selector]
  | .block _ body => Code.constantsAll body
  | .whileTrue condition body => Code.constantsAll condition ++ Code.constantsAll body
  | .ifTrueIfFalse yes no => Code.constantsAll yes ++ Code.constantsAll no
  | .constant _ | .thisContext | .dup | .pop | .methodReturn _ | .blockReturn | .bind _ | .jump _ _
  | .shortJump _ _ => []

/-- The constants that pieces of code ask for. -/
def Code.constantsAll : List Code → List Literal
  | [] => []
  | piece :: rest => piece.constants ++ Code.constantsAll rest

end

namespace Assembler

namespace Request

/-- The constants that a request writes an instruction for. -/
def named : Request → List Literal
  | .code piece => piece.constants
  | _ => []

/-- The constants that a request asks for. -/
def asked : Request → List Literal
  | .code piece => piece.constants
  | .returnsLiteral value => [value]
  | _ => []

end Request

/-- The place that a line designates. -/
def Line.literal? : Line → Option Nat
  | .instruction i => i.literal?
  | _ => none

open Literal

variable {a b c : Assembler} {asked : List Literal} {value : Literal}

/-- The place of a constant is the place of what stands for it. -/
theorem literalPlace_stands (h : a.literals.toList = collect asked) (value : Literal) :
    (a.literalPlace value).2.literals.toList = collect (asked ++ [value]) ∧
      Stands (asked ++ [value]) (a.literalPlace value).1 value := by
  have hmem : value ∈ asked ++ [value] := List.mem_append_right _ List.mem_cons_self
  have hplace : collect (asked ++ [value]) = place a.literals.toList value := by
    rw [collect_concat, h]
  unfold Stands
  rw [hplace]
  unfold literalPlace
  cases hindex : a.literals.findIdx? (·.shares value) with
  | some index =>
    obtain ⟨hlt, hshares, hfirst⟩ := Array.findIdx?_eq_some_iff_getElem.mp hindex
    have hkept : place a.literals.toList value = a.literals.toList :=
      if_pos (List.any_eq_true.mpr ⟨_, Array.getElem_mem_toList hlt, hshares⟩)
    have hfound : a.literals.toList.find? (·.shares value) = some a.literals[index] := by
      rw [List.find?_eq_some_iff_getElem]
      exact ⟨hshares, index, hlt, rfl, fun j hj => by simpa using hfirst j hj⟩
    rw [h, find?_collect] at hfound
    refine ⟨hkept.symm, hmem, ?_⟩
    rw [hkept, standIn, List.find?_append, hfound]
    simp [hlt]
  | none =>
    have hnone := Array.findIdx?_eq_none_iff.mp hindex
    have hkept : place a.literals.toList value = a.literals.toList ++ [value] := by
      refine if_neg fun hany => ?_
      obtain ⟨kept, hmem, hshares⟩ := List.any_eq_true.mp hany
      rw [hnone kept (Array.mem_toList_iff.mp hmem)] at hshares
      cases hshares
    refine ⟨by rw [hkept, Array.toList_push], hmem, ?_⟩
    have hfound : asked.find? (·.shares value) = none := by
      rw [← find?_collect, ← h, List.find?_eq_none]
      intro kept hmem
      rw [hnone kept (Array.mem_toList_iff.mp hmem)]
      exact Bool.false_ne_true
    have hself : standIn (asked ++ [value]) value = value := by
      rw [standIn, List.find?_append, hfound, Option.none_or, List.find?_singleton]
      split <;> rfl
    rw [hkept, hself]
    simp

/-- An assembler that became another one by lines that name constants, when these and others were asked
for. -/
structure Shelves (a : Assembler) (lines : List Line) (named asked : List Literal) (b : Assembler) :
    Prop where
  noted : b.problem? = none → a.problem? = none
  kept : ∀ earlier, a.literals.toList = collect earlier →
    b.literals.toList = collect (earlier ++ asked)
  stands : ∀ earlier, a.literals.toList = collect earlier → b.problem? = none →
    List.Forall₂ (Stands (earlier ++ asked)) (lines.filterMap Line.literal?) named

namespace Shelves

variable {lines more : List Line} {named named' asked' : List Literal}

/-- What is kept and what is noted does not change. -/
theorem of_same (hkept : b.literals = a.literals) (hnoted : b.problem? = none → a.problem? = none) :
    a.Shelves [] [] [] b where
  noted := hnoted
  kept earlier h := by rw [hkept, h, List.append_nil]
  stands _ _ _ := .nil

theorem trans (h : a.Shelves lines named asked b) (h' : b.Shelves more named' asked' c) :
    a.Shelves (lines ++ more) (named ++ named') (asked ++ asked') c where
  noted hnone := h.noted (h'.noted hnone)
  kept earlier hearlier := by
    rw [← List.append_assoc]
    exact h'.kept _ (h.kept earlier hearlier)
  stands earlier hearlier hnone := by
    rw [List.filterMap_append, ← List.append_assoc]
    exact List.rel_append ((h.stands earlier hearlier (h'.noted hnone)).imp fun _ _ h => h.append asked')
      (h'.stands _ (h.kept earlier hearlier) hnone)

/-- Lines that name nothing, before others and after them. -/
theorem before (h : a.Shelves lines [] [] b) (h' : b.Shelves more named asked c) :
    a.Shelves (lines ++ more) named asked c :=
  h.trans h'

/-- Bookkeeping before something is written. -/
theorem ahead (h : b.Shelves lines named asked c) (hkept : b.literals = a.literals)
    (hnoted : b.problem? = none → a.problem? = none) : a.Shelves lines named asked c :=
  (of_same hkept hnoted).before h

theorem followed (h : a.Shelves lines named asked b) (h' : b.Shelves more [] [] c) :
    a.Shelves (lines ++ more) named asked c := by
  simpa only [List.append_nil] using h.trans h'

/-- Bookkeeping after something was written. -/
theorem after (h : a.Shelves lines named asked b) (hkept : c.literals = b.literals)
    (hnoted : c.problem? = none → b.problem? = none) : a.Shelves lines named asked c := by
  simpa only [List.append_nil] using h.followed (of_same hkept hnoted)

/-- Lines that designate no place. -/
theorem silent (h : a.Shelves [] [] [] b) (lines : List Line) (hlines : lines.filterMap Line.literal? = []) :
    a.Shelves lines [] [] b where
  noted := h.noted
  kept := h.kept
  stands _ _ _ := hlines ▸ .nil

theorem quiet (hlines : lines.filterMap Line.literal? = []) (hkept : b.literals = a.literals)
    (hnoted : b.problem? = none → a.problem? = none) : a.Shelves lines [] [] b :=
  (of_same hkept hnoted).silent _ hlines

theorem report_problem (a : Assembler) (problem : AssemblyProblem) :
    (a.report problem).problem? ≠ none := by
  unfold Assembler.report
  split <;> simp_all

theorem report (a : Assembler) (problem : AssemblyProblem) : a.Shelves [] [] [] (a.report problem) := by
  refine of_same ?_ fun hnone => absurd hnone (report_problem a problem)
  unfold Assembler.report
  split <;> rfl

theorem operand (a : Assembler) (kind : OperandKind) (value : Nat) :
    a.Shelves [] [] [] (a.operand kind value).2 := by
  unfold Assembler.operand
  split
  · exact of_same rfl id
  · exact report a _

/-- An operand that does not fit is noted. -/
theorem operand_fits {kind : OperandKind} {number : Nat} (h : (a.operand kind number).2.problem? = none) :
    (a.operand kind number).1.toNat = number := by
  unfold Assembler.operand at h ⊢
  by_cases hlt : number < 256
  · rw [if_pos hlt]
    exact Nat.mod_eq_of_lt hlt
  · rw [if_neg hlt] at h
    exact absurd h (report_problem a _)

/-- A constant that is asked for without an instruction. -/
theorem asks (a : Assembler) (value : Literal) : a.Shelves [] [] [value] (a.literalOperand value).2 := by
  have hoperand := operand (a.literalPlace value).2 .literal (a.literalPlace value).1
  refine ⟨fun hnone => ?_, fun earlier hearlier => ?_, fun _ _ _ => .nil⟩
  · have hplace : (a.literalPlace value).2.problem? = a.problem? := by
      unfold literalPlace
      split <;> rfl
    exact hplace ▸ hoperand.noted hnone
  · rw [Assembler.literalOperand, hoperand.kept _ (literalPlace_stands hearlier value).1,
      List.append_nil]

/-- An instruction whose operand designates a constant. -/
theorem literalOperand (a : Assembler) (value : Literal) {i : Instruction}
    (hi : i.literal? = some (a.literalOperand value).1.toNat) :
    a.Shelves [.instruction i] [value] [value] (a.literalOperand value).2 where
  noted := (asks a value).noted
  kept := (asks a value).kept
  stands earlier hearlier hnone := by
    have hvalue : (a.literalOperand value).1.toNat = (a.literalPlace value).1 := operand_fits hnone
    have hline : [Line.instruction i].filterMap Line.literal? = [(a.literalPlace value).1] := by
      simp [Line.literal?, hi, hvalue]
    rw [hline]
    exact .cons (literalPlace_stands hearlier value).2 .nil

theorem placeOperand (a : Assembler) (place : Place) (make : Variable → UInt8 → Instruction)
    (hliteral : ∀ index, (make .literal index).literal? = some index.toNat)
    (hother : ∀ kind index, kind ≠ .literal → (make kind index).literal? = none) :
    a.Shelves [.instruction (make (a.placeOperand place).1 (a.placeOperand place).2.1)]
      place.constants place.constants (a.placeOperand place).2.2 := by
  cases place with
  | temporary index => exact (operand a _ index).silent _ (by simp [Line.literal?, Assembler.placeOperand, hother])
  | field index => exact (operand a _ index).silent _ (by simp [Line.literal?, Assembler.placeOperand, hother])
  | global name => exact literalOperand a (.global name) (hliteral _)

theorem emitSendBy (a : Assembler) {make : UInt8 → UInt8 → Instruction}
    (hmake : ∀ index count, (make index count).literal? = some index.toNat) (selector : String)
    (argCount : Nat) :
    a.Shelves [a.sendLine make selector argCount] [.symbol selector] [.symbol selector]
      (a.emitSendBy make selector argCount) := by
  have hselector := literalOperand a (.symbol selector)
    (hmake _ ((a.literalOperand (.symbol selector)).2.operand .argCount argCount).1)
  exact (hselector.trans (operand _ .argCount argCount)).after rfl id

theorem bindNumber (a : Assembler) (number : Nat) : a.Shelves [] [] [] (a.bindNumber number) := by
  unfold Assembler.bindNumber
  split
  · exact of_same rfl id
  · exact report a _
  · exact report a _

theorem jumpToNumber (a : Assembler) (branch : Branch) (isLong : Bool) (number : Nat) :
    a.Shelves [] [] [] (a.jumpToNumber branch isLong number) := by
  refine of_same ?_ (by rw [Notes.problem_jumpToNumber]; exact id)
  simp only [Assembler.jumpToNumber, Assembler.emit]
  split <;> rfl

theorem labelNumber (a : Assembler) (label : Label) : a.Shelves [] [] [] (a.labelNumber label).2 := by
  refine of_same ?_ (by rw [Notes.problem_labelNumber]; exact id)
  cases label with
  | numbered number => rfl
  | named name =>
    simp only [Assembler.labelNumber]
    split <;> rfl

theorem openBlock (a : Assembler) (argCount : Nat) :
    a.Shelves [] [] [] (a.openBlock argCount).2 :=
  ((operand a .blockArgCount argCount).after (c := ((a.operand .blockArgCount argCount).2.emit
    (.createBlock (a.operand .blockArgCount argCount).1)).newLabel.2) rfl id).trans
      (jumpToNumber _ .always true _)

mutual

/-- The instructions of a piece of code designate the constants that it names. -/
theorem add (a : Assembler) (piece : Code) :
    a.Shelves (a.lines piece) piece.constants piece.constants (a.add piece) := by
  cases piece with
  | push place =>
    exact (placeOperand a place .push (fun _ => rfl)
      fun kind _ h => by cases kind <;> trivial).after rfl id
  | store place =>
    exact (placeOperand a place .store (fun _ => rfl)
      fun kind _ h => by cases kind <;> trivial).after rfl id
  | popInto place =>
    exact (placeOperand a place .popInto (fun _ => rfl)
      fun kind _ h => by cases kind <;> trivial).after rfl id
  | constant value => exact quiet rfl rfl id
  | thisContext => exact quiet rfl rfl id
  | integer value =>
    simp only [Assembler.add, lines, emitInteger, Code.constants]
    by_cases hown : value = -1 ∨ value = 0 ∨ value = 1 ∨ value = 2
    · rw [if_pos hown]
      rcases hown with rfl | rfl | rfl | rfl <;> exact quiet rfl rfl id
    · obtain ⟨hminusOne, hzero, hone, htwo⟩ := by simpa only [not_or] using hown
      simp only [if_neg hown, if_neg hminusOne, if_neg hzero, if_neg hone, if_neg htwo]
      exact (literalOperand a (.integer value) (by rfl)).after rfl id
  | literal value => exact (literalOperand a value (by rfl)).after rfl id
  | dup => exact quiet rfl rfl id
  | pop => exact quiet rfl rfl id
  | methodReturn answer =>
    have hemitted : a.Shelves [.instruction (.methodReturn answer)] [] []
        (a.emit (.methodReturn answer)) := quiet rfl rfl id
    refine hemitted.after ?_ ?_
    all_goals
      simp only [Assembler.add, emitReturn]
      split <;> first | rfl | exact id
  | blockReturn => exact quiet rfl rfl id
  | send selector argCount =>
    simp only [Assembler.add, lines, emitSend, Code.constants]
    cases specialIndex? selector argCount with
    | some index => exact quiet rfl rfl id
    | none => exact emitSendBy a (fun _ _ => rfl) selector argCount
  | sendGeneral selector argCount => exact emitSendBy a (fun _ _ => rfl) selector argCount
  | superSend selector argCount =>
    have hsuper : a.Shelves [] [] [] { a with usesSuper := .true } := of_same rfl id
    exact hsuper.trans (emitSendBy _ (fun _ _ => rfl) selector argCount)
  | bind label =>
    have hbound := (labelNumber a label).trans (bindNumber _ (a.labelNumber label).1)
    refine hbound.silent ((a.labelNumber label).2.markLines (a.labelNumber label).1) ?_
    unfold markLines
    split <;> rfl
  | jump branch label => exact ((labelNumber a label).trans (jumpToNumber _ branch .true _)).silent _ rfl
  | shortJump branch label =>
    exact ((labelNumber a label).trans (jumpToNumber _ branch .false _)).silent _ rfl
  | block argCount body =>
    have hopened := ((openBlock a argCount).silent [.instruction (.createBlock (a.operand .blockArgCount argCount).1),
        .jump .always .true (a.openBlock argCount).1] rfl).after
      (c := { (a.openBlock argCount).2 with depth := 0 }.grow argCount) rfl id
    have hlast := (bindNumber (({ (a.openBlock argCount).2 with depth := 0 }.grow argCount).addAll
      body) (a.openBlock argCount).1).silent [.mark (a.openBlock argCount).1] rfl
    exact ((hopened.before (addAll _ body)).followed hlast).after rfl id
  | whileTrue condition body =>
    have hentered := (bindNumber a.newLabel.2.newLabel.2 a.newLabel.1).silent
      [.mark a.newLabel.1] rfl
    have hleft := (addAll (a.newLabel.2.newLabel.2.bindNumber a.newLabel.1) condition).followed
      ((jumpToNumber _ .ifFalse .true a.newLabel.2.newLabel.1).silent
        [.jump .ifFalse .true a.newLabel.2.newLabel.1] rfl)
    have hback := (addAll (((a.newLabel.2.newLabel.2.bindNumber a.newLabel.1).addAll
      condition).jumpToNumber .ifFalse .true a.newLabel.2.newLabel.1) body).followed
        (((jumpToNumber _ .always .true a.newLabel.1).trans (bindNumber _ a.newLabel.2.newLabel.1)).silent
          [.jump .always .true a.newLabel.1, .mark a.newLabel.2.newLabel.1] rfl)
    have hloop := (of_same (a := a) (b := a.newLabel.2.newLabel.2) rfl id).before
      (hentered.before (hleft.trans hback))
    simpa [Assembler.add, lines, Code.constants] using hloop
  | ifTrueIfFalse yes no =>
    have hdecided := (jumpToNumber a.newLabel.2.newLabel.2 .ifFalse .true a.newLabel.1).silent
      [.jump .ifFalse .true a.newLabel.1] rfl
    have hleft := ((addAll (a.newLabel.2.newLabel.2.jumpToNumber .ifFalse .true a.newLabel.1) yes).followed
      ((jumpToNumber _ .always .true a.newLabel.2.newLabel.1).silent
        [.jump .always .true a.newLabel.2.newLabel.1] rfl)).after
      (c := { ((a.newLabel.2.newLabel.2.jumpToNumber .ifFalse .true a.newLabel.1).addAll yes).jumpToNumber
        .always .true a.newLabel.2.newLabel.1 with
          depth := (a.newLabel.2.newLabel.2.jumpToNumber .ifFalse .true a.newLabel.1).depth }) rfl id
    have hentered := hleft.followed ((bindNumber _ a.newLabel.1).silent [.mark a.newLabel.1] rfl)
    have hbranch := hentered.trans ((addAll _ no).followed
      ((bindNumber _ a.newLabel.2.newLabel.1).silent [.mark a.newLabel.2.newLabel.1] rfl))
    have hboth := (of_same (a := a) (b := a.newLabel.2.newLabel.2) rfl id).before (hdecided.before hbranch)
    simpa [Assembler.add, lines, Code.constants] using hboth

theorem addAll (a : Assembler) (code : List Code) :
    a.Shelves (a.linesAll code) (Code.constantsAll code) (Code.constantsAll code) (a.addAll code) := by
  cases code with
  | nil => exact of_same rfl id
  | cons piece rest =>
    rw [Assembler.addAll, linesAll, Code.constantsAll]
    exact (add a piece).trans (addAll _ rest)

end

/-- So do the instructions that are written for requests. -/
theorem takeAll (a : Assembler) (requests : List Request) :
    a.Shelves (a.linesOf requests) (requests.flatMap Request.named) (requests.flatMap Request.asked)
      (a.takeAll requests) := by
  induction requests generalizing a with
  | nil => exact of_same rfl id
  | cons request rest ih =>
    cases request with
    | code piece => exact (add a piece).trans (ih _)
    | returnsLiteral value =>
      have hflag : a.Shelves [] [] [] { a with flag := .returnLiteral } := of_same rfl id
      exact (hflag.before (asks _ value)).trans (ih _)
    | newLabel => exact (ih a.newLabel.2).ahead rfl id
    | temporaries count => exact (ih (a.withTemporaries count)).ahead rfl id
    | primitive index => exact (ih (a.withPrimitive index)).ahead rfl id
    | returnsSelf => exact (ih a.returningSelf).ahead rfl id
    | returnsField index => exact (ih (a.returningField index)).ahead rfl id

end Shelves

/-! ## What the instructions of a method designate -/

theorem Assembles.literals {position : Nat → Option Nat} {pc : Nat} {lines : List Line}
    {code : List Instruction} (h : Assembles position pc lines code) :
    code.filterMap Instruction.literal? = lines.filterMap Line.literal? := by
  induction h with
  | nil pc => rfl
  | instruction _ ih =>
    rw [List.filterMap_cons, List.filterMap_cons, ih]
    rfl
  | mark _ ih => exact ih
  | @jump pc label target branch isLong i offset rest code hopcode htarget hoffset hlands hrest ih =>
    have hnone : i.literal? = none := by
      cases i with
      | push _ _ | store _ _ | popInto _ _ | pushLiteral _ | send _ _ | superSend _ _ => cases isLong <;> cases hopcode
      | _ => rfl
    rw [List.filterMap_cons, hnone, List.filterMap_cons]
    exact ih

/-- A draft that was finished has the header and the literals of the assembler, and its bytes are those of
the lines. -/
theorem Written.finish_ok {lines : List Line} {draft : Draft} (h : Written a lines)
    (hdraft : a.finish.1 = .ok draft) : a.problem? = none ∧ a.header = .ok draft.header ∧
      draft.literals = a.allLiterals ∧ ∃ code, Assembles (Line.position? 0 · lines) 0 lines code ∧
        Instruction.decodeFrom draft.bytes 0 = Instruction.located 0 code := by
  obtain ⟨hnone, hfinish⟩ : a.problem? = none ∧ a.draft = .ok draft := by
    unfold finish at hdraft
    split at hdraft
    · cases hdraft
    · split at hdraft
      · cases hdraft
      · exact ⟨‹_›, hdraft⟩
  have hsound := h.keeps.draft_cases.1.mp ⟨draft, hfinish⟩
  have hown : ∀ jump ∈ Line.fixups 0 lines, jump.label < a.labels.size := by
    intro jump hjump
    obtain ⟨target, htarget, -⟩ := hsound.lands jump hjump
    refine Nat.lt_of_not_le fun hle => ?_
    have hfresh : Line.position? 0 jump.label lines = none := h.keeps.fresh _ hle
    cases htarget.symm.trans hfresh
  obtain ⟨bytes', code, hok, hcode, hread, -⟩ := (h.resolve_lands hown).2 hsound.lands
  obtain ⟨header, hheader⟩ := a.header_ok_iff.mpr hsound.toHeaderFits
  rw [draft_of_header hok hsound.countsFit hheader, if_neg (Nat.not_lt.mpr hsound.literals)] at hfinish
  cases hfinish
  exact ⟨hnone, hheader, rfl, code, hcode, hread⟩

theorem collect_head (value : Literal) (rest : List Literal) :
    (collect (value :: rest)).head? = some value := by
  have hfirst : [value] <+: collect (value :: rest) := prefix_foldl_place [value] rest
  obtain ⟨more, hmore⟩ := hfirst
  rw [← hmore]
  rfl

/-- In a method that was asked for, each instruction that names a constant designates what stands for it,
and the first literal is the constant that was asked for first. -/
theorem takeAll_designates {argCount : Nat} {requests : List Request} {draft : Draft}
    (h : ((ofArgCount argCount).takeAll requests).finish.1 = .ok draft) :
    List.Forall₂ (fun index value =>
        draft.literals[index]? = some (standIn (requests.flatMap Request.asked) value))
      ((Instruction.decodeFrom draft.bytes 0).filterMap (·.2.literal?)) (requests.flatMap Request.named) ∧
    (requests.flatMap Request.asked ≠ [] →
      draft.literals.head? = (requests.flatMap Request.asked).head?) := by
  have hshelves := Shelves.takeAll (ofArgCount argCount) requests
  have hwritten := (Written.begin argCount).takeAll requests
  obtain ⟨hnone, -, hliterals, code, hcode, hread⟩ := hwritten.finish_ok h
  rw [List.nil_append] at hcode
  have hkept := hshelves.kept [] rfl
  have hstands := hshelves.stands [] rfl hnone
  rw [List.nil_append] at hkept hstands
  rw [hliterals, allLiterals, hkept]
  constructor
  · rw [hread, Instruction.filterMap_located, hcode.literals]
    refine hstands.imp fun index value hstands => ?_
    obtain ⟨hlt, -⟩ := List.getElem?_eq_some_iff.mp hstands.2
    rw [List.getElem?_append_left hlt, hstands.2]
  · intro hne
    obtain ⟨value, rest, heq⟩ := List.exists_cons_of_ne_nil hne
    rw [heq, List.head?_append, collect_head]
    rfl

end Assembler

end ObjectMachine
