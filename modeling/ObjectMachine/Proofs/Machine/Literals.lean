import ObjectMachine.Proofs.Assembler.Sharing
import ObjectMachine.Proofs.Machine.Reckoning

/-!
# Literals that are answered

A method pushes constants, drops all but the last one, and returns that. What it answers when it is built and
executed is the object of the constant that stands for the last one among its literals: the constant itself,
unless it is a zero and a zero of the other sign was pushed before.

## Main results

* `Machine.Denotes`: a reference is the object of a constant.
* `Spec.Halts.answersLast`: the run of such a method.
* `Machine.Reckons.literals_stand`: what it answers.
-/

namespace ObjectMachine

/-! ## Methods that push constants -/

/-- The instructions that push literals, drop all but the last one, and return that. -/
def Instruction.pushing (operands : List UInt8) (last : UInt8) : List Instruction :=
  operands.flatMap (fun index => [.pushLiteral index, .pop]) ++ [.pushLiteral last, .methodReturn .top]

theorem Instruction.filterMap_pushing (operands : List UInt8) (last : UInt8) :
    (pushing operands last).filterMap literal? = operands.map (·.toNat) ++ [last.toNat] := by
  induction operands with
  | nil => rfl
  | cons index rest ih => exact congrArg (index.toNat :: ·) ih

namespace Assembler

open Literal

variable {a : Assembler} {values : List Literal} {last : Literal} {draft : Draft}

/-- The requests for a method that pushes constants, drops all but the last one, and returns that. -/
def pushing (values : List Literal) (last : Literal) : List Request :=
  values.flatMap (fun value => [.code (.literal value), .code .pop]) ++
    [.code (.literal last), .code (.methodReturn .top)]

theorem named_pushing (values : List Literal) (last : Literal) :
    (pushing values last).flatMap Request.named = values ++ [last] := by
  induction values with
  | nil => rfl
  | cons value rest ih => exact congrArg (value :: ·) ih

theorem asked_pushing (values : List Literal) (last : Literal) :
    (pushing values last).flatMap Request.asked = values ++ [last] := by
  induction values with
  | nil => rfl
  | cons value rest ih => exact congrArg (value :: ·) ih

/-- The lines are the instructions. -/
theorem linesOf_pushing (a : Assembler) (values : List Literal) (last : Literal) :
    ∃ operands operand, operands.length = values.length ∧
      a.linesOf (pushing values last) = (Instruction.pushing operands operand).map .instruction := by
  induction values generalizing a with
  | nil => exact ⟨[], (a.literalOperand last).1, rfl, rfl⟩
  | cons value rest ih =>
    obtain ⟨operands, operand, hlength, hlines⟩ := ih ((a.add (.literal value)).add .pop)
    refine ⟨(a.literalOperand value).1 :: operands, operand, congrArg Nat.succ hlength, ?_⟩
    show a.lines (.literal value) ++ ((a.add (.literal value)).lines .pop ++
      ((a.add (.literal value)).add .pop).linesOf (pushing rest last)) = _
    rw [hlines]
    rfl

/-- A constant declares no temporaries. -/
theorem counts_literalOperand (a : Assembler) (value : Literal) :
    (a.literalOperand value).2.argCount = a.argCount ∧ (a.literalOperand value).2.extraTemps = a.extraTemps := by
  have hplace : (a.literalPlace value).2.argCount = a.argCount ∧
      (a.literalPlace value).2.extraTemps = a.extraTemps := by
    unfold literalPlace
    split <;> exact ⟨rfl, rfl⟩
  unfold literalOperand operand
  dsimp only
  split
  · exact hplace
  · unfold report
    split <;> exact hplace

/-- The temporaries are those that were declared. -/
theorem takeAll_pushing (a : Assembler) (values : List Literal) (last : Literal) :
    (a.takeAll (pushing values last)).argCount = a.argCount ∧
      (a.takeAll (pushing values last)).extraTemps = a.extraTemps := by
  have hliteral : ∀ (a : Assembler) value, (a.add (.literal value)).argCount = a.argCount ∧
      (a.add (.literal value)).extraTemps = a.extraTemps := fun a value => counts_literalOperand a value
  have hpop : ∀ a : Assembler, (a.add .pop).argCount = a.argCount ∧ (a.add .pop).extraTemps = a.extraTemps :=
    fun _ => ⟨rfl, rfl⟩
  have hreturn : ∀ a : Assembler, (a.add (.methodReturn .top)).argCount = a.argCount ∧
      (a.add (.methodReturn .top)).extraTemps = a.extraTemps := fun _ => ⟨rfl, rfl⟩
  induction values generalizing a with
  | nil =>
    show ((a.add (.literal last)).add (.methodReturn .top)).argCount = _ ∧
      ((a.add (.literal last)).add (.methodReturn .top)).extraTemps = _
    rw [(hreturn _).1, (hreturn _).2]
    exact hliteral a last
  | cons value rest ih =>
    show (((a.add (.literal value)).add .pop).takeAll (pushing rest last)).argCount = _ ∧
      (((a.add (.literal value)).add .pop).takeAll (pushing rest last)).extraTemps = _
    rw [(ih _).1, (ih _).2, (hpop _).1, (hpop _).2]
    exact hliteral a value

theorem Assembles.eq_of_instructions {position : Nat → Option Nat} {pc : Nat} {code code' : List Instruction}
    (h : Assembles position pc (code.map .instruction) code') : code' = code := by
  induction code generalizing pc code' with
  | nil => cases h; rfl
  | cons i code ih =>
    cases h with
    | instruction hrest => rw [ih hrest]

/-- What a method is that pushes constants. -/
structure IsPushing (draft : Draft) (values : List Literal) (last : Literal) (operands : List UInt8)
    (operand : UInt8) : Prop where
  length : operands.length = values.length
  code : Instruction.decodeFrom draft.bytes 0 = Instruction.located 0 (Instruction.pushing operands operand)
  literals : ∀ index ∈ operands, index.toNat < draft.literals.length
  last : draft.literals[operand.toNat]? = some (standIn (values ++ [last]) last)
  argCount : draft.header.argCount = 0
  tempCount : draft.header.tempCount = 0
  room : 0 < draft.header.frameSize

theorem exists_isPushing (h : ((ofArgCount 0).takeAll (pushing values last)).finish.1 = .ok draft) :
    ∃ operands operand, IsPushing draft values last operands operand := by
  obtain ⟨operands, operand, hlength, hlines⟩ := linesOf_pushing (ofArgCount 0) values last
  obtain ⟨hargs, htemps⟩ := takeAll_pushing (ofArgCount 0) values last
  have hwritten := (Written.begin 0).takeAll (pushing values last)
  obtain ⟨-, hheader, -, code, hcode, hread⟩ := hwritten.finish_ok h
  rw [List.nil_append, hlines] at hcode
  obtain rfl := hcode.eq_of_instructions
  obtain ⟨-, hargCount, htempCount, hdepth, -⟩ := MethodHeader.make_reads hheader
  obtain ⟨hdesignates, -⟩ := takeAll_designates h
  rw [named_pushing, asked_pushing] at hdesignates
  rw [hread, Instruction.filterMap_located, Instruction.filterMap_pushing] at hdesignates
  have hfirst := List.forall₂_take values.length hdesignates
  have hlast := List.forall₂_drop values.length hdesignates
  have hmapped : (operands.map (·.toNat)).length = values.length := by rw [List.length_map, hlength]
  rw [List.take_left, ← hmapped, List.take_left] at hfirst
  rw [List.drop_left, ← hmapped, List.drop_left, List.forall₂_cons] at hlast
  exact ⟨operands, operand,
    { length := hlength
      code := hread
      literals := fun index hindex => by
        obtain ⟨n, hn, hget⟩ := List.getElem_of_mem hindex
        have hat := hfirst.get (by rw [List.length_map]; exact hn) (by rw [← hlength]; exact hn)
        rw [List.get_eq_getElem, List.getElem_map, hget] at hat
        exact (List.getElem?_eq_some_iff.mp hat).1
      last := hlast.1
      argCount := hargCount.trans hargs
      tempCount := htempCount.trans (by rw [hargs, htemps]; rfl)
      room := by
        rw [MethodHeader.frameSize, hdepth]
        exact Nat.lt_add_left _ (Nat.succ_pos _) }⟩

end Assembler

/-! ## Runs -/

/-- The first of the instructions that are read from a position on is the one at the position. -/
theorem Instruction.decode?_of_decodeFrom {bytes : List UInt8} {pc : Nat} {i : Instruction}
    {code : List Instruction} (h : decodeFrom bytes pc = located pc (i :: code)) :
    decode? bytes pc = some i ∧ decodeFrom bytes (pc + i.width) = located (pc + i.width) code := by
  rw [decodeFrom] at h
  split at h
  · cases h
  · rename_i i' hread
    obtain ⟨hfirst, hrest⟩ := List.cons_eq_cons.mp h
    obtain rfl : i' = i := congrArg Prod.snd hfirst
    exact ⟨hread, hrest⟩

namespace Spec.Halts

open ObjectMachine.Graph

variable {g : Graph} {w : World} {held : List Nat} {c pc n : Nat} {j : Job} {stack below : List Value}
  {v : Value} {Q : Value → Graph → Prop} {E : Failure → Graph → Prop} {S : Fatal → Prop}

/-- A literal is pushed. -/
theorem pushLiteral {index : UInt8} (hr : w.Runs g held c j pc stack)
    (hi : Instruction.decode? j.draft.bytes pc = some (.pushLiteral index)) (hpc : pc + 2 < Ref.addressLimit)
    (hlt : index.toNat < j.draft.literals.length) (hroom : stack.length < j.draft.header.frameSize)
    (hnext : ∀ g', w.Runs g' held c j (pc + 2) (stack ++ [(g.nodes j.frame).element index.toNat]) →
      Works held g g' → Halts n g' Q E S) : Halts (n + 1) g Q E S := by
  refine step hr hi hpc fun g₁ hr₁ h₁ => .literalAt_lt hr₁ hlt (.push hr₁ hroom fun g₂ hr₂ h₂ => .pure ?_)
  have hsame : g₁.nodes j.frame = g.nodes j.frame :=
    h₁.nodes_eq hr.isCompiled.frame.1 (by rw [hr.isCompiled.array]; nofun)
  rw [hsame] at hr₂
  exact hnext g₂ hr₂ (h₁.trans h₂)

/-- The top of the stack is dropped. -/
theorem pop (hr : w.Runs g held c j pc (below ++ [v]))
    (hi : Instruction.decode? j.draft.bytes pc = some .pop) (hpc : pc + 1 < Ref.addressLimit)
    (hnext : ∀ g', w.Runs g' held c j (pc + 1) below → Works held g g' → Halts n g' Q E S) :
    Halts (n + 1) g Q E S :=
  step hr hi hpc fun _ hr₁ h₁ => .pop hr₁ fun g₂ hr₂ h₂ => .pure (hnext g₂ hr₂ (h₁.trans h₂))

/-- A method that pushes literals, drops all but the last one, and returns that answers it. -/
theorem answersLast {operands : List UInt8} {last : UInt8} (hr : w.Runs g [] c j pc [])
    (hcode : Instruction.decodeFrom j.draft.bytes pc =
      Instruction.located pc (Instruction.pushing operands last))
    (hbytes : j.draft.bytes.length < Ref.addressLimit)
    (hliterals : ∀ index ∈ operands, index.toNat < j.draft.literals.length)
    (hlast : last.toNat < j.draft.literals.length) (hroom : 0 < j.draft.header.frameSize)
    (hsender : j.sender = .object 0)
    (hend : ∀ g', w.Guides g' [] → Works [] g g' → Q ((g.nodes j.frame).element last.toNat) g') :
    Halts (2 * operands.length + 2) g Q E S := by
  have hpos : ∀ {position i}, Instruction.decode? j.draft.bytes position = some i →
      position + 1 < Ref.addressLimit := fun hread =>
    Nat.lt_of_le_of_lt (Instruction.lt_length_of_decode? hread) hbytes
  induction operands generalizing g pc with
  | nil =>
    obtain ⟨hpush, hrest⟩ := Instruction.decode?_of_decodeFrom hcode
    obtain ⟨hreturn, -⟩ := Instruction.decode?_of_decodeFrom hrest
    refine pushLiteral hr hpush (Nat.lt_of_succ_lt (hpos hreturn)) hlast hroom fun g₁ hr₁ h₁ => ?_
    exact returnLast (hr₁ : w.Runs g₁ [] c j _ ([] ++ [_])) hreturn (hpos hreturn) hsender fun g' hg' _ h' => hend g' hg' (h₁.trans h')
  | cons index rest ih =>
    obtain ⟨hpush, hrest⟩ := Instruction.decode?_of_decodeFrom hcode
    obtain ⟨hpop, hrest⟩ := Instruction.decode?_of_decodeFrom hrest
    refine pushLiteral hr hpush (Nat.lt_of_succ_lt (hpos hpop)) (hliterals index List.mem_cons_self) hroom
      fun g₁ hr₁ h₁ => ?_
    refine pop (hr₁ : w.Runs g₁ [] c j _ ([] ++ [_])) hpop (hpos hpop) fun g₂ hr₂ h₂ => ?_
    have h := h₁.trans h₂
    refine ih hr₂ hrest (fun i hi => hliterals i (List.mem_cons_of_mem _ hi)) fun g' hg' h' => ?_
    have hsame : g₂.nodes j.frame = g.nodes j.frame :=
      h.nodes_eq hr.isCompiled.frame.1 (by rw [hr.isCompiled.array]; nofun)
    rw [hsame]
    exact hend g' hg' (h.trans h')

end Spec.Halts

namespace Graph

variable {g g' : Graph} {w : World} {held : List Nat} {literal : Literal} {v cls : Value} {draft : Draft}

/-- The object of a literal stays what it is while contexts change and objects are added. -/
theorem World.IsLiteral.works (hv : w.IsLiteral g cls literal v) (h : Works held g g') :
    w.IsLiteral g' cls literal v := by
  cases literal with
  | nil | true | false => exact Eq.trans hv (congrArg _ h.core.symm)
  | character value => exact hv
  | symbol name => exact h.symbol?.trans hv
  | global name => exact (congrArg (named? · name) h.globals).trans hv
  | integer value => exact h.isInteger hv
  | float value =>
    obtain ⟨n, rfl, hlt, hformat, hcls, hraw⟩ := hv
    have hsame := h.nodes_eq hlt (by simp [hformat])
    exact ⟨n, rfl, hlt.trans_le h.next_le, by rw [hsame, hformat], by rw [hsame, hcls, h.core],
      by rw [hsame, hraw]⟩
  | string text =>
    obtain ⟨n, rfl, hlt, hformat, hcls, hbytes⟩ := hv
    have hsame := h.nodes_eq hlt (by simp [hformat])
    exact ⟨n, rfl, hlt.trans_le h.next_le, by rw [hsame, hformat], by rw [hsame, hcls, h.core],
      by rw [bytes_congr hsame, hbytes]⟩
  | methodClass =>
    obtain ⟨n, rfl, hfirm, hformat, hfields, hvalue⟩ := hv
    have hsame := h.nodes_eq hfirm.1 (by simp [hformat])
    exact ⟨n, rfl, hfirm.works h, by rw [hsame, hformat], by rw [hsame, hfields], by rw [hsame, hvalue]⟩

/-- A method that was built is compiled, and its literals are objects. -/
theorem World.IsBuilt.exists_frame (h : w.IsBuilt g draft cls v) :
    ∃ k : Compiled, k.draft = draft ∧ v = .object k.method ∧ w.IsCompiled g k ∧
      ∀ {i literal}, draft.literals[i]? = some literal →
        w.IsLiteral g cls literal ((g.nodes k.frame).element i) := by
  obtain ⟨n, frame, code, rfl, hcompiled⟩ := h.exists_compiled
  obtain ⟨n', frame', -, heq, -, -, -, -, -, hliterals, -, hframe, -⟩ := h.parts
  obtain rfl := Value.object.inj heq
  obtain rfl := Value.object.inj (hcompiled.literals.symm.trans hliterals)
  exact ⟨_, rfl, rfl, hcompiled, hframe.element⟩

end Graph

namespace Spec.Finishes

open ObjectMachine.Graph

variable {g : Graph} {w : World} {cls receiver : Value} {draft : Draft} {values : List Literal} {last : Literal} {operands : List UInt8} {operand : UInt8} {fuel : Nat}
  {S : Fatal → Prop}

/-- A method that pushes constants answers the object of what stands for the last one. -/
theorem executePushing (cls receiver : Value) (hidle : g.Idle) (hg : w.Guides g [])
    (hcode : ((Assembler.ofArgCount 0).takeAll (Assembler.pushing values last)).finish.1 = .ok draft)
    (hbytes : draft.bytes.length < Ref.addressLimit) (hfuel : 2 * values.length + 2 ≤ fuel)
    (hS : S (.fault .overflow)) :
    (Spec.build ((Assembler.ofArgCount 0).takeAll (Assembler.pushing values last)) cls >>= fun method =>
      Spec.execute fuel receiver method []).Finishes g
      (fun v g' => g'.core = g.core ∧ w.IsLiteral g' cls (Literal.standIn (values ++ [last]) last) v)
      (fun _ _ => False) S := by
  have hdraft : ∀ {result}, ((Assembler.ofArgCount 0).takeAll
      (Assembler.pushing values last)).finish.1 = result → result = .ok draft := fun heq => heq ▸ hcode
  have hbuild := of_modest (Ends.build (hg.describes_idle hidle) hS
    ((Assembler.ofArgCount 0).takeAll (Assembler.pushing values last))
    (fun cause heq => nomatch hdraft heq) cls) (Modest.build _ cls)
  refine bind (hbuild.mono (fun _ _ h => h) (fun _ _ h => ?_) fun _ h => h) ?_
  · obtain ⟨⟨-, cause, heq⟩, -⟩ := h
    cases hdraft heq
  rintro v g₁ ⟨⟨draft', heq, hleads, hbuilt⟩, hless⟩
  cases hdraft heq
  obtain ⟨k, rfl, rfl, hcompiled, hliterals⟩ := hbuilt.exists_frame
  obtain ⟨operands, operand, hpushing⟩ := Assembler.exists_isPushing hcode
  have hguides : w.Guides g₁ [] := hg.leads hidle hleads hless List.suffix_rfl fun _ _ => rfl
  refine (execute receiver [] (F := fun _ => False) (P := fun v g' =>
      w.IsLiteral g' cls (Literal.standIn (values ++ [last]) last) v) hleads.describes.settled.idle hguides
    hcompiled hpushing.argCount hpushing.tempCount hS hfuel (fun registers pinned h => ?_)
    fun g' c hr h => ?_).mono (fun _ _ h => ⟨h.2.2.1.core.trans hleads.advances.evolves.core, h.2.2.2⟩)
      (fun _ _ h => h.2.2.2) fun _ h => h
  · cases hstandIn : Literal.standIn (values ++ [last]) last <;> rw [hstandIn] at h <;> exact h
  · have hlt := (List.getElem?_eq_some_iff.mp hpushing.last).1
    have hframe : g'.nodes k.frame = g₁.nodes k.frame :=
      h.nodes_eq hcompiled.frame.1 (by rw [hcompiled.array]; nofun)
    have hlast := ((hliterals hpushing.last).works h).withPinned g'.pinned
    rw [← hframe] at hlast
    refine (Halts.answersLast hr hpushing.code hbytes hpushing.literals hlt hpushing.room rfl
      fun g'' hg'' h'' => ⟨hg'', h'', hlast.works h''⟩).mono ?_
    rw [hpushing.length]

end Spec.Finishes

namespace Machine

variable {d : Directory} {m m' : Machine} {g : Graph} {p : Placement} {starts : List Nat} {w : Graph.World}
  {k : KernelClass} {r : Ref} {v : Value} {literal : Literal}

/-- A reference is the object of a literal of a method that is made for a kernel class. -/
def Denotes (m : Machine) (k : KernelClass) (r : Ref) : Literal → Prop
  | .nil => r = m.core.nil
  | .true => r = m.core.trueObject
  | .false => r = m.core.falseObject
  | .integer value => m.IsInteger r value
  | .character value => r = .ofChar value
  | .float value => m.floatValue? r = .ok (some value)
  | .string text => m.isInstance .string r = .ok true ∧ m.heap.bytes r = .ok (Text.utf8Bytes text)
  | .symbol name => m.symbol? name = some r
  | .global name => m.globals.find? name = some r
  | .methodClass => m.heap.fixedFields r = .ok Association.fieldCount ∧
      m.heap.fetchField r Association.valueField = .ok (m.core.cls k)

theorem Realizes.found {names : List (String × Value)} {t : NameTable} {name : String} (hr : p.Shows r v)
    (ht : p.ShowsNames t names) (hv : Graph.named? names name = some v) : t.find? name = some r := by
  have hrel := ht.named? name
  rw [hv] at hrel
  cases hfound : t.find? name with
  | none =>
    rw [hfound] at hrel
    cases hrel
  | some r' =>
    rw [hfound] at hrel
    cases hrel with
    | some hr' => rw [hr'.ref_eq hr]

/-- The object of a literal in a graph is one in the machine. -/
theorem Realizes.denotes (hm : m.Realizes g p starts) (hr : p.Shows r v)
    (hv : w.IsLiteral g (g.core.cls k) literal v) : m.Denotes k r literal := by
  cases literal with
  | nil => exact hr.ref_eq (hv ▸ hm.roots.core.nil)
  | true => exact hr.ref_eq (hv ▸ hm.roots.core.trueObject)
  | false => exact hr.ref_eq (hv ▸ hm.roots.core.falseObject)
  | character value =>
    obtain rfl : v = .immediate (.ofChar value) := hv
    exact hr.1
  | symbol name => exact found hr hm.roots.symbols hv
  | global name => exact found hr hm.roots.globals hv
  | integer value => exact hm.isInteger hr hv
  | float value =>
    obtain ⟨n, rfl, -, hformat, hcls, hraw⟩ := hv
    have hread : g.floatValue? (.object n) = some (some value) := by
      have hnode : g.nodeOf (.object n) .float = some (g.nodes n) := if_pos hformat
      have hfloat : g.floatValue (.object n) = some ⟨(g.nodes n).raw 0⟩ := by
        unfold Graph.floatValue
        rw [hnode]
        rfl
      unfold Graph.floatValue?
      rw [show g.isInstance .float (.object n) = true from decide_eq_true hcls, hfloat, hraw]
      rfl
    obtain ⟨read, hok, hshows⟩ := (Reads.floatValue? hr).ok hm hread
    cases hshows with
    | some heq => exact heq ▸ hok
  | string text =>
    obtain ⟨n, rfl, -, -, hcls, hbytes⟩ := hv
    obtain ⟨_, hinstance, rfl⟩ := (Reads.isInstance hr .string).ok hm rfl
    obtain ⟨_, hread, rfl⟩ := (Reads.bytes hr).ok hm hbytes
    exact ⟨hinstance.trans (congrArg Except.ok (decide_eq_true hcls)), hread⟩
  | methodClass =>
    obtain ⟨n, rfl, -, -, hfields, hvalue⟩ := hv
    obtain ⟨_, hcount, rfl⟩ := (Reads.fixedFields hr).ok hm rfl
    obtain ⟨cls, hread, hcls⟩ := (Reads.field hr Association.valueField).ok hm
      (Graph.field_of_lt (by rw [hfields]; decide))
    rw [hvalue] at hcls
    exact ⟨hcount.trans (congrArg Except.ok hfields), hread.trans (congrArg Except.ok
      (hcls.ref_eq (hm.roots.core.cls k)))⟩

/-- What a method answers that pushes constants, drops all but the last one, and returns that: the object of
what stands for the last constant among those that are pushed. -/
theorem HasReckoner.answersLast (h : m.HasReckoner d) {values : List Literal} {last : Literal} {draft : Draft}
    {fuel : Nat} {receiver : Int} (k : KernelClass)
    (hcode : ((Assembler.ofArgCount 0).takeAll (Assembler.pushing values last)).finish.1 = .ok draft)
    (hbytes : draft.bytes.length < Ref.addressLimit) (hfuel : 2 * values.length + 2 ≤ fuel) :
    ((build ((Assembler.ofArgCount 0).takeAll (Assembler.pushing values last)) (m.core.cls k) >>= fun method =>
        execute fuel (.ofInt receiver) method [] : Action Ref) m).Concludes
      (fun r m' => m'.Denotes k r (Literal.standIn (values ++ [last]) last)) (fun _ _ => False)
      (· = .fault .overflow) ∧
    (build ((Assembler.ofArgCount 0).takeAll (Assembler.pushing values last)) (m.core.cls k) >>= fun method =>
        execute fuel (.ofInt receiver) method [] : Action Ref) m ≠ .unfinished := by
  obtain ⟨g, p, starts, w, hm, hreckons⟩ := h
  have hx := (Simulates.build ((Assembler.ofArgCount 0).takeAll (Assembler.pushing values last))
    (hm.roots.core.cls k)).bind_steady fun p' _ method v hmethod =>
      Simulates.execute fuel (p'.shows_ofInt receiver) hmethod .nil
  have hy := Spec.Finishes.executePushing (S := fun cause => cause = .fault .overflow) (g.core.cls k)
    (.immediate (.ofInt receiver)) hreckons.idle hreckons.guides hcode hbytes hfuel rfl
  refine ⟨(hx.concludes hm hy.1).mono ?_ ?_, hx.finishes hm hy⟩
  · rintro r m' ⟨v, g', p', starts', ⟨hcore, hv⟩, -, hr, hm'⟩
    rw [← hcore] at hv
    exact hm'.denotes hr hv
  · rintro failure m' ⟨g', p', starts', hfalse, -⟩
    exact hfalse

/-- Whatever a method is asked to be, each instruction that names a constant designates what stands for it
among the literals, which is the constant itself, unless it is a zero and a zero of the other sign was asked
for before; and the first literal, which is what the method answers if it only answers a literal, is the
constant that was asked for first. A method that pushes constants and returns the last one answers the object
of what stands for it. -/
theorem Reckons.literals_stand (h : Reckons d m) :
    (∀ argCount requests draft, ((Assembler.ofArgCount argCount).takeAll requests).finish.1 = .ok draft →
      List.Forall₂ (fun index value => draft.literals[index]? =
          some (Literal.standIn (requests.flatMap Assembler.Request.asked) value))
        ((Instruction.decodeFrom draft.bytes 0).filterMap (·.2.literal?))
        (requests.flatMap Assembler.Request.named) ∧
      (requests.flatMap Assembler.Request.asked ≠ [] →
        draft.literals.head? = (requests.flatMap Assembler.Request.asked).head?)) ∧
    (∀ asked value, Literal.standIn asked value = value ∨
      value.isZero ∧ asked.find? (·.isZero) = some (Literal.standIn asked value)) ∧
    ∀ values last draft fuel receiver k,
      ((Assembler.ofArgCount 0).takeAll (Assembler.pushing values last)).finish.1 = .ok draft →
      draft.bytes.length < Ref.addressLimit → 2 * values.length + 2 ≤ fuel →
      ((build ((Assembler.ofArgCount 0).takeAll (Assembler.pushing values last)) (m.core.cls k) >>= fun method =>
          execute fuel (.ofInt receiver) method [] : Action Ref) m).Concludes
        (fun r m' => m'.Denotes k r (Literal.standIn (values ++ [last]) last)) (fun _ _ => False)
        (· = .fault .overflow) ∧
      (build ((Assembler.ofArgCount 0).takeAll (Assembler.pushing values last)) (m.core.cls k) >>= fun method =>
          execute fuel (.ofInt receiver) method [] : Action Ref) m ≠ .unfinished :=
  ⟨fun _ _ _ hdraft => Assembler.takeAll_designates hdraft, Literal.standIn_eq_or,
    fun _ _ _ _ _ k hcode hbytes hfuel => h.hasReckoner.answersLast k hcode hbytes hfuel⟩

/-- Zero is pushed and dropped, and the zero with the other sign is returned. -/
def pushingZeros : Assembler :=
  (Assembler.ofArgCount 0).takeAll (Assembler.pushing [.float ⟨0⟩] (.float ⟨0x8000000000000000⟩))

/-- The method is built and executed on a fresh machine. -/
def returnZero : Action Ref := do
  bootstrap
  let cls ← Action.ask (·.core.cls .object)
  let method ← build pushingZeros cls
  execute 4 (.ofInt 3) method []

theorem returnZero_stands : ∃ m, ofConfig {} = .ok m ∧ ({} : HeapConfig).maxBytes < countLimit ∧
    (returnZero m).Concludes (fun r m' => m'.floatValue? r = .ok (some ⟨0⟩)) (fun _ _ => False)
      fun cause => cause = .fault .overflow := by
  obtain ⟨m, hok⟩ : ∃ m, ofConfig {} = .ok m := ⟨_, rfl⟩
  refine ⟨m, hok, by decide, ?_⟩
  obtain ⟨draft, hdraft, hlength⟩ : ∃ draft, pushingZeros.finish.1 = .ok draft ∧ draft.bytes.length = 6 := by
    have hlength : pushingZeros.finish.1.toOption.map (·.bytes.length) = some 6 := by decide +kernel
    cases hfinish : pushingZeros.finish.1 with
    | ok draft =>
      rw [hfinish] at hlength
      exact ⟨draft, rfl, Option.some.inj hlength⟩
    | error refusal =>
      rw [hfinish] at hlength
      cases hlength
  have hstand : Literal.standIn ([.float ⟨0⟩] ++ [.float ⟨0x8000000000000000⟩])
      (.float ⟨0x8000000000000000⟩) = .float ⟨0⟩ := by
    decide +kernel
  have hboot := bootstrap_reckons hok (by decide)
  show (Action.bind bootstrap (fun _ => Action.bind (Action.ask (·.core.cls .object)) fun cls =>
    Action.bind (build pushingZeros cls) fun method => execute 4 (.ofInt 3) method []) m).Concludes _ _ _
  unfold Action.bind
  cases hrun : bootstrap m with
  | ok _ m' =>
    obtain ⟨-, -, hanswers⟩ := Reckons.literals_stand (.bootstrapped hok (by decide) hrun)
    obtain ⟨hconcludes, -⟩ := hanswers _ _ draft 4 3 .object hdraft (by rw [hlength]; decide) (Nat.le_refl 4)
    rw [hstand] at hconcludes
    exact hconcludes
  | failed failure m' =>
    rw [hrun] at hboot
    exact hboot.elim
  | stopped cause =>
    rw [hrun] at hboot
    exact hboot
  | unfinished => trivial

end Machine

end ObjectMachine
