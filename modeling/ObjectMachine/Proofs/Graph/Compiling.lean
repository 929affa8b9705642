import ObjectMachine.Proofs.Graph.Populating

/-!
# Compiled methods in graphs

What a draft of a method becomes: an object with a header, an array of literals and an array of bytes.
None of these is among the objects that may change when classes are defined and methods are added, so
a method that was built stays what it was.

## Main results

* `Graph.World.IsBuilt`: a value is the compiled method of a draft.
* `Spec.Ends.install`: a method is built and added to a class.
-/

namespace ObjectMachine

namespace Graph

variable {g g' : Graph} {w w' : World} {v cls : Value} {n : Nat} {literal : Literal}
  {literals : List Literal} {draft : Draft}

/-! ## What was built -/

/-- An object that there is and that may not change. -/
def World.Firm (w : World) (g : Graph) (n : Nat) : Prop := n < g.next ∧ ¬ w.Loose g n

/-- A value is the object of a literal of a method for a class. -/
def World.IsLiteral (w : World) (g : Graph) (cls : Value) : Literal → Value → Prop
  | .nil, v => v = g.core.nil
  | .true, v => v = g.core.trueObject
  | .false, v => v = g.core.falseObject
  | .integer value, v => g.IsInteger v value
  | .character value, v => v = .immediate (.ofChar value)
  | .float value, v => g.IsFloat v value
  | .string text, v => ∃ n, v = .object n ∧ n < g.next ∧ (g.nodes n).format = .byteArray ∧
      (g.nodes n).cls = g.core.cls .string ∧ g.bytes v = some (Text.utf8Bytes text)
  | .symbol name, v => g.symbol? name = some v
  | .global name, v => named? g.globals name = some v
  | .methodClass, v => ∃ n, v = .object n ∧ w.Firm g n ∧ (g.nodes n).format = .plain ∧
      (g.nodes n).fields = Association.fieldCount ∧
      (g.nodes n).field Association.valueField = cls

/-- An object is the array of the literals of a method. -/
structure World.IsFrame (w : World) (g : Graph) (cls : Value) (literals : List Literal) (n : Nat) :
    Prop where
  firm : w.Firm g n
  format : (g.nodes n).format = .array
  fields : (g.nodes n).fields = 0
  len : (g.nodes n).len = literals.length
  element : ∀ {i literal}, literals[i]? = some literal →
    w.IsLiteral g cls literal ((g.nodes n).element i)

/-- A value is the compiled method of a draft, for a class. -/
structure World.IsBuilt (w : World) (g : Graph) (draft : Draft) (cls v : Value) : Prop where
  parts : ∃ n frame code, v = .object n ∧ w.Firm g n ∧
    (g.nodes n).format = .plain ∧ (g.nodes n).fields = Method.fieldCount ∧
    (g.nodes n).cls = g.core.cls .compiledMethod ∧
    (g.nodes n).field Method.headerField = .immediate draft.header.toRef ∧
    (g.nodes n).field Method.literalsField = .object frame ∧
    (g.nodes n).field Method.codeField = .object code ∧
    w.IsFrame g cls draft.literals frame ∧
    w.Firm g code ∧ (g.nodes code).format = .byteArray ∧ g.bytes (.object code) = some draft.bytes

/-! ### What stays -/

/-- What may change is plain or an array. -/
theorem World.Describes.firm (hw : w.Describes g) (hn : n < g.next)
    (hformat : (g.nodes n).format ≠ .plain ∧ (g.nodes n).format ≠ .array) : w.Firm g n := by
  refine ⟨hn, ?_⟩
  rintro (⟨k, rfl⟩ | hc | ⟨c, hc, hkeeps⟩ | ⟨name, hmem⟩)
  · exact hformat.1 (hw.bare k).1
  · exact hformat.1 (hw.layout hc).2.1
  · exact hformat.2 (hw.shelf_array hc hkeeps).2
  · exact hformat.1 (hw.association hmem).2.2.1

/-- What is new may not change. -/
theorem World.Describes.firm_new (hw : w.Describes g) (hn : g.next ≤ n) (hlt : n < g'.next)
    (hglobals : g'.globals = g.globals) : w.Firm g' n := by
  refine ⟨hlt, ?_⟩
  rintro (⟨k, rfl⟩ | hc | ⟨c, hc, hkeeps⟩ | ⟨name, hmem⟩)
  · exact absurd (classNode_lt k) (Nat.not_lt.mpr (hw.next_le.trans hn))
  · exact absurd (hw.layout hc).1 (Nat.not_lt.mpr hn)
  · exact absurd (hw.shelf_array hc hkeeps).1 (Nat.not_lt.mpr hn)
  · rw [hglobals] at hmem
    exact absurd (hw.association hmem).1 (Nat.not_lt.mpr hn)

theorem World.Firm.advances (hn : w.Firm g n) (h : w.Advances g w' g') : w'.Firm g' n :=
  ⟨hn.1.trans_le h.evolves.next_le, fun hl => hn.2 (h.loose n hn.1 hl)⟩

theorem World.Firm.nodes_eq (hn : w.Firm g n) (h : w.Advances g w' g') : g'.nodes n = g.nodes n :=
  h.evolves.nodes n hn.1 hn.2

theorem IsInteger.advances {value : Int} (hv : g.IsInteger v value) (hw : w.Describes g)
    (h : w.Advances g w' g') : g'.IsInteger v value := by
  unfold IsInteger at hv ⊢
  cases hsmall : Ref.ofInt? value with
  | some r =>
    rw [hsmall] at hv
    exact hv
  | none =>
    rw [hsmall] at hv
    obtain ⟨n, rfl, hlt, hformat, hcls, hlarge⟩ := hv
    have hsame := (hw.firm hlt (by simp [hformat])).nodes_eq h
    exact ⟨n, rfl, hlt.trans_le h.evolves.next_le, by rw [hsame, hformat],
      by rw [hsame, hcls, h.evolves.core], by rw [hsame, hlarge]⟩

theorem World.IsLiteral.advances (hv : w.IsLiteral g cls literal v) (hw : w.Describes g)
    (h : w.Advances g w' g') : w'.IsLiteral g' cls literal v := by
  have hcore := h.evolves.core
  cases literal with
  | nil => exact Eq.trans hv (congrArg _ hcore.symm)
  | true => exact Eq.trans hv (congrArg _ hcore.symm)
  | false => exact Eq.trans hv (congrArg _ hcore.symm)
  | character value => exact hv
  | symbol name => exact symbol?_evolves hv h.evolves
  | global name => exact named?_mono hv h.evolves.globals
  | integer value => exact IsInteger.advances hv hw h
  | float value =>
    obtain ⟨n, rfl, hlt, hformat, hcls, hraw⟩ := hv
    have hsame := (hw.firm hlt (by simp [hformat])).nodes_eq h
    exact ⟨n, rfl, hlt.trans_le h.evolves.next_le, by rw [hsame, hformat],
      by rw [hsame, hcls, hcore], by rw [hsame, hraw]⟩
  | string text =>
    obtain ⟨n, rfl, hlt, hformat, hcls, hbytes⟩ := hv
    have hsame := (hw.firm hlt (by simp [hformat])).nodes_eq h
    exact ⟨n, rfl, hlt.trans_le h.evolves.next_le, by rw [hsame, hformat],
      by rw [hsame, hcls, hcore], by rw [bytes_congr hsame, hbytes]⟩
  | methodClass =>
    obtain ⟨n, rfl, hfirm, hformat, hfields, hvalue⟩ := hv
    have hsame := hfirm.nodes_eq h
    exact ⟨n, rfl, hfirm.advances h, by rw [hsame, hformat], by rw [hsame, hfields],
      by rw [hsame, hvalue]⟩

theorem World.IsFrame.advances (hn : w.IsFrame g cls literals n) (hw : w.Describes g)
    (h : w.Advances g w' g') : w'.IsFrame g' cls literals n := by
  have hsame := hn.firm.nodes_eq h
  exact
    { firm := hn.firm.advances h
      format := by rw [hsame, hn.format]
      fields := by rw [hsame, hn.fields]
      len := by rw [hsame, hn.len]
      element := fun hi => by
        rw [hsame]
        exact (hn.element hi).advances hw h }

/-- A compiled method stays what it is. -/
theorem World.IsBuilt.advances (hv : w.IsBuilt g draft cls v) (hw : w.Describes g)
    (h : w.Advances g w' g') : w'.IsBuilt g' draft cls v := by
  obtain ⟨n, frame, code, rfl, hfirm, hformat, hfields, hcls, hheader, hliterals, hcode, hframe,
    hcodeFirm, hcodeFormat, hbytes⟩ := hv.parts
  have hsame := hfirm.nodes_eq h
  have hcodeSame := hcodeFirm.nodes_eq h
  refine ⟨n, frame, code, rfl, hfirm.advances h, ?_, ?_, ?_, ?_, ?_, ?_, hframe.advances hw h,
    hcodeFirm.advances h, ?_, ?_⟩
  · rw [hsame, hformat]
  · rw [hsame, hfields]
  · rw [hsame, hcls, h.evolves.core]
  · rw [hsame, hheader]
  · rw [hsame, hliterals]
  · rw [hsame, hcode]
  · rw [hcodeSame, hcodeFormat]
  · rw [bytes_congr hcodeSame, hbytes]

/-! Temporaries do not matter. -/

theorem World.IsLiteral.withPinned (hv : w.IsLiteral g cls literal v) (values : List Value) :
    w.IsLiteral (g.withPinned values) cls literal v := by
  cases literal <;> exact hv

theorem World.IsBuilt.withPinned (hv : w.IsBuilt g draft cls v) (values : List Value) :
    w.IsBuilt (g.withPinned values) draft cls v := by
  obtain ⟨n, frame, code, rfl, hfirm, hformat, hfields, hcls, hheader, hliterals, hcode, hframe,
    hrest⟩ := hv.parts
  exact ⟨n, frame, code, rfl, hfirm, hformat, hfields, hcls, hheader, hliterals, hcode,
    { firm := hframe.firm
      format := hframe.format
      fields := hframe.fields
      len := hframe.len
      element := fun hi => (hframe.element hi).withPinned values }, hrest⟩

/-! ## Building -/

/-- Values are stored one after the other. -/
theorem storeElements_eq {g : Graph} {n : Nat} (values : List Value) (index : Nat)
    (hformat : (g.nodes n).format = .array) (hlen : index + values.length ≤ (g.nodes n).len) :
    ∃ o, g.storeElements (.object n) index values = some (g.setNode n o) ∧
      Node.SameLayout (g.nodes n) o ∧ o.hash = (g.nodes n).hash ∧
      (∀ i < index, o.element i = (g.nodes n).element i) ∧
      ∀ {i v}, values[i]? = some v → o.element (index + i) = v := by
  induction values generalizing g index with
  | nil => exact ⟨g.nodes n, by simp [storeElements, setNode], .refl _, rfl, fun _ _ => rfl, by simp⟩
  | cons value rest ih =>
    rw [List.length_cons] at hlen
    have hstore : g.storeElement (.object n) index value =
        some (g.setNode n ((g.nodes n).withElement index value)) :=
      storeElement_of_lt hformat (by omega)
    have hself : (g.setNode n ((g.nodes n).withElement index value)).nodes n =
        (g.nodes n).withElement index value := Function.update_self ..
    obtain ⟨o, hrest, hlayout, hhash, hbelow, hat⟩ := ih (g := g.setNode n
      ((g.nodes n).withElement index value)) (index + 1) (by rw [hself]; exact hformat)
      (by rw [hself]; show _ ≤ (g.nodes n).len; omega)
    rw [hself] at hlayout hhash hbelow
    refine ⟨o, ?_, ⟨hlayout.format, hlayout.fields, hlayout.len⟩, hhash, fun i hi => ?_, ?_⟩
    · show (g.storeElement (.object n) index value).bind _ = _
      rw [hstore]
      show (g.setNode n _).storeElements (.object n) (index + 1) rest = _
      rw [hrest, setNode_setNode]
    · rw [hbelow i (Nat.lt_succ_of_lt hi)]
      simp [Node.withElement, Nat.ne_of_lt hi]
    · intro i v hi
      cases i with
      | zero =>
        obtain rfl := Option.some.inj hi
        rw [Nat.add_zero, hbelow index (by omega)]
        exact if_pos rfl
      | succ i =>
        have hnext := hat (i := i) hi
        rwa [Nat.add_right_comm, Nat.add_assoc] at hnext

end Graph

namespace Spec.Ends

open ObjectMachine.Graph

variable {α β : Type} {g : Graph} {w : World} {E : Failure → Graph → Prop} {S : Fatal → Prop}
  {cls : Value} {position : Nat}

/-- The object of a literal is made. -/
theorem materialize (hw : w.Describes g) (hS : S (.fault .overflow))
    (hposition : g.pinned[position]? = some cls) (literal : Literal) :
    (Spec.materialize position literal).Ends g
      (fun v g' => w.Leads g w g' ∧ w.IsLiteral g' cls literal v) E S := by
  cases literal with
  | nil => exact ask (pure ⟨.refl hw, rfl⟩)
  | true => exact ask (pure ⟨.refl hw, rfl⟩)
  | false => exact ask (pure ⟨.refl hw, rfl⟩)
  | character value => exact pure ⟨.refl hw, rfl⟩
  | integer value =>
    exact (newInteger hw.settled fun _ => hS).mono (fun v g' h => ⟨.adds hw h.1, h.2⟩)
      (fun _ _ h => h) fun _ h => h
  | float value =>
    exact (newFloat hw.settled fun _ => hS).mono (fun v g' h => ⟨.adds hw h.1, h.2⟩)
      (fun _ _ h => h) fun _ h => h
  | string text =>
    refine ask ((newBytes hw.settled.idle hw.settled.kernel fun _ => hS).mono (fun v g' h => ?_)
      (fun _ _ h => h) fun _ h => h)
    refine ⟨.adds hw h.adds, g.next, h.value, ?_, h.format, ?_, h.bytes⟩
    · rw [h.next]
      exact Nat.lt_succ_self _
    · rw [h.cls, h.adds.grows.core]
  | symbol name =>
    exact (intern hw.settled fun _ => hS).mono (fun v g' h => ⟨.interned hw h, h.symbol⟩)
      (fun _ _ h => h) fun _ h => h
  | global name =>
    refine (globalAssociation hw.settled fun _ => hS).mono (fun v g' h => ?_) (fun _ _ h => h)
      fun _ h => h
    exact ⟨.grows hw h.grows h.settled h.pinned h.old, h.association⟩
  | methodClass =>
    refine ask (bind (newAssociation hw.settled fun _ => hS) ?_)
    rintro v g₁ ⟨hadds, rfl, hnext, hformat, hfields, -⟩
    refine pinnedAt (hadds.pinned ▸ hposition) ?_
    have hlt : Association.valueField < (g₁.nodes g.next).fields := by
      rw [hfields]
      decide
    have hstore := storeField_of_lt (w := cls) (by simp [hformat]) hlt
    refine write hstore (pure ?_)
    have hadds' := hadds.setNode (o := (g₁.nodes g.next).withField Association.valueField cls)
      (Nat.le_refl _) ⟨rfl, rfl, rfl⟩ rfl
    refine ⟨.adds hw hadds', g.next, rfl, ?_, ?_, ?_, ?_⟩
    · exact hw.firm_new (Nat.le_refl _) (hnext ▸ Nat.lt_succ_self _) hadds'.globals
    · simp [hformat]
    · simp [hfields]
    · simp

/-- The objects of literals are made and pinned. -/
theorem materializeAll (hw : w.Describes g) (hS : S (.fault .overflow))
    (hposition : g.pinned[position]? = some cls) (literals : List Literal) :
    (Spec.materializeAll position literals).Ends g (fun _ g' => ∃ values,
      w.Leads g w (g'.withPinned g.pinned) ∧ g'.pinned = g.pinned ++ values ∧
      List.Forall₂ (w.IsLiteral g' cls) literals values) E S := by
  induction literals generalizing g with
  | nil => exact pure ⟨[], .refl hw, by simp, .nil⟩
  | cons literal rest ih =>
    refine bind (materialize hw hS hposition literal) ?_
    rintro v g₁ ⟨hleads, hliteral⟩
    refine pin ?_
    have hw₁ := hleads.describes.withPinned (g₁.pinned ++ [v])
    have hposition₁ : (g₁.pinned ++ [v])[position]? = some cls := by
      rw [hleads.pinned, List.getElem?_append_left (List.getElem?_eq_some_iff.mp hposition).1]
      exact hposition
    refine (ih hw₁ hposition₁).mono ?_ (fun _ _ h => h) fun _ h => h
    rintro - g₂ ⟨values, hleads₂, hpinned₂, hall⟩
    rw [pinned_withPinned] at hleads₂ hpinned₂
    have hleads₂ : w.Leads (g₁.withPinned g₁.pinned) w (g₂.withPinned g₁.pinned) :=
      hleads₂.withPinned g₁.pinned
    refine ⟨v :: values, ?_, ?_, .cons ?_ hall⟩
    · rw [← hleads.pinned]
      exact hleads.trans hleads₂
    · rw [hpinned₂, hleads.pinned]
      simp
    · have hkept : w.IsLiteral (g₁.withPinned g₁.pinned) cls literal v := hliteral
      have hkept₂ : w.IsLiteral (g₂.withPinned g₁.pinned) cls literal v :=
        hkept.advances hleads.describes hleads₂.advances
      exact hkept₂

/-- Values that were pinned one after the other are read. -/
theorem pinnedFrom {values before : List Value} (hpinned : g.pinned = before ++ values) :
    (Spec.pinnedFrom before.length values.length).Ends g (fun a g' => a = values ∧ g' = g) E S := by
  induction values generalizing before with
  | nil => exact pure ⟨rfl, rfl⟩
  | cons v rest ih =>
    have hat : g.pinned[before.length]? = some v := by
      rw [hpinned]
      simp
    have hrest := @ih (before ++ [v]) (by rw [hpinned]; simp)
    rw [List.length_append, List.length_singleton] at hrest
    refine pinnedAt hat (bind hrest ?_)
    rintro a g' ⟨rfl, rfl⟩
    exact pure ⟨rfl, rfl⟩

/-- The array of the literals of a method is made. -/
theorem buildLiterals (hw : w.Describes g) (hS : S (.fault .overflow)) (literals : List Literal)
    (cls : Value) :
    (Spec.buildLiterals literals cls).Ends g (fun v g' => w.Leads g w g' ∧
      ∃ n, v = .object n ∧ w.IsFrame g' cls literals n) E S := by
  refine ask (pin ?_)
  have hposition : (g.withPinned (g.pinned ++ [cls])).pinned[g.pinned.length]? = some cls := by
    simp
  refine bind (materializeAll (hw.withPinned _) hS hposition literals) ?_
  rintro - g₁ ⟨values, hleads₁, hpinned₁, hall⟩
  have hw₁ : w.Describes g₁ := hleads₁.describes.withPinned g₁.pinned
  refine bind (newArray hw₁.settled fun _ => hS) ?_
  rintro array g₂ ⟨hadds, rfl, hnext, ⟨hash, hnode⟩, -⟩
  have hpinned₂ : g₂.pinned = (g.pinned ++ [cls]) ++ values := hadds.pinned.trans hpinned₁
  have hvalues := pinnedFrom (E := E) (S := S) hpinned₂
  rw [List.length_append, List.length_singleton, ← hall.length_eq] at hvalues
  refine bind hvalues ?_
  rintro values' g₂' ⟨heq, rfl⟩
  subst heq
  have hlen : 0 + values'.length ≤ (g₂'.nodes g₁.next).len := by
    rw [hnode, Nat.zero_add, ← hall.length_eq]
    exact Nat.le_refl _
  obtain ⟨o, hstore, hlayout, hhash, -, helement⟩ := storeElements_eq values' 0
    (by rw [hnode]; rfl) hlen
  refine write hstore ?_
  refine unpinTo (hpinned₂.trans (List.append_assoc ..)) (pure ?_)
  have hadds' : g₁.Adds (g₂'.setNode g₁.next o) := hadds.setNode (Nat.le_refl _) hlayout hhash
  have hleads₂ : w.Leads g₁ w (g₂'.setNode g₁.next o) := .adds hw₁ hadds'
  have hself : (g₂'.setNode g₁.next o).nodes g₁.next = o := Function.update_self ..
  refine ⟨(hleads₁.withPinned g.pinned).trans (hleads₂.withPinned g.pinned), g₁.next, rfl, ?_⟩
  refine
    { firm := hw₁.firm_new (Nat.le_refl _) (hnext ▸ Nat.lt_succ_self _) hadds'.globals
      format := ?_
      fields := ?_
      len := ?_
      element := fun {i literal} hi => ?_ }
  · show ((g₂'.setNode g₁.next o).nodes g₁.next).format = _
    rw [hself, hlayout.format, hnode]
    rfl
  · show ((g₂'.setNode g₁.next o).nodes g₁.next).fields = _
    rw [hself, hlayout.fields, hnode]
    rfl
  · show ((g₂'.setNode g₁.next o).nodes g₁.next).len = _
    rw [hself, hlayout.len, hnode]
    rfl
  · obtain ⟨hlt, hget⟩ := List.getElem?_eq_some_iff.mp hi
    have hvalue : values'[i]? = some (values'.get ⟨i, hall.length_eq ▸ hlt⟩) :=
      List.getElem?_eq_getElem _
    have hliteral := List.forall₂_iff_get.mp hall |>.2 i hlt (hall.length_eq ▸ hlt)
    rw [List.get_eq_getElem, List.get_eq_getElem, hget] at hliteral
    show w.IsLiteral _ cls literal (((g₂'.setNode g₁.next o).nodes g₁.next).element i)
    rw [hself, ← Nat.zero_add i, helement hvalue]
    have hkept := hliteral.advances hw₁ hleads₂.advances
    exact hkept

/-- A compiled method is made. -/
theorem newMethod (hw : w.Describes g) (hS : S (.fault .overflow)) {frame : Nat}
    {draft : Draft} (hframe : w.IsFrame g cls draft.literals frame) :
    (Spec.newMethod draft.header (.object frame) draft.bytes).Ends g (fun v g' => w.Leads g w g' ∧
      w.IsBuilt g' draft cls v) E S := by
  refine pin (bind (ask (newBytes hw.settled.idle { hw.settled.kernel with } fun _ => hS)) ?_)
  rintro code g₁ ⟨hadds₁, rfl, hnext₁, hformat₁, -, -, hbytes₁⟩
  have hw₁ : w.Describes g₁ :=
    (hw.withPinned _).grows hadds₁.grows ((hw.settled.withPinned _).adds hadds₁)
  refine pin (ask (bind (allocate_core hw₁.settled.idle { hw₁.settled.kernel with } (.inr rfl)
    (by decide) nofun fun _ => hS) ?_))
  rintro v g₂ ⟨hadds₂, rfl, hnext₂, ⟨hash, hnode⟩, -⟩
  have hpinned₁ : g₁.pinned = g.pinned ++ [.object frame] := hadds₁.pinned
  have hpinned₂ : g₂.pinned = g.pinned ++ [.object frame] ++ [.object g.next] := by
    rw [← hpinned₁]
    exact hadds₂.pinned
  simp only [next_withPinned] at *
  refine unpin hpinned₂ (unpin rfl ?_)
  simp only [withPinned_withPinned]
  have hplain : ((g₂.withPinned g.pinned).nodes g₁.next).format ≠ .context := by
    simp [hnode, Node.fresh]
  have hcount : ((g₂.withPinned g.pinned).nodes g₁.next).fields = Method.fieldCount := by
    simp [hnode, Node.fresh]
  have hstored : ((g₂.withPinned g.pinned).storeField (.object g₁.next) Method.headerField
        (.immediate draft.header.toRef) >>= fun g' =>
      g'.storeField (.object g₁.next) Method.literalsField (.object frame) >>= fun g' =>
        g'.storeField (.object g₁.next) Method.codeField (.object g.next)) =
      some ((g₂.withPinned g.pinned).setNode g₁.next ((((g₂.nodes g₁.next).withField
        Method.headerField (.immediate draft.header.toRef)).withField Method.literalsField
          (.object frame)).withField Method.codeField (.object g.next))) := by
    have hlt : ∀ index < Method.fieldCount, index < ((g₂.withPinned g.pinned).nodes g₁.next).fields :=
      fun index hindex => hcount ▸ hindex
    refine (storeField_bind hplain (hlt Method.headerField (by decide)) _).trans ?_
    refine (setNode_storeField_bind (by exact hplain)
      (by exact hlt Method.literalsField (by decide)) _).trans ?_
    exact setNode_storeField (by exact hplain) (by exact hlt Method.codeField (by decide))
  refine write hstored (pure ?_)
  have hadds : (g.withPinned (g.pinned ++ [.object frame])).Adds (g₂.withPinned (g.pinned ++ [.object frame])) :=
    hadds₁.trans (by rw [← hpinned₁]; exact hadds₂.withPinned g₁.pinned)
  have hadds' := (hadds.withPinned g.pinned).setNode (n := g₁.next)
    (o := (((g₂.nodes g₁.next).withField Method.headerField (.immediate draft.header.toRef)).withField
      Method.literalsField (.object frame)).withField Method.codeField (.object g.next))
    hadds₁.grows.next_le ⟨rfl, rfl, rfl⟩ rfl
  have hleads : w.Leads g w _ := .adds hw hadds'
  have hcode : g₂.nodes g.next = g₁.nodes g.next :=
    hadds₂.grows.nodes g.next (hnext₁ ▸ Nat.lt_succ_self _) id
  have hne : g.next ≠ g₁.next := by omega
  refine ⟨hleads, g₁.next, frame, g.next, rfl, ?_, ?_, ?_, ?_, ?_, ?_, ?_,
    hframe.advances hw hleads.advances, ?_, ?_, ?_⟩
  · exact hw.firm_new hadds₁.grows.next_le (hnext₂ ▸ Nat.lt_succ_self _) hadds'.globals
  · simp [hnode, Node.fresh]
  · simp [hnode, Node.fresh]
  · have hcore : g₁.core = g.core := hadds₁.grows.core
    have hcore' : g₂.core = g₁.core := hadds₂.grows.core
    simp [hnode, Node.fresh, hcore, hcore']
  · simp [Method.headerField, Method.literalsField, Method.codeField]
  · simp [Method.literalsField, Method.codeField]
  · simp
  · exact hw.firm_new (Nat.le_refl _) (by show g.next < g₂.next; omega) hadds'.globals
  · simp [Function.update_of_ne hne, hcode, hformat₁]
  · rw [← hbytes₁]
    refine bytes_congr ?_
    simp [Function.update_of_ne hne, hcode]

/-- The compiled method of a draft is made. -/
theorem buildDraft (hw : w.Describes g) (hS : S (.fault .overflow)) (draft : Draft) (cls : Value) :
    (Spec.buildDraft draft cls).Ends g
      (fun v g' => w.Leads g w g' ∧ w.IsBuilt g' draft cls v) E S := by
  refine bind (buildLiterals hw hS draft.literals cls) ?_
  rintro v g₁ ⟨hleads, frame, rfl, hframe⟩
  exact (newMethod hleads.describes hS hframe).mono (fun v g' h => ⟨hleads.trans h.1, h.2⟩)
    (fun _ _ h => h) fun _ h => h

/-- The compiled method of an assembler is made, unless the code is refused. -/
theorem build (hw : w.Describes g) (hS : S (.fault .overflow)) (a : Assembler)
    (hfatal : ∀ cause, a.finish.1 = .error (.fatal cause) → S cause) (cls : Value) :
    (Spec.build a cls).Ends g
      (fun v g' => ∃ draft, a.finish.1 = .ok draft ∧ w.Leads g w g' ∧ w.IsBuilt g' draft cls v)
      (fun _ g' => g' = g ∧ ∃ cause, a.finish.1 = .error (.failure cause)) S := by
  unfold Spec.build
  cases hfinish : a.finish.1 with
  | ok draft =>
    exact (buildDraft (E := fun _ _ => False) hw hS draft cls).mono (fun v g' h => ⟨draft, rfl, h⟩)
      (fun _ _ h => h.elim) fun _ h => h
  | error refusal =>
    cases refusal with
    | fatal cause => exact stop fun _ h => h ▸ hfatal cause hfinish
    | failure cause => exact fail fun _ _ => ⟨rfl, cause, rfl⟩

/-- What is known of a method that was installed in a class. -/
structure Installed (w : World) (g : Graph) (a : Assembler) (c : Nat) (selector : String) (w' : World)
    (g' : Graph) : Prop where
  leads : w.Leads g w' g'
  roster : w'.roster = w.roster
  bindings : w'.bindings = w.bindings
  method : ∃ draft v, a.finish.1 = .ok draft ∧ w'.IsBuilt g' draft (.object c) v ∧
    w'.log = Function.update w.log c ((selector, v) :: w.log c)

/-- A method is built and added to a class, unless the code is refused. -/
theorem install (hw : w.Describes g) {c : Nat} (hc : c ∈ w.classes) (hS : S (.fault .overflow))
    (a : Assembler) (hfatal : ∀ cause, a.finish.1 = .error (.fatal cause) → S cause)
    (selector : String) :
    (Spec.install a (.object c) selector).Ends g
      (fun _ g' => ∃ w', Installed w g a c selector w' g')
      (fun _ g' => g' = g ∧ ∃ cause, a.finish.1 = .error (.failure cause)) S := by
  refine pin (bind (attempt (build (hw.withPinned _) hS a hfatal _)) ?_)
  intro method g₁ hmethod
  cases method with
  | ok v =>
    obtain ⟨draft, hfinish, hleads, hbuilt⟩ := hmethod
    refine unpin hleads.pinned ?_
    have hleads₁ : w.Leads g w (g₁.withPinned g.pinned) := hleads.withPinned g.pinned
    refine (installMethod hleads₁.describes hc hS selector v).mono ?_ (fun _ _ h => h) fun _ h => h
    rintro - g₂ ⟨d, a', hleads₂⟩
    exact ⟨_, hleads₁.trans hleads₂, rfl, rfl, draft, v, hfinish,
      (hbuilt.withPinned g.pinned).advances hleads₁.describes hleads₂.advances, rfl⟩
  | error failure =>
    obtain ⟨rfl, cause, hfinish⟩ := hmethod
    obtain ⟨name, hname⟩ := hw.className_total hc
    exact unpin rfl (read hname (fail fun _ _ => ⟨rfl, cause, hfinish⟩))

end Spec.Ends

end ObjectMachine
