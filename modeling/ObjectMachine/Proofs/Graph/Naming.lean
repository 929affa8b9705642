import ObjectMachine.Proofs.Graph.Lasting
import ObjectMachine.Proofs.Graph.Compiling

/-!
# Names

A global that is mentioned for the first time gets an association, which is nil. A compiled method whose
source mentions a global has its association among its literals, whoever mentioned the global first.

## Main results

* `Spec.Gives.globalAssociation`: the association of a global.
* `Spec.Gives.build`: a compiled method, and the globals that it mentions.
* `Spec.Preserves.defineClass`, `Spec.Preserves.sendMessage`: what is left alone by the operations that
  mention globals.
-/

namespace ObjectMachine

/-- The name of a global. -/
def Literal.global? : Literal → Option String
  | .global name => some name
  | _ => none

namespace Assembler

/-- The literals of the method of an assembler, if there is one. -/
def frame (a : Assembler) : List Literal :=
  match a.finish.1 with
  | .ok draft => draft.literals
  | .error _ => []

/-- The names of the globals that the method mentions. -/
def mentioned (a : Assembler) : List String := a.frame.filterMap Literal.global?

end Assembler

namespace Graph

/-- An association of a value was made since a graph, and is not bound to a name. -/
def Ready (g₀ : Graph) (value v : Value) (g : Graph) : Prop :=
  g₀.Quiet g ∧ ∃ n, v = .object n ∧ g₀.next ≤ n ∧ n < g.next ∧ (g.nodes n).format = .plain ∧
    (g.nodes n).fields = Association.fieldCount ∧ (g.nodes n).field Association.valueField = value

/-- The literals of a method that are globals are their associations. -/
def Links (g : Graph) (literals : List Literal) (method : Value) : Prop :=
  ∀ index name, literals[index]? = some (.global name) →
    ∃ association, named? g.globals name = some association ∧ g.literal method index = some association

/-- The object of a literal, if that is a global, is its association. -/
def Mentions (g : Graph) (literal : Literal) (v : Value) : Prop :=
  ∀ name, literal = .global name → named? g.globals name = some v

/-- A value is an association with a value. -/
def Bears (g : Graph) (v value : Value) : Prop :=
  ∃ n, v = .object n ∧ n < g.next ∧ (g.nodes n).fields = Association.fieldCount ∧
    (g.nodes n).field Association.valueField = value

/-- The object of a literal is what the literal stands for, if that is a global or the class of the method. -/
structure Renders (g : Graph) (cls : Value) (literal : Literal) (v : Value) : Prop where
  mentions : g.Mentions literal v
  bears : literal = .methodClass → g.Bears v cls

/-- The last literal of a method, which has the class of the method if the method has sends to super. -/
def owner? (g : Graph) (method : Value) : Option Value := do
  let count ← g.literalCount method
  if 0 < count then g.literal method (count - 1) else none

/-- A method has its class among its literals. -/
def OwnedBy (g : Graph) (method cls : Value) : Prop := ∃ a, g.owner? method = some a ∧ g.Bears a cls

variable {g g' : Graph} {v : Value} {name : String}

/-- A global is added. -/
theorem Ready.shares (h : g.Ready g.core.nil v g') (hname : named? g.globals name = none) :
    g.Shares [name] { g' with globals := g'.globals ++ [(name, v)] } := by
  obtain ⟨⟨hspares, -⟩, n, rfl, hnew, hn, hformat, hfields, hvalue⟩ := h
  have hrests := hspares.toRests
  exact
    { next_le := hrests.next_le
      layout := hrests.layout
      nil := hrests.nil
      core := hrests.core
      globals := hrests.globals ▸ List.prefix_append _ _
      bound := fun hg =>
        { kernel := (hg.rests hrests).kernel
          association := by
            intro name' v hmem
            obtain hmem | hmem := List.mem_append.mp hmem
            · exact (hg.rests hrests).association hmem
            · cases List.mem_singleton.mp hmem
              exact ⟨n, rfl, hg.kernel.trans hnew, hn, hformat, hfields⟩
          distinct := by
            refine (hg.rests hrests).distinct.append (hrests.globals ▸ hname) fun {name'} hmem => ?_
            exact absurd (hg.fields (hrests.globals ▸ hmem)).1 (Nat.not_lt.mpr hnew) }
      symbols := hrests.symbols
      texts := hrests.texts
      lexicon := fun hg =>
        have hlexicon := hrests.lexicon hg
        { classes := hlexicon.classes
          symbol := fun hmem =>
            have ⟨n', heq, hlt, htext, hspelled⟩ := hlexicon.symbol hmem
            ⟨n', heq, hlt, ⟨htext.format, htext.fields, htext.cls⟩, hspelled⟩
          distinct := hlexicon.distinct }
      cells := hspares.cells
      added := by
        intro hg name' n' hmem
        obtain hmem | hmem := List.mem_append.mp hmem
        · exact .inl (hrests.globals ▸ hmem)
        · cases List.mem_singleton.mp hmem
          exact .inr ⟨List.mem_singleton_self _, hvalue⟩ }

theorem Mentions.shares {names : List String} {literal : Literal} (hv : g.Mentions literal v)
    (h : g.Shares names g') : g'.Mentions literal v :=
  fun name hname => named?_mono (hv name hname) h.globals

theorem Bears.shares {names : List String} {value : Value} (hv : g.Bears v value)
    (h : g.Shares names g') : g'.Bears v value := by
  obtain ⟨n, rfl, hn, hfields, hvalue⟩ := hv
  exact ⟨n, rfl, hn.trans_le h.next_le, (h.layout n hn).fields.trans hfields,
    (congrFun (h.cells n hn hfields) _).trans hvalue⟩

theorem Renders.shares {names : List String} {cls : Value} {literal : Literal}
    (hv : g.Renders cls literal v) (h : g.Shares names g') : g'.Renders cls literal v :=
  ⟨hv.mentions.shares h, fun heq => (hv.bears heq).shares h⟩

end Graph

namespace Spec

open ObjectMachine.Graph

variable {α : Type} {x : Spec α} {g : Graph} {names : List String}

/-- A new association has its value, and is not bound to a name. -/
theorem Gives.newAssociation (key value : Value) (g : Graph) :
    (Spec.newAssociation key value).Gives (· = g) (g.Ready value) fun _ => False := by
  refine Gives.modify (Gives.modify (Gives.ask ?_))
  refine Gives.bind (Gives.new _ _ _ _ _) fun v => .of_forall fun g₁ hv => ?_
  have hpinned : g₁.pinned = (g.pinned ++ [key]) ++ [value] := hv.1.2
  refine Gives.pinned hpinned (Gives.pinned rfl (Gives.write fun g₂ h => Gives.pure ?_))
  obtain ⟨⟨hspares, hpins⟩, n, rfl, hnew, hn, hformat, hfields, -⟩ :=
    hv.withPinned ((Graph.Spares.withPinned g (g.pinned ++ [key])).trans (.withPinned _ _))
  have hlt : ∀ index < Association.fieldCount,
      index < ((g₁.withPinned g.pinned).nodes n).fields := fun index hindex => hfields ▸ hindex
  have hplain : ((g₁.withPinned g.pinned).nodes n).format ≠ .context := by
    rw [hformat]
    decide
  rw [show (g₁.withPinned (g.pinned ++ [key])).withPinned g.pinned = g₁.withPinned g.pinned from rfl,
    storeField_bind hplain (hlt Association.keyField (by decide)),
    setNode_storeField (by exact hplain) (by exact hlt Association.valueField (by decide))] at h
  cases h
  refine ⟨⟨hspares.setNew hnew ⟨rfl, rfl, rfl⟩ (.of_raw rfl rfl), hpins⟩, n, rfl, hnew, hn, ?_, ?_, ?_⟩
  · simpa using hformat
  · simpa using hfields
  · simp

/-- A global is bound to a new association, if it is not bound to any. -/
theorem Gives.globalAssociation (name : String) (g : Graph) :
    (Spec.globalAssociation name).Gives (· = g) (fun v g' => g.Shares [name] g' ∧
      g'.pinned = g.pinned ∧ named? g'.globals name = some v) fun _ => False := by
  refine Gives.ask ?_
  cases hname : named? g.globals name with
  | some v => exact Gives.pure ⟨(Graph.Spares.refl g).shares, rfl, hname⟩
  | none =>
    refine Gives.bind (Makes.intern name g) fun key => .of_forall fun g₁ hg₁ => Gives.ask ?_
    refine Gives.bind (Gives.newAssociation key _ g₁) fun v => .of_forall fun g₂ hv =>
      Gives.modify (Gives.pure ?_)
    have hname₁ : named? g₁.globals name = none := hg₁.1.globals ▸ hname
    have hname₂ : named? g₂.globals name = none := hv.1.1.globals ▸ hname₁
    exact ⟨hg₁.1.shares.trans (hv.shares hname₁), hv.1.2.trans hg₁.2, named?_append hname₂ _⟩

/-- The object of a literal is made. -/
theorem Gives.materialize {position : Nat} {cls : Value} {literal : Literal}
    (hnames : ∀ name, literal = .global name → name ∈ names) (hcls : g.pinned[position]? = some cls) :
    (Spec.materialize position literal).Gives (· = g) (fun v g' => g.Shares names g' ∧
      g'.pinned = g.pinned ∧ g'.Renders cls literal v) fun _ => False := by
  have hmakes : ∀ {x : Spec Value}, x.Makes → (∀ name, literal ≠ .global name) → literal ≠ .methodClass →
      x.Gives (· = g) (fun v g' => g.Shares names g' ∧ g'.pinned = g.pinned ∧ g'.Renders cls literal v)
        fun _ => False :=
    fun hx hne hne' => (hx g).mono (fun v g' h => ⟨h.1.shares, h.2,
      fun name heq => absurd heq (hne name), fun heq => absurd heq hne'⟩) fun _ h => h
  cases literal with
  | nil | true | false => exact hmakes ((Makes.ask _).bind fun _ => .pure _) (by simp) (by simp)
  | integer value => exact hmakes (.newInteger value) (by simp) (by simp)
  | character value => exact hmakes (.pure _) (by simp) (by simp)
  | float value => exact hmakes (.newFloat value) (by simp) (by simp)
  | string text => exact hmakes (.newString text) (by simp) (by simp)
  | symbol name => exact hmakes (.intern name) (by simp) (by simp)
  | global name =>
    refine (Gives.globalAssociation name g).mono (fun v g' h => ?_) fun _ h => h
    refine ⟨h.1.mono (by simpa using hnames name rfl), h.2.1, fun name' heq => ?_, nofun⟩
    cases heq
    exact h.2.2
  | methodClass =>
    refine Gives.ask (Gives.bind (Gives.newAssociation _ _ g) fun v => .of_forall fun g₁ hv =>
      Gives.read fun cls' hcls' => Gives.write fun g₂ h => Gives.pure ?_)
    -- The association is no global, so the class may be stored into it.
    obtain ⟨⟨hspares, hpins⟩, n, rfl, hnew, hn, -, hfields, -⟩ := hv
    obtain ⟨_, ⟨⟩, -, -, rfl⟩ := of_storeField h
    rw [hpins, hcls] at hcls'
    cases hcls'
    have hspares₂ : g.Spares (g₁.setNode n ((g₁.nodes n).withField Association.valueField cls)) :=
      hspares.setNew hnew ⟨rfl, rfl, rfl⟩ (.of_raw rfl rfl)
    exact ⟨hspares₂.shares, hpins, nofun, fun _ => ⟨n, rfl, hn, by simpa using hfields, by simp⟩⟩

/-- The objects of literals are made and pinned. -/
theorem Gives.materializeAll {position : Nat} {cls : Value} {literals : List Literal}
    (hnames : ∀ name, .global name ∈ literals → name ∈ names) (hcls : g.pinned[position]? = some cls) :
    (Spec.materializeAll position literals).Gives (· = g) (fun _ g' => g.Shares names g' ∧
      ∃ values, g'.pinned = g.pinned ++ values ∧ List.Forall₂ (g'.Renders cls) literals values)
      fun _ => False := by
  induction literals generalizing g with
  | nil => exact Gives.pure ⟨(Graph.Spares.refl g).shares, [], by simp, .nil⟩
  | cons literal rest ih =>
    have hfirst : ∀ name, literal = .global name → name ∈ names := fun name heq =>
      hnames name (heq ▸ List.mem_cons_self)
    refine Gives.bind (Gives.materialize hfirst hcls) fun v => .of_forall fun g₁ hv => ?_
    obtain ⟨hshares, hpins, hrenders⟩ := hv
    have hcls₁ : (g₁.pinned ++ [v])[position]? = some cls := by
      rw [hpins, List.getElem?_append_left (List.getElem?_eq_some_iff.mp hcls).1, hcls]
    refine Gives.modify ((ih (g := g₁.withPinned (g₁.pinned ++ [v]))
      (fun name h => hnames name (List.mem_cons_of_mem _ h)) hcls₁).mono (fun _ g₂ h => ?_) fun _ h => h)
    obtain ⟨hshares₂, values, hpins₂, hall⟩ := h
    have hpin : g₁.Shares names (g₁.withPinned (g₁.pinned ++ [v])) := (Graph.Spares.withPinned _ _).shares
    refine ⟨(hshares.trans hpin).trans hshares₂, v :: values, ?_,
      .cons (hrenders.shares (hpin.trans hshares₂)) hall⟩
    rw [hpins₂]
    show g₁.pinned ++ [v] ++ values = _
    rw [hpins, List.append_assoc]
    rfl

/-- The array of the literals of a method is made. -/
theorem Gives.buildLiterals {literals : List Literal}
    (hnames : ∀ name, .global name ∈ literals → name ∈ names) (cls : Value) (g : Graph) :
    (Spec.buildLiterals literals cls).Gives (· = g) (fun v g' => (g.Shares names g' ∧
      g'.pinned = g.pinned) ∧ ∃ n values, v = .object n ∧ n < g'.next ∧
        (g'.nodes n).format = .array ∧ (g'.nodes n).fields = 0 ∧ (g'.nodes n).len = literals.length ∧
        List.Forall₂ (g'.Renders cls) literals values ∧
        ∀ {i w}, values[i]? = some w → (g'.nodes n).element i = w) fun _ => False := by
  refine Gives.ask (Gives.modify ?_)
  have hcls : (g.pinned ++ [cls])[g.pinned.length]? = some cls := List.getElem?_concat_length
  refine Gives.bind (Gives.materializeAll hnames hcls) fun _ => .of_forall fun g₁ h₁ => ?_
  obtain ⟨hshares₁, values, hpins₁, hall⟩ := h₁
  have hpins₁ : g₁.pinned = g.pinned ++ [cls] ++ values := hpins₁
  have hlength := hall.length_eq
  refine Gives.bind (f := fun array => _) (Gives.ask (Gives.new _ _ _ _ g₁)) fun v =>
    .of_forall fun g₂ hv => ?_
  obtain ⟨⟨hspares₂, hpins₂⟩, n, rfl, hnew, hn, hformat, hfields, hlen⟩ := hv
  have hlen : (g₂.nodes n).len = literals.length := hlen rfl
  have hread : (Spec.pinnedFrom (g.pinned.length + 1) literals.length).Gives (· = g₂)
      (fun a g' => values = a ∧ g₂ = g') fun _ => False := .of_ends fun _ heq => by
    rw [heq, hlength]
    have hends := Ends.pinnedFrom (E := fun _ _ => False) (S := fun _ => True) (hpins₂.trans hpins₁)
    rw [List.length_append, List.length_singleton] at hends
    exact hends.mono (fun a g' h => ⟨h.1.symm, h.2.symm⟩) (fun _ _ h => h) fun _ h => h
  refine Gives.bind hread fun _ => .of_forall fun g' hg' => ?_
  obtain ⟨rfl, rfl⟩ := hg'
  obtain ⟨o, hstore, hlayout, -, -, helement⟩ := storeElements_eq values 0 hformat (by
    rw [hlen, hlength, Nat.zero_add])
  refine Gives.write fun g₃ hg₃ => Gives.modify (Gives.pure ?_)
  rw [hstore] at hg₃
  cases hg₃
  have hself : (g₂.setNode n o).nodes n = o := Function.update_self ..
  have hspares₃ : g₁.Spares ((g₂.setNode n o).withPinned (g₂.pinned.take g.pinned.length)) :=
    (hspares₂.setNew hnew hlayout (.of_format (by rw [hformat]; nofun))).trans (.withPinned _ _)
  refine ⟨⟨?_, ?_⟩, n, values, rfl, hn, ?_, ?_, ?_, ?_, ?_⟩
  · have hpin : g.Shares names (g.withPinned (g.pinned ++ [cls])) := (Graph.Spares.withPinned _ _).shares
    exact (hpin.trans hshares₁).trans hspares₃.shares
  · show g₂.pinned.take g.pinned.length = _
    rw [hpins₂, hpins₁, List.append_assoc, List.take_left']
    rfl
  · exact (congrArg Node.format hself).trans (hlayout.format.trans hformat)
  · exact (congrArg Node.fields hself).trans (hlayout.fields.trans hfields)
  · exact (congrArg Node.len hself).trans (hlayout.len.trans hlen)
  · refine hall.imp fun literal v hv => ?_
    exact hv.shares (hspares₃.shares : g₁.Shares [] _)
  · intro i w hi
    refine (congrFun (congrArg Node.element hself) i).trans ?_
    have := helement hi
    rwa [Nat.zero_add] at this

/-- A method is made of an array of literals. -/
theorem Gives.newMethod (header : MethodHeader) (literals : Value) (bytes : List UInt8) (g : Graph) :
    (Spec.newMethod header literals bytes).Gives (· = g) (fun v g' => g.Quiet g' ∧
      g'.field v Method.literalsField = some literals) fun _ => False := by
  refine Gives.modify (Gives.bind (f := fun code => _) (Gives.ask (Makes.newBytes _ bytes _)) fun code =>
    .of_forall fun g₁ hg₁ => Gives.modify (Gives.ask ?_))
  refine Gives.bind (Gives.new _ _ _ _ _) fun v => .of_forall fun g₂ hv => ?_
  have hpins₁ : g₁.pinned = g.pinned ++ [literals] := hg₁.2
  have hpinned : g₂.pinned = (g.pinned ++ [literals]) ++ [code] := by
    rw [← hpins₁]
    exact hv.1.2
  refine Gives.pinned hpinned (Gives.pinned rfl (Gives.write fun g₃ h => Gives.pure ?_))
  have hbefore : g.Spares (g₁.withPinned (g₁.pinned ++ [code])) :=
    ((Graph.Spares.withPinned g _).trans hg₁.1).trans (.withPinned _ _)
  obtain ⟨⟨hspares, hpins⟩, n, rfl, hnew, hn, hformat, hfields, -⟩ := hv.withPinned hbefore
  have hlt : ∀ index < Method.fieldCount,
      index < ((g₂.withPinned g.pinned).nodes n).fields := fun index hindex => hfields ▸ hindex
  have hplain : ((g₂.withPinned g.pinned).nodes n).format ≠ .context := by
    rw [hformat]
    decide
  rw [show (g₂.withPinned (g.pinned ++ [literals])).withPinned g.pinned = g₂.withPinned g.pinned from rfl,
    storeField_bind hplain (hlt Method.headerField (by decide)),
    setNode_storeField_bind (by exact hplain) (by exact hlt Method.literalsField (by decide)),
    setNode_storeField (by exact hplain) (by exact hlt Method.codeField (by decide))] at h
  cases h
  refine ⟨⟨hspares.setNew hnew ⟨rfl, rfl, rfl⟩ (.of_raw rfl rfl), hpins⟩, ?_⟩
  have hliterals := hlt Method.literalsField (by decide)
  rw [field_of_lt (by simpa using hliterals)]
  simp [Method.literalsField, Method.codeField]

/-- A compiled method is made. The globals among its literals are linked, and so is the class of the method
if that is the last one of them. -/
theorem Gives.buildDraft {draft : Draft} (hnames : ∀ name, .global name ∈ draft.literals → name ∈ names)
    (cls : Value) (g : Graph) :
    (Spec.buildDraft draft cls).Gives (· = g) (fun v g' => (g.Shares names g' ∧ g'.pinned = g.pinned) ∧
      g'.Links draft.literals v ∧ (draft.literals.getLast? = some .methodClass → g'.OwnedBy v cls))
      fun _ => False := by
  refine Gives.bind (Gives.buildLiterals hnames cls g) fun array => .of_forall fun g₁ h₁ => ?_
  obtain ⟨⟨hshares, hpins⟩, n, values, rfl, hn, hformat, hfields, hlen, hall, helement⟩ := h₁
  refine (Gives.newMethod _ _ _ g₁).mono (fun v g₂ h => ?_) fun _ h => h
  obtain ⟨hquiet, hliterals⟩ := h
  have hlayout := hquiet.1.layout n hn
  have hlen₂ : (g₂.nodes n).len = draft.literals.length := hlayout.len.trans hlen
  have hmade : ∀ {index literal}, draft.literals[index]? = some literal →
      ∃ w, g₂.literal v index = some w ∧ g₂.Renders cls literal w := by
    intro index literal hindex
    have hvalue := forall₂_getElem? hall index
    rw [hindex] at hvalue
    generalize hw : values[index]? = found at hvalue
    cases hvalue with
    | some hrenders =>
      rename_i w
      refine ⟨w, ?_, hrenders.shares (hquiet.1.shares : g₁.Shares [] g₂)⟩
      have hlt : index < (g₂.nodes n).len := by
        rw [hlen₂]
        exact (List.getElem?_eq_some_iff.mp hindex).1
      show (g₂.field v Method.literalsField >>= fun frame => g₂.element frame index) = _
      rw [hliterals]
      exact (element_of_lt (hlayout.format.trans hformat) hlt).trans
        (congrArg some ((congrFun (hquiet.1.frames n hn hfields) index).trans (helement hw)))
  refine ⟨⟨hshares.trans hquiet.1.shares, hquiet.2.trans hpins⟩, fun index name hindex => ?_, fun hlast => ?_⟩
  · obtain ⟨w, hw, hrenders⟩ := hmade hindex
    exact ⟨w, hrenders.mentions name rfl, hw⟩
  · have hindex : draft.literals[draft.literals.length - 1]? = some .methodClass :=
      List.getLast?_eq_getElem? ▸ hlast
    obtain ⟨w, hw, hrenders⟩ := hmade hindex
    refine ⟨w, ?_, hrenders.bears rfl⟩
    have hcount : g₂.literalCount v = some draft.literals.length := by
      unfold Graph.literalCount
      rw [hliterals, ← hlen₂]
      rfl
    have hpos : 0 < draft.literals.length := Nat.zero_lt_of_lt (List.getElem?_eq_some_iff.mp hindex).1
    unfold Graph.owner?
    rw [hcount]
    exact (if_pos hpos).trans hw

/-- A compiled method is made, unless nothing is. -/
theorem Gives.build (a : Assembler) (cls : Value) (g : Graph) :
    (Spec.build a cls).Gives (· = g) (fun v g' => (g.Shares a.mentioned g' ∧ g'.pinned = g.pinned) ∧
      g'.Links a.frame v ∧ (a.frame.getLast? = some .methodClass → g'.OwnedBy v cls))
      fun g' => g' = g ∧ a.frame = [] := by
  unfold Spec.build
  cases hfinish : a.finish.1 with
  | ok draft =>
    have hliterals : a.frame = draft.literals := by
      unfold Assembler.frame
      rw [hfinish]
    have hnames : ∀ name, .global name ∈ draft.literals → name ∈ a.mentioned :=
      fun name hmem => List.mem_filterMap.mpr ⟨_, hliterals ▸ hmem, rfl⟩
    rw [hliterals]
    exact (Gives.buildDraft hnames cls g).mono (fun _ _ h => h) fun _ h => h.elim
  | error outcome =>
    have hliterals : a.frame = [] := by
      unfold Assembler.frame
      rw [hfinish]
    cases outcome with
    | failure failure =>
      rintro _ rfl _ ⟨_, -, rfl⟩
      exact ⟨rfl, hliterals⟩
    | fatal cause =>
      rintro _ _ _ ⟨_, -, rfl⟩
      trivial

/-! ## What is left alone -/

namespace Preserves

theorem of_gives {R : Graph → Graph → Prop} [IsTrans Graph R] {P : α → Graph → Graph → Prop}
    {Q : Graph → Graph → Prop} (hx : ∀ g, x.Gives (· = g) (fun a => P a g) (Q g))
    (hP : ∀ a g g', P a g g' → R g g') (hQ : ∀ g g', Q g g' → R g g') : x.Preserves R :=
  .of_start fun g g' hg' out hout => by
    have hgives := hx g g' hg' out hout
    cases out with
    | ok a g'' => exact hP _ _ _ hgives
    | failed failure g'' => exact hQ _ _ hgives
    | _ => trivial

theorem globalAssociation (name : String) :
    (Spec.globalAssociation name).Preserves (Graph.Shares [name]) :=
  of_gives (Gives.globalAssociation name) (fun _ _ _ h => h.1) fun _ _ h => h.elim

theorem build (a : Assembler) (cls : Value) :
    (Spec.build a cls).Preserves (Graph.Shares a.mentioned) :=
  of_gives (Gives.build a cls) (fun _ _ _ h => h.1.1) fun g g' h => by
    rw [h.1]
    exact (Graph.Spares.refl g).shares

theorem setGlobal (name : String) (v : Value) : (Spec.setGlobal name v).Preserves Graph.Lasts :=
  (pin v).rests.lasts.bind fun _ => (globalAssociation name).lasts_of_shares.bind fun _ =>
    (unpin.rests.bind fun _ => storeField _ _ _).lasts

theorem install (a : Assembler) (cls : Value) (selector : String) :
    (Spec.install a cls selector).Preserves Graph.Lasts := by
  refine (pin cls).rests.lasts.bind fun _ => (build a cls).attempt.lasts_of_shares.bind fun method =>
    lasts (unpin.rests.bind fun cls => ?_)
  cases method with
  | ok method => exact installMethod cls selector method
  | error failure => exact (read _).bind fun _ => .fail _

theorem defineClass (name : String) (superclass : Value) (spec : InstanceSpec) :
    (Spec.defineClass name superclass spec).Preserves Graph.Lasts := by
  have hmade : ∀ {β : Type} {f : Unit → Spec β}, (f ()).Preserves Graph.Lasts →
      (Spec.newMethodDictionary MethodDictionary.minCapacity >>= fun v => Spec.pin v >>= f).Preserves
        Graph.Lasts :=
    fun hf => (Makes.newMethodDictionary _).preserves.rests.lasts.bind fun v =>
      (pin v).rests.lasts.bind fun _ => hf
  refine (pin _).rests.lasts.bind fun _ => (Makes.intern name).preserves.rests.lasts.bind fun symbol =>
    (pin _).rests.lasts.bind fun _ => hmade (hmade ?_)
  refine (ask _).bind fun core => (allocate _ _ _ _).rests.lasts.bind fun metaclass =>
    (pin _).rests.lasts.bind fun _ => (allocate _ _ _ _).rests.lasts.bind fun cls =>
    unpin.rests.lasts.bind fun _ => unpin.rests.lasts.bind fun _ => unpin.rests.lasts.bind fun _ =>
    unpin.rests.lasts.bind fun _ => unpin.rests.lasts.bind fun _ =>
    (linkClass _ _ _ _ _ _ _).lasts.bind fun _ => (setGlobal name cls).bind fun _ => .pure ()

theorem sendMessage (fuel : Nat) (receiver : Value) (selector : String) (args : List Value) :
    (Spec.sendMessage fuel receiver selector args).Preserves Graph.Lasts :=
  (ask _).bind fun _ => (pin _).rests.lasts.bind fun _ => (pinAll _).rests.lasts.bind fun _ =>
    (ask _).bind fun _ => (build _ _).attempt.lasts_of_shares.bind fun method =>
    (read _).bind fun _ => (pinnedFrom _ _).rests.lasts.bind fun _ =>
    (unpinTo _).rests.lasts.bind fun _ => (resume method).bind fun _ => (execute fuel _ _ _).lasts

end Preserves

end Spec

end ObjectMachine
