import ObjectMachine.Proofs.Graph.Access

/-!
# Stores

A store to an object changes its node and nothing else: the layout of the object stays, so that the
positions in the registers do.

## Main results

* `Writes.storeField`, `Writes.storeElement` and so on: the stores.
-/

namespace ObjectMachine

theorem Node.SameLayout.of_update {nodes : Nat → Node} {n : Nat} {o : Node}
    (h : Node.SameLayout (nodes n) o) (n' : Nat) :
    Node.SameLayout (nodes n') (Function.update nodes n o n') := by
  by_cases heq : n' = n
  · subst heq
    rw [Function.update_self]
    exact h
  · rw [Function.update_of_ne heq]
    exact .refl _

theorem originOf_congr {nodes nodes' : Nat → Node} {n : Nat}
    (h : ∀ k < n, (nodes' k).size = (nodes k).size) : originOf nodes' n = originOf nodes n := by
  induction n with
  | zero => rfl
  | succ n ih =>
    simp only [originOf]
    rw [ih fun k hk => h k (by omega), h n (Nat.lt_succ_self n)]

/-- Positions stay right as long as objects stay where they are and keep their layouts. -/
theorem Placement.Positions.mono {p p' : Placement} {r : Registers} {g g' : Graph} {c : Nat}
    (hp : p.Positions r g c) (hfound : ∀ {n i}, p.find? n = some i → p'.find? n = some i)
    (hlayout : ∀ n i, p.find? n = some i → Node.SameLayout (g.nodes n) (g'.nodes n))
    (hregisters : g'.registers = g.registers) : p'.Positions r g' c := by
  obtain ⟨hcontext, ⟨i, hi, hbase, hlimit⟩, ⟨d, j, hd, hj, hformat, htemps, hcount, hle⟩,
    b, l, hb, hl, hbytes, hcode, hlen⟩ := hp
  have hc' := hlayout c i hi
  have hd' := hlayout d j hj
  have hb' := hlayout b l hl
  refine ⟨?_, ⟨i, hfound hi, ?_, ?_⟩, ⟨d, j, ?_, hfound hj, ?_, ?_, ?_, ?_⟩, b, l, ?_, hfound hl, ?_,
    ?_, ?_⟩
  · rw [hc'.format]; exact hcontext
  · rw [hc'.fields]; exact hbase
  · rw [hc'.len]; exact hlimit
  · rw [hregisters]; exact hd
  · rw [hd'.format]; exact hformat
  · rw [hd'.fields]; exact htemps
  · rw [hregisters]; exact hcount
  · rw [hd'.len]; exact hle
  · rw [hregisters]; exact hb
  · rw [hb'.format]; exact hbytes
  · rw [hb'.fields]; exact hcode
  · rw [hb'.len]; exact hlen

theorem Placement.Positions.congr {p : Placement} {r : Registers} {g g' : Graph} {c : Nat}
    (hp : p.Positions r g c) (hlayout : ∀ n, Node.SameLayout (g.nodes n) (g'.nodes n))
    (hregisters : g'.registers = g.registers) : p.Positions r g' c :=
  hp.mono id (fun n _ _ => hlayout n) hregisters

namespace Graph

variable {g : Graph} {n n' : Nat} {o : Node}

@[simp] theorem nodes_setNode : (g.setNode n o).nodes = Function.update g.nodes n o := rfl
@[simp] theorem next_setNode : (g.setNode n o).next = g.next := rfl
@[simp] theorem nil_setNode : (g.setNode n o).nil = g.nil := rfl
@[simp] theorem core_setNode : (g.setNode n o).core = g.core := rfl
@[simp] theorem symbols_setNode : (g.setNode n o).symbols = g.symbols := rfl
@[simp] theorem globals_setNode : (g.setNode n o).globals = g.globals := rfl
@[simp] theorem pinned_setNode : (g.setNode n o).pinned = g.pinned := rfl
@[simp] theorem registers_setNode : (g.setNode n o).registers = g.registers := rfl
@[simp] theorem memo_setNode : (g.setNode n o).memo = g.memo := rfl
@[simp] theorem pool_setNode : (g.setNode n o).pool = g.pool := rfl

theorem setNode_setNode {o' : Node} : (g.setNode n o).setNode n o' = g.setNode n o' := by
  unfold setNode
  simp

theorem setNode_self (g : Graph) (n : Nat) : g.setNode n (g.nodes n) = g := by
  unfold setNode
  simp

theorem live_le_known (g : Graph) (n : Nat) : (g.nodes n).live ≤ g.known n := by
  unfold known
  split
  · exact Nat.le_max_left ..
  · exact Nat.le_refl _

theorem live_le_known_setNode (g : Graph) (n : Nat) (o : Node) :
    o.live ≤ (g.setNode n o).known n := by
  have := (g.setNode n o).live_le_known n
  rwa [nodes_setNode, Function.update_self] at this

theorem known_setNode_of_ne (hne : n' ≠ n) : (g.setNode n o).known n' = g.known n' := by
  unfold known
  rw [nodes_setNode, Function.update_of_ne hne]
  rfl

theorem known_setNode_self :
    (g.setNode n o).known n =
      if g.registers.active = .object n then max o.live g.registers.sp else o.live := by
  unfold known
  rw [nodes_setNode, Function.update_self]
  rfl

/-- As many elements are known as before if no more of them are followed by a collection. -/
theorem known_setNode_le (hlive : o.live ≤ g.known n) : (g.setNode n o).known n ≤ g.known n := by
  rw [known_setNode_self]
  split
  · rename_i hactive
    refine Nat.max_le.mpr ⟨hlive, ?_⟩
    unfold known
    rw [if_pos hactive]
    exact Nat.le_max_right ..
  · exact hlive

theorem known_setNode_eq (hlive : o.live = (g.nodes n).live) :
    (g.setNode n o).known n = g.known n := by
  rw [known_setNode_self, hlive]
  rfl

end Graph

/-- A machine after a store, of whose objects other elements are known than before. -/
theorem Machine.Holds.stored {m : Machine} {g : Graph} {p : Placement} {starts : List Nat}
    {known known' : Nat → Nat} {n : Nat} {o : Node} {h : Heap} (hm : m.Holds g p starts known)
    (hlayout : Node.SameLayout (g.nodes n) o)
    (hrest : { h with memory := m.heap.memory, largeIntegers := m.heap.largeIntegers } = m.heap)
    (hsize : h.memory.size = m.heap.memory.size)
    (hd : h.Depicts starts p (Function.update g.nodes n o) known') :
    { m with heap := h }.Holds (g.setNode n o) p starts known' where
  depicts := hd
  bounded := hm.bounded
  first k hk hlt := by
    rw [hm.first k hk hlt]
    congr 1
    exact (originOf_congr fun j _ => (hlayout.of_update j).size_eq).symm
  packed hle := by
    rw [show h.top = m.heap.top from (congrArg Heap.top hrest :), hm.packed hle]
    exact (originOf_congr fun j _ => (hlayout.of_update j).size_eq).symm
  nil := by
    rw [show h.nil = m.heap.nil from (congrArg Heap.nil hrest :)]
    exact hm.nil
  committed := by rw [hsize]; exact hm.committed
  reserved := by
    rw [show h.reservedWords = m.heap.reservedWords from (congrArg Heap.reservedWords hrest :)]
    exact hm.reserved
  counted := by
    rw [show h.top = m.heap.top from (congrArg Heap.top hrest :),
      show h.sinceCollection = m.heap.sinceCollection from (congrArg Heap.sinceCollection hrest :)]
    exact hm.counted
  roots := ⟨hm.roots.registers, hm.roots.core, hm.roots.symbols, hm.roots.globals, hm.roots.pinned⟩
  small := hm.small
  large := hm.large
  cache := hm.cache

/-- A machine after a store. -/
theorem Machine.Realizes.stored {m : Machine} {g : Graph} {p : Placement} {starts : List Nat}
    {n : Nat} {o : Node} {h : Heap} (hm : m.Realizes g p starts)
    (hlayout : Node.SameLayout (g.nodes n) o)
    (hrest : { h with memory := m.heap.memory, largeIntegers := m.heap.largeIntegers } = m.heap)
    (hsize : h.memory.size = m.heap.memory.size)
    (hd : h.Depicts starts p (Function.update g.nodes n o) (g.setNode n o).known) :
    { m with heap := h }.Realizes (g.setNode n o) p starts where
  toHolds := hm.toHolds.stored hlayout hrest hsize hd
  positions c hc := (hm.positions c hc).congr hlayout.of_update rfl

/-! ## Stores to graphs -/

namespace Node

variable (o : Node) (index : Nat) (v : Value)

@[simp] theorem format_withClass : (o.withClass v).format = o.format := rfl
@[simp] theorem fields_withClass : (o.withClass v).fields = o.fields := rfl
@[simp] theorem len_withClass : (o.withClass v).len = o.len := rfl
@[simp] theorem cls_withClass : (o.withClass v).cls = v := rfl
@[simp] theorem field_withClass : (o.withClass v).field = o.field := rfl
@[simp] theorem element_withClass : (o.withClass v).element = o.element := rfl
@[simp] theorem live_withClass : (o.withClass v).live = o.live := rfl
@[simp] theorem format_withField : (o.withField index v).format = o.format := rfl
@[simp] theorem fields_withField : (o.withField index v).fields = o.fields := rfl
@[simp] theorem len_withField : (o.withField index v).len = o.len := rfl
@[simp] theorem cls_withField : (o.withField index v).cls = o.cls := rfl
@[simp] theorem field_withField :
    (o.withField index v).field = Function.update o.field index v := rfl
@[simp] theorem element_withField : (o.withField index v).element = o.element := rfl
@[simp] theorem format_withElement : (o.withElement index v).format = o.format := rfl
@[simp] theorem fields_withElement : (o.withElement index v).fields = o.fields := rfl
@[simp] theorem len_withElement : (o.withElement index v).len = o.len := rfl
@[simp] theorem cls_withElement : (o.withElement index v).cls = o.cls := rfl
@[simp] theorem field_withElement : (o.withElement index v).field = o.field := rfl
@[simp] theorem element_withElement :
    (o.withElement index v).element = Function.update o.element index v := rfl
@[simp] theorem live_withElement : (o.withElement index v).live = o.live := rfl

/-- Only a store of the stack pointer of a context changes how many elements are followed. -/
theorem live_withField {o : Node} {index : Nat}
    (h : o.format = .context → index ≠ contextStackPointer) (v : Value) :
    (o.withField index v).live = o.live := by
  unfold live
  rw [format_withField]
  cases hformat : o.format <;> try rfl
  rw [field_withField, Function.update_of_ne (h hformat).symm]
  rfl

end Node

namespace Graph

variable (g : Graph)

/-- Gives an object another class. -/
def storeClass (v cls : Value) : Option Graph :=
  match v with
  | .immediate _ => none
  | .object n => some (g.setNode n ((g.nodes n).withClass cls))

/-- Writes a fixed field. A stack pointer may not uncover elements that are not known. -/
def storeField (v : Value) (index : Nat) (w : Value) : Option Graph :=
  match v with
  | .immediate _ => none
  | .object n =>
    if index < (g.nodes n).fields ∧ ((g.nodes n).withField index w).live ≤ g.known n then
      some (g.setNode n ((g.nodes n).withField index w))
    else none

/-- Writes an element. -/
def storeElement (v : Value) (index : Nat) (w : Value) : Option Graph :=
  match v with
  | .immediate _ => none
  | .object n =>
    if (g.nodes n).format.hasReferenceTail = true ∧ index < (g.nodes n).len then
      some (g.setNode n ((g.nodes n).withElement index w))
    else none

/-- Marks a context as captured. -/
def setCaptured (v : Value) (captured : Bool) : Option Graph :=
  match v with
  | .immediate _ => none
  | .object n => some (g.setNode n { g.nodes n with captured })

variable {g} {v w : Value} {g' : Graph} {index : Nat}

theorem of_storeClass (h : g.storeClass v w = some g') :
    ∃ n, v = .object n ∧ g' = g.setNode n ((g.nodes n).withClass w) := by
  cases v with
  | immediate r => cases h
  | object n => exact ⟨n, rfl, (Option.some.inj h).symm⟩

theorem of_storeField (h : g.storeField v index w = some g') :
    ∃ n, v = .object n ∧ index < (g.nodes n).fields ∧
      ((g.nodes n).withField index w).live ≤ g.known n ∧
      g' = g.setNode n ((g.nodes n).withField index w) := by
  cases v with
  | immediate r => cases h
  | object n =>
    unfold storeField at h
    dsimp only at h
    split at h
    · rename_i hboth
      exact ⟨n, rfl, hboth.1, hboth.2, (Option.some.inj h).symm⟩
    · cases h

theorem of_storeElement (h : g.storeElement v index w = some g') :
    ∃ n, v = .object n ∧ (g.nodes n).format.hasReferenceTail = true ∧ index < (g.nodes n).len ∧
      g' = g.setNode n ((g.nodes n).withElement index w) := by
  cases v with
  | immediate r => cases h
  | object n =>
    unfold storeElement at h
    dsimp only at h
    split at h
    · rename_i hboth
      exact ⟨n, rfl, hboth.1, hboth.2, (Option.some.inj h).symm⟩
    · cases h

end Graph

/-! ## Stores to memory -/

namespace Header

theorem identityHash_captured (h : Header) : h.captured.identityHash = h.identityHash := by
  simp only [identityHash, captured]
  rw [Word.or_shift_and (by decide)]

theorem identityHash_uncaptured (h : Header) : h.uncaptured.identityHash = h.identityHash := by
  simp only [identityHash, uncaptured]
  rw [Word.and_shift_and (by decide)]

theorem isCaptured_captured (h : Header) : h.captured.isCaptured = true := by
  have hand : (h.bits ||| 8) &&& 8 = 8 := by
    apply UInt64.toBitVec_inj.mp
    simp only [UInt64.toBitVec_and, UInt64.toBitVec_or]
    ext i
    simp only [BitVec.getElem_and, BitVec.getElem_or]
    cases h.bits.toBitVec[i] <;> simp
  simp [captured, isCaptured, capturedBit, hand]

theorem isCaptured_uncaptured (h : Header) : h.uncaptured.isCaptured = false := by
  have hand : h.bits &&& ~~~8 &&& 8 = 0 := by
    apply UInt64.toBitVec_inj.mp
    simp only [UInt64.toBitVec_and, UInt64.toBitVec_not]
    ext i
    simp only [BitVec.getElem_and, BitVec.getElem_not]
    cases (8 : UInt64).toBitVec[i] <;> simp
  simp [uncaptured, isCaptured, capturedBit, hand]

end Header

namespace Writes

variable {p : Placement} {r s : Ref} {v w : Value} {index : Nat}

/-- One store after another. -/
theorem bind {f f' : Heap → Except Fatal Heap} {ψ ψ' : Graph → Option Graph} (hf : Writes p f ψ)
    (hf' : Writes p f' ψ') : Writes p (fun h => f h >>= f') fun g => ψ g >>= ψ' := by
  intro m g starts hm g'' hg''
  obtain ⟨g', hg', hg''⟩ := Option.bind_eq_some_iff.mp hg''
  obtain ⟨h', hh', hm'⟩ := hf m g starts hm g' hg'
  obtain ⟨h'', hh'', hm''⟩ := hf' _ g' starts hm' g'' hg''
  refine ⟨h'', ?_, hm''⟩
  show (f m.heap >>= f') = _
  rw [hh']
  exact hh''

/-- What is read decides what is stored. -/
theorem read {α β : Type} [Depicted α β] {f : Heap → Except Fatal α} {φ : Graph → Option β}
    {k : α → Heap → Except Fatal Heap} {χ : β → Graph → Option Graph}
    (hf : Reads p (fun m => f m.heap) φ)
    (hk : ∀ a b, Depicted.shows p a b → Writes p (k a) (χ b)) :
    Writes p (fun h => f h >>= fun a => k a h) fun g => φ g >>= fun b => χ b g := by
  intro m g starts hm g' hg'
  obtain ⟨b, hb, hg'⟩ := Option.bind_eq_some_iff.mp hg'
  obtain ⟨a, ha, hab⟩ := hf m g starts hm b hb
  obtain ⟨h', hh', hm'⟩ := hk a b hab m g starts hm g' hg'
  refine ⟨h', ?_, hm'⟩
  show (f m.heap >>= _) = _
  rw [show f m.heap = .ok a from ha]
  exact hh'

theorem pure : Writes p .ok some := by
  intro m g starts hm g' hg'
  cases hg'
  exact ⟨m.heap, rfl, hm⟩

theorem storeClass (hr : p.Shows r v) (hs : p.Shows s w) :
    Writes p (·.setClassOf r s) (·.storeClass v w) := by
  intro m g starts hm g' hg'
  obtain ⟨n, rfl, rfl⟩ := Graph.of_storeClass hg'
  obtain ⟨i, hi, rfl⟩ := hr
  have hd := hm.depicts
  have hknown := Graph.known_setNode_eq (g := g) (n := n) (o := (g.nodes n).withClass w) rfl
  refine ⟨_, Heap.setClassOf_eq hd.laidOut (hd.placed hi) s, ?_⟩
  refine hm.stored ⟨rfl, rfl, rfl⟩ rfl (Heap.size_poke ..) ?_
  have hsize : 1 < (g.nodes n).size := by
    have := (g.nodes n).format.two_le_sizeInWords (g.nodes n).fields (g.nodes n).len
    exact this
  refine hd.poked hi Nat.one_pos hsize (by simp only [headerWords]; omega) (.inl rfl) hs
    ⟨rfl, rfl, rfl⟩ rfl rfl rfl rfl ?_ ?_ ?_ ?_ ?_ fun n' hne => Graph.known_setNode_of_ne hne
  · rw [if_pos rfl]
    rfl
  · intro j _
    rw [if_neg (by simp only [headerWords]; omega)]
    rfl
  · intro j hj
    rw [hknown] at hj
    exact .inr ⟨by simp only [headerWords]; omega, hj, rfl⟩
  · exact g.live_le_known_setNode ..
  · rw [hknown]
    exact (hd.shows hi).le_len

theorem storeField (hr : p.Shows r v) (hs : p.Shows s w) :
    Writes p (·.storeField r index s) (·.storeField v index w) := by
  intro m g starts hm g' hg'
  obtain ⟨n, rfl, hindex, hlive, rfl⟩ := Graph.of_storeField hg'
  obtain ⟨i, hi, rfl⟩ := hr
  have hd := hm.depicts
  have hn := hd.shows hi
  have hallows := hd.allowsFields hi hindex
  have hin : headerWords + index < (g.nodes n).size := by
    rw [← hn.size_eq]
    exact View.fields_lt_size (by rw [hn.format]; exact hallows) (by rw [hn.fields]; omega)
  refine ⟨_, Heap.storeField_eq hd.laidOut (hd.placed hi) (by rw [hn.fields]; exact hindex)
    (by rw [hn.size_eq]; exact hin) s, ?_⟩
  refine hm.stored ⟨rfl, rfl, rfl⟩ rfl (Heap.size_poke ..) ?_
  refine hd.poked hi (by simp only [headerWords]; omega) hin (by omega) (.inr hallows) hs
    ⟨rfl, rfl, rfl⟩ rfl rfl rfl rfl ?_ ?_ ?_ ?_ ?_ fun n' hne => Graph.known_setNode_of_ne hne
  · rw [if_neg (by simp only [headerWords]; omega)]
    rfl
  · intro j _
    rw [Node.field_withField, Function.update_apply]
    by_cases heq : j = index
    · rw [if_pos heq, if_pos (by rw [heq])]
    · rw [if_neg heq, if_neg (by omega)]
  · intro j hj
    exact .inr ⟨by omega, hj.trans_le (Graph.known_setNode_le hlive), rfl⟩
  · exact g.live_le_known_setNode ..
  · exact (Graph.known_setNode_le hlive).trans hn.le_len

theorem storeElement (hr : p.Shows r v) (hs : p.Shows s w) :
    Writes p (·.storeElement r index s) (·.storeElement v index w) := by
  intro m g starts hm g' hg'
  obtain ⟨n, rfl, htail, hindex, rfl⟩ := Graph.of_storeElement hg'
  obtain ⟨i, hi, rfl⟩ := hr
  have hd := hm.depicts
  have hknown := Graph.known_setNode_eq (g := g) (n := n) (o := (g.nodes n).withElement index w) rfl
  have hn := hd.shows hi
  have hallows : (g.nodes n).format.allowsFields = true := by
    cases hf : (g.nodes n).format <;> rw [hf] at htail <;> first | rfl | cases htail
  have hin : headerWords + (g.nodes n).fields + 1 + index < (g.nodes n).size := by
    rw [← hn.size_eq]
    exact View.elements_lt_size (by rw [hn.format]; exact htail)
      (by rw [hn.elements_eq, hn.len]; omega)
  refine ⟨_, Heap.storeElement_eq hd.laidOut (hd.placed hi) (by rw [hn.len]; exact hindex)
    (by rw [hn.size_eq, hn.elements_eq]; exact hin) s, ?_⟩
  rw [hn.elements_eq]
  refine hm.stored ⟨rfl, rfl, rfl⟩ rfl (Heap.size_poke ..) ?_
  refine hd.poked hi (by omega) hin (by omega) (.inr hallows) hs
    ⟨rfl, rfl, rfl⟩ rfl rfl rfl rfl ?_ ?_ ?_ ?_ ?_ fun n' hne => Graph.known_setNode_of_ne hne
  · rw [if_neg (by simp only [headerWords]; omega)]
    rfl
  · intro j hj
    rw [if_neg (by omega)]
    rfl
  · intro j hj
    rw [hknown] at hj
    rw [Node.element_withElement, Function.update_apply]
    by_cases heq : j = index
    · exact .inl ⟨by rw [heq], if_pos heq⟩
    · exact .inr ⟨by omega, hj, if_neg heq⟩
  · exact g.live_le_known_setNode ..
  · rw [hknown]
    exact hn.le_len

theorem setCaptured (hr : p.Shows r v) (captured : Bool) :
    Writes p (·.setCaptured r captured) (·.setCaptured v captured) := by
  intro m g starts hm g' hg'
  cases v with
  | immediate r' => cases hg'
  | object n =>
    cases hg'
    obtain ⟨i, hi, rfl⟩ := hr
    have hd := hm.depicts
    have hl := hd.laidOut
    have hmem := hd.placed hi
    have hn := hd.shows hi
    have hfit := hl.fits_memory hmem
    have hpos := (m.heap.view i).two_le_size
    have hin : i + 0 < m.heap.memory.size := by omega
    refine ⟨_, Heap.setCaptured_eq hl hmem captured, ?_⟩
    generalize hbits : (if captured then (m.heap.view i).header.captured
      else (m.heap.view i).header.uncaptured) = header
    have hshape : Header.SameShape header (m.heap.view i).header := by
      rw [← hbits]
      split
      · exact Header.sameShape_captured _
      · exact Header.sameShape_uncaptured _
    have hmark : header.isMarked = false := by
      rw [← hd.wellFormed.unmarked i hmem, ← hbits]
      split
      · exact Header.isMarked_captured _
      · exact Header.isMarked_uncaptured _
    have hhash : header.identityHash = (m.heap.view i).header.identityHash := by
      rw [← hbits]
      split
      · exact Header.identityHash_captured _
      · exact Header.identityHash_uncaptured _
    have hcaptured : header.isCaptured = captured := by
      rw [← hbits]
      cases captured
      · exact Header.isCaptured_uncaptured _
      · exact Header.isCaptured_captured _
    have hview : ∀ k, k ≠ 0 → (m.heap.poke (i + 0) header.bits).view i k = m.heap.view i k := by
      intro k hk
      rw [Heap.view_poke hin, if_neg hk]
    have hheader : ((m.heap.poke (i + 0) header.bits).view i).header = header := by
      unfold View.header
      rw [Heap.view_poke hin, if_pos rfl]
    have hsame : View.SameLayout (m.heap.view i) ((m.heap.poke (i + 0) header.bits).view i) :=
      ⟨by rw [hheader]; exact hshape, fun _ => hview _ (by simp only [headerWords]; omega)⟩
    have hwithin : Heap.Within (i + 0) (i + 0 + 1) m.heap (m.heap.poke (i + 0) header.bits) :=
      .poke (Nat.le_refl _) (Nat.lt_succ_self _) header.bits
    have htouch := hwithin.touches (Nat.le_add_right ..) (by omega) hsame
    have hslot : (m.heap.poke (i + 0) header.bits).largeSlot? i = m.heap.largeSlot? i := by
      unfold Heap.largeSlot?
      rw [hsame.format_eq, Heap.cell_poke_ne (by simp only [headerWords]; omega)]
    refine hm.stored ⟨rfl, rfl, rfl⟩ rfl (Heap.size_poke ..) ?_
    refine hd.stored hi htouch (by rw [hheader]; exact hmark) rfl hslot (fun hvalue => ?_)
      fun n' hne => Graph.known_setNode_of_ne hne
    have hknown := Graph.known_setNode_eq (g := g) (n := n) (o := { g.nodes n with captured }) rfl
    rw [hknown]
    have href : ∀ k, k ≠ 0 →
        ((m.heap.poke (i + 0) header.bits).view i).ref k = (m.heap.view i).ref k := fun k hk =>
      congrArg Ref.mk (hview k hk)
    refine
      { format := hsame.format_eq.trans hn.format
        fields := hsame.fields_eq.trans hn.fields
        len := hsame.len_eq.trans hn.len
        hash := by rw [hheader, hhash]; exact hn.hash
        captured := by rw [hheader]; exact hcaptured
        cls := by rw [href 1 (by simp)]; exact hn.cls
        field := ?_
        live_le := hn.live_le
        le_len := hn.le_len
        element := ?_
        raw := ?_
        large := hvalue.trans hn.large }
    · intro k hk
      rw [href _ (by simp only [headerWords]; omega)]
      exact hn.field k hk
    · intro htail k hk
      rw [href _ (by simp only [headerWords]; omega)]
      exact hn.element htail k hk
    · intro hno hnot k hk
      have hrawAt : headerWords ≤ (g.nodes n).rawAt := by
        unfold Node.rawAt
        split <;> omega
      rw [hview _ (by
        show (g.nodes n).rawAt + k ≠ 0
        simp only [headerWords] at hrawAt
        omega)]
      exact hn.raw hno hnot k hk

end Writes

/-! ## Words that are no references -/

/-- The object with another byte. -/
def Node.withByte (o : Node) (index : Nat) (b : UInt8) : Node :=
  o.withRaw (index / 8) (Heap.setByteOfWord (o.raw (index / 8)) (index % 8) b)

/-- The object with other bytes from an index on. -/
def Node.withBytes (o : Node) (index : Nat) : List UInt8 → Node
  | [] => o
  | b :: rest => (o.withByte index b).withBytes (index + 1) rest

namespace Graph

variable (g : Graph)

/-- Changes an object that has a format, if it has an element of an index. -/
def storeRaw (v : Value) (format : Format) (index : Nat) (f : Node → Node) : Option Graph :=
  match v with
  | .immediate _ => none
  | .object n =>
    if (g.nodes n).format = format ∧ index < (g.nodes n).len then
      some (g.setNode n (f (g.nodes n)))
    else none

def storeByte (v : Value) (index : Nat) (b : UInt8) : Option Graph :=
  g.storeRaw v .byteArray index (·.withByte index b)

def storeWord (v : Value) (index : Nat) (x : UInt32) : Option Graph :=
  g.storeRaw v .wordArray index fun o =>
    let shift := (index % 2 * 32).toUInt64
    o.withRaw (index / 2) ((o.raw (index / 2) &&& ~~~((0xFFFFFFFF : UInt64) <<< shift)) |||
      (x.toUInt64 <<< shift))

def storeFloat (v : Value) (index : Nat) (x : Binary64) : Option Graph :=
  g.storeRaw v .floatArray index (·.withRaw index x.bits)

/-- Writes the first byte elements. -/
def storeBytes (v : Value) (values : List UInt8) : Option Graph :=
  match v with
  | .immediate _ => none
  | .object n =>
    if (g.nodes n).format = .byteArray ∧ values.length ≤ (g.nodes n).len then
      some (g.setNode n ((g.nodes n).withBytes 0 values))
    else none

def setFloatValue (v : Value) (x : Binary64) : Option Graph :=
  match v with
  | .immediate _ => none
  | .object n =>
    if (g.nodes n).format = .float then some (g.setNode n ((g.nodes n).withRaw 0 x.bits)) else none

def setLargeInteger (v : Value) (x : Int) : Option Graph :=
  match v with
  | .immediate _ => none
  | .object n =>
    if (g.nodes n).format = .largeInteger then
      some (g.setNode n { g.nodes n with large? := some x })
    else none

end Graph

namespace Machine.Realizes

variable {m : Machine} {g : Graph} {p : Placement} {starts : List Nat} {n i k : Nat}

/-- A machine after a store of a word that is no reference. -/
theorem pokedRaw (hm : m.Realizes g p starts) (hi : p.find? n = some i)
    (hno : (g.nodes n).format.allowsFields = false) (hnot : (g.nodes n).format ≠ .largeInteger)
    (hlt : (g.nodes n).rawAt + k < (g.nodes n).size) (word : UInt64) :
    { m with heap := m.heap.poke (i + ((g.nodes n).rawAt + k)) word }.Realizes
      (g.setNode n ((g.nodes n).withRaw k word)) p starts := by
  refine hm.stored ⟨rfl, rfl, rfl⟩ rfl (Heap.size_poke ..) ?_
  have hd := hm.depicts.pokedRaw hi hno hnot hlt word
  refine hd.withKnown ?_ ?_
  · intro n' j _
    have := (g.setNode n ((g.nodes n).withRaw k word)).live_le_known n'
    exact this
  · intro n' j _
    by_cases hne : n' = n
    · subst hne
      exact (Graph.known_setNode_eq (g := g) (o := (g.nodes n').withRaw k word) rfl).le
    · rw [Graph.known_setNode_of_ne hne]

end Machine.Realizes

namespace Writes

variable {p : Placement} {r s : Ref} {v w : Value} {index : Nat}

theorem storeByte (hr : p.Shows r v) (b : UInt8) :
    Writes p (·.storeByte r index b) (·.storeByte v index b) := by
  intro m g starts hm g' hg'
  cases v with
  | immediate r' => cases hg'
  | object n =>
    obtain ⟨i, hi, rfl⟩ := hr
    dsimp only [Graph.storeByte, Graph.storeRaw] at hg'
    split at hg' <;> cases hg'
    rename_i hboth
    have hlt := Node.byte_lt_size (k := index) hboth.1 (by omega)
    refine ⟨_, ?_, hm.pokedRaw hi (by rw [hboth.1]; rfl) (by rw [hboth.1]; simp) hlt _⟩
    show m.heap.storeByte _ _ _ = _
    unfold Heap.storeByte
    rw [Reads.checkElement hm hi hboth.2, hm.depicts.bytesOffset hi]
    exact hm.depicts.setByteAtOffset hi hboth.1 (by omega) b

/-- Writing bytes writes them one after the other. -/
theorem setBytesFrom {m : Machine} {g : Graph} {starts : List Nat} {n i : Nat}
    (hm : m.Realizes g p starts) (hi : p.find? n = some i) (hf : (g.nodes n).format = .byteArray)
    {values : List UInt8} (hlen : index + values.length ≤ (g.nodes n).len) :
    ∃ h, m.heap.setBytesFrom ((i + (headerWords + (g.nodes n).fields + 1)) * 8 + index) values =
        .ok h ∧
      { m with heap := h }.Realizes (g.setNode n ((g.nodes n).withBytes index values)) p starts := by
  induction values generalizing m g index with
  | nil =>
    refine ⟨m.heap, rfl, ?_⟩
    rw [show g.setNode n ((g.nodes n).withBytes index []) = g from g.setNode_self n]
    exact hm
  | cons b rest ih =>
    rw [List.length_cons] at hlen
    have hlt := Node.byte_lt_size (k := index) hf (by omega)
    have hm' := hm.pokedRaw hi (by rw [hf]; rfl) (by rw [hf]; simp) hlt
      (Heap.setByteOfWord ((g.nodes n).raw (index / 8)) (index % 8) b)
    have hnode : (g.setNode n ((g.nodes n).withByte index b)).nodes n =
        (g.nodes n).withByte index b := Function.update_self ..
    have hformat : ((g.setNode n ((g.nodes n).withByte index b)).nodes n).format = .byteArray := by
      rw [hnode]
      exact hf
    have hroom : index + 1 + rest.length ≤
        ((g.setNode n ((g.nodes n).withByte index b)).nodes n).len := by
      rw [hnode]
      show _ ≤ (g.nodes n).len
      omega
    obtain ⟨h, hh, hrest⟩ := ih hm' hformat hroom
    refine ⟨h, ?_, ?_⟩
    · unfold Heap.setBytesFrom
      rw [hm.depicts.setByteAtOffset hi hf (by omega) b]
      change (m.heap.poke _ _).setBytesFrom ((i + (headerWords +
        ((g.setNode n ((g.nodes n).withByte index b)).nodes n).fields + 1)) * 8 + (index + 1))
        rest = .ok h at hh
      rw [hnode] at hh
      exact hh
    · change Machine.Realizes _ ((g.setNode n ((g.nodes n).withByte index b)).setNode n
        (((g.setNode n ((g.nodes n).withByte index b)).nodes n).withBytes (index + 1) rest)) _ _
        at hrest
      rw [hnode, Graph.setNode_setNode] at hrest
      exact hrest

theorem storeBytes (hr : p.Shows r v) (values : List UInt8) :
    Writes p (·.storeBytes r values) (·.storeBytes v values) := by
  intro m g starts hm g' hg'
  cases v with
  | immediate r' => cases hg'
  | object n =>
    obtain ⟨i, hi, rfl⟩ := hr
    dsimp only [Graph.storeBytes] at hg'
    split at hg' <;> cases hg'
    rename_i hboth
    have hroom : 0 + values.length ≤ (g.nodes n).len := by
      rw [Nat.zero_add]
      exact hboth.2
    obtain ⟨h, hh, hm'⟩ := setBytesFrom hm hi hboth.1 hroom
    refine ⟨h, ?_, hm'⟩
    show m.heap.storeBytes _ _ = _
    unfold Heap.storeBytes
    rw [hm.depicts.laidOut.length (hm.depicts.placed hi), (hm.depicts.shows hi).len]
    show (require (decide (values.length ≤ (g.nodes n).len)) .position >>= _) = _
    rw [require, if_pos (decide_eq_true hboth.2)]
    show (m.heap.bytesOffset _ >>= _) = _
    rw [hm.depicts.bytesOffset hi]
    exact hh

theorem storeWord (hr : p.Shows r v) (x : UInt32) :
    Writes p (·.storeWordElement r index x) (·.storeWord v index x) := by
  intro m g starts hm g' hg'
  cases v with
  | immediate r' => cases hg'
  | object n =>
    obtain ⟨i, hi, rfl⟩ := hr
    dsimp only [Graph.storeWord, Graph.storeRaw] at hg'
    split at hg' <;> cases hg'
    rename_i hboth
    have hat : (g.nodes n).rawAt = headerWords + (g.nodes n).fields + 1 := by
      unfold Node.rawAt
      rw [hboth.1, if_neg (by simp)]
    have hlt : (g.nodes n).rawAt + index / 2 < (g.nodes n).size := by
      rw [hat]
      unfold Node.size
      rw [hboth.1]
      simp only [Format.sizeInWords, Format.tailWords]
      omega
    have hno : (g.nodes n).format.allowsFields = false := by rw [hboth.1]; rfl
    have hnot : (g.nodes n).format ≠ .largeInteger := by rw [hboth.1]; simp
    refine ⟨_, ?_, hm.pokedRaw hi hno hnot hlt _⟩
    have hraw := hm.depicts.word_raw hi hno hnot hlt
    have hfit := hm.depicts.laidOut.fits_memory (hm.depicts.placed hi)
    rw [(hm.depicts.shows hi).size_eq] at hfit
    show m.heap.storeWordElement _ _ _ = _
    unfold Heap.storeWordElement
    rw [Reads.checkElement hm hi hboth.2,
      Heap.elementsIndex_eq hm.depicts.laidOut (hm.depicts.placed hi),
      (hm.depicts.shows hi).elements_eq, ← hat]
    show (m.heap.word (i + (g.nodes n).rawAt + index / 2) >>= _) = _
    rw [Nat.add_assoc, hraw]
    exact Heap.setWord_eq (by omega) _

theorem storeFloat (hr : p.Shows r v) (x : Binary64) :
    Writes p (·.storeFloatElement r index x) (·.storeFloat v index x) := by
  intro m g starts hm g' hg'
  cases v with
  | immediate r' => cases hg'
  | object n =>
    obtain ⟨i, hi, rfl⟩ := hr
    dsimp only [Graph.storeFloat, Graph.storeRaw] at hg'
    split at hg' <;> cases hg'
    rename_i hboth
    have hat : (g.nodes n).rawAt = headerWords + (g.nodes n).fields + 1 := by
      unfold Node.rawAt
      rw [hboth.1, if_neg (by simp)]
    have hlt : (g.nodes n).rawAt + index < (g.nodes n).size := by
      rw [hat]
      unfold Node.size
      rw [hboth.1]
      simp only [Format.sizeInWords, Format.tailWords]
      omega
    refine ⟨_, ?_, hm.pokedRaw hi (by rw [hboth.1]; rfl) (by rw [hboth.1]; simp) hlt _⟩
    have hn := hm.depicts.shows hi
    show m.heap.storeFloatElement _ _ _ = _
    rw [Heap.storeFloatElement_eq hm.depicts.laidOut (hm.depicts.placed hi)
      (by rw [hn.len]; exact hboth.2) (by rw [hn.elements_eq, hn.size_eq, ← hat]; exact hlt),
      hn.elements_eq, ← hat]

theorem setFloatValue (hr : p.Shows r v) (x : Binary64) :
    Writes p (·.setFloatValue r x) (·.setFloatValue v x) := by
  intro m g starts hm g' hg'
  cases v with
  | immediate r' => cases hg'
  | object n =>
    obtain ⟨i, hi, rfl⟩ := hr
    dsimp only [Graph.setFloatValue] at hg'
    split at hg' <;> cases hg'
    rename_i hf
    have hat : (g.nodes n).rawAt = headerWords := by
      unfold Node.rawAt
      rw [if_pos hf]
    have hlt : (g.nodes n).rawAt + 0 < (g.nodes n).size := by
      rw [hat]
      unfold Node.size
      rw [hf]
      simp only [Format.sizeInWords]
      omega
    refine ⟨_, ?_, hm.pokedRaw hi (by rw [hf]; rfl) (by rw [hf]; simp) hlt _⟩
    show m.heap.setFloatValue _ _ = _
    rw [Heap.setFloatValue_eq hm.depicts.laidOut (hm.depicts.placed hi)
      ((hm.depicts.shows hi).format.trans hf), hat, Nat.add_zero]

theorem setLargeInteger (hr : p.Shows r v) (x : Int) :
    Writes p (·.setLargeInteger r x) (·.setLargeInteger v x) := by
  intro m g starts hm g' hg'
  cases v with
  | immediate r' => cases hg'
  | object n =>
    obtain ⟨i, hi, rfl⟩ := hr
    dsimp only [Graph.setLargeInteger] at hg'
    split at hg' <;> cases hg'
    rename_i hf
    have hd := hm.depicts
    have hmem := hd.placed hi
    have hn := hd.shows hi
    obtain ⟨h, hh, htouch, hview, howned, htable, hvalue⟩ := Heap.setLargeInteger_spec
      hd.wellFormed hd.table hmem (hn.format.trans hf) x
    have hheader : (h.view i).header = (m.heap.view i).header :=
      congrArg Header.mk (hview 0 (by simp [headerWords]))
    refine ⟨h, hh, hm.stored ⟨rfl, rfl, rfl⟩ htouch.rest htouch.size ?_⟩
    refine hd.updated hi htouch (by rw [hheader]; exact hd.wellFormed.unmarked i hmem) ?_ howned
      htable (fun j hj hne => by rw [hvalue j hj, if_neg hne])
      fun n' hne => Graph.known_setNode_of_ne hne
    rw [Graph.known_setNode_eq (g := g) (n := n) (o := { g.nodes n with large? := some x }) rfl]
    have hsame := htouch.layout
    have hzero : (g.nodes n).fields = 0 := hd.fields_eq_zero hi (by rw [hf]; rfl)
    refine
      { format := hsame.format_eq.trans hn.format
        fields := hsame.fields_eq.trans hn.fields
        len := hsame.len_eq.trans hn.len
        hash := by rw [hheader]; exact hn.hash
        captured := by rw [hheader]; exact hn.captured
        cls := ?_
        field := fun k hk => absurd hk (by
          show ¬ k < (g.nodes n).fields
          omega)
        live_le := hn.live_le
        le_len := hn.le_len
        element := fun htail => absurd htail (by
          show ¬ (g.nodes n).format.hasReferenceTail = true
          rw [hf]
          simp [Format.hasReferenceTail])
        raw := fun _ hnot => absurd hf hnot
        large := by rw [hvalue i hmem, if_pos rfl] }
    rw [show (h.view i).ref 1 = (m.heap.view i).ref 1 from
      congrArg Ref.mk (hview 1 (by simp [headerWords]))]
    exact hn.cls

/-- Nil may be chosen. -/
theorem setNil (hr : p.Shows r v) :
    Writes p (fun h => .ok (h.setNil r)) fun g => some { g with nil := v } := by
  intro m g starts hm g' hg'
  cases hg'
  exact ⟨_, rfl,
    { depicts := hm.depicts.setNil r
      bounded := hm.bounded
      first := hm.first
      packed := hm.packed
      nil := hr
      committed := hm.committed
      reserved := hm.reserved
      counted := hm.counted
      roots := ⟨hm.roots.registers, hm.roots.core, hm.roots.symbols, hm.roots.globals,
        hm.roots.pinned⟩
      positions := fun c hc => (hm.positions c hc).congr (fun _ => .refl _) rfl
      small := hm.small
      large := hm.large
      cache := hm.cache }⟩

end Writes

end ObjectMachine
