import ObjectMachine.Proofs.Graph.Simulation
import ObjectMachine.Proofs.Machine.Resumption

/-!
# The graph of a machine

Every machine whose memory is in order, and whose roots, cache and pool lead to objects, is a graph
with its objects named in the order in which they are in memory.

## Main results

* `Machine.Legible.realizes`: a machine realizes the graph that is read off it.
-/

namespace ObjectMachine

/-! ## Names by position -/

/-- What a reference stands for if objects are named in the order of their positions. -/
def Value.ofRef (starts : List Nat) (r : Ref) : Value :=
  if r.isPointer then .object (starts.idxOf r.wordIndex) else .immediate r

/-- The object at a position. -/
def Node.ofView (h : Heap) (starts : List Nat) (i : Nat) : Node :=
  let o := h.view i
  { format := o.format
    fields := o.fields
    len := o.len
    hash := o.header.identityHash
    captured := o.header.isCaptured
    cls := .ofRef starts (o.ref 1)
    field := fun k => .ofRef starts (o.ref (headerWords + k))
    element := fun k => .ofRef starts (o.ref (o.elements + k))
    raw := fun k => o ((if o.format = .float then headerWords else o.elements) + k)
    large? := h.largeValue? i }

namespace Heap.LaidOut

variable {h : Heap} {starts : List Nat} {r : Ref} {n i : Nat}

theorem nodup (hl : h.LaidOut starts) : starts.Nodup :=
  (hl.tiles.sorted h.sizeOf_pos).imp Nat.ne_of_lt

/-- Every object is at its position. -/
def placement (hl : h.LaidOut starts) : Placement where
  find? n := starts[n]?
  injective hn hn' := (List.getElem?_inj (List.getElem?_eq_some_iff.mp hn).1 hl.nodup).mp (hn.trans hn'.symm)
  valid hn := ⟨hl.first_le (List.mem_of_getElem? hn), hl.lt_addressLimit (List.mem_of_getElem? hn)⟩

theorem ofRef_ofWordIndex (hl : h.LaidOut starts) (hi : i ∈ starts) :
    Value.ofRef starts (.ofWordIndex i) = .object (starts.idxOf i) := by
  unfold Value.ofRef
  rw [if_pos (hl.isPointer hi), hl.wordIndex hi]

theorem find?_placement (hl : h.LaidOut starts) (hi : i ∈ starts) :
    hl.placement.find? (starts.idxOf i) = some i := List.getElem?_idxOf hi

theorem shows_ofRef (hl : h.LaidOut starts) (hr : Known starts r) :
    hl.placement.Shows r (.ofRef starts r) := by
  by_cases hp : r.isPointer = true
  · obtain ⟨i, hi, rfl⟩ := hr hp
    rw [hl.ofRef_ofWordIndex hi]
    exact ⟨i, hl.find?_placement hi, rfl⟩
  · unfold Value.ofRef
    rw [if_neg hp]
    exact ⟨rfl, Bool.not_eq_true _ ▸ hp⟩

theorem shows_all (hl : h.LaidOut starts) {refs : List Ref} (hrefs : ∀ r ∈ refs, Known starts r) :
    List.Forall₂ hl.placement.Shows refs (refs.map (.ofRef starts)) :=
  List.forall₂_map_right_iff.mpr (List.forall₂_same.mpr fun r hr => hl.shows_ofRef (hrefs r hr))

theorem shows_names (hl : h.LaidOut starts) {t : NameTable} (ht : ∀ r ∈ t.refs, Known starts r) :
    hl.placement.ShowsNames t (t.entries.toList.map fun entry => (entry.1, .ofRef starts entry.2)) :=
  List.forall₂_map_right_iff.mpr (List.forall₂_same.mpr fun _ hentry =>
    ⟨rfl, hl.shows_ofRef (ht _ (List.mem_map_of_mem hentry))⟩)

theorem live_ofView (h : Heap) (starts : List Nat) (i : Nat) :
    (Node.ofView h starts i).live = (h.view i).live := by
  have hsp : (Node.ofView h starts i).field contextStackPointer =
      .ofRef starts (h.view i).stackPointer := rfl
  unfold Node.live View.live
  rw [show (Node.ofView h starts i).format = (h.view i).format from rfl, hsp]
  cases (h.view i).format <;> try rfl
  unfold Value.ofRef
  by_cases hp : (h.view i).stackPointer.isPointer = true
  · rw [if_pos hp, Ref.not_isSmallInteger_of_isPointer hp]
    rfl
  · rw [if_neg hp]
    rfl

/-- An object is shown as far as it is traced, and further if more of its elements are in order. -/
theorem shownAt_ofView (hw : h.WellFormed starts) (hi : i ∈ starts) {known : Nat}
    (hallowed : (h.view i).fields = 0 ∨ (h.view i).format.allowsFields = true)
    (hlive : (h.view i).live ≤ known) (hlen : known ≤ (h.view i).len)
    (hknown : (h.view i).format.hasReferenceTail = true → ∀ k < known, (h.view i).live ≤ k →
      Known starts ((h.view i).ref ((h.view i).elements + k))) :
    (Node.ofView h starts i).ShownAt known h hw.toLaidOut.placement i := by
  have hfields : ∀ k < (h.view i).fields,
      hw.toLaidOut.placement.Shows ((h.view i).ref (headerWords + k))
        (.ofRef starts ((h.view i).ref (headerWords + k))) := by
    intro k hk
    refine hw.toLaidOut.shows_ofRef (hw.traced i hi _ (.inr (.inl ⟨?_, by omega, by omega⟩)))
    exact hallowed.resolve_left (by omega)
  exact
    { format := rfl
      fields := rfl
      len := rfl
      hash := rfl
      captured := rfl
      cls := hw.toLaidOut.shows_ofRef (hw.traced i hi 1 (.inl rfl))
      field := hfields
      live_le := live_ofView h starts i ▸ hlive
      le_len := hlen
      element := fun htail k hk => by
        refine hw.toLaidOut.shows_ofRef ?_
        obtain hlt | hge := Nat.lt_or_ge k (h.view i).live
        · exact hw.traced i hi _ (.inr (.inr ⟨htail, Nat.le_add_right .., Nat.add_lt_add_left hlt _⟩))
        · exact hknown htail k hk hge
      raw := fun _ _ _ _ => rfl
      large := rfl }

end Heap.LaidOut

/-- Objects that follow one another are where they are made first. -/
theorem Tiles.originOf {h : Heap} {nodes : Nat → Node} {starts : List Nat} {n last : Nat}
    (ht : Tiles h.sizeOf (originOf nodes n) starts last)
    (hnodes : ∀ k i, starts[k]? = some i → (nodes (n + k)).size = h.sizeOf i) :
    (∀ k i, starts[k]? = some i → i = ObjectMachine.originOf nodes (n + k)) ∧
      last = ObjectMachine.originOf nodes (n + starts.length) := by
  induction starts generalizing n with
  | nil =>
    cases ht
    exact ⟨fun k i hk => (by cases hk), rfl⟩
  | cons i starts ih =>
    cases ht with
    | cons ht =>
      rw [← hnodes 0 _ rfl] at ht
      obtain ⟨hstarts, hlast⟩ := ih (n := n + 1) ht fun k j hk => by
        rw [Nat.add_right_comm]
        exact hnodes (k + 1) j hk
      rw [hlast, List.length_cons, Nat.add_right_comm]
      refine ⟨fun k j hk => ?_, rfl⟩
      cases k with
      | zero =>
        cases hk
        rfl
      | succ k => rw [hstarts k j hk, Nat.add_right_comm]; rfl

namespace Machine

/-- The graph of a machine whose objects are at some positions and which executes the bytes of one of
them. -/
def graph (m : Machine) (starts : List Nat) (code : Ref) : Graph where
  nodes n := .ofView m.heap starts (starts.getD n 0)
  next := starts.length
  capacity := max m.heap.memory.size m.heap.reservedWords
  nil := .ofRef starts m.heap.nil
  core :=
    { nil := .ofRef starts m.core.nil
      trueObject := .ofRef starts m.core.trueObject
      falseObject := .ofRef starts m.core.falseObject
      cls := fun k => .ofRef starts (m.core.cls k)
      doesNotUnderstand := .ofRef starts m.core.doesNotUnderstand
      escapedBlock := .ofRef starts m.core.escapedBlock
      mustBeBoolean := .ofRef starts m.core.mustBeBoolean
      special := m.core.specialSelectors.toList.map (.ofRef starts) }
  symbols := m.symbols.entries.toList.map fun entry => (entry.1, .ofRef starts entry.2)
  globals := m.globals.entries.toList.map fun entry => (entry.1, .ofRef starts entry.2)
  pinned := m.pinned.toList.map (.ofRef starts)
  registers :=
    { active := .ofRef starts m.registers.activeContext
      home := .ofRef starts m.registers.homeContext
      method := .ofRef starts m.registers.method
      receiver := .ofRef starts m.registers.receiver
      literals := .ofRef starts m.registers.literals
      code := .ofRef starts code
      pc := m.registers.pc
      sp := m.registers.sp
      tempLimit := m.registers.tempLimit
      selector := .ofRef starts m.registers.selector
      argCount := m.registers.argCount
      lookupClass := .ofRef starts m.registers.lookupClass
      newMethod := .ofRef starts m.registers.newMethod }
  memo cls selector method := ∃ entry ∈ m.cache.entries.toList, cls = .ofRef starts entry.cls ∧
    selector = .ofRef starts entry.selector ∧ method = .ofRef starts entry.method
  pool :=
    { small := m.contexts.small.map (.ofRef starts)
      large := m.contexts.large.map (.ofRef starts) }

/-- An activation whose positions are those of its objects, and whose operands lead to objects. -/
structure Activation (m : Machine) (starts : List Nat) (code : Ref) : Prop where
  context : m.heap.IsOf starts .context m.registers.activeContext
  home : m.heap.IsOf starts .context m.registers.homeContext
  bytes : m.heap.IsOf starts .byteArray code
  stackBase : m.heap.elementsIndex m.registers.activeContext = .ok m.registers.stackBase
  stackLimit : m.heap.length m.registers.activeContext = .ok m.registers.stackLimit
  sp_le : m.registers.sp ≤ m.registers.stackLimit
  operands : ∀ k < m.registers.sp, ∀ r, m.heap.slot (m.registers.stackBase + k) = .ok r →
    Known starts r
  tempBase : m.heap.elementsIndex m.registers.homeContext = .ok m.registers.tempBase
  tempLimit : ∃ len, m.heap.length m.registers.homeContext = .ok len ∧ m.registers.tempLimit ≤ len
  codeBase : m.heap.bytesOffset code = .ok m.registers.codeBase
  codeLength : m.heap.length code = .ok m.registers.codeLength

/-- A machine whose memory is in order, and whose references lead to objects. -/
structure Legible (m : Machine) (starts : List Nat) (code : Ref) : Prop where
  wellFormed : m.heap.WellFormed starts
  reserved : m.heap.reservedWords ≤ Ref.addressLimit
  allowed : ∀ i ∈ starts, (m.heap.view i).fields = 0 ∨ (m.heap.view i).format.allowsFields = true
  table : m.heap.TableOwned starts
  counted : m.heap.sinceCollection ≤ m.heap.top * wordBytes
  rootsIn : m.heap.RootsIn starts m.roots
  pooled : ∀ r ∈ m.contexts.small ++ m.contexts.large, Known starts r
  cached : ∀ entry ∈ m.cache.entries.toList,
    Known starts entry.cls ∧ Known starts entry.selector ∧ Known starts entry.method
  active : m.registers.activeContext.isPointer = true → m.Activation starts code

namespace Legible

variable {m : Machine} {starts : List Nat} {code : Ref}

theorem laidOut (hm : m.Legible starts code) : m.heap.LaidOut starts := hm.wellFormed.toLaidOut

theorem nodes_eq {n i : Nat} (hn : starts[n]? = some i) :
    (m.graph starts code).nodes n = .ofView m.heap starts i := by
  show Node.ofView m.heap starts (starts.getD n 0) = _
  rw [List.getD_eq_getElem?_getD, hn]
  rfl

theorem nodes_idxOf {i : Nat} (hi : i ∈ starts) :
    (m.graph starts code).nodes (starts.idxOf i) = .ofView m.heap starts i :=
  nodes_eq (List.getElem?_idxOf hi)

theorem showsRoots (hm : m.Legible starts code) :
    hm.laidOut.placement.ShowsRoots m (m.graph starts code) := by
  have hroots := hm.rootsIn.roots
  simp only [roots_eq, List.mem_append] at hroots
  have hregister : ∀ r ∈ m.registers.refs, hm.laidOut.placement.Shows r (.ofRef starts r) :=
    fun r hr => hm.laidOut.shows_ofRef (hroots r (.inl hr))
  have hcore : ∀ r ∈ m.core.refs, hm.laidOut.placement.Shows r (.ofRef starts r) :=
    fun r hr => hm.laidOut.shows_ofRef (hroots r (.inr (.inl hr)))
  unfold Registers.refs at hregister
  unfold CoreObjects.refs at hcore
  simp only [List.mem_cons, List.mem_append] at hcore
  refine
    { registers :=
        { active := hregister _ (by simp)
          home := hregister _ (by simp)
          method := hregister _ (by simp)
          receiver := hregister _ (by simp)
          literals := hregister _ (by simp)
          selector := hregister _ (by simp)
          lookupClass := hregister _ (by simp)
          newMethod := hregister _ (by simp)
          pc := rfl
          sp := rfl
          argCount := rfl }
      core :=
        { nil := hcore _ (by simp)
          trueObject := hcore _ (by simp)
          falseObject := hcore _ (by simp)
          cls := fun k => hcore _ (.inr (.inr (.inr (.inl
            (Vector.mem_toList_iff.mpr (Vector.getElem_mem _))))))
          doesNotUnderstand := hcore _ (by simp)
          escapedBlock := hcore _ (by simp)
          mustBeBoolean := hcore _ (by simp)
          special := hm.laidOut.shows_all fun r hr => hroots r (.inr (.inl ?_)) }
      symbols := hm.laidOut.shows_names fun r hr => hroots r (.inr (.inr (.inl hr)))
      globals := hm.laidOut.shows_names fun r hr => hroots r (.inr (.inr (.inr (.inl hr))))
      pinned := hm.laidOut.shows_all fun r hr => hroots r (.inr (.inr (.inr (.inr hr)))) }
  unfold CoreObjects.refs
  simp [hr]

/-- The positions in the registers are those of the objects that they belong to. -/
theorem positions (hm : m.Legible starts code) {c : Nat}
    (hc : (m.graph starts code).registers.active = .object c) :
    hm.laidOut.placement.Positions m.registers (m.graph starts code) c := by
  have hl := hm.laidOut
  have hactive : m.registers.activeContext.isPointer = true := by
    by_contra hnot
    have himmediate : (m.graph starts code).registers.active =
        .immediate m.registers.activeContext := if_neg hnot
    rw [himmediate] at hc
    cases hc
  have ha := hm.active hactive
  obtain ⟨i, hi, hcontext, hformat⟩ := ha.context
  obtain ⟨j, hj, hhome, hhomeFormat⟩ := ha.home
  obtain ⟨l, hmem, hcode, hcodeFormat⟩ := ha.bytes
  obtain rfl : c = starts.idxOf i := by
    have heq : Value.ofRef starts m.registers.activeContext = .object c := hc
    rw [hcontext, hl.ofRef_ofWordIndex hi] at heq
    exact (Value.object.inj heq).symm
  obtain ⟨len, hlen, hlimit⟩ := ha.tempLimit
  have hbase := ha.stackBase
  have hstack := ha.stackLimit
  have htemps := ha.tempBase
  have hoffset := ha.codeBase
  have hcount := ha.codeLength
  rw [hcontext] at hbase hstack
  rw [hhome] at htemps hlen
  rw [hcode] at hoffset hcount
  rw [Heap.elementsIndex_eq hl hi] at hbase
  rw [Heap.elementsIndex_eq hl hj] at htemps
  rw [Heap.bytesOffset_eq hl hmem] at hoffset
  rw [hl.length hi] at hstack
  rw [hl.length hj] at hlen
  rw [hl.length hmem] at hcount
  refine
    { context := by rw [nodes_idxOf hi]; exact hformat
      stack := ⟨i, hl.find?_placement hi, ?_, ?_⟩
      home := ⟨starts.idxOf j, j, ?_, hl.find?_placement hj, ?_, ?_, rfl, ?_⟩
      code := ⟨starts.idxOf l, l, ?_, hl.find?_placement hmem, ?_, ?_, ?_⟩ }
  · rw [nodes_idxOf hi]
    exact (Except.ok.inj hbase).symm
  · rw [nodes_idxOf hi]
    exact (Except.ok.inj hstack).symm
  · show Value.ofRef starts m.registers.homeContext = _
    rw [hhome, hl.ofRef_ofWordIndex hj]
  · rw [nodes_idxOf hj]
    exact hhomeFormat
  · rw [nodes_idxOf hj]
    exact (Except.ok.inj htemps).symm
  · rw [nodes_idxOf hj]
    exact hlimit.trans_eq (Except.ok.inj hlen).symm
  · show Value.ofRef starts code = _
    rw [hcode, hl.ofRef_ofWordIndex hmem]
  · rw [nodes_idxOf hmem]
    exact hcodeFormat
  · rw [nodes_idxOf hmem]
    exact (Except.ok.inj hoffset).symm
  · rw [nodes_idxOf hmem]
    exact (Except.ok.inj hcount).symm

/-- Objects are shown as far as they are known: the active context up to its stack pointer. -/
theorem shownAt (hm : m.Legible starts code) {n i : Nat} (hn : starts[n]? = some i) :
    ((m.graph starts code).nodes n).ShownAt ((m.graph starts code).known n) m.heap
      hm.laidOut.placement i := by
  have hl := hm.laidOut
  have hi : i ∈ starts := List.mem_of_getElem? hn
  have hlive := Heap.LaidOut.live_ofView m.heap starts i
  unfold Graph.known
  rw [nodes_eq hn, hlive]
  split
  · rename_i hc
    obtain ⟨hcontext, ⟨j, hj, hbase, hlimit⟩, -⟩ := hm.positions hc
    obtain rfl : i = j := Option.some.inj (hn.symm.trans hj)
    rw [nodes_eq hn] at hcontext hbase hlimit
    obtain ⟨-, -, -, -, -, hsp, hoperands, -⟩ := hm.active
      ((hm.showsRoots.registers.active.isPointer_eq).trans (hc ▸ rfl))
    have hle : m.registers.sp ≤ (m.heap.view i).len := hsp.trans_eq hlimit
    refine Heap.LaidOut.shownAt_ofView hm.wellFormed hi (hm.allowed i hi) (Nat.le_max_left ..)
      (Nat.max_le.mpr ⟨View.live_le_len _, hle⟩) fun htail k hk hge => ?_
    have hksp : k < m.registers.sp := (lt_max_iff.mp hk).resolve_left (Nat.not_lt.mpr hge)
    refine hoperands k hksp _ ?_
    rw [hbase, Nat.add_assoc]
    exact hl.slot_offset hi (View.elements_lt_size htail (Nat.add_lt_add_left (by omega) _))
  · exact Heap.LaidOut.shownAt_ofView hm.wellFormed hi (hm.allowed i hi) (Nat.le_refl _)
      (View.live_le_len _) fun _ k hk hge => absurd hk (Nat.not_lt.mpr hge)

/-- A machine realizes the graph that is read off it. -/
theorem realizes (hm : m.Legible starts code) :
    m.Realizes (m.graph starts code) hm.laidOut.placement starts := by
  have hl := hm.laidOut
  have hsizes : ∀ n i, starts[n]? = some i →
      ((m.graph starts code).nodes (0 + n)).size = m.heap.sizeOf i := by
    intro n i hn
    rw [Nat.zero_add, nodes_eq hn]
    rfl
  have htiles : Tiles m.heap.sizeOf (originOf (m.graph starts code).nodes 0) starts m.heap.top :=
    hl.tiles
  obtain ⟨horigin, htop⟩ := htiles.originOf hsizes
  simp only [Nat.zero_add] at horigin htop
  refine
    { depicts :=
        { wellFormed := hm.wellFormed
          reserved := hm.reserved
          allowed := hm.allowed
          table := hm.table
          placed := List.mem_of_getElem?
          shows := hm.shownAt }
      bounded := fun hn => (List.getElem?_eq_some_iff.mp hn).1
      first := fun n _ hn => ?_
      packed := fun _ => htop
      nil := hl.shows_ofRef hm.rootsIn.nil
      committed := Nat.le_max_left ..
      reserved := Nat.le_max_right ..
      counted := hm.counted
      roots := hm.showsRoots
      small := hl.shows_all fun r hr => hm.pooled r (List.mem_append_left _ hr)
      large := hl.shows_all fun r hr => hm.pooled r (List.mem_append_right _ hr)
      cache := fun entry hentry _ => ?_
      positions := fun c hc => hm.positions hc }
  · have hget : starts[n]? = some starts[n] := List.getElem?_eq_getElem hn
    rw [← horigin n _ hget]
    exact hget
  · obtain ⟨hcls, hselector, hmethod⟩ := hm.cached entry hentry
    exact ⟨_, _, _, hl.shows_ofRef hcls, hl.shows_ofRef hselector, hl.shows_ofRef hmethod, entry,
      hentry, rfl, rfl, rfl⟩

end Legible

end Machine

end ObjectMachine
