import ObjectMachine.Proofs.Graph.Storing
import ObjectMachine.Proofs.Machine.Making
import ObjectMachine.Proofs.Machine.Resumption

/-!
# Allocation and collections

A graph always has room for one more object. All that shows of a collection is that the registers are
written back to the active context and read again, and that the pool of contexts is empty: objects
keep their names. A collection is only allowed as long as every object of the kernel is a root, since
the first objects in memory have to stay where they are.

## Main results

* `Simulates.collectGarbage`: a collection changes the places of objects.
* `Simulates.allocate`: an allocation adds an object, after collections.
* `Simulates.instantiate`: the same for an instance of a class.
-/

namespace ObjectMachine

/-! ## Pinned temporaries -/

namespace Spec

/-- Keeps a value. -/
def pin (v : Value) : Spec Unit := modify fun g => { g with pinned := g.pinned ++ [v] }

def pinAll : List Value → Spec Unit
  | [] => pure ()
  | v :: rest => do
    pin v
    pinAll rest

/-- Reads the value that was pinned last and stops keeping it. -/
def unpin : Spec Value := do
  let v ← read (·.pinned.getLast?)
  modify fun g => { g with pinned := g.pinned.dropLast }
  return v

theorem unpin_append {g : Graph} {values : List Value} {v : Value} (h : g.pinned = values ++ [v]) :
    unpin g = fun r => r = .ok v { g with pinned := values } := by
  funext r
  have hlast : g.pinned.getLast? = some v := by rw [h]; simp
  have hdrop : g.pinned.dropLast = values := by rw [h]; simp
  apply propext
  constructor
  · rintro ⟨r₁, hr₁, hr⟩
    rw [read_of_some hlast] at hr₁
    subst hr₁
    obtain ⟨r₂, rfl, rfl⟩ := hr
    show Result.ok v { g with pinned := g.pinned.dropLast } = _
    rw [hdrop]
  · rintro rfl
    refine ⟨.ok v g, by rw [read_of_some hlast], .ok () _, rfl, ?_⟩
    show Result.ok v _ = .ok v { g with pinned := g.pinned.dropLast }
    rw [hdrop]

def pinnedCount : Spec Nat := ask (·.pinned.length)

def pinnedAt (position : Nat) : Spec Value := read (·.pinned[position]?)

def pinnedFrom (start : Nat) : Nat → Spec (List Value)
  | 0 => pure []
  | count + 1 => do
    let v ← pinnedAt start
    return v :: (← pinnedFrom (start + 1) count)

def unpinTo (count : Nat) : Spec Unit := modify fun g => { g with pinned := g.pinned.take count }

end Spec

theorem forall₂_getElem? {α β : Type} {R : α → β → Prop} {xs : List α} {ys : List β}
    (h : List.Forall₂ R xs ys) (index : Nat) : Option.Rel R xs[index]? ys[index]? := by
  induction h generalizing index with
  | nil => exact .none
  | cons hhead _ ih =>
    cases index with
    | zero => exact .some hhead
    | succ index => exact ih index

namespace Machine.Realizes

variable {m : Machine} {g : Graph} {p : Placement} {starts : List Nat}

theorem withPinned {refs : Array Ref} {values : List Value} (hm : m.Realizes g p starts)
    (hall : List.Forall₂ p.Shows refs.toList values) :
    { m with pinned := refs }.Realizes { g with pinned := values } p starts :=
  { hm with
    roots := ⟨hm.roots.registers, hm.roots.core, hm.roots.symbols, hm.roots.globals, hall⟩
    positions := fun c hc => (hm.positions c hc).congr (fun _ => .refl _) rfl }

theorem pinned_length (hm : m.Realizes g p starts) : m.pinned.size = g.pinned.length := by
  rw [← hm.roots.pinned.length_eq, Array.length_toList]

end Machine.Realizes

namespace Simulates

variable {p : Placement} {r : Ref} {v : Value}

theorem pin (hr : p.Shows r v) : Simulates p (· = p) (Machine.pin r) (Spec.pin v) :=
  modify fun m g starts hm => hm.withPinned (by
    rw [Array.toList_push]
    exact List.rel_append hm.roots.pinned (.cons hr .nil))

theorem pinAll {refs : List Ref} {values : List Value} (hall : List.Forall₂ p.Shows refs values) :
    Simulates p (· = p) (Machine.pinAll refs) (Spec.pinAll values) := by
  induction hall with
  | nil => exact pure trivial rfl
  | cons hhead _ ih => exact (pin hhead).bind_still fun _ _ _ => ih

theorem pinnedCount : Simulates p (· = p) Machine.pinnedCount Spec.pinnedCount :=
  ask fun _ _ _ hm => hm.pinned_length

theorem pinnedAt (position : Nat) :
    Simulates p (· = p) (Machine.pinnedAt position) (Spec.pinnedAt position) := by
  have hform : Machine.pinnedAt position = Action.inspect fun m =>
      m.pinned[position]?.elim (.error (.fault .position)) .ok := by
    funext m
    unfold Machine.pinnedAt Action.inspect
    dsimp only
    cases m.pinned[position]? <;> rfl
  rw [hform]
  refine inspect fun m g starts hm v hat => ?_
  have hrel := forall₂_getElem? hm.roots.pinned position
  rw [hat, Array.getElem?_toList] at hrel
  cases hm' : m.pinned[position]? with
  | none =>
    rw [hm'] at hrel
    cases hrel
  | some r =>
    rw [hm'] at hrel
    cases hrel
    rename_i hshows
    exact ⟨r, rfl, hshows⟩

theorem pinnedFrom (start count : Nat) :
    Simulates p (· = p) (Machine.pinnedFrom start count) (Spec.pinnedFrom start count) := by
  induction count generalizing start with
  | zero => exact pure .nil rfl
  | succ count ih =>
    refine (pinnedAt start).bind_still fun r v hr => ?_
    refine (ih (start + 1)).bind_still fun refs values hall => ?_
    exact pure (.cons hr hall) rfl

theorem unpinTo (count : Nat) :
    Simulates p (· = p) (Machine.unpinTo count) (Spec.unpinTo count) :=
  modify fun m g starts hm => hm.withPinned (by
    rw [show (m.pinned.take count).toList = m.pinned.toList.take count by simp]
    exact List.forall₂_take count hm.roots.pinned)

theorem unpin : Simulates p (· = p) Machine.unpin Spec.unpin := by
  have hform : Machine.unpin = (do
      let r ← Action.inspect fun m => m.pinned.back?.elim (.error .unpinnedTooMany) .ok
      MonadState.modifyGet fun m => ((), { m with pinned := m.pinned.pop })
      return r) := by
    funext m
    unfold Machine.unpin
    show _ = Action.bind _ _ m
    unfold Action.bind Action.inspect
    dsimp only
    cases m.pinned.back? <;> rfl
  rw [hform]
  refine (inspect fun m g starts hm v hlast => ?_).bind_still fun r v hr => ?_
  · have hrel := forall₂_getElem? hm.roots.pinned (m.pinned.size - 1)
    rw [Array.getElem?_toList, ← Array.back?_eq_getElem?, hm.pinned_length,
      ← List.getLast?_eq_getElem?, hlast] at hrel
    cases hm' : m.pinned.back? with
    | none =>
      rw [hm'] at hrel
      cases hrel
    | some r =>
      rw [hm'] at hrel
      cases hrel
      rename_i hshows
      exact ⟨r, rfl, hshows⟩
  · refine (modify fun m g starts hm => hm.withPinned ?_).bind_still fun _ _ _ => pure hr rfl
    rw [Array.toList_pop, List.dropLast_eq_take, List.dropLast_eq_take,
      hm.roots.pinned.length_eq]
    exact List.forall₂_take _ hm.roots.pinned

end Simulates

/-! ## Registers -/

theorem Placement.shows_small (p : Placement) (bits : UInt64) :
    p.Shows (.ofPayload bits) (.immediate (.ofPayload bits)) :=
  shows_immediate (Ref.not_isPointer_of_isSmallInteger (Ref.isSmallInteger_ofPayload bits))

theorem Placement.shows_ofNat (p : Placement) (n : Nat) :
    p.Shows (.ofNat n) (.immediate (.ofNat n)) :=
  p.shows_small n.toUInt64

/-- The count in a register of a context, zero if there is none. -/
def Value.count : Value → Nat
  | .immediate r => if r.isSmallInteger then r.toCount else 0
  | .object _ => 0

namespace Graph

variable (g : Graph)

/-- Writes the position and the stack pointer back to the active context, if there is one. -/
def flush : Option Graph :=
  match g.registers.active with
  | .immediate _ => some g
  | .object c => do
    let g' ← g.storeField (.object c) Context.pcField (.immediate (.ofNat g.registers.pc))
    g'.storeField (.object c) Context.spField (.immediate (.ofNat g.registers.sp))

/-- The method context whose temporaries a context works with. -/
def homeOf (v : Value) : Option Value := do
  let kind ← g.field v Context.argCountField
  if kind.isSmallInteger then g.field v Context.homeField else some v

/-- The registers with a context made active. -/
def loaded (v : Value) : Option Registers := do
  let home ← g.homeOf v
  let method ← g.field home Context.methodField
  let receiver ← g.field home Context.receiverField
  let literals ← g.field method Method.literalsField
  let code ← g.field method Method.codeField
  let _ ← g.nodeOf code .byteArray
  let pc ← g.field v Context.pcField
  let sp ← g.field v Context.spField
  let header ← (← g.field method Method.headerField).bits?
  let context ← g.nodeOf v .context
  let homeContext ← g.nodeOf home .context
  if sp.count ≤ context.len then
    some { g.registers with
      active := v, home, method, receiver, literals, code
      pc := pc.count
      sp := sp.count
      tempLimit := min (MethodHeader.ofRef header).tempCount homeContext.len }
  else none

/-- Makes a context the active one. -/
def load (v : Value) : Option Graph := (g.loaded v).map fun registers => { g with registers }

/-- Computes the registers again. -/
def reload : Option Graph :=
  match g.registers.active with
  | .immediate _ => some g
  | .object c => g.load (.object c)

end Graph

namespace Ref

theorem toInt_lt (r : Ref) : r.toInt < addressLimit := by
  have hword := BitVec.toInt_lt (x := r.bits.toInt64.toBitVec)
  show (r.bits.toInt64.toBitVec.sshiftRight ((2 : Int64).toBitVec.smod 64).toNat).toInt < _
  rw [show ((2 : Int64).toBitVec.smod 64).toNat = 2 by decide, BitVec.toInt_sshiftRight,
    Int.shiftRight_eq_div_pow]
  simp only [addressLimit]
  omega

theorem toNat_toInt_ofNat_le (n : Nat) : (ofNat n).toInt.toNat ≤ n := by
  by_cases hn : n < addressLimit
  · rw [toInt_ofNat hn]
    exact Nat.le_refl _
  · have hlt := (ofNat n).toInt_lt
    omega

/-- A count that is no more than memory can hold is the integer it was read from. -/
theorem toCount_eq_of_le {r : Ref} (hr : r.toCount ≤ addressLimit) :
    r.toInt.toNat = r.toCount := by
  unfold toCount at hr ⊢
  unfold toInt
  generalize r.bits.toInt64 >>> 2 = x at hr ⊢
  have hnat : x.toBitVec.toNat ≤ 2305843009213693952 := hr
  show x.toBitVec.toInt.toNat = x.toBitVec.toNat
  rw [BitVec.toInt_eq_toNat_of_lt (by omega)]
  rfl

end Ref

/-- The stack pointer in a context tells how many of its elements are live. -/
theorem Node.live_eq_count {o : Node} (hf : o.format = .context)
    (hle : (o.field contextStackPointer).count ≤ o.len) (hlen : o.len ≤ Ref.addressLimit) :
    o.live = (o.field contextStackPointer).count := by
  unfold live
  rw [hf]
  dsimp only
  cases hv : o.field contextStackPointer with
  | object n => rfl
  | immediate r =>
    rw [hv] at hle
    unfold Value.count at hle ⊢
    dsimp only at hle ⊢
    split at hle
    · rename_i hsmall
      rw [if_pos hsmall, if_pos hsmall, Ref.toCount_eq_of_le (hle.trans hlen)]
      exact Nat.min_eq_left hle
    · rename_i hnot
      rw [if_neg hnot, if_neg hnot]


namespace Machine.Holds

variable {m : Machine} {g : Graph} {p : Placement} {starts : List Nat} {known : Nat → Nat} {r : Ref}
  {v w : Value} {index : Nat}

theorem field (hm : m.Holds g p starts known) (hr : p.Shows r v) (hw : g.field v index = some w) :
    ∃ s, m.heap.fetchField r index = .ok s ∧ p.Shows s w := by
  obtain ⟨n, rfl, hindex, rfl⟩ := Graph.of_field hw
  obtain ⟨i, hi, rfl⟩ := hr
  exact hm.depicts.fetchField hi hindex

/-- The object of a reference, by what its format is. -/
theorem object {format : Format} {o : Node} (hr : p.Shows r v)
    (ho : g.nodeOf v format = some o) :
    ∃ n i, v = .object n ∧ o = g.nodes n ∧ (g.nodes n).format = format ∧ p.find? n = some i ∧
      r = .ofWordIndex i := by
  obtain ⟨n, rfl, rfl, hf⟩ := Graph.of_nodeOf ho
  obtain ⟨i, hi, rfl⟩ := hr
  exact ⟨n, i, rfl, rfl, hf, hi, rfl⟩

theorem homeOf (hm : m.Holds g p starts known) (hr : p.Shows r v) (hw : g.homeOf v = some w) :
    ∃ s, Context.home m.heap r = .ok s ∧ p.Shows s w := by
  unfold Graph.homeOf at hw
  obtain ⟨kind, hkind, hw⟩ := Option.bind_eq_some_iff.mp hw
  obtain ⟨s, hs, hshows⟩ := hm.field hr hkind
  unfold Context.home Context.isBlock
  rw [hs]
  show ∃ s', (if s.isSmallInteger = true then _ else _) = _ ∧ _
  rw [hshows.isSmallInteger_eq]
  split at hw
  · rename_i hblock
    rw [if_pos hblock]
    exact hm.field hr hw
  · rename_i hmethod
    rw [if_neg hmethod]
    cases hw
    exact ⟨r, rfl, hr⟩

/-- The count that a register of a context holds. -/
theorem register (hm : m.Holds g p starts known) (hr : p.Shows r v)
    (hw : g.field v index = some w) :
    ∃ count, Context.register? m.heap r index = .ok count ∧ count.getD 0 = w.count := by
  obtain ⟨s, hs, hshows⟩ := hm.field hr hw
  unfold Context.register?
  rw [hs]
  refine ⟨_, rfl, ?_⟩
  cases w with
  | immediate r' =>
    obtain ⟨rfl, -⟩ := hshows
    unfold Value.count
    dsimp only
    split <;> rfl
  | object n =>
    rw [if_neg (by rw [hshows.isSmallInteger_eq]; exact Bool.false_ne_true)]
    rfl

/-- Objects are not longer than memory. -/
theorem len_le (hm : m.Holds g p starts known) {n i : Nat} (hi : p.find? n = some i)
    (htail : (g.nodes n).format.hasReferenceTail = true) : (g.nodes n).len ≤ Ref.addressLimit := by
  have hn := hm.depicts.shows hi
  have hfit := hm.depicts.laidOut.fits_memory (hm.depicts.placed hi)
  have haddressable := hm.depicts.laidOut.addressable
  have hsize : (g.nodes n).len ≤ (m.heap.view i).size := by
    rw [hn.size_eq]
    unfold Node.size
    cases hf : (g.nodes n).format <;> rw [hf] at htail <;>
      simp only [Format.hasReferenceTail, Bool.false_eq_true] at htail <;>
      simp only [Format.sizeInWords, Format.tailWords] <;> omega
  omega

end Machine.Holds

namespace Machine.Realizes

variable {m : Machine} {g g' : Graph} {p : Placement} {starts : List Nat} {r : Ref} {v : Value}

/-- As far as a collection goes. -/
theorem holds (hm : m.Realizes g p starts) :
    m.Holds g p starts (fun n => (g.nodes n).live) :=
  { hm.toHolds with
    depicts := hm.depicts.withKnown (fun _ _ _ => Nat.le_refl _) fun n _ _ => g.live_le_known n }

/-- Without an activation there are no positions. -/
theorem of_holds (hm : m.Holds g p starts (fun n => (g.nodes n).live))
    (hidle : ∀ c, g.registers.active ≠ .object c) : m.Realizes g p starts :=
  { hm with
    depicts := hm.depicts.withKnown (fun n _ _ => g.live_le_known n) fun n _ _ => by
      unfold Graph.known
      rw [if_neg (hidle n)]
    positions := fun c hc => absurd hc (hidle c) }

theorem flush (hm : m.Realizes g p starts) (hg : g.flush = some g') :
    ∃ h, m.flushRegisters = .ok () { m with heap := h } ∧
      { m with heap := h }.Realizes g' p starts := by
  have hactive := hm.roots.registers.active
  unfold Graph.flush at hg
  unfold Machine.flushRegisters
  rw [Action.bind_of_ok (show Action.getRegisters m = .ok m.registers m from rfl)]
  cases hv : g.registers.active with
  | immediate r =>
    rw [hv] at hg hactive
    cases hg
    rw [if_neg (by rw [hactive.isPointer_eq]; simp)]
    exact ⟨m.heap, rfl, hm⟩
  | object c =>
    rw [hv] at hg hactive
    rw [if_pos (show m.registers.activeContext.isPointer = true from hactive.isPointer_eq)]
    obtain ⟨h, hh, hm'⟩ := (Writes.bind (Writes.storeField hactive (p.shows_ofNat m.registers.pc))
      (Writes.storeField hactive (p.shows_ofNat m.registers.sp))) m g starts hm g' (by
        rw [hm.roots.registers.pc, hm.roots.registers.sp]
        exact hg)
    exact ⟨h, Action.write_ok hh, hm'⟩

end Machine.Realizes

/-- The registers of a context that is made active. -/
theorem Machine.Holds.load {m : Machine} {g g' : Graph} {p : Placement} {starts : List Nat} {r : Ref}
    {v : Value} (hm : m.Holds g p starts (fun n => (g.nodes n).live)) (hr : p.Shows r v)
    (hg : g.load v = some g') :
    ∃ registers, m.registers.load m.heap r = .ok registers ∧
      { m with registers }.Realizes g' p starts := by
  obtain ⟨loaded, hloaded, rfl⟩ := Option.map_eq_some_iff.mp hg
  simp only [Graph.loaded, Option.bind_eq_bind, Option.bind_eq_some_iff] at hloaded
  obtain ⟨home, hhome, method, hmethod, receiver, hreceiver, literals, hliterals, code, hcode,
    bytes, hbytes, pc, hpc, sp, hsp, packed, hpacked, bits, hbits, context, hcontext, homeContext,
    hhomeContext, hloaded⟩ := hloaded
  split at hloaded <;> cases hloaded
  rename_i hle
  obtain ⟨homeRef, hhome', hhomeRef⟩ := hm.homeOf hr hhome
  obtain ⟨methodRef, hmethod', hmethodRef⟩ := hm.field hhomeRef hmethod
  obtain ⟨receiverRef, hreceiver', hreceiverRef⟩ := hm.field hhomeRef hreceiver
  obtain ⟨literalsRef, hliterals', hliteralsRef⟩ := hm.field hmethodRef hliterals
  obtain ⟨codeRef, hcode', hcodeRef⟩ := hm.field hmethodRef hcode
  obtain ⟨pcCount, hpc', hpcCount⟩ := hm.register hr hpc
  obtain ⟨spCount, hsp', hspCount⟩ := hm.register hr hsp
  obtain ⟨headerRef, hheader', hheaderRef⟩ := hm.field hmethodRef hpacked
  obtain ⟨b, l, rfl, rfl, hbytesFormat, hl, rfl⟩ := Holds.object hcodeRef hbytes
  obtain ⟨c, i, rfl, rfl, hcontextFormat, hi, rfl⟩ := Holds.object hr hcontext
  obtain ⟨d, j, rfl, rfl, hhomeFormat, hj, rfl⟩ := Holds.object hhomeRef hhomeContext
  have hd := hm.depicts
  have hheaderBits : headerRef = bits := by
    cases packed with
    | object n => cases hbits
    | immediate r' =>
      cases hbits
      exact hheaderRef.1
  have hc := hd.shows hi
  have hh := hd.shows hj
  have hstack := Heap.elementsIndex_eq hd.laidOut (hd.placed hi)
  have hlimit := hd.laidOut.length (hd.placed hi)
  have htemps := Heap.elementsIndex_eq hd.laidOut (hd.placed hj)
  have hhomeLength := hd.laidOut.length (hd.placed hj)
  have hbase := hd.bytesOffset hl
  have hlength := hd.laidOut.length (hd.placed hl)
  rw [hc.elements_eq] at hstack
  rw [hh.elements_eq] at htemps
  rw [hc.len] at hlimit
  rw [hh.len] at hhomeLength
  rw [(hd.shows hl).len] at hlength
  refine ⟨{ m.registers with
    activeContext := .ofWordIndex i
    homeContext := .ofWordIndex j
    method := methodRef
    receiver := receiverRef
    literals := literalsRef
    pc := pc.count
    sp := sp.count
    stackBase := i + (headerWords + (g.nodes c).fields + 1)
    stackLimit := (g.nodes c).len
    tempBase := j + (headerWords + (g.nodes d).fields + 1)
    tempLimit := min (MethodHeader.ofRef bits).tempCount (g.nodes d).len
    codeBase := (l + (headerWords + (g.nodes b).fields + 1)) * 8
    codeLength := (g.nodes b).len }, ?_, ?_⟩
  · simp only [Registers.load, Method.literals, Method.code, Method.header, Context.pc?,
      Context.sp?, hhome', hmethod', hreceiver', hliterals', hcode', hbase, hlength, hpc', hsp',
      hstack, hlimit, htemps, hheader', hhomeLength, hpcCount, hspCount, hheaderBits, bind,
      Except.bind, pure, Except.pure]
  have hlen := hm.len_le hi (by rw [hcontextFormat]; rfl)
  have hsp' : sp = (g.nodes c).field contextStackPointer := (Graph.of_field_object hsp).2
  have hlive : (g.nodes c).live = sp.count := by
    rw [hsp']
    exact Node.live_eq_count hcontextFormat (by rw [← hsp']; exact hle) hlen
  refine
    { hm with
      depicts := hd.withKnown ?_ ?_
      roots := ?_
      positions := ?_ }
  · intro n k _
    unfold Graph.known
    dsimp only
    split
    · exact Nat.le_max_left ..
    · exact Nat.le_refl _
  · intro n k _
    unfold Graph.known
    dsimp only
    split
    · rename_i hactive
      cases hactive
      rw [← hlive]
      exact Nat.max_le.mpr ⟨Nat.le_refl _, Nat.le_refl _⟩
    · exact Nat.le_refl _
  · refine ⟨?_, hm.roots.core, hm.roots.symbols, hm.roots.globals, hm.roots.pinned⟩
    have hregisters := hm.roots.registers
    exact
      { active := ⟨i, hi, rfl⟩
        home := ⟨j, hj, rfl⟩
        method := hmethodRef
        receiver := hreceiverRef
        literals := hliteralsRef
        selector := hregisters.selector
        lookupClass := hregisters.lookupClass
        newMethod := hregisters.newMethod
        pc := rfl
        sp := rfl
        argCount := hregisters.argCount }
  · intro c' hc'
    cases hc'
    exact
      { context := hcontextFormat
        stack := ⟨i, hi, rfl, rfl⟩
        home := ⟨d, j, rfl, hj, hhomeFormat, rfl, rfl, Nat.min_le_right ..⟩
        code := ⟨b, l, rfl, hl, hbytesFormat, rfl, rfl⟩ }


namespace Graph

/-- The graph after a collection. -/
def collected (g : Graph) : Option Graph := do
  let g ← g.flush
  { g with pool := ⟨[], []⟩ }.reload

/-- Every object of the kernel is a root. -/
def Rooted (g : Graph) : Prop :=
  ∀ n < kernelObjects, n < g.next → g.core.nil = .object n ∨ g.core.trueObject = .object n ∨
    g.core.falseObject = .object n ∨ ∃ k, g.core.cls k = .object n

end Graph

namespace Spec

/-- Runs a collection. Any number of bytes may be reclaimed. -/
def collectGarbage : Spec Nat := do
  guard Graph.Rooted
  write Graph.collected
  choose fun _ => True

/-- Runs a collection for the sake of a value. -/
def collectKeeping (v : Value) : Spec Value := do
  let _ ← collectGarbage
  return v

end Spec

theorem MethodCache.mem_flush {c : MethodCache} {entry : CacheEntry}
    (h : entry ∈ c.flush.entries.toList) : entry = noEntry := by
  simp only [flush, Array.toList_replicate] at h
  exact List.eq_of_mem_replicate h

namespace Machine.Holds

variable {m : Machine} {g : Graph} {p : Placement} {starts : List Nat} {known : Nat → Nat}

/-- The objects of the kernel are among the roots. -/
theorem mem_roots (hm : m.Holds g p starts known) (hrooted : g.Rooted) {n i : Nat}
    (hn : n < kernelObjects) (hi : p.find? n = some i) : .ofWordIndex i ∈ m.roots := by
  have hcore := hm.roots.core
  have hmem : ∀ r ∈ m.core.refs, r ∈ m.roots := by
    intro r hr
    rw [Machine.roots_eq]
    simp [hr]
  have hshown : ∀ {r}, p.Shows r (.object n) → r = .ofWordIndex i := fun hr =>
    hr.ref_eq (Placement.shows_object hi)
  unfold CoreObjects.refs at hmem
  obtain hnil | htrue | hfalse | ⟨k, hk⟩ := hrooted n hn (hm.bounded hi)
  · rw [← hshown (hnil ▸ hcore.nil)]
    exact hmem _ (by simp)
  · rw [← hshown (htrue ▸ hcore.trueObject)]
    exact hmem _ (by simp)
  · rw [← hshown (hfalse ▸ hcore.falseObject)]
    exact hmem _ (by simp)
  · rw [← hshown (hk ▸ hcore.cls k)]
    refine hmem _ ?_
    simp only [List.mem_cons, List.mem_append]
    exact .inr (.inr (.inr (.inl (Vector.mem_toList_iff.mpr (Vector.getElem_mem _)))))

/-- A machine with its memory collected and its roots updated. Objects of the kernel stay where they
are. -/
theorem collect (hm : m.Holds g p starts fun n => (g.nodes n).live) (hrooted : g.Rooted)
    (hsmall : g.pool.small = []) (hlarge : g.pool.large = []) :
    m.heap.collect m.roots = .error (.markStackOverflow m.heap.config.markLimit) ∨
      ∃ c p' starts', m.heap.collect m.roots = .ok c ∧ p.Steady p' ∧
        ({ ({ m with heap := c.heap }.withRoots c.roots) with cache := m.cache.flush }).Holds g p'
          starts' fun n => (g.nodes n).live := by
  obtain hfull | ⟨c, p', starts', move, hok, hroots, hmove, hnil, hdepicts, hsize, hreserved, hsince,
    htop, hnone, hstay⟩ := hm.depicts.collected hm.roots.shows hm.nil
  · exact .inl hfull
  have hfirst : ∀ n < kernelObjects, n < g.next → p'.find? n = some (originOf g.nodes n) := by
    intro n hn hnext
    refine hstay (min kernelObjects g.next) (fun k hk => ?_) n (by omega)
    have hfind := hm.first k (by omega) (by omega)
    exact ⟨hfind, hm.mem_roots hrooted (by omega) hfind⟩
  have hbounded : ∀ {n i}, p'.find? n = some i → n < g.next := by
    intro n i hi
    cases hp : p.find? n with
    | none =>
      rw [hnone n hp] at hi
      cases hi
    | some j => exact hm.bounded hp
  have hpacked : g.next ≤ kernelObjects → c.heap.top = originOf g.nodes g.next := by
    intro hle
    refine Nat.le_antisymm (htop.trans (hm.packed hle).le) ?_
    cases hcount : g.next with
    | zero =>
      have hsum := hdepicts.laidOut.tiles.sum_eq
      simp only [originOf]
      omega
    | succ last =>
      have hlast := hfirst last (by omega) (by omega)
      have hfits := hdepicts.laidOut.fits (hdepicts.placed hlast)
      rw [(hdepicts.shows hlast).size_eq] at hfits
      exact hfits
  refine .inr ⟨c, p', starts', hok, ?_, ?_⟩
  · intro n hn i hi
    have hnext := hm.bounded hi
    rw [hm.first n hn hnext] at hi
    rw [← hi]
    exact hfirst n hn hnext
  rw [hroots, show m.roots = { m with heap := c.heap }.roots by simp only [Machine.roots_eq],
    Machine.withRoots_map]
  have hmapped := hm.roots.map hmove
  have hnoSmall : m.contexts.small = [] := List.forall₂_nil_right_iff.mp (hsmall ▸ hm.small)
  have hnoLarge : m.contexts.large = [] := List.forall₂_nil_right_iff.mp (hlarge ▸ hm.large)
  exact
    { depicts := hdepicts
      bounded := hbounded
      first := hfirst
      packed := hpacked
      nil := hnil
      committed := by
        show c.heap.memory.size ≤ _
        rw [hsize]
        exact hm.committed
      reserved := by
        show c.heap.reservedWords ≤ _
        rw [hreserved]
        exact hm.reserved
      counted := by
        show c.heap.sinceCollection ≤ _
        rw [hsince]
        exact Nat.zero_le _
      roots := ⟨hmapped.registers, hmapped.core, hmapped.symbols, hmapped.globals, hmapped.pinned⟩
      small := by
        show List.Forall₂ p'.Shows m.contexts.small _
        rw [hnoSmall, hsmall]
        exact .nil
      large := by
        show List.Forall₂ p'.Shows m.contexts.large _
        rw [hnoLarge, hlarge]
        exact .nil
      cache := fun entry hentry hmethod => absurd hmethod (by
        rw [MethodCache.mem_flush hentry]
        simp [MethodCache.noEntry, Ref.isNull, Ref.null]) }

end Machine.Holds


/-- Writing registers back changes nodes only. -/
theorem Graph.of_flush {g g' : Graph} (hg : g.flush = some g') : g' = { g with nodes := g'.nodes } := by
  unfold flush at hg
  split at hg
  · cases hg
    rfl
  · obtain ⟨g₁, hpc, hsp⟩ := Option.bind_eq_some_iff.mp hg
    obtain ⟨n, -, -, -, rfl⟩ := of_storeField hpc
    obtain ⟨n', -, -, -, rfl⟩ := of_storeField hsp
    rfl

theorem Graph.of_load {g g' : Graph} {v : Value} (hg : g.load v = some g') :
    g' = { g with registers := g'.registers } := by
  obtain ⟨registers, -, rfl⟩ := Option.map_eq_some_iff.mp hg
  rfl

/-- A collection changes nodes, registers and the pool only. -/
theorem Graph.of_collected {g g' : Graph} (hg : g.collected = some g') :
    g' = { g with nodes := g'.nodes, registers := g'.registers, pool := ⟨[], []⟩ } := by
  obtain ⟨g₁, hflush, hg⟩ := Option.bind_eq_some_iff.mp hg
  rw [of_flush hflush] at hg
  unfold reload at hg
  split at hg
  · cases hg
    rfl
  · rw [of_load hg]

namespace Machine

variable {m : Machine} {g g' : Graph} {p : Placement} {starts : List Nat} {r : Ref} {v : Value}

/-- The registers are computed again. -/
theorem Holds.reload (hm : m.Holds g p starts fun n => (g.nodes n).live) (hg : g.reload = some g') :
    ∃ m', m.reloadRegisters = .ok () m' ∧ m'.Realizes g' p starts := by
  have hactive := hm.roots.registers.active
  unfold reloadRegisters
  rw [Action.bind_of_ok (show Action.getRegisters m = .ok m.registers m from rfl)]
  unfold Graph.reload at hg
  cases hv : g.registers.active with
  | immediate r =>
    rw [hv] at hg hactive
    cases hg
    rw [if_neg (by rw [hactive.isPointer_eq]; simp)]
    exact ⟨m, rfl, .of_holds hm fun c hc => by rw [hv] at hc; cases hc⟩
  | object c =>
    rw [hv] at hg hactive
    rw [if_pos (show m.registers.activeContext.isPointer = true from hactive.isPointer_eq)]
    obtain ⟨registers, hload, hm'⟩ := hm.load hactive hg
    refine ⟨_, ?_, hm'⟩
    unfold loadContext
    rw [hload]

/-- A collection changes the places of objects. Those of the kernel stay where they are. -/
theorem Realizes.collectGarbage (hm : m.Realizes g p starts) (hrooted : g.Rooted)
    (hg : g.collected = some g') :
    (∃ limit, m.collectGarbage = .stopped (.markStackOverflow limit)) ∨
      ∃ reclaimed m' p' starts', m.collectGarbage = .ok reclaimed m' ∧ p.Steady p' ∧
        m'.Realizes g' p' starts' := by
  obtain ⟨g₁, hflush, hg⟩ := Option.bind_eq_some_iff.mp hg
  obtain ⟨h, hflushed, hm₁⟩ := hm.flush hflush
  have hholds : { m with heap := h, contexts := m.contexts.clear }.Holds
      { g₁ with pool := ⟨[], []⟩ } p starts (fun n => (g₁.nodes n).live) :=
    { hm₁.holds with
      roots := ⟨hm₁.roots.registers, hm₁.roots.core, hm₁.roots.symbols, hm₁.roots.globals,
        hm₁.roots.pinned⟩
      small := .nil
      large := .nil }
  have hrooted' : Graph.Rooted { g₁ with pool := ⟨[], []⟩ } := by
    rw [Graph.of_flush hflush]
    exact hrooted
  generalize hcleared : ({ m with heap := h, contexts := m.contexts.clear } : Machine) = m₁ at hholds
  have hclear : clearContexts { m with heap := h } = .ok () m₁ := by
    rw [← hcleared]
    rfl
  unfold Machine.collectGarbage
  rw [Action.bind_of_ok hflushed, Action.bind_of_ok hclear,
    Action.bind_of_ok (show Action.ask Machine.roots m₁ = .ok m₁.roots m₁ from rfl)]
  obtain hfull | ⟨c, p', starts', hcollect, hsteady, hm₂⟩ := hholds.collect hrooted' rfl rfl
  · refine .inl ⟨m₁.heap.config.markLimit, Action.bind_of_stopped (Action.onHeap_of_error ?_)⟩
    rw [hfull]
    rfl
  · obtain ⟨m₃, hreload, hm₃⟩ := hm₂.reload hg
    refine .inr ⟨c.reclaimed, m₃, p', starts', ?_, hsteady, hm₃⟩
    have hdone : (Action.onHeap fun h => do
          let collected ← h.collect m₁.roots
          return ((collected.roots, collected.reclaimed), collected.heap)) m₁ =
        .ok (c.roots, c.reclaimed) { m₁ with heap := c.heap } :=
      Action.onHeap_eq_ok.mpr ⟨c.heap, by rw [hcollect]; rfl, rfl⟩
    rw [Action.bind_of_ok hdone]
    exact Action.bind_of_ok hreload

end Machine


/-! A collection does not look at pinned temporaries. -/

namespace Graph

variable {g : Graph} {values : List Value}

theorem storeField_withPinned (v : Value) (index : Nat) (w : Value) :
    { g with pinned := values }.storeField v index w =
      (g.storeField v index w).map ({ · with pinned := values }) := by
  cases v with
  | immediate r => rfl
  | object n =>
    show (if index < (g.nodes n).fields ∧ ((g.nodes n).withField index w).live ≤ g.known n then
      some _ else none) = (if _ then some _ else none : Option Graph).map _
    split <;> rfl

theorem flush_withPinned :
    { g with pinned := values }.flush = g.flush.map ({ · with pinned := values }) := by
  unfold flush
  dsimp only
  cases g.registers.active with
  | immediate r => rfl
  | object c =>
    dsimp only
    rw [storeField_withPinned]
    cases g.storeField (.object c) Context.pcField (.immediate (.ofNat g.registers.pc)) with
    | none => rfl
    | some g₁ => exact storeField_withPinned (g := g₁) (.object c) Context.spField _

theorem load_withPinned (v : Value) :
    { g with pinned := values }.load v = (g.load v).map ({ · with pinned := values }) := by
  show (g.loaded v).map _ = ((g.loaded v).map _).map _
  rw [Option.map_map]
  rfl

theorem collected_withPinned :
    { g with pinned := values }.collected = g.collected.map ({ · with pinned := values }) := by
  unfold collected
  rw [flush_withPinned]
  cases g.flush with
  | none => rfl
  | some g₁ =>
    show Graph.reload { g₁ with pinned := values, pool := ⟨[], []⟩ } =
      (Graph.reload { g₁ with pool := ⟨[], []⟩ }).map ({ · with pinned := values })
    unfold reload
    dsimp only
    cases g₁.registers.active with
    | immediate r => rfl
    | object c => exact load_withPinned (g := { g₁ with pool := ⟨[], []⟩ }) (.object c)

end Graph

namespace Simulates

variable {p : Placement} {r : Ref} {v : Value}

theorem collectGarbage : Simulates p p.Steady Machine.collectGarbage Spec.collectGarbage := by
  refine guard fun m g starts hm hrooted hright => ?_
  cases hg : g.collected with
  | none =>
    refine absurd ⟨.wrong, ?_, rfl⟩ hright
    rw [Spec.write_of_none hg]
  | some g' =>
    obtain ⟨limit, hfull⟩ | ⟨reclaimed, m', p', starts', hok, hsteady, hm'⟩ :=
      hm.collectGarbage hrooted hg
    · rw [hfull]
      exact .inl trivial
    · rw [hok]
      refine ⟨reclaimed, g', p', starts', ⟨.ok () g', ?_, reclaimed, trivial, rfl⟩, hsteady, rfl, hm'⟩
      rw [Spec.write_of_some hg]


/-- A collection that keeps one more object. -/
theorem collectKeeping (hr : p.Shows r v) :
    Simulates p p.Steady (Machine.collectKeeping r) (Spec.collectKeeping v) := by
  intro m g starts hm hright
  have hrooted : g.Rooted := by
    by_contra hnot
    exact hright ⟨.wrong, ⟨.wrong, .inr ⟨hnot, rfl⟩, rfl⟩, rfl⟩
  cases hg : g.collected with
  | none =>
    refine absurd ⟨.wrong, ⟨.ok () g, .inl ⟨hrooted, rfl⟩, .wrong, ?_, rfl⟩, rfl⟩ hright
    rw [Spec.write_of_none hg]
  | some g' =>
    have hpinned : List.Forall₂ p.Shows (m.pinned.push r).toList (g.pinned ++ [v]) := by
      rw [Array.toList_push]
      exact List.rel_append hm.roots.pinned (.cons hr .nil)
    have hpin := hm.withPinned hpinned
    have hcollected : { g with pinned := g.pinned ++ [v] }.collected =
        some { g' with pinned := g.pinned ++ [v] } := by
      rw [Graph.collected_withPinned, hg]
      rfl
    have hmay : ∀ reclaimed, Spec.collectKeeping v g (.ok v g') := fun reclaimed =>
      ⟨.ok reclaimed g', ⟨.ok () g, .inl ⟨hrooted, rfl⟩, .ok () g', by rw [Spec.write_of_some hg],
        reclaimed, trivial, rfl⟩, rfl⟩
    unfold Machine.collectKeeping
    rw [Action.bind_of_ok (show Machine.pin r m = .ok () { m with pinned := m.pinned.push r } from rfl)]
    obtain ⟨limit, hfull⟩ | ⟨reclaimed, m', p', starts', hok, hsteady, hm'⟩ :=
      hpin.collectGarbage hrooted hcollected
    · rw [Action.bind_of_stopped hfull]
      exact .inl trivial
    · rw [Action.bind_of_ok hok]
      have hunpin := Spec.unpin_append (g := { g' with pinned := g.pinned ++ [v] }) rfl
      have hfits := unpin m' _ starts' hm' (by rw [hunpin]; simp)
      rw [hunpin] at hfits
      have hsame : g'.pinned = g.pinned := (congrArg Graph.pinned (Graph.of_collected hg) :)
      cases hunpinned : Machine.unpin m' with
      | ok a m'' =>
        rw [hunpinned] at hfits
        obtain ⟨b, g'', p'', starts'', heq, rfl, hab, hm''⟩ := hfits
        cases heq
        refine ⟨_, g', _, starts'', hmay reclaimed, hsteady, hab, ?_⟩
        rw [← hsame] at hm''
        exact hm''
      | failed e m'' =>
        rw [hunpinned] at hfits
        obtain ⟨g'', p'', starts'', heq, -⟩ := hfits
        cases heq
      | stopped cause =>
        rw [hunpinned] at hfits
        exact hfits.elim .inl fun heq => nomatch heq
      | unfinished =>
        rw [hunpinned] at hfits
        cases hfits

end Simulates


/-! ## Allocation -/

/-- Words that can be counted in bytes, twice over: `2 ^ 60`. -/
def countableWords : Nat := 1152921504606846976

/-- What an object may be made of. -/
structure Value.Makes (cls : Value) (format : Format) (fields : Nat) : Prop where
  small : cls.isSmallInteger = false
  character : cls.isCharacter = false
  allowed : fields = 0 ∨ format.allowsFields = true
  countable : fields ≤ Header.maxFields
  context : format = .context → 3 ≤ fields

/-- The graph with one more object. -/
def Graph.withNew (g : Graph) (o : Node) : Graph :=
  { g with nodes := Function.update g.nodes g.next o, next := g.next + 1 }

namespace Spec

/-- Counts words. There may be too many. -/
def count (words : Nat) : Spec Unit := fun g r =>
  r = .ok () g ∨ (countableWords ≤ g.capacity ∨ countableWords ≤ words) ∧ r = .stopped (.fault .overflow)

/-- Runs a collection or does nothing. -/
def mayCollect : Spec Unit := either (pure ()) do
  let _ ← collectGarbage

/-- Makes an object that memory can hold. Its identity may be anything. -/
def make (cls : Value) (format : Format) (fields len : Nat) : Spec Value := fun g r =>
  format.sizeInWords fields len ≤ Ref.addressLimit ∧
    ∃ hash, r = .ok (.object g.next) (g.withNew (.fresh cls g.nil format fields len hash))

/-- Makes an object or does nothing. -/
def tryMake (cls : Value) (format : Format) (fields len : Nat) : Spec (Option Value) :=
  either
    (do
      count (format.sizeInWords fields len)
      return some (← make cls format fields len))
    (pure none)

/-- Allocates an object, after collections. -/
def allocate (cls : Value) (format : Format) (fields len : Nat) : Spec Value := do
  guard fun _ => cls.Makes format fields
  count (format.sizeInWords fields len)
  mayCollect
  mayCollect
  count (format.sizeInWords fields len)
  make cls format fields len

end Spec

theorem Placement.Shows.isCharacter_eq {p : Placement} {r : Ref} {v : Value} (hr : p.Shows r v) :
    r.isCharacter = v.isCharacter := by
  cases v with
  | immediate r' =>
    obtain ⟨rfl, -⟩ := hr
    rfl
  | object n =>
    have hpointer := Ref.not_isImmediate_of_isPointer
      (show r.isPointer = true from hr.isPointer_eq)
    unfold Ref.isImmediate at hpointer
    exact (Bool.or_eq_false_iff.mp hpointer).2

theorem Value.Makes.not_isImmediate {cls : Value} {format : Format} {fields : Nat} {p : Placement}
    {r : Ref} (hmakes : cls.Makes format fields) (hr : p.Shows r cls) : r.isImmediate = false := by
  unfold Ref.isImmediate
  rw [hr.isSmallInteger_eq, hr.isCharacter_eq, hmakes.small, hmakes.character]
  rfl

/-- Only an object that is too large, or more memory than there is, cannot be counted. -/
theorem Heap.tryAllocate_overflow {h : Heap} {cls : Ref} {format : Format} {fields len : Nat}
    {e : Fatal} (hcls : cls.isImmediate = false)
    (hallowed : fields = 0 ∨ format.allowsFields = true) (hfields : fields ≤ Header.maxFields)
    (herror : h.tryAllocate cls format fields len = .error e) :
    e = .fault .overflow ∧
      (countableWords ≤ h.top ∨ countableWords ≤ format.sizeInWords fields len) := by
  have hoverflow : e = .fault .overflow := by
    obtain hoverflow | ⟨-, hmany⟩ := tryAllocate_error hcls hallowed herror
    · exact hoverflow
    · omega
  refine ⟨hoverflow, ?_⟩
  by_contra hnot
  push Not at hnot
  simp only [countableWords] at hnot
  have hsize : format.checkedSize fields len = .ok (format.sizeInWords fields len) :=
    checkedSize_eq (by simp only [Ref.addressLimit]; omega)
  have hlast : checkedCount (h.top + format.sizeInWords fields len) = .ok _ :=
    if_pos (by simp only [countLimit]; omega)
  unfold tryAllocate at herror
  rcases bind_eq_error.mp herror with hrefused | ⟨_, -, herror⟩
  · rw [hcls] at hrefused
    cases hrefused
  rcases bind_eq_error.mp herror with hrefused | ⟨_, -, herror⟩
  · rw [require, if_pos (by simpa using hallowed)] at hrefused
    cases hrefused
  rcases bind_eq_error.mp herror with hrefused | ⟨words, hwords, herror⟩
  · rw [hsize] at hrefused
    cases hrefused
  rw [hsize] at hwords
  cases hwords
  rcases bind_eq_error.mp herror with hrefused | ⟨last, -, herror⟩
  · rw [hlast] at hrefused
    cases hrefused
  generalize h.ensureCommitted last = grown at herror
  obtain ⟨committed, g⟩ := grown
  cases committed with
  | false => cases herror
  | true =>
    rcases bind_eq_error.mp herror with hheader | ⟨header, -, herror⟩
    · have := (make_error hheader).2
      omega
    · cases herror

theorem Format.checkedSize_overflow {format : Format} {fields len : Nat} {e : Fatal}
    (hsize : format.checkedSize fields len = .error e) :
    e = .fault .overflow ∧ countableWords ≤ format.sizeInWords fields len := by
  refine ⟨checkedSize_error hsize, ?_⟩
  by_contra hnot
  simp only [countableWords] at hnot
  rw [Heap.checkedSize_eq (by simp only [Ref.addressLimit]; omega)] at hsize
  cases hsize

theorem Heap.shouldCollect_error {h : Heap} {words : Nat} {e : Fatal}
    (herror : h.shouldCollect words = .error e) :
    e = .fault .overflow ∧ countLimit ≤ h.sinceCollection + words * wordBytes := by
  unfold shouldCollect at herror
  split at herror
  · cases herror
  · rcases bind_eq_error.mp herror with hbytes | ⟨bytes, hbytes, herror⟩
    · refine ⟨checkedCount_error hbytes, ?_⟩
      unfold checkedCount at hbytes
      split at hbytes
      · cases hbytes
      · omega
    · cases checkedCount_ok hbytes
      rcases bind_eq_error.mp herror with htotal | ⟨total, htotal, herror⟩
      · refine ⟨checkedCount_error htotal, ?_⟩
        unfold checkedCount at htotal
        split at htotal
        · cases htotal
        · omega
      · cases herror

theorem Heap.sinceCollection_tryAllocate {h h' : Heap} {cls r : Ref} {format : Format}
    {fields len : Nat} (hok : h.tryAllocate cls format fields len = .ok (some r, h')) :
    h'.sinceCollection = h.sinceCollection + format.sizeInWords fields len * wordBytes := by
  unfold tryAllocate at hok
  obtain ⟨-, -, hok⟩ := bind_eq_ok.mp hok
  obtain ⟨-, -, hok⟩ := bind_eq_ok.mp hok
  obtain ⟨words, hwords, hok⟩ := bind_eq_ok.mp hok
  obtain ⟨last, hlast, hok⟩ := bind_eq_ok.mp hok
  have hsize := checkedSize_ok hwords
  have htop := checkedCount_ok hlast
  subst hsize htop
  generalize hcommit : h.ensureCommitted (h.top + format.sizeInWords fields len) = grown at hok
  obtain ⟨committed, g⟩ := grown
  rcases ensureCommitted_cases hcommit with ⟨rfl, rfl⟩ | ⟨rfl, hrest, -⟩
  · cases hok
  · simp only [Bool.not_true, Bool.false_eq_true, if_false] at hok
    obtain ⟨header, -, hok⟩ := bind_eq_ok.mp hok
    cases hok
    rw [show g.sinceCollection = h.sinceCollection from (congrArg Heap.sinceCollection hrest :)]

namespace Machine.Realizes

variable {m : Machine} {g : Graph} {p : Placement} {starts : List Nat} {cls : Ref} {v : Value}
  {format : Format} {fields len : Nat}

theorem top_le (hm : m.Realizes g p starts) : m.heap.top ≤ g.capacity :=
  hm.depicts.laidOut.committed.trans hm.committed

/-- A machine with one more object. -/
theorem allocated {h : Heap} {r : Ref} (hm : m.Realizes g p starts) (hcls : p.Shows cls v)
    (hmakes : v.Makes format fields)
    (hok : m.heap.tryAllocate cls format fields len = .ok (some r, h)) :
    format.sizeInWords fields len ≤ Ref.addressLimit ∧
      ∃ hash p' starts', p.Steady p' ∧ p'.Shows r (.object g.next) ∧
      { m with heap := h }.Realizes (g.withNew (.fresh v g.nil format fields len hash)) p'
        starts' := by
  obtain ⟨hnone, -⟩ | ⟨hsome, ha⟩ := Heap.tryAllocate_cases hok
  · cases hnone
  cases hsome
  have hnew : p.find? g.next = none := by
    cases hfind : p.find? g.next with
    | none => rfl
    | some i => exact absurd (hm.bounded hfind) (Nat.lt_irrefl _)
  obtain ⟨p', hash, hother, hself, hshows, hdepicts⟩ :=
    hm.depicts.allocated ha hnew hmakes.context hcls hm.nil
  have hsteady : p.Steady p' := fun n _ i hi => by
    rw [hother n (by rintro rfl; rw [hnew] at hi; cases hi)]
    exact hi
  have hfound : ∀ {n i}, p.find? n = some i → p'.find? n = some i := fun {n i} hi => by
    rw [hother n (by rintro rfl; rw [hnew] at hi; cases hi)]
    exact hi
  have hkept : ∀ n, n < g.next →
      (g.withNew (.fresh v g.nil format fields len hash)).nodes n = g.nodes n := fun n hn =>
    Function.update_of_ne (by omega) ..
  have hidle : g.registers.active ≠ .object g.next := by
    intro hactive
    obtain ⟨i, hi, -⟩ := hactive ▸ hm.roots.registers.active
    rw [hnew] at hi
    cases hi
  have horigin : ∀ n, n ≤ g.next →
      originOf (g.withNew (.fresh v g.nil format fields len hash)).nodes n = originOf g.nodes n :=
    fun n hn => originOf_congr fun k hk => by rw [hkept k (by omega)]
  have hroots := hm.roots.imp hshows
  have hsize : format.sizeInWords fields len ≤ Ref.addressLimit := by
    have hcommitted := ha.committed
    have haddressable := hdepicts.laidOut.addressable
    have htop := ha.top
    omega
  refine ⟨hsize, hash, p', starts ++ [m.heap.top], hsteady, ⟨_, hself, rfl⟩, ?_⟩
  refine
    { depicts := ?_
      bounded := ?_
      first := ?_
      packed := ?_
      nil := by
        show p'.Shows h.nil g.nil
        rw [ha.nil]
        exact hshows _ _ hm.nil
      committed := ha.bounded.trans (Nat.max_le.mpr ⟨hm.committed, hm.reserved⟩)
      reserved := by
        show h.reservedWords ≤ g.capacity
        rw [ha.reservedWords]
        exact hm.reserved
      counted := by
        show h.sinceCollection ≤ h.top * wordBytes
        rw [Heap.sinceCollection_tryAllocate hok, ha.top, Nat.add_mul]
        exact Nat.add_le_add_right hm.counted _
      roots := ?_
      small := hm.small.imp hshows
      large := hm.large.imp hshows
      cache := ?_
      positions := ?_ }
  · have hsame : (g.withNew (.fresh v g.nil format fields len hash)).known = Function.update g.known
        g.next (Node.fresh v g.nil format fields len hash).live := by
      funext n
      unfold Graph.known
      rw [Function.update_apply]
      by_cases hn : n = g.next
      · rw [if_pos hn, hn]
        show (if g.registers.active = _ then _ else (Function.update g.nodes g.next _ g.next).live) = _
        rw [if_neg hidle, Function.update_self]
      · rw [if_neg hn]
        show (if g.registers.active = _ then max (Function.update g.nodes g.next _ n).live _
          else (Function.update g.nodes g.next _ n).live) = _
        rw [Function.update_of_ne hn]
        rfl
    rw [hsame]
    exact hdepicts
  · intro n i hi
    show n < g.next + 1
    by_cases hn : n = g.next
    · omega
    · rw [hother n hn] at hi
      exact Nat.lt_succ_of_lt (hm.bounded hi)
  · intro n hn hlt
    rw [horigin n (Nat.lt_succ_iff.mp hlt)]
    by_cases heq : n = g.next
    · rw [heq, hself, hm.packed (by omega)]
    · exact hfound (hm.first n hn (by have : n < g.next + 1 := hlt; omega))
  · intro hle
    have hle' : g.next + 1 ≤ kernelObjects := hle
    show h.top = originOf _ g.next + ((g.withNew _).nodes g.next).size
    rw [horigin g.next (Nat.le_refl _), ha.top, hm.packed (by omega)]
    unfold Graph.withNew
    dsimp only
    rw [Function.update_self, Node.size_fresh]
  · exact ⟨hroots.registers, hroots.core, hroots.symbols, hroots.globals, hroots.pinned⟩
  · intro entry hentry hmethod
    obtain ⟨c, s, method, hc, hs, hmethod', hmemo⟩ := hm.cache entry hentry hmethod
    exact ⟨c, s, method, hshows _ _ hc, hshows _ _ hs, hshows _ _ hmethod', hmemo⟩
  · intro c hc
    refine (hm.positions c hc).mono hfound (fun n i hi => ?_) rfl
    rw [hkept n (hm.bounded hi)]
    exact .refl _

end Machine.Realizes


/-! An allocation collects at most twice. -/

namespace Spec

variable {α : Type}

theorem mayCollect_skip (g : Graph) : mayCollect g (.ok () g) := .inl rfl

/-- What a collection may come to. -/
theorem collectKeeping_cases {g : Graph} {v : Value} {r : Result Value}
    (hr : collectKeeping v g r) :
    r = .wrong ∧ mayCollect g .wrong ∨ ∃ g', r = .ok v g' ∧ mayCollect g (.ok () g') := by
  obtain ⟨r₁, hcollect, hr⟩ := hr
  have hnext := hcollect
  obtain ⟨r₂, hguard, hr₁⟩ := hcollect
  obtain ⟨-, rfl⟩ | ⟨-, rfl⟩ := hguard
  · obtain ⟨r₃, hwrite, hr₁⟩ := hr₁
    cases hg : g.collected with
    | none =>
      rw [write_of_none hg] at hwrite
      subst hwrite
      cases hr₁
      cases hr
      exact .inl ⟨rfl, .inr ⟨_, hnext, rfl⟩⟩
    | some g' =>
      rw [write_of_some hg] at hwrite
      subst hwrite
      obtain ⟨reclaimed, -, rfl⟩ := hr₁
      cases hr
      exact .inr ⟨g', rfl, .inr ⟨_, hnext, rfl⟩⟩
  · cases hr₁
    cases hr
    exact .inl ⟨rfl, .inr ⟨_, hnext, rfl⟩⟩

end Spec

namespace Simulates

variable {p : Placement} {r : Ref} {v : Value} {format : Format} {fields len : Nat}

/-- A collection for the sake of a class, or nothing. -/
theorem mayCollect {crossed : Bool} (hr : p.Shows r v) :
    Simulates p p.Steady (if crossed then Machine.collectKeeping r else Pure.pure r)
      (Spec.mayCollect >>= fun _ => Pure.pure v) := by
  intro m g starts hm hright
  cases crossed with
  | false => exact ⟨v, g, p, starts, ⟨_, Spec.mayCollect_skip g, rfl⟩, .refl p, hr, hm⟩
  | true =>
    have hfits := collectKeeping hr m g starts hm fun hwrong => by
      obtain ⟨-, hwrong⟩ | ⟨g', heq, -⟩ := Spec.collectKeeping_cases hwrong
      · exact hright ⟨_, hwrong, rfl⟩
      · cases heq
    show (Machine.collectKeeping r m).Fits _ _ _
    unfold Outcome.Fits at hfits ⊢
    cases hx : Machine.collectKeeping r m with
    | ok a m' =>
      rw [hx] at hfits
      obtain ⟨b, g', p', starts', hcases, hrest⟩ := hfits
      obtain ⟨heq, -⟩ | ⟨g'', heq, hmay⟩ := Spec.collectKeeping_cases hcases
      · cases heq
      · cases heq
        exact ⟨v, g', p', starts', ⟨_, hmay, rfl⟩, hrest⟩
    | failed e m' =>
      rw [hx] at hfits
      obtain ⟨g', p', starts', hcases, -⟩ := hfits
      obtain ⟨heq, -⟩ | ⟨g'', heq, -⟩ := Spec.collectKeeping_cases hcases <;> cases heq
    | stopped cause =>
      rw [hx] at hfits
      refine hfits.imp_right fun hcases => ?_
      obtain ⟨heq, -⟩ | ⟨g'', heq, -⟩ := Spec.collectKeeping_cases hcases <;> cases heq
    | unfinished =>
      rw [hx] at hfits
      obtain ⟨heq, -⟩ | ⟨g'', heq, -⟩ := Spec.collectKeeping_cases hfits <;> cases heq


/-- Whether the threshold is crossed does not show. -/
instance : Depicted Bool Unit := ⟨fun _ _ _ => True⟩

/-- The size of an object is counted, and what was allocated since the last collection. -/
theorem count :
    Simulates p (· = p) (do
      let words ← format.checkedSize fields len
      Action.read (·.shouldCollect words)) (Spec.count (format.sizeInWords fields len)) := by
  intro m g starts hm _
  show (Action.bind (Action.ofExcept (format.checkedSize fields len)) _ m).Fits _ _ _
  unfold Action.bind Action.ofExcept
  cases hsize : format.checkedSize fields len with
  | error e =>
    obtain ⟨rfl, hlarge⟩ := Format.checkedSize_overflow hsize
    exact .inr (.inr ⟨.inr hlarge, rfl⟩)
  | ok words =>
    cases checkedSize_ok hsize
    show (Action.read (·.shouldCollect (format.sizeInWords fields len)) m).Fits _ _ _
    cases hcrossed : m.heap.shouldCollect (format.sizeInWords fields len) with
    | ok crossed =>
      rw [Action.read_of_ok hcrossed]
      exact ⟨(), g, p, starts, .inl rfl, rfl, trivial, hm⟩
    | error e =>
      rw [Action.read_of_error hcrossed]
      obtain ⟨rfl, hmany⟩ := Heap.shouldCollect_error hcrossed
      refine .inr (.inr ⟨?_, rfl⟩)
      have hcounted := hm.counted
      have htop := hm.top_le
      simp only [countableWords, countLimit, wordBytes] at *
      omega


/-- Memory has room for an object, or has none and is left as it is. -/
theorem bind_tryMake {α β : Type} [Depicted α β] {f : Option Ref → Action α}
    {h : Option Value → Spec β} (hr : p.Shows r v) (hmakes : v.Makes format fields)
    (hsome : ∀ p', p.Steady p' → ∀ r' v', p'.Shows r' v' →
      Simulates p' p'.Steady (f (some r')) (h (some v')))
    (hnone : Simulates p p.Steady (f none) (h none)) :
    Simulates p p.Steady (Action.onHeap (·.tryAllocate r format fields len) >>= f)
      (Spec.tryMake v format fields len >>= h) := by
  intro m g starts hm hright
  have hform : ∀ {x}, m.heap.tryAllocate r format fields len = .ok x →
      Action.onHeap (·.tryAllocate r format fields len) m = .ok x.1 { m with heap := x.2 } :=
    fun {x} hx => Action.onHeap_eq_ok.mpr ⟨x.2, hx, rfl⟩
  cases htry : m.heap.tryAllocate r format fields len with
  | error e =>
    obtain ⟨rfl, hlarge⟩ := Heap.tryAllocate_overflow (hmakes.not_isImmediate hr) hmakes.allowed
      hmakes.countable htry
    rw [Action.bind_of_stopped (Action.onHeap_of_error htry)]
    refine .inr ⟨_, .inl ⟨_, .inr ⟨?_, rfl⟩, rfl⟩, rfl⟩
    exact hlarge.imp_left fun h => h.trans hm.top_le
  | ok x =>
    obtain ⟨found, heap⟩ := x
    rw [Action.bind_of_ok (hform htry)]
    cases found with
    | none =>
      obtain ⟨-, rfl⟩ | ⟨hsome, -⟩ := Heap.tryAllocate_cases htry
      · have hmay : Spec.tryMake v format fields len g (.ok none g) := .inr rfl
        exact (hnone m g starts hm fun hwrong => hright ⟨_, hmay, hwrong⟩).mono
          (fun _ hr => ⟨_, hmay, hr⟩) (.refl p) fun _ hp => hp
      · cases hsome
    | some r' =>
      obtain ⟨hsize, hash, p', starts', hsteady, hr', hm'⟩ := hm.allocated hr hmakes htry
      have hmay : Spec.tryMake v format fields len g (.ok (some (.object g.next))
          (g.withNew (.fresh v g.nil format fields len hash))) :=
        .inl ⟨_, .inl rfl, _, ⟨hsize, hash, rfl⟩, rfl⟩
      exact (hsome p' hsteady r' _ hr' _ _ starts' hm' fun hwrong => hright ⟨_, hmay, hwrong⟩).mono
        (fun _ hr => ⟨_, hmay, hr⟩) hsteady fun _ hp => hsteady.trans hp

/-- What is asked for cannot be had even after a collection. -/
theorem exhausted :
    Simulates p p.Steady (Action.read fun h =>
        .error (h.reservationExhausted (format.sizeInWords fields len)) : Action Ref)
      (Spec.count (format.sizeInWords fields len) >>= fun _ => (Spec.never : Spec Value)) := by
  intro m g starts hm _
  rw [Action.read_of_error rfl]
  unfold Heap.reservationExhausted
  split
  · exact .inl trivial
  · rename_i hmany
    refine .inr ⟨_, .inr ⟨.inr ?_, rfl⟩, rfl⟩
    simp only [countableWords, countLimit, wordBytes] at *
    omega

/-- An allocation, with its steps named. -/
theorem allocate_eq (r : Ref) (format : Format) (fields len : Nat) :
    Machine.allocate r format fields len =
      ((do
        let words ← format.checkedSize fields len
        Action.read (·.shouldCollect words)) >>= fun crossed =>
      (if crossed then Machine.collectKeeping r else Pure.pure r) >>= fun cls =>
      Action.onHeap (·.tryAllocate cls format fields len) >>= fun
        | some r => Pure.pure r
        | none => Machine.collectKeeping cls >>= fun cls =>
          Action.onHeap (·.tryAllocate cls format fields len) >>= fun
            | some r => Pure.pure r
            | none =>
              Action.read fun h => .error (h.reservationExhausted (format.sizeInWords fields len))) := by
  funext m
  unfold Machine.allocate
  cases hsize : format.checkedSize fields len with
  | error e => rfl
  | ok words =>
    cases checkedSize_ok hsize
    show (Action.read (·.shouldCollect (format.sizeInWords fields len)) >>= _) m =
      (Action.read (·.shouldCollect (format.sizeInWords fields len)) >>= _) m
    cases hread : Action.read (·.shouldCollect (format.sizeInWords fields len)) m with
    | ok crossed m' =>
      rw [Action.bind_of_ok hread, Action.bind_of_ok hread]
      cases crossed <;> rfl
    | failed e m' =>
      show Action.bind _ _ m = Action.bind _ _ m
      unfold Action.bind
      rw [hread]
    | stopped cause => rw [Action.bind_of_stopped hread, Action.bind_of_stopped hread]
    | unfinished =>
      show Action.bind _ _ m = Action.bind _ _ m
      unfold Action.bind
      rw [hread]

/-- The second attempt. -/
theorem makeLast (hr : p.Shows r v) (hmakes : v.Makes format fields) :
    Simulates p p.Steady (Machine.collectKeeping r >>= fun cls =>
        Action.onHeap (·.tryAllocate cls format fields len) >>= fun
          | some r => Pure.pure r
          | none =>
            Action.read fun h => .error (h.reservationExhausted (format.sizeInWords fields len)))
      (Spec.mayCollect >>= fun _ => Spec.count (format.sizeInWords fields len) >>= fun _ =>
        Spec.make v format fields len) := by
  refine widen ((collectKeeping hr).bind_of (P := (· = v)) (h := fun v =>
    Spec.tryMake v format fields len >>= fun
      | some v => Pure.pure v
      | none => Spec.count (format.sizeInWords fields len) >>= fun _ => Spec.never)
    (fun _ hp => hp) ?_ ?_) ?_
  · intro g b g' hb
    obtain ⟨heq, -⟩ | ⟨g'', heq, -⟩ := Spec.collectKeeping_cases hb <;> cases heq
    rfl
  · rintro p₁ hp₁ r₁ v₁ hr₁ rfl
    exact after hp₁ (bind_tryMake hr₁ hmakes (fun p₂ _ r' v' hr' => pure hr' (.refl p₂)) exhausted)
  · rintro g r ⟨r₁, hcollect, hr₁⟩
    obtain ⟨rfl, hwrong⟩ | ⟨g', rfl, hmay⟩ := Spec.collectKeeping_cases hcollect
    · exact ⟨_, hwrong, hr₁⟩
    · refine ⟨_, hmay, ?_⟩
      obtain ⟨r₂, ⟨r₃, hcount, hmake⟩ | rfl, hr₂⟩ := hr₁
      · refine ⟨r₃, hcount, ?_⟩
        obtain rfl | ⟨-, rfl⟩ := hcount
        · obtain ⟨r₄, ⟨hsize, hash, rfl⟩, rfl⟩ := hmake
          cases hr₂
          exact ⟨hsize, hash, rfl⟩
        · cases hmake
          exact hr₂
      · obtain ⟨r₃, hcount, hnever⟩ := hr₂
        refine ⟨r₃, hcount, ?_⟩
        obtain rfl | ⟨-, rfl⟩ := hcount
        · exact absurd hnever id
        · exact hnever

theorem allocate (hr : p.Shows r v) :
    Simulates p p.Steady (Machine.allocate r format fields len)
      (Spec.allocate v format fields len) := by
  rw [allocate_eq]
  refine require fun hmakes => ?_
  refine (count (p := p)).bind_still fun crossed _ _ => ?_
  have hmay : Simulates p p.Steady (if crossed then Machine.collectKeeping r else Pure.pure r)
      (Spec.mayCollect >>= fun _ => Pure.pure v) := mayCollect hr
  refine widen (hmay.bind_of (P := (· = v)) (h := fun v =>
    Spec.tryMake v format fields len >>= fun
      | some v => Pure.pure v
      | none => Spec.mayCollect >>= fun _ => Spec.count (format.sizeInWords fields len) >>= fun _ =>
        Spec.make v format fields len) (fun _ hp => hp) ?_ ?_) ?_
  · rintro g b g' ⟨r₁, -, hb⟩
    cases r₁ <;> cases hb
    rfl
  · rintro p₁ hp₁ r₁ v₁ hr₁ rfl
    exact after hp₁ (bind_tryMake hr₁ hmakes (fun p₂ _ r' v' hr' => pure hr' (.refl p₂))
      (makeLast hr₁ hmakes))
  · rintro g r ⟨r₁, ⟨r₂, hmay, hr₂⟩, hr₁⟩
    refine ⟨r₂, hmay, ?_⟩
    cases r₂ with
    | ok u g' =>
      cases hr₂
      obtain ⟨r₃, ⟨r₄, hcount, hmake⟩ | rfl, hr₃⟩ := hr₁
      · refine ⟨_, Spec.mayCollect_skip g', r₄, hcount, ?_⟩
        obtain rfl | ⟨-, rfl⟩ := hcount
        · obtain ⟨r₅, ⟨hsize, hash, rfl⟩, rfl⟩ := hmake
          cases hr₃
          exact ⟨hsize, hash, rfl⟩
        · cases hmake
          exact hr₃
      · exact hr₃
    | failed e g' => cases hr₂; exact hr₁
    | stopped cause => cases hr₂; exact hr₁
    | unfinished => cases hr₂; exact hr₁
    | wrong => cases hr₂; exact hr₁

end Simulates


/-! ## Instances -/

/-- The shape of the instances of a class, if it has one. -/
def Graph.instanceSpec? (g : Graph) (cls : Value) : Option (Option InstanceSpec) :=
  (g.field cls Class.specField).map fun v => v.bits?.bind InstanceSpec.ofRef?

/-- Makes an instance of a class, or does nothing. -/
def Spec.instantiate (cls : Value) (len : Nat) : Spec (Option Value) :=
  if cls.isObject then do
    if (← read (·.fixedFields cls)) < Class.fieldCount then pure none
    else match ← read (·.instanceSpec? cls) with
      | none => pure none
      | some spec =>
        if !spec.format.isIndexable && len != 0 then pure none
        else do
          count (spec.format.sizeInWords spec.fields len)
          mayCollect
          either (do return some (← allocate cls spec.format spec.fields len)) (pure none)
  else pure none

theorem Reads.instanceSpec? {p : Placement} {r : Ref} {v : Value} (hr : p.Shows r v) :
    Reads p (fun m => Class.instanceSpec? m.heap r) (·.instanceSpec? v) := by
  refine (Reads.field hr Class.specField).map fun s w hs => ?_
  cases w with
  | immediate r' =>
    obtain ⟨rfl, -⟩ := hs
    show Option.Rel _ (InstanceSpec.ofRef? _) (InstanceSpec.ofRef? _)
    cases InstanceSpec.ofRef? s with
    | none => exact .none
    | some spec => exact .some rfl
  | object n =>
    have hnone : InstanceSpec.ofRef? s = none := if_neg (by
      rw [hs.isSmallInteger_eq]
      exact Bool.false_ne_true)
    rw [hnone]
    exact .none

namespace Simulates

variable {p : Placement} {r : Ref} {v : Value} {format : Format} {fields len : Nat}

instance : Depicted Nat Unit := ⟨fun _ _ _ => True⟩

theorem checkedSize :
    Simulates p (· = p) (liftM (format.checkedSize fields len) : Action Nat)
      (Spec.count (format.sizeInWords fields len)) := by
  intro m g starts hm _
  show (Action.ofExcept (format.checkedSize fields len) m).Fits _ _ _
  unfold Action.ofExcept
  cases hsize : format.checkedSize fields len with
  | error e =>
    obtain ⟨rfl, hlarge⟩ := Format.checkedSize_overflow hsize
    exact .inr (.inr ⟨.inr hlarge, rfl⟩)
  | ok words => exact ⟨(), g, p, starts, .inl rfl, rfl, trivial, hm⟩

/-- Whether there is room does not show. -/
theorem hasRoomFor (words : Nat) :
    Simulates p (· = p) (Action.read fun h => .ok (h.hasRoomFor words))
      (Pure.pure () : Spec Unit) := by
  intro m g starts hm _
  exact ⟨(), g, p, starts, rfl, rfl, trivial, hm⟩

theorem instantiate (hr : p.Shows r v) :
    Simulates p p.Steady (Machine.instantiate r len) (Spec.instantiate v len) := by
  unfold Machine.instantiate Spec.instantiate
  rw [hr.isPointer_eq]
  cases hobject : v.isObject with
  | false => exact pure .none (.refl p)
  | true =>
    refine (read (Reads.fixedFields hr)).bind_still fun fields _ hfields => ?_
    cases hfields
    split
    · exact pure .none (.refl p)
    refine (read (Reads.instanceSpec? hr)).bind_still fun spec spec' hspec => ?_
    cases hspec with
    | none => exact pure .none (.refl p)
    | @some spec _ hsame =>
      cases hsame
      dsimp only
      split
      · exact pure .none (.refl p)
      refine checkedSize.bind_still fun words _ _ => ?_
      rw [← Spec.pure_bind () fun _ => Spec.mayCollect >>= _]
      refine (hasRoomFor words).bind_still fun room _ _ => ?_
      cases room with
      | true =>
        refine widen ((allocate hr).bind_steady fun p' _ a b hab => pure (.some hab) (.refl p')) ?_
        exact fun g r hr => ⟨_, Spec.mayCollect_skip g, .inl hr⟩
      | false =>
        refine widen ((collectKeeping hr).bind_of (P := (· = v)) (h := fun v =>
          Spec.either (Spec.allocate v spec.format spec.fields len >>= fun v => Pure.pure (some v))
            (Pure.pure none)) (fun _ hp => hp) ?_ ?_) ?_
        · intro g b g' hb
          obtain ⟨heq, -⟩ | ⟨g'', heq, -⟩ := Spec.collectKeeping_cases hb <;> cases heq
          rfl
        · rintro p₁ hp₁ r₁ v₁ hr₁ rfl
          refine after hp₁ ?_
          rw [← Spec.pure_bind () fun _ => Spec.either _ _]
          refine (hasRoomFor words).bind_still fun room _ _ => ?_
          cases room with
          | true =>
            refine widen ((allocate hr₁).bind_steady fun p' _ a b hab => pure (.some hab) (.refl p')) ?_
            exact fun g r hr => .inl hr
          | false =>
            refine widen (y := Pure.pure none) (pure .none (.refl p₁)) ?_
            exact fun g r hr => .inr hr
        · rintro g r ⟨r₁, hcollect, hr₁⟩
          obtain ⟨rfl, hwrong⟩ | ⟨g', rfl, hmay⟩ := Spec.collectKeeping_cases hcollect
          · exact ⟨_, hwrong, hr₁⟩
          · exact ⟨_, hmay, hr₁⟩

end Simulates

end ObjectMachine
