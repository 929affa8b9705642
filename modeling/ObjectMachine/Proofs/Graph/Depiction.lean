import ObjectMachine.Proofs.Interface.LargeValues
import ObjectMachine.Proofs.Interface.Shapes

/-!
# Objects by name

A collection moves objects, so a reference says little about an object at another time. Here objects
have names that never change, and a value is a name or immediate. What memory holds is depicted by
nodes, one for each name, and by the places where the objects with these names are; an object that a
collection did not keep has no place. A collection changes the places and not the nodes, and a store
changes one node.

## Main results

* `Heap.Depicts.updated`: a store changes one node.
* `Heap.Depicts.allocated`: an allocation adds a node.
* `Heap.Depicts.collected`: after a collection the same nodes are depicted at other places, and the
  objects that come first in memory stay where they are as long as all of them are kept.
-/

namespace ObjectMachine

/-! ## Values -/

/-- What a reference stands for, wherever objects are. -/
inductive Value where
  | immediate (r : Ref)
  | object (name : Nat)
  deriving DecidableEq, Inhabited

/-- Where the objects with names are, as far as they are in memory. -/
structure Placement where
  find? : Nat → Option Nat
  injective : ∀ {n n' i : Nat}, find? n = some i → find? n' = some i → n = n'
  valid : ∀ {n i : Nat}, find? n = some i → 0 < i ∧ i < Ref.addressLimit

namespace Placement

/-- Nothing is in memory. -/
def empty : Placement where
  find? _ := none
  injective h := nomatch h
  valid h := nomatch h

/-- A reference stands for a value: it is immediate, or it leads to where the object is. -/
def Shows (p : Placement) (r : Ref) : Value → Prop
  | .immediate r' => r = r' ∧ r.isPointer = false
  | .object n => ∃ i, p.find? n = some i ∧ r = .ofWordIndex i

variable {p p' : Placement} {r r' : Ref} {v v' : Value} {n i : Nat}

theorem shows_object (hn : p.find? n = some i) : p.Shows (.ofWordIndex i) (.object n) :=
  ⟨i, hn, rfl⟩

theorem shows_immediate (hr : r.isPointer = false) : p.Shows r (.immediate r) :=
  ⟨rfl, hr⟩

@[simp] theorem shows_null (p : Placement) : p.Shows .null (.immediate .null) :=
  shows_immediate Ref.isPointer_null

theorem isPointer_place (hn : p.find? n = some i) : (Ref.ofWordIndex i).isPointer = true :=
  Ref.isPointer_ofWordIndex (p.valid hn).1 (p.valid hn).2

theorem wordIndex_place (hn : p.find? n = some i) : (Ref.ofWordIndex i).wordIndex = i :=
  Ref.wordIndex_ofWordIndex (p.valid hn).2

/-- Names are told apart by their references. -/
theorem Shows.value_eq (hr : p.Shows r v) (hr' : p.Shows r v') : v = v' := by
  cases v with
  | immediate a =>
    obtain ⟨rfl, ha⟩ := hr
    cases v' with
    | immediate b => rw [hr'.1]
    | object m =>
      obtain ⟨j, hj, rfl⟩ := hr'
      rw [isPointer_place hj] at ha
      cases ha
  | object n =>
    obtain ⟨i, hi, rfl⟩ := hr
    cases v' with
    | immediate b =>
      have hb := hr'.2
      rw [isPointer_place hi] at hb
      cases hb
    | object m =>
      obtain ⟨j, hj, heq⟩ := hr'
      rw [Ref.ofWordIndex_inj (p.valid hi).2 (p.valid hj).2 heq] at hi
      rw [p.injective hi hj]

theorem Shows.ref_eq (hr : p.Shows r v) (hr' : p.Shows r' v) : r = r' := by
  cases v with
  | immediate a => rw [hr.1, hr'.1]
  | object n =>
    obtain ⟨i, hi, rfl⟩ := hr
    obtain ⟨j, hj, rfl⟩ := hr'
    rw [hi] at hj
    cases hj
    rfl

/-- Two references are the same exactly if they stand for the same value. -/
theorem Shows.eq_iff (hr : p.Shows r v) (hr' : p.Shows r' v') : r = r' ↔ v = v' := by
  constructor
  · rintro rfl
    exact hr.value_eq hr'
  · rintro rfl
    exact hr.ref_eq hr'

end Placement

namespace Value

/-- Whether a value is an object. -/
def isObject : Value → Bool
  | .immediate _ => false
  | .object _ => true

/-- The word of a value that is immediate. -/
def bits? : Value → Option Ref
  | .immediate r => some r
  | .object _ => none

def isSmallInteger : Value → Bool
  | .immediate r => r.isSmallInteger
  | .object _ => false

def isCharacter : Value → Bool
  | .immediate r => r.isCharacter
  | .object _ => false

/-- The small integer of a value. -/
def small? : Value → Option Int
  | .immediate r => if r.isSmallInteger then some r.toInt else none
  | .object _ => none

@[simp] theorem isObject_object (n : Nat) : (object n).isObject = true := rfl
@[simp] theorem isObject_immediate (r : Ref) : (immediate r).isObject = false := rfl

end Value

namespace Placement.Shows

variable {p : Placement} {r : Ref} {v : Value}

theorem isPointer_eq (hr : p.Shows r v) : r.isPointer = v.isObject := by
  cases v with
  | immediate a => exact hr.2
  | object n =>
    obtain ⟨i, hi, rfl⟩ := hr
    exact isPointer_place hi

theorem isSmallInteger_eq (hr : p.Shows r v) : r.isSmallInteger = v.isSmallInteger := by
  cases v with
  | immediate a =>
    rw [hr.1]
    rfl
  | object n => exact Ref.not_isSmallInteger_of_isPointer hr.isPointer_eq

/-- A pointer stands for an object. -/
theorem object_of_isPointer (hr : p.Shows r v) (hp : r.isPointer = true) :
    ∃ n i, v = .object n ∧ p.find? n = some i ∧ r = .ofWordIndex i := by
  cases v with
  | immediate a =>
    rw [hr.2] at hp
    cases hp
  | object n =>
    obtain ⟨i, hi, heq⟩ := hr
    exact ⟨n, i, rfl, hi, heq⟩

end Placement.Shows

/-! ## Nodes -/

/-- An object without its place. -/
structure Node where
  format : Format
  /-- The number of fixed fields. -/
  fields : Nat
  /-- The number of elements. -/
  len : Nat
  /-- The identity hash. -/
  hash : Nat
  captured : Bool
  cls : Value
  field : Nat → Value
  /-- The elements that are references. -/
  element : Nat → Value
  /-- The words of elements that are no references. -/
  raw : Nat → UInt64
  /-- The value of a large integer. -/
  large? : Option Int
  deriving Inhabited

namespace Node

/-- The number of words. -/
def size (o : Node) : Nat := o.format.sizeInWords o.fields o.len

/-- Where the words that are no references begin. -/
def rawAt (o : Node) : Nat :=
  if o.format = .float then headerWords else headerWords + o.fields + 1

/-- The elements that a collection follows: all of them, or those below the stack pointer of a
context. -/
def live (o : Node) : Nat :=
  match o.format with
  | .context => match o.field contextStackPointer with
    | .immediate r => if r.isSmallInteger then min r.toInt.toNat o.len else 0
    | .object _ => 0
  | _ => o.len

/-- A fresh object. -/
def fresh (cls nil : Value) (format : Format) (fields len hash : Nat) : Node where
  format := format
  fields := fields
  len := if format.isIndexable then len else 0
  hash := hash
  captured := false
  cls := cls
  field _ := nil
  element _ := nil
  raw _ := 0
  large? := none

/-- An object of another class. -/
def withClass (o : Node) (cls : Value) : Node := { o with cls }

/-- An object with another value in a field. -/
def withField (o : Node) (index : Nat) (v : Value) : Node :=
  { o with field := Function.update o.field index v }

/-- An object with another value as an element. -/
def withElement (o : Node) (index : Nat) (v : Value) : Node :=
  { o with element := Function.update o.element index v }

/-- An object with another word. -/
def withRaw (o : Node) (index : Nat) (word : UInt64) : Node :=
  { o with raw := Function.update o.raw index word }

/-- An object of the same layout. -/
structure SameLayout (o o' : Node) : Prop where
  format : o'.format = o.format
  fields : o'.fields = o.fields
  len : o'.len = o.len

theorem SameLayout.refl (o : Node) : SameLayout o o := ⟨rfl, rfl, rfl⟩

theorem SameLayout.size_eq {o o' : Node} (h : SameLayout o o') : o'.size = o.size := by
  unfold size
  rw [h.format, h.fields, h.len]

/-- What memory shows at a position is an object, of which a number of elements are known. -/
structure ShownAt (o : Node) (known : Nat) (h : Heap) (p : Placement) (i : Nat) : Prop where
  format : (h.view i).format = o.format
  fields : (h.view i).fields = o.fields
  len : (h.view i).len = o.len
  hash : (h.view i).header.identityHash = o.hash
  captured : (h.view i).header.isCaptured = o.captured
  cls : p.Shows ((h.view i).ref 1) o.cls
  field : ∀ k < o.fields, p.Shows ((h.view i).ref (headerWords + k)) (o.field k)
  live_le : o.live ≤ known
  le_len : known ≤ o.len
  element : o.format.hasReferenceTail = true →
    ∀ k < known, p.Shows ((h.view i).ref (headerWords + o.fields + 1 + k)) (o.element k)
  raw : o.format.allowsFields = false → o.format ≠ .largeInteger →
    ∀ k, o.rawAt + k < o.size → h.view i (o.rawAt + k) = o.raw k
  large : h.largeValue? i = o.large?

namespace ShownAt

variable {o : Node} {known : Nat} {h h' : Heap} {p p' : Placement} {i k : Nat}

theorem size_eq (hs : o.ShownAt known h p i) : (h.view i).size = o.size := by
  unfold View.size size
  rw [hs.format, hs.fields, hs.len]

theorem elements_eq (hs : o.ShownAt known h p i) :
    (h.view i).elements = headerWords + o.fields + 1 := by
  unfold View.elements
  rw [hs.fields]

/-- Objects that are shown have the live elements that their nodes have. -/
theorem live_eq (hs : o.ShownAt known h p i) (hr : (h.view i).Readable) :
    (h.view i).live = o.live := by
  unfold View.live Node.live
  rw [hs.format, hs.len]
  cases hformat : o.format <;> try rfl
  have hthree : contextStackPointer < o.fields :=
    hs.fields ▸ hr.context (hs.format.trans hformat)
  have hsp := hs.field contextStackPointer hthree
  have heq : (h.view i).stackPointer = (h.view i).ref (headerWords + contextStackPointer) := rfl
  dsimp only
  rw [heq]
  cases hfield : o.field contextStackPointer with
  | immediate r =>
    rw [hfield] at hsp
    rw [hsp.1]
  | object m =>
    rw [hfield] at hsp
    rw [Ref.not_isSmallInteger_of_isPointer hsp.isPointer_eq]
    rfl

/-- What a collection follows in an object stands for a value. -/
theorem shows_of_isTraced (hs : o.ShownAt known h p i) (hr : (h.view i).Readable)
    (hk : (h.view i).IsTraced k) : ∃ v, p.Shows ((h.view i).ref k) v := by
  obtain rfl | ⟨-, hlo, hhi⟩ | ⟨htail, hlo, hhi⟩ := hk
  · exact ⟨_, hs.cls⟩
  · have hfield := hs.field (k - headerWords) (by rw [hs.fields] at hhi; omega)
    rw [Nat.add_sub_cancel' hlo] at hfield
    exact ⟨_, hfield⟩
  · rw [hs.elements_eq] at hlo hhi
    rw [hs.live_eq hr] at hhi
    have helement := hs.element (hs.format ▸ htail) (k - (headerWords + o.fields + 1))
      (by have := hs.live_le; omega)
    rw [Nat.add_sub_cancel' hlo] at helement
    exact ⟨_, helement⟩

/-- An object is shown as long as its words and its value stay the same, and references stand for
the same values. -/
theorem congr (hs : o.ShownAt known h p i)
    (hwords : ∀ k < (h.view i).size, h'.view i k = h.view i k)
    (hheader : (h'.view i).header = (h.view i).header) (hagrees : View.Agrees (h.view i) (h'.view i))
    (hallowed : (h.view i).fields = 0 ∨ (h.view i).format.allowsFields = true)
    (hlarge : h'.largeValue? i = h.largeValue? i)
    (hshows : ∀ r v, p.Shows r v → p'.Shows r v) : o.ShownAt known h' p' i := by
  have href : ∀ k < (h.view i).size, (h'.view i).ref k = (h.view i).ref k := fun k hk =>
    congrArg Ref.mk (hwords k hk)
  have hsize := hs.size_eq
  refine
    { format := hagrees.format_eq.trans hs.format
      fields := hagrees.fields_eq.trans hs.fields
      len := hagrees.len_eq.trans hs.len
      hash := by rw [hheader]; exact hs.hash
      captured := by rw [hheader]; exact hs.captured
      cls := ?_
      field := ?_
      live_le := hs.live_le
      le_len := hs.le_len
      element := ?_
      raw := ?_
      large := hlarge.trans hs.large }
  · rw [href 1 (by have := (h.view i).two_le_size; omega)]
    exact hshows _ _ hs.cls
  · intro k hk
    have hformat : (h.view i).format.allowsFields = true := by
      obtain hzero | hformat := hallowed
      · rw [hs.fields] at hzero
        omega
      · exact hformat
    rw [href _ (View.fields_lt_size hformat (by rw [hs.fields]; omega))]
    exact hshows _ _ (hs.field k hk)
  · intro htail k hk
    have hin := View.elements_lt_size (o := h.view i) (k := headerWords + o.fields + 1 + k)
      (by rw [hs.format]; exact htail)
      (by rw [hs.elements_eq, hs.len]; have := hs.le_len; omega)
    rw [href _ hin]
    exact hshows _ _ (hs.element htail k hk)
  · intro hraw hnot k hk
    rw [hwords _ (by rw [hsize]; exact hk)]
    exact hs.raw hraw hnot k hk

end ShownAt

end Node

/-! ## Memory -/

/-- Memory in which each object with a place is what its node says, as far as its elements are
known. -/
structure Heap.Depicts (h : Heap) (starts : List Nat) (p : Placement) (nodes : Nat → Node)
    (known : Nat → Nat) : Prop where
  wellFormed : h.WellFormed starts
  reserved : h.reservedWords ≤ Ref.addressLimit
  /-- Fields are where the format allows them. -/
  allowed : ∀ i ∈ starts, (h.view i).fields = 0 ∨ (h.view i).format.allowsFields = true
  table : h.TableOwned starts
  placed : ∀ {n i}, p.find? n = some i → i ∈ starts
  shows : ∀ {n i}, p.find? n = some i → (nodes n).ShownAt (known n) h p i

namespace Heap.Depicts

variable {h h' : Heap} {starts : List Nat} {p : Placement} {nodes : Nat → Node}
  {known known' : Nat → Nat} {n i k : Nat} {r : Ref} {v : Value}

theorem laidOut (hd : h.Depicts starts p nodes known) : h.LaidOut starts := hd.wellFormed.toLaidOut

/-- What stands for a value leads to an object if it is a pointer. -/
theorem known_of_shows (hd : h.Depicts starts p nodes known) (hr : p.Shows r v) :
    Known starts r := by
  intro hp
  obtain ⟨n, i, -, hn, rfl⟩ := hr.object_of_isPointer hp
  exact ⟨i, hd.placed hn, rfl⟩

theorem allowsFields (hd : h.Depicts starts p nodes known) (hn : p.find? n = some i)
    (hk : k < (nodes n).fields) : (nodes n).format.allowsFields = true := by
  have hs := hd.shows hn
  obtain hzero | hformat := hd.allowed i (hd.placed hn)
  · rw [hs.fields] at hzero
    omega
  · rw [← hs.format]
    exact hformat

/-- A node that no object is for does not matter, and fewer elements may be known. -/
theorem withKnown (hd : h.Depicts starts p nodes known)
    (hlive : ∀ n i, p.find? n = some i → (nodes n).live ≤ known' n)
    (hle : ∀ n i, p.find? n = some i → known' n ≤ known n) : h.Depicts starts p nodes known' :=
  { hd with
    shows := fun {n i} hn =>
      let hs := hd.shows hn
      { hs with
        live_le := hlive n i hn
        le_len := (hle n i hn).trans hs.le_len
        element := fun htail k hk => hs.element htail k (hk.trans_le (hle n i hn)) } }

/-! ### Stores -/

/-- A store to an object changes its node. -/
theorem updated {o : Node} (hd : h.Depicts starts p nodes known) (hn : p.find? n = some i)
    (ht : Touches i h h') (hunmarked : (h'.view i).header.isMarked = false)
    (hshown : o.ShownAt (known' n) h' p i) (howned : h'.SlotsOwned starts)
    (htable : h'.TableOwned starts)
    (hlarge : ∀ j ∈ starts, j ≠ i → h'.largeValue? j = h.largeValue? j)
    (hknown : ∀ n', n' ≠ n → known' n' = known n') :
    h'.Depicts starts p (Function.update nodes n o) known' := by
  have hl := hd.laidOut
  have hi := hd.placed hn
  have hreadable : (h'.view i).Readable := (ht.laidOut hl hi).readable i hi
  refine
    { wellFormed :=
        { toLaidOut := ht.laidOut hl hi
          toSlotsOwned := howned
          unmarked := ?_
          traced := ?_ }
      reserved := by rw [ht.reservedWords]; exact hd.reserved
      allowed := ?_
      table := htable
      placed := hd.placed
      shows := ?_ }
  · intro j hj
    by_cases hne : j = i
    · rw [hne]
      exact hunmarked
    · rw [ht.header_eq hl hi hj hne]
      exact hd.wellFormed.unmarked j hj
  · intro j hj k hk hp
    by_cases hne : j = i
    · subst hne
      obtain ⟨v, hv⟩ := hshown.shows_of_isTraced hreadable hk
      exact hd.known_of_shows hv hp
    · have hk' := ((ht.agrees hl hi hj hne).isTraced_iff k).mp hk
      have href : (h'.view j).ref k = (h.view j).ref k :=
        congrArg Ref.mk (ht.view_eq hl hi hj hne hk'.bounds.2)
      rw [href] at hp ⊢
      exact hd.wellFormed.traced j hj k hk' hp
  · intro j hj
    have hsame := ht.sameLayout hl hi hj
    rw [hsame.fields_eq, hsame.format_eq]
    exact hd.allowed j hj
  · intro n' j hn'
    by_cases hname : n' = n
    · subst hname
      rw [hn] at hn'
      cases hn'
      rw [Function.update_self]
      exact hshown
    · have hne : j ≠ i := fun heq => hname (p.injective hn' (heq ▸ hn))
      have hj := hd.placed hn'
      rw [Function.update_of_ne hname, hknown n' hname]
      exact (hd.shows hn').congr (fun k hk => ht.view_eq hl hi hj hne hk)
        (ht.header_eq hl hi hj hne) (ht.agrees hl hi hj hne) (hd.allowed j hj)
        (hlarge j hj hne) fun _ _ hr => hr

/-- A store that does not concern large integers. -/
theorem stored {o : Node} (hd : h.Depicts starts p nodes known) (hn : p.find? n = some i)
    (ht : Touches i h h') (hunmarked : (h'.view i).header.isMarked = false)
    (hsame : h'.largeIntegers = h.largeIntegers) (hslot : h'.largeSlot? i = h.largeSlot? i)
    (hshown : h'.largeValue? i = h.largeValue? i → o.ShownAt (known' n) h' p i)
    (hknown : ∀ n', n' ≠ n → known' n' = known n') :
    h'.Depicts starts p (Function.update nodes n o) known' := by
  have hl := hd.laidOut
  have hi := hd.placed hn
  have hvalue : ∀ j ∈ starts, h'.largeSlot? j = h.largeSlot? j →
      h'.largeValue? j = h.largeValue? j := by
    intro j _ hj
    unfold largeValue?
    rw [hj, hsame]
  exact hd.updated hn ht hunmarked (hshown (hvalue i hi hslot))
    (ht.slotsOwned hl hi hd.wellFormed.toSlotsOwned hsame hslot)
    (hd.table.touches ht hl hi hsame hslot)
    (fun j hj hne => hvalue j hj (ht.largeSlot?_of_ne hl hi hj hne)) hknown

section Poke

variable {o : Node} {value : Ref}

/-- A store of a reference. Each slot of the new node is the one stored to, or is what it was. -/
theorem poked (hd : h.Depicts starts p nodes known) (hn : p.find? n = some i) (hpos : 0 < k)
    (hlt : k < (nodes n).size) (hcount : k ≠ headerWords + (nodes n).fields)
    (hformat : k = 1 ∨ (nodes n).format.allowsFields = true) (hv : p.Shows value v)
    (hlayout : Node.SameLayout (nodes n) o) (hhash : o.hash = (nodes n).hash)
    (hcaptured : o.captured = (nodes n).captured) (hraw : o.raw = (nodes n).raw)
    (hlarge : o.large? = (nodes n).large?)
    (hcls : o.cls = if k = 1 then v else (nodes n).cls)
    (hfield : ∀ j < (nodes n).fields,
      o.field j = if k = headerWords + j then v else (nodes n).field j)
    (helement : ∀ j < known' n, headerWords + (nodes n).fields + 1 + j = k ∧ o.element j = v ∨
      headerWords + (nodes n).fields + 1 + j ≠ k ∧ j < known n ∧
        o.element j = (nodes n).element j)
    (hlive : o.live ≤ known' n) (hlen : known' n ≤ (nodes n).len)
    (hknown : ∀ n', n' ≠ n → known' n' = known n') :
    (h.poke (i + k) value.bits).Depicts starts p (Function.update nodes n o) known' := by
  have hl := hd.laidOut
  have hi := hd.placed hn
  have hs := hd.shows hn
  have hfit := hl.fits_memory hi
  rw [hs.size_eq] at hfit
  have hin : i + k < h.memory.size := by omega
  have hne : k ≠ headerWords + (h.view i).fields := by rw [hs.fields]; exact hcount
  have htouch := touches_poke (by rw [hs.size_eq]; exact hlt) (hl.fits_memory hi) (by omega) hne
    value.bits
  have hsame := sameLayout_poke hin (by omega) hne value.bits
  have hview : ∀ l, ((h.poke (i + k) value.bits).view i).ref l =
      if l = k then value else (h.view i).ref l := by
    intro l
    unfold View.ref
    rw [view_poke hin]
    split <;> rfl
  have hheader : ((h.poke (i + k) value.bits).view i).header = (h.view i).header := by
    unfold View.header
    rw [view_poke hin, if_neg (by omega)]
  have hnotLarge : k = 1 ∨ (h.view i).format ≠ .largeInteger := by
    refine hformat.imp_right fun hallows hf => ?_
    rw [← hs.format, hf] at hallows
    cases hallows
  have hslot : (h.poke (i + k) value.bits).largeSlot? i = h.largeSlot? i := by
    unfold largeSlot?
    rw [hsame.format_eq]
    rcases hnotLarge with rfl | hf
    · rw [cell_poke_ne (by simp [headerWords])]
    · simp [hf]
  refine hd.stored hn htouch (by rw [hheader]; exact hd.wellFormed.unmarked i hi) rfl hslot
    (fun hvalue => ?_) hknown
  refine
    { format := hsame.format_eq.trans (hs.format.trans hlayout.format.symm)
      fields := hsame.fields_eq.trans (hs.fields.trans hlayout.fields.symm)
      len := hsame.len_eq.trans (hs.len.trans hlayout.len.symm)
      hash := by rw [hheader, hhash]; exact hs.hash
      captured := by rw [hheader, hcaptured]; exact hs.captured
      cls := ?_
      field := ?_
      live_le := hlive
      le_len := by rw [hlayout.len]; exact hlen
      element := ?_
      raw := ?_
      large := hvalue.trans (hs.large.trans hlarge.symm) }
  · rw [hview, hcls]
    by_cases hone : k = 1
    · rw [if_pos hone.symm, if_pos hone]
      exact hv
    · rw [if_neg (Ne.symm hone), if_neg hone]
      exact hs.cls
  · intro j hj
    rw [hlayout.fields] at hj
    rw [hview, hfield j hj]
    by_cases heq : k = headerWords + j
    · rw [if_pos heq.symm, if_pos heq]
      exact hv
    · rw [if_neg (Ne.symm heq), if_neg heq]
      exact hs.field j hj
  · intro htail j hj
    rw [hlayout.format] at htail
    rw [hview, hlayout.fields]
    obtain ⟨heq, hvalue⟩ | ⟨hother, hlt, hvalue⟩ := helement j hj
    · rw [if_pos heq, hvalue]
      exact hv
    · rw [if_neg hother, hvalue]
      exact hs.element htail j hlt
  · intro hno hnot j hj
    have hone : k = 1 := by
      rw [hlayout.format] at hno
      exact hformat.resolve_right (by rw [hno]; simp)
    have hat : o.rawAt = (nodes n).rawAt := by
      unfold Node.rawAt
      rw [hlayout.format, hlayout.fields]
    rw [hlayout.size_eq, hat] at hj
    rw [hlayout.format] at hno hnot
    have hrawAt : headerWords ≤ (nodes n).rawAt := by
      unfold Node.rawAt
      split <;> omega
    rw [view_poke hin, hat, if_neg (by simp only [headerWords] at hrawAt; omega), hraw]
    exact hs.raw hno hnot j hj

end Poke

/-- A store of a word that is no reference. -/
theorem pokedRaw (hd : h.Depicts starts p nodes known) (hn : p.find? n = some i)
    (hno : (nodes n).format.allowsFields = false) (hnot : (nodes n).format ≠ .largeInteger)
    (hlt : (nodes n).rawAt + k < (nodes n).size) (word : UInt64) :
    (h.poke (i + ((nodes n).rawAt + k)) word).Depicts starts p
      (Function.update nodes n ((nodes n).withRaw k word)) known := by
  have hl := hd.laidOut
  have hi := hd.placed hn
  have hs := hd.shows hn
  have hfit := hl.fits_memory hi
  rw [hs.size_eq] at hfit
  have hin : i + ((nodes n).rawAt + k) < h.memory.size := by omega
  have hrawAt : headerWords ≤ (nodes n).rawAt := by
    unfold Node.rawAt
    split <;> omega
  have hzero : (nodes n).fields = 0 := by
    have hallowed := hd.allowed i hi
    rw [hs.fields, hs.format, hno] at hallowed
    simpa using hallowed
  -- A floating-point number has no element count; all others have it in front of their words.
  have hcount : (nodes n).rawAt + k ≠ headerWords + (h.view i).fields ∨
      (h.view i).format.isIndexable = false := by
    rw [hs.format, hs.fields]
    unfold Node.rawAt
    split
    · rename_i hfloat
      exact .inr (by rw [hfloat]; rfl)
    · exact .inl (by omega)
  have hsame : View.SameLayout (h.view i)
      ((h.poke (i + ((nodes n).rawAt + k)) word).view i) := by
    constructor
    · unfold View.header
      rw [view_poke hin, if_neg (by simp only [headerWords] at hrawAt; omega)]
      exact .refl _
    · intro hidx
      rw [view_poke hin, if_neg fun heq => ?_]
      exact hcount.elim (· heq.symm) fun hnidx => by rw [hnidx] at hidx; cases hidx
  have hwithin : Within (i + ((nodes n).rawAt + k)) (i + ((nodes n).rawAt + k) + 1) h
      (h.poke (i + ((nodes n).rawAt + k)) word) := .poke (Nat.le_refl _) (Nat.lt_succ_self _) word
  have htouch := hwithin.touches (Nat.le_add_right ..) (by rw [hs.size_eq]; omega) hsame
  have hheader : ((h.poke (i + ((nodes n).rawAt + k)) word).view i).header = (h.view i).header := by
    unfold View.header
    rw [view_poke hin, if_neg (by simp only [headerWords] at hrawAt; omega)]
  have hslot : (h.poke (i + ((nodes n).rawAt + k)) word).largeSlot? i = h.largeSlot? i := by
    unfold largeSlot?
    rw [hsame.format_eq]
    simp [hs.format, hnot]
  refine hd.stored hn htouch (by rw [hheader]; exact hd.wellFormed.unmarked i hi) rfl hslot
    (fun hvalue => ?_) fun _ _ => rfl
  refine
    { format := hsame.format_eq.trans hs.format
      fields := hsame.fields_eq.trans hs.fields
      len := hsame.len_eq.trans hs.len
      hash := by rw [hheader]; exact hs.hash
      captured := by rw [hheader]; exact hs.captured
      cls := ?_
      field := ?_
      live_le := hs.live_le
      le_len := hs.le_len
      element := ?_
      raw := ?_
      large := hvalue.trans hs.large }
  · unfold View.ref
    rw [view_poke hin, if_neg (by simp only [headerWords] at hrawAt; omega)]
    exact hs.cls
  · intro j hj
    exact absurd hj (by simp [Node.withRaw, hzero])
  · intro htail
    have : (nodes n).format.hasReferenceTail = true := htail
    cases hformat : (nodes n).format <;> rw [hformat] at hno this <;> contradiction
  · intro _ _ j hj
    rw [show ((nodes n).withRaw k word).rawAt = (nodes n).rawAt from rfl, view_poke hin]
    simp only [Node.withRaw, Function.update_apply]
    by_cases heq : j = k
    · rw [if_pos (by rw [heq]), if_pos heq]
    · rw [if_neg (by omega), if_neg heq]
      exact hs.raw hno hnot j hj

/-- Nil may be chosen. -/
theorem setNil (hd : h.Depicts starts p nodes known) (nil : Ref) :
    (h.setNil nil).Depicts starts p nodes known where
  wellFormed :=
    { committed := hd.wellFormed.committed
      addressable := hd.wellFormed.addressable
      tiles := hd.wellFormed.tiles
      readable := hd.wellFormed.readable
      held := hd.wellFormed.held
      own := hd.wellFormed.own
      unmarked := hd.wellFormed.unmarked
      traced := hd.wellFormed.traced }
  reserved := hd.reserved
  allowed := hd.allowed
  table := ⟨hd.table.1, hd.table.2, hd.table.3, hd.table.4⟩
  placed := hd.placed
  shows hn :=
    let hs := hd.shows hn
    ⟨hs.format, hs.fields, hs.len, hs.hash, hs.captured, hs.cls, hs.field, hs.live_le, hs.le_len,
      hs.element, hs.raw, hs.large⟩

end Heap.Depicts

/-! ## Allocation -/

namespace Placement

/-- One more object is in memory. -/
def extend (p : Placement) (n i : Nat) (hfresh : ∀ n', p.find? n' ≠ some i)
    (hvalid : 0 < i ∧ i < Ref.addressLimit) : Placement where
  find? := Function.update p.find? n (some i)
  injective := by
    intro a b j ha hb
    rw [Function.update_apply] at ha hb
    split at ha <;> split at hb
    · rename_i ha' hb'
      rw [ha', hb']
    · cases ha
      exact absurd hb (hfresh b)
    · cases hb
      exact absurd ha (hfresh a)
    · exact p.injective ha hb
  valid := by
    intro a j ha
    rw [Function.update_apply] at ha
    split at ha
    · cases ha
      exact hvalid
    · exact p.valid ha

variable {p : Placement} {n i : Nat} {hfresh : ∀ n', p.find? n' ≠ some i}
  {hvalid : 0 < i ∧ i < Ref.addressLimit}

theorem find?_extend_self : (p.extend n i hfresh hvalid).find? n = some i :=
  Function.update_self ..

theorem find?_extend_of_ne {n' : Nat} (hne : n' ≠ n) :
    (p.extend n i hfresh hvalid).find? n' = p.find? n' :=
  Function.update_of_ne hne ..

theorem Shows.extend {r : Ref} {v : Value} (hnew : p.find? n = none) (hr : p.Shows r v) :
    (p.extend n i hfresh hvalid).Shows r v := by
  cases v with
  | immediate r' => exact hr
  | object m =>
    obtain ⟨j, hj, heq⟩ := hr
    refine ⟨j, ?_, heq⟩
    rw [find?_extend_of_ne, hj]
    rintro rfl
    rw [hnew] at hj
    cases hj

end Placement

namespace Header

theorem isCaptured_pack {format : Format} {fields : Nat} (hash : UInt32)
    (hfields : fields ≤ maxFields) : (pack format fields hash).isCaptured = false := by
  have hbits := toNat_pack format hash hfields
  have hclear : (pack format fields hash).bits &&& capturedBit = 0 := by
    have hbit : (pack format fields hash).bits.toNat.testBit 3 = false := by
      rw [Nat.testBit_eq_decide_div_mod_eq]
      exact decide_eq_false (by omega)
    apply UInt64.toNat_inj.mp
    rw [UInt64.toNat_and, show capturedBit.toNat = 2 ^ 3 from rfl]
    refine Nat.eq_of_testBit_eq fun i => ?_
    rw [Nat.testBit_and, Nat.testBit_two_pow]
    by_cases hi : 3 = i
    · simp [← hi, hbit]
    · simp [hi]
  simp [isCaptured, hclear]

end Header

theorem Node.size_fresh (cls nil : Value) (format : Format) (fields len hash : Nat) :
    (Node.fresh cls nil format fields len hash).size = format.sizeInWords fields len := by
  unfold Node.size Node.fresh
  cases format <;> rfl

theorem Node.rawAt_fresh (cls nil : Value) (format : Format) (fields len hash : Nat) :
    (Node.fresh cls nil format fields len hash).rawAt =
      if format = .float then headerWords else headerWords + fields + 1 := rfl

theorem Node.live_fresh_le (cls nil : Value) (format : Format) (fields len hash : Nat) :
    (Node.fresh cls nil format fields len hash).live ≤
      (Node.fresh cls nil format fields len hash).len := by
  unfold Node.live
  cases hformat : (Node.fresh cls nil format fields len hash).format <;> try exact Nat.le_refl _
  cases (Node.fresh cls nil format fields len hash).field contextStackPointer with
  | immediate r =>
    dsimp only
    split
    · exact Nat.min_le_right ..
    · exact Nat.zero_le _
  | object m => exact Nat.zero_le _

namespace Heap

/-- Words that are no references are zero at first. -/
theorem freshView_raw (header : Header) (cls nil : Ref) {format : Format} (len : Nat) {k : Nat}
    (hno : format.allowsFields = false) (hnot : format ≠ .largeInteger)
    (hk : if format = .float then headerWords ≤ k else headerWords < k) :
    freshView header cls nil format 0 len k = 0 := by
  have htwo : headerWords ≤ k := by
    split at hk <;> omega
  simp only [headerWords] at hk htwo
  unfold freshView
  rw [if_neg (by omega), if_neg (by omega), if_neg (by simp only [headerWords]; omega)]
  cases format <;> simp only [Format.allowsFields, Bool.true_eq_false] at hno <;>
    simp_all [headerWords, Format.hasReferenceTail] <;> omega

end Heap

namespace Heap.Depicts

variable {h h' : Heap} {starts : List Nat} {p : Placement} {nodes : Nat → Node}
  {known known' : Nat → Nat} {n i k : Nat} {r : Ref} {v : Value}

/-- No object is where the next one goes. -/
theorem find?_ne_top (hd : h.Depicts starts p nodes known) (n : Nat) :
    p.find? n ≠ some h.top := fun hn =>
  absurd (hd.laidOut.lt_top (hd.placed hn)) (Nat.lt_irrefl _)

/-- An allocation adds a node. -/
theorem allocated {cls : Ref} {clsValue nil : Value} {format : Format} {fields len : Nat}
    (hd : h.Depicts starts p nodes known) (ha : h.Allocated cls format fields len h')
    (hnew : p.find? n = none) (hctx : format = .context → 3 ≤ fields)
    (hcls : p.Shows cls clsValue) (hnil : p.Shows h.nil nil) :
    ∃ p' hash, (∀ n', n' ≠ n → p'.find? n' = p.find? n') ∧ p'.find? n = some h.top ∧
      (∀ r v, p.Shows r v → p'.Shows r v) ∧
      h'.Depicts (starts ++ [h.top]) p'
        (Function.update nodes n (.fresh clsValue nil format fields len hash))
        (Function.update known n (Node.fresh clsValue nil format fields len hash).live) := by
  have hl := hd.laidOut
  have haddr := ha.addressable hl hd.reserved
  have htop : h.top < Ref.addressLimit := by
    have htwo := format.two_le_sizeInWords fields len
    have hfit := ha.committed
    rw [ha.top] at hfit
    omega
  have hvalid : 0 < h.top ∧ h.top < Ref.addressLimit :=
    ⟨(by have := hl.tiles.le; simp only [firstWord] at this; omega), htop⟩
  obtain ⟨hash, hheader⟩ := ha.fresh_header
  refine ⟨p.extend n h.top hd.find?_ne_top hvalid, (Header.pack format fields hash).identityHash,
    fun n' hne => Placement.find?_extend_of_ne hne, Placement.find?_extend_self,
    fun r v hr => hr.extend hnew, ?_⟩
  have hextend : ∀ r v, p.Shows r v → (p.extend n h.top hd.find?_ne_top hvalid).Shows r v :=
    fun r v hr => hr.extend hnew
  have hwf := ha.wellFormed hd.wellFormed hd.reserved hctx
    (fun hp => (hd.known_of_shows hcls hp).mono fun _ hi => List.mem_append_left _ hi)
    (hd.known_of_shows hnil)
  have hreadable := ha.fresh_readable hctx
  have hslots : ∀ i ∈ starts, h'.largeValue? i = h.largeValue? i := by
    intro i hi
    unfold largeValue?
    rw [ha.largeSlot? hl hi, ha.largeIntegers]
  refine
    { wellFormed := hwf
      reserved := by rw [ha.reservedWords]; exact hd.reserved
      allowed := ?_
      table := hd.table.congr ha.largeIntegers fun i hi s hs =>
        ⟨i, List.mem_append_left _ hi, by rw [ha.largeSlot? hl hi]; exact hs⟩
      placed := ?_
      shows := ?_ }
  · intro i hi
    obtain hi | hi := List.mem_append.mp hi
    · rw [(ha.agrees hl hi).fields_eq, (ha.agrees hl hi).format_eq]
      exact hd.allowed i hi
    · rw [List.mem_singleton.mp hi, ha.fresh_fields, ha.fresh_format]
      exact ha.allowed
  · intro n' i hn'
    by_cases hname : n' = n
    · rw [hname, Placement.find?_extend_self] at hn'
      cases hn'
      exact List.mem_append_right _ (List.mem_singleton_self _)
    · rw [Placement.find?_extend_of_ne hname] at hn'
      exact List.mem_append_left _ (hd.placed hn')
  · intro n' i hn'
    by_cases hname : n' = n
    · rw [hname, Placement.find?_extend_self] at hn'
      cases hn'
      rw [hname, Function.update_self, Function.update_self]
      have hlen : (h'.view h.top).len = if format.isIndexable then len else 0 := by
        split
        · rename_i hidx
          exact ha.fresh_len haddr hidx
        · rename_i hidx
          unfold View.len
          rw [ha.fresh_format, if_neg hidx]
      have hfits : (h'.view h.top).size ≤ h'.memory.size := by
        have := (ha.laidOut hl hd.reserved hctx).fits_memory
          (List.mem_append_right _ (List.mem_singleton_self _))
        omega
      refine
        { format := ha.fresh_format
          fields := ha.fresh_fields
          len := hlen
          hash := by rw [hheader]; rfl
          captured := by rw [hheader]; exact Header.isCaptured_pack hash ha.countable
          cls := ?_
          field := ?_
          live_le := Nat.le_refl _
          le_len := ?_
          element := ?_
          raw := ?_
          large := by rw [largeValue?, ha.fresh_largeSlot?]; rfl }
      · rw [ha.fresh_ref haddr (.inl rfl), if_pos rfl]
        exact hextend _ _ hcls
      · intro k hk
        have hk : k < fields := hk
        have hformat : format.allowsFields = true := ha.allowed.resolve_left (by omega)
        rw [ha.fresh_ref haddr (.inr (.inl ⟨by rw [ha.fresh_format]; exact hformat, by omega,
          by rw [ha.fresh_fields]; omega⟩)), if_neg (by simp only [headerWords]; omega)]
        exact hextend _ _ hnil
      · exact Node.live_fresh_le ..
      · intro htail k hk
        have htail : format.hasReferenceTail = true := htail
        have hshown : (h'.view h.top).ref (headerWords + fields + 1 + k) = h.nil := by
          obtain ⟨hash', hfresh⟩ := ha.fresh
          have hin : headerWords + fields + 1 + k < format.sizeInWords fields len := by
            have hlive := hk.trans_le (Node.live_fresh_le ..)
            cases format <;> simp only [Format.hasReferenceTail, Bool.false_eq_true] at htail <;>
              simp only [Node.fresh, Format.isIndexable, if_true] at hlive <;>
              simp only [Format.sizeInWords, Format.tailWords] <;> omega
          unfold View.ref
          rw [hfresh _ hin, freshView_element _ _ _ _ _ htail (by omega)]
        rw [show (Node.fresh clsValue nil format fields len
          (Header.pack format fields hash).identityHash).fields = fields from rfl, hshown]
        exact hextend _ _ hnil
      · intro hno hnot k hk
        obtain ⟨hash', hfresh⟩ := ha.fresh
        have hno : format.allowsFields = false := hno
        have hnot : format ≠ .largeInteger := hnot
        have hzero : fields = 0 := ha.allowed.resolve_right (by rw [hno]; simp)
        subst hzero
        rw [Node.size_fresh] at hk
        rw [hfresh _ hk]
        exact freshView_raw _ _ _ _ hno hnot (by
          rw [Node.rawAt_fresh]
          by_cases hf : format = .float
          · rw [if_pos hf, if_pos hf]
            omega
          · rw [if_neg hf, if_neg hf]
            omega)
    · rw [Placement.find?_extend_of_ne hname] at hn'
      have hi := hd.placed hn'
      rw [Function.update_of_ne hname, Function.update_of_ne hname]
      exact (hd.shows hn').congr (fun k hk => ha.view_eq hl hi hk) (ha.header_eq hl hi)
        (ha.agrees hl hi) (hd.allowed i hi) (hslots i hi) hextend

end Heap.Depicts

/-! ## Collections -/

/-- Where the first objects are that were ever made, if none of them was moved. -/
def originOf (nodes : Nat → Node) : Nat → Nat
  | 0 => firstWord
  | n + 1 => originOf nodes n + (nodes n).size

/-- Where the survivors of a collection are. -/
def Placement.moved (p : Placement) (live : Nat → Bool) (move : Nat → Nat)
    (hinj : ∀ {n n' i j}, p.find? n = some i → p.find? n' = some j → live i = true →
      live j = true → move i = move j → i = j)
    (hvalid : ∀ {n i}, p.find? n = some i → 0 < move i ∧ move i < Ref.addressLimit) :
    Placement where
  find? n := (p.find? n).bind fun i => if live i then some (move i) else none
  injective := by
    intro n n' j hn hn'
    obtain ⟨i, hi, hmove⟩ := Option.bind_eq_some_iff.mp hn
    obtain ⟨i', hi', hmove'⟩ := Option.bind_eq_some_iff.mp hn'
    split at hmove <;> split at hmove' <;> cases hmove'
    · rename_i hlive hlive'
      have heq := hinj hi hi' hlive hlive' (Option.some.inj hmove)
      exact p.injective hi (heq ▸ hi')
    · cases hmove
  valid := by
    intro n j hn
    obtain ⟨i, hi, hmove⟩ := Option.bind_eq_some_iff.mp hn
    split at hmove <;> cases hmove
    exact hvalid hi

namespace Heap.Depicts

variable {h : Heap} {starts : List Nat} {p : Placement} {nodes : Nat → Node} {known : Nat → Nat}
  {live : Nat → Bool} {roots : List Ref} {nil : Value} {n i : Nat}

/-- The places of the survivors. -/
def moved (hd : h.Depicts starts p nodes known) (live : Nat → Bool) : Placement :=
  p.moved live (slide h.sizeOf live starts)
    (fun hn hn' hlive hlive' heq => hd.laidOut.tiles.slide_inj h.sizeOf_pos (hd.placed hn)
      (hd.placed hn') hlive hlive' heq)
    fun hn => ⟨Nat.lt_of_lt_of_le Nat.zero_lt_one (first_le_slide ..),
      slide_lt_addressLimit hd.laidOut (hd.placed hn)⟩

theorem find?_moved (hd : h.Depicts starts p nodes known) (hn : p.find? n = some i)
    (hlive : live i = true) :
    (hd.moved live).find? n = some (slide h.sizeOf live starts i) := by
  show (p.find? n).bind _ = _
  rw [hn, Option.bind_some, if_pos hlive]

theorem of_find?_moved (hd : h.Depicts starts p nodes known) {j : Nat}
    (hn : (hd.moved live).find? n = some j) :
    ∃ i, p.find? n = some i ∧ live i = true ∧ slide h.sizeOf live starts i = j := by
  obtain ⟨i, hi, hmove⟩ := Option.bind_eq_some_iff.mp hn
  split at hmove
  · rename_i hlive
    exact ⟨i, hi, hlive, Option.some.inj hmove⟩
  · cases hmove

/-- A reference to a survivor, or to no object, stands for the same value afterwards. -/
theorem shows_moved (hd : h.Depicts starts p nodes known) {r : Ref} {v : Value}
    (hr : p.Shows r v)
    (hlive : r.isPointer = true → ∃ i ∈ starts, live i = true ∧ r = .ofWordIndex i) :
    (hd.moved live).Shows (h.moveRef starts live r) v := by
  cases v with
  | immediate r' =>
    obtain ⟨rfl, hr⟩ := hr
    unfold moveRef
    rw [if_neg (by rw [hr]; simp)]
    exact ⟨rfl, hr⟩
  | object m =>
    obtain ⟨i, hi, rfl⟩ := hr
    obtain ⟨j, hj, hlivej, heq⟩ := hlive (Placement.isPointer_place hi)
    have hij := hd.laidOut.ofWordIndex_inj (hd.placed hi) hj heq
    rw [moveRef_ofWordIndex hd.laidOut (hd.placed hi)]
    exact ⟨_, hd.find?_moved hi (hij ▸ hlivej), rfl⟩

/-- The objects that come first in memory stay where they are if all of them survive. -/
theorem slide_originOf (hd : h.Depicts starts p nodes known) {count : Nat}
    (hfirst : ∀ n < count, p.find? n = some (originOf nodes n) ∧ live (originOf nodes n) = true)
    (hn : n < count) : slide h.sizeOf live starts (originOf nodes n) = originOf nodes n := by
  have htiles := hd.laidOut.tiles
  induction n with
  | zero =>
    exact Nat.le_antisymm (htiles.slide_le h.sizeOf_pos (hd.placed (hfirst 0 hn).1))
      (first_le_slide ..)
  | succ n ih =>
    have hprevious := hfirst n (by omega)
    have hsize : h.sizeOf (originOf nodes n) = (nodes n).size := (hd.shows hprevious.1).size_eq
    have hmem := hd.placed (hfirst (n + 1) hn).1
    have hapart := htiles.slide_apart h.sizeOf_pos (hd.placed hprevious.1) hmem hprevious.2
      (by have := h.sizeOf_pos (originOf nodes n); simp only [originOf]; omega)
    rw [ih (by omega), hsize] at hapart
    exact Nat.le_antisymm (htiles.slide_le h.sizeOf_pos hmem) hapart

/-- A survivor is shown where it went. -/
theorem shown_moved {c : Collected} (hd : h.Depicts starts p nodes known)
    (hr : h.RootsIn starts roots) (hk : h.KeepsReachable starts live roots)
    (hc : h.Collects starts live roots c) (hn : p.find? n = some i) (hlive : live i = true) :
    (nodes n).ShownAt (nodes n).live c.heap (hd.moved live)
      (slide h.sizeOf live starts i) := by
  have hw := hd.wellFormed
  have hi := hd.placed hn
  have hs := hd.shows hn
  have hagrees := hc.agrees hw hi hlive
  have hheader := hc.header_eq hi hlive
  have hlive_eq := hs.live_eq (hd.laidOut.readable i hi)
  have href : ∀ k v, (h.view i).IsTraced k → p.Shows ((h.view i).ref k) v →
      (hd.moved live).Shows ((c.heap.view (slide h.sizeOf live starts i)).ref k) v := by
    intro k v htraced hv
    rw [hc.ref_of_isTraced hi hlive htraced]
    exact hd.shows_moved hv fun hp => hk.live_of_traced hw hr hi hlive htraced hp
  refine
    { format := hagrees.format_eq.trans hs.format
      fields := hagrees.fields_eq.trans hs.fields
      len := hagrees.len_eq.trans hs.len
      hash := by rw [hheader]; exact hs.hash
      captured := by rw [hheader]; exact hs.captured
      cls := href 1 _ (.inl rfl) hs.cls
      field := ?_
      live_le := Nat.le_refl _
      le_len := hs.live_le.trans hs.le_len
      element := ?_
      raw := ?_
      large := ?_ }
  · intro k hk
    refine href _ _ (.inr (.inl ⟨?_, Nat.le_add_right .., ?_⟩)) (hs.field k hk)
    · rw [hs.format]
      exact hd.allowsFields hn hk
    · rw [hs.fields]
      omega
  · intro htail k hk
    refine href _ _ (.inr (.inr ⟨?_, ?_, ?_⟩)) (hs.element htail k (hk.trans_le hs.live_le))
    · rw [hs.format]
      exact htail
    · rw [hs.elements_eq]
      omega
    · rw [hs.elements_eq, hlive_eq]
      omega
  · intro hno hnot k hk
    have hrawAt : headerWords ≤ (nodes n).rawAt := by
      unfold Node.rawAt
      split <;> omega
    rw [hc.word_of_not_isTraced hi hlive (by rw [sizeOf, hs.size_eq]; exact hk) fun htraced => by
      rw [View.isTraced_iff_class (by rw [hs.format]; exact hno)] at htraced
      simp only [headerWords] at hrawAt
      omega]
    exact hs.raw hno hnot k hk
  · rw [← hs.large]
    unfold largeValue?
    rw [hc.largeSlot? hw hi hlive]
    cases hslot : h.largeSlot? i with
    | none => rfl
    | some s => exact hc.get?_largeSlot hw hi hlive hslot

/-- After a collection the same nodes are depicted at other places, with the same roots. Only a full
work list can keep it from succeeding. The objects that come first in memory stay where they are if
all of them are roots. -/
theorem collected (hd : h.Depicts starts p nodes known) (hroots : ∀ r ∈ roots, ∃ v, p.Shows r v)
    (hnil : p.Shows h.nil nil) :
    h.collect roots = .error (.markStackOverflow h.config.markLimit) ∨
      ∃ c p' starts' move, h.collect roots = .ok c ∧ c.roots = roots.map move ∧
        (∀ r ∈ roots, ∀ v, p.Shows r v → p'.Shows (move r) v) ∧ p'.Shows c.heap.nil nil ∧
        c.heap.Depicts starts' p' nodes (fun n => (nodes n).live) ∧
        c.heap.memory.size = h.memory.size ∧ c.heap.reservedWords = h.reservedWords ∧
        c.heap.sinceCollection = 0 ∧ c.heap.top ≤ h.top ∧ (∀ n, p.find? n = none → p'.find? n = none) ∧
        ∀ count, (∀ n < count, p.find? n = some (originOf nodes n) ∧
            .ofWordIndex (originOf nodes n) ∈ roots) → ∀ n < count, p'.find? n = some (originOf nodes n) := by
  have hw := hd.wellFormed
  have hr : h.RootsIn starts roots :=
    { roots := fun r hmem' hp =>
        let ⟨_, hv⟩ := hroots r hmem'
        hd.known_of_shows hv hp
      nil := hd.known_of_shows hnil }
  obtain ⟨-, hfull⟩ | ⟨c, live, hok, hk, hc⟩ := collect_spec hw hr
  · exact .inl hfull
  have hroot : ∀ r ∈ roots, r.isPointer = true →
      ∃ i ∈ starts, live i = true ∧ r = .ofWordIndex i := fun r hmem' hp =>
    hk.live_of_reachable hw hr (.root hmem' hp)
  refine .inr ⟨c, hd.moved live, h.survivors starts live, h.moveRef starts live, hok, hc.roots,
    fun r hmem' v hv => hd.shows_moved hv (hroot r hmem'), ?_, ?_, hc.size, hc.reservedWords,
    hc.sinceCollection, ?_, ?_, ?_⟩
  · rw [hc.nil]
    exact hd.shows_moved hnil fun hp => hk.live_of_reachable hw hr (.nil hp)
  · refine
      { wellFormed := hc.wellFormed hw hr hk
        reserved := by rw [hc.reservedWords]; exact hd.reserved
        allowed := ?_
        table := hc.tableOwned hw hd.table
        placed := ?_
        shows := ?_ }
    · intro j hj
      obtain ⟨i, hi, hlive, rfl⟩ := mem_survivors.mp hj
      have hagrees := hc.agrees hw hi hlive
      rw [hagrees.fields_eq, hagrees.format_eq]
      exact hd.allowed i hi
    · intro n j hn
      obtain ⟨i, hi, hlive, rfl⟩ := hd.of_find?_moved hn
      exact mem_survivors.mpr ⟨i, hd.placed hi, hlive, rfl⟩
    · intro n j hn
      obtain ⟨i, hi, hlive, rfl⟩ := hd.of_find?_moved hn
      exact hd.shown_moved hr hk hc hi hlive
  · have hsum := hd.laidOut.tiles.sum_eq
    have hle := liveWords_le_sum h.sizeOf live starts
    rw [hc.top]
    omega
  · intro n hn
    show (p.find? n).bind _ = none
    rw [hn]
    rfl
  · intro count hfirst n hn
    have hlive : ∀ n < count, p.find? n = some (originOf nodes n) ∧
        live (originOf nodes n) = true := by
      intro n hn
      obtain ⟨hplace, hmem⟩ := hfirst n hn
      obtain ⟨j, hj, hlivej, heq⟩ := hroot _ hmem (Placement.isPointer_place hplace)
      refine ⟨hplace, ?_⟩
      rw [hd.laidOut.ofWordIndex_inj (hd.placed hplace) hj heq]
      exact hlivej
    rw [hd.find?_moved (hlive n hn).1 (hlive n hn).2, hd.slide_originOf hlive hn]

end Heap.Depicts

end ObjectMachine
