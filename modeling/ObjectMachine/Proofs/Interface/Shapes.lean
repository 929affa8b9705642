import ObjectMachine.Class.Kernel
import ObjectMachine.Proofs.Collection.Accounting
import ObjectMachine.Proofs.Interface.Storing
import ObjectMachine.Proofs.Interface.Table

/-!
# The shapes of objects

The shape of an object, its format and its number of fields, never changes; so what a word may lead
to is decided when something is stored there. Classes, dictionaries and arrays are told apart by
their shapes: a class leads to classes and to a dictionary, and a dictionary to an array, as long as
nothing else is ever stored in them.

## Main results

* `Heap.Shaped`: well-formed memory whose words lead to objects of the shapes expected of them.
* `Heap.Shaped.allocated`, `Heap.Shaped.collected`, `Heap.Shaped.storeRef`: what is done to
  memory keeps it so.
* `Heap.Extends`: memory that other memory has grown to without a collection.
-/

namespace ObjectMachine

/-- The format and the number of fields of an object. -/
abbrev Shape := Format × Nat

namespace Shape

def nil : Shape := (.plain, 0)
def cls : Shape := (.plain, Class.fieldCount)
def dictionary : Shape := (.array, MethodDictionary.fieldCount)
def array : Shape := (.array, 0)
def association : Shape := (.plain, Association.fieldCount)
def text : Shape := (.byteArray, 0)

/-- The shape expected of what the class or a field of an object leads to, by the offset of its
word. -/
def expects (s : Shape) (k : Nat) : Option Shape :=
  if s = cls then
    if k = 1 ∨ k = headerWords + Class.superclassField then some cls
    else if k = headerWords + Class.dictionaryField then some dictionary
    else none
  else if s = dictionary ∧ k = headerWords + MethodDictionary.methodsField then some array
  else none

/-- Only classes are expected where the class of an object is. -/
theorem eq_cls_of_expects {s expected : Shape} (h : s.expects 1 = some expected) :
    expected = cls := by
  unfold expects at h
  split at h
  · rw [if_pos (.inl rfl)] at h
    exact (Option.some.inj h).symm
  · rw [if_neg fun h => nomatch h.2] at h
    cases h

end Shape

/-- What a reference leads to. -/
inductive Kind where
  | nil
  | null
  | immediate
  | object (s : Shape)
  deriving DecidableEq

namespace Kind

/-- Nil stands for anything, and null for classes that are not there yet. -/
def Fits (t : Kind) (expected : Shape) : Prop :=
  t = .nil ∨ t = .object expected ∨ (t = .null ∧ expected = .cls)

instance (t : Kind) (expected : Shape) : Decidable (t.Fits expected) :=
  inferInstanceAs (Decidable (_ ∨ _ ∨ _ ∧ _))

/-- What a word of an object of some shape may lead to. -/
def Suits (t : Kind) (s : Shape) (k : Nat) : Prop :=
  ∀ expected, s.expects k = some expected → t.Fits expected

theorem fits_object (s : Shape) : (object s).Fits s := .inr (.inl rfl)

/-- Nothing is expected of what most objects lead to. -/
theorem suits_of_expects {t : Kind} {s : Shape} {k : Nat} (h : s.expects k = none) :
    t.Suits s k := by
  intro expected he
  rw [h] at he
  cases he

end Kind

/-- The format and the number of fields that a view shows. -/
def View.shape (o : View) : Shape := (o.format, o.fields)

/-- The class of an object and its fixed fields: the words that something may be expected of. -/
def View.IsFixed (o : View) (k : Nat) : Prop :=
  k = 1 ∨ (o.format.allowsFields = true ∧ headerWords ≤ k ∧ k < headerWords + o.fields)

instance (o : View) (k : Nat) : Decidable (o.IsFixed k) :=
  inferInstanceAs (Decidable (_ ∨ _ ∧ _ ∧ _))

theorem View.IsFixed.isTraced {o : View} {k : Nat} (h : o.IsFixed k) : o.IsTraced k := by
  rcases h with hone | hfield
  · exact .inl hone
  · exact .inr (.inl hfield)

theorem View.SameLayout.shape_eq {o o' : View} (h : SameLayout o o') : o'.shape = o.shape :=
  Prod.ext h.format_eq h.fields_eq

theorem View.SameLayout.isFixed_iff {o o' : View} (h : SameLayout o o') (k : Nat) :
    o'.IsFixed k ↔ o.IsFixed k := by
  simp only [IsFixed, h.format_eq, h.fields_eq]

/-- A reference that leads to an object if it is a pointer. -/
def Known (starts : List Nat) (r : Ref) : Prop := r.isPointer = true → Designates starts r

theorem Known.mono {starts starts' : List Nat} {r : Ref} (hr : Known starts r)
    (hsub : ∀ i ∈ starts, i ∈ starts') : Known starts' r :=
  fun hp => (hr hp).mono hsub

namespace Heap

/-- What a reference leads to. -/
def kind (h : Heap) (r : Ref) : Kind :=
  if r = h.nil then .nil
  else if r.isPointer then .object (h.view r.wordIndex).shape
  else if r.isNull then .null
  else .immediate

/-- The words of all objects lead to what is expected. -/
def Follows (h : Heap) (starts : List Nat) : Prop :=
  ∀ i ∈ starts, ∀ k, (h.view i).IsFixed k →
    (h.kind ((h.view i).ref k)).Suits (h.view i).shape k

/-- Well-formed memory whose words lead to objects of the shapes expected of them. -/
structure Shaped (h : Heap) (starts : List Nat) : Prop extends WellFormed h starts where
  /-- Null leads to no object, and what is read there has no fields. -/
  zero : h.cell 0 = 0
  table : h.TableOwned starts
  reserved : h.reservedWords ≤ Ref.addressLimit
  follows : h.Follows starts

variable {h h' : Heap} {starts : List Nat} {live : Nat → Bool} {roots : List Ref} {c : Collected}
  {i k : Nat} {r value cls : Ref} {s : Shape} {format : Format} {fields len : Nat}

@[simp] theorem kind_nil (h : Heap) : h.kind h.nil = .nil := by
  rw [kind, if_pos rfl]

theorem eq_nil_of_kind (hr : h.kind r = .nil) : r = h.nil := by
  unfold kind at hr
  split at hr
  · assumption
  · split at hr
    · cases hr
    · split at hr <;> cases hr

theorem eq_null_of_kind (hr : h.kind r = .null) : r = .null := by
  unfold kind at hr
  split at hr
  · cases hr
  · split at hr
    · cases hr
    · split at hr
      · rename_i hnull
        unfold Ref.isNull at hnull
        cases r
        exact congrArg Ref.mk (by simpa using hnull)
      · cases hr

theorem LaidOut.kind_eq (hl : h.LaidOut starts) (hi : i ∈ starts)
    (hnil : Ref.ofWordIndex i ≠ h.nil) : h.kind (.ofWordIndex i) = .object (h.view i).shape := by
  rw [kind, if_neg hnil, if_pos (hl.isPointer hi), hl.wordIndex hi]

/-- A reference that leads to an object of a shape. -/
theorem LaidOut.of_kind (hl : h.LaidOut starts) (hr : Known starts r)
    (hs : h.kind r = .object s) : ∃ i ∈ starts, r = .ofWordIndex i ∧ (h.view i).shape = s := by
  unfold kind at hs
  split at hs
  · cases hs
  · split at hs
    · obtain ⟨i, hi, rfl⟩ := hr ‹_›
      rw [hl.wordIndex hi] at hs
      exact ⟨i, hi, rfl, Kind.object.inj hs⟩
    · split at hs <;> cases hs

/-- References lead to the same kinds of things as long as objects keep their layout. -/
theorem kind_congr (hl : h.LaidOut starts) (hnil : h'.nil = h.nil) (hr : Known starts r)
    (hsame : ∀ i ∈ starts, View.SameLayout (h.view i) (h'.view i)) : h'.kind r = h.kind r := by
  unfold kind
  rw [hnil]
  by_cases hp : r.isPointer = true
  · obtain ⟨i, hi, rfl⟩ := hr hp
    rw [if_pos hp, if_pos hp, hl.wordIndex hi, (hsame i hi).shape_eq]
  · rw [if_neg hp, if_neg hp]

/-! ## Collections -/

theorem moveRef_inj (hl : h.LaidOut starts) {r' : Ref}
    (hr : r.isPointer = true → ∃ i ∈ starts, live i = true ∧ r = .ofWordIndex i)
    (hr' : r'.isPointer = true → ∃ i ∈ starts, live i = true ∧ r' = .ofWordIndex i)
    (heq : h.moveRef starts live r = h.moveRef starts live r') : r = r' := by
  have hpointer : ∀ i ∈ starts, live i = true →
      (h.moveRef starts live (.ofWordIndex i)).isPointer = true := by
    intro i hi hlive
    rw [moveRef_ofWordIndex hl hi]
    exact Ref.isPointer_ofWordIndex (first_le_slide ..) (slide_lt_addressLimit hl hi)
  by_cases hp : r.isPointer = true
  · obtain ⟨i, hi, hlive, rfl⟩ := hr hp
    by_cases hp' : r'.isPointer = true
    · obtain ⟨j, hj, hlive', rfl⟩ := hr' hp'
      rw [moveRef_ofWordIndex hl hi, moveRef_ofWordIndex hl hj] at heq
      have hpos := Ref.ofWordIndex_inj (slide_lt_addressLimit hl hi) (slide_lt_addressLimit hl hj) heq
      rw [hl.tiles.slide_inj h.sizeOf_pos hi hj hlive hlive' hpos]
    · have hi' := hpointer i hi hlive
      rw [heq, moveRef, if_neg hp'] at hi'
      exact absurd hi' hp'
  · by_cases hp' : r'.isPointer = true
    · obtain ⟨j, hj, hlive', rfl⟩ := hr' hp'
      have hj' := hpointer j hj hlive'
      rw [← heq, moveRef, if_neg hp] at hj'
      exact absurd hj' hp
    · rw [moveRef, moveRef, if_neg hp, if_neg hp'] at heq
      exact heq

/-- After a collection references lead to the same kinds of things. -/
theorem Collects.kind (hc : h.Collects starts live roots c) (hw : h.WellFormed starts)
    (hr : r.isPointer = true → ∃ i ∈ starts, live i = true ∧ r = .ofWordIndex i)
    (hnil : h.nil.isPointer = true → ∃ i ∈ starts, live i = true ∧ h.nil = .ofWordIndex i) :
    c.heap.kind (h.moveRef starts live r) = h.kind r := by
  have hl := hw.toLaidOut
  by_cases heq : r = h.nil
  · rw [heq, ← hc.nil, kind_nil, kind_nil]
  · have hne : h.moveRef starts live r ≠ c.heap.nil := by
      rw [hc.nil]
      exact fun h => heq (moveRef_inj hl hr hnil h)
    unfold Heap.kind
    rw [if_neg heq, if_neg hne]
    by_cases hp : r.isPointer = true
    · obtain ⟨i, hi, hlive, rfl⟩ := hr hp
      have hj : slide h.sizeOf live starts i ∈ h.survivors starts live :=
        mem_survivors.mpr ⟨i, hi, hlive, rfl⟩
      have hl' := hc.laidOut hw
      rw [moveRef_ofWordIndex hl hi, if_pos (hl'.isPointer hj), if_pos hp, hl'.wordIndex hj,
        hl.wordIndex hi, (hc.agrees hw hi hlive).toSameLayout.shape_eq]
    · rw [Heap.moveRef, if_neg hp, if_neg hp, if_neg hp]

theorem Shaped.collected (ho : h.Shaped starts) (hr : h.RootsIn starts roots)
    (hk : h.KeepsReachable starts live roots) (hc : h.Collects starts live roots c) :
    c.heap.Shaped (h.survivors starts live) where
  toWellFormed := hc.wellFormed ho.toWellFormed hr hk
  zero := hc.first.trans ho.zero
  table := hc.tableOwned ho.toWellFormed ho.table
  reserved := by
    rw [hc.reservedWords]
    exact ho.reserved
  follows := by
    intro j hj k hfixed
    obtain ⟨i, hi, hlive, rfl⟩ := mem_survivors.mp hj
    have hlayout := (hc.agrees ho.toWellFormed hi hlive).toSameLayout
    have hfixed' := (hlayout.isFixed_iff k).mp hfixed
    rw [hlayout.shape_eq, hc.ref_of_isTraced hi hlive hfixed'.isTraced,
      hc.kind ho.toWellFormed (fun hp =>
        hk.live_of_traced ho.toWellFormed hr hi hlive hfixed'.isTraced hp) fun hp =>
        hk.live_of_reachable ho.toWellFormed hr (.nil hp)]
    exact ho.follows i hi k hfixed'

/-! ## Allocation -/

/-- A fresh object has nil in its fields, which may stand for anything. -/
theorem Shaped.allocated (ho : h.Shaped starts) (ha : h.Allocated cls format fields len h')
    (hctx : format = .context → 3 ≤ fields) (hcls : Known starts cls)
    (hclass : (h.kind cls).Suits (format, fields) 1) (hnil : Known starts h.nil) :
    h'.Shaped (starts ++ [h.top]) := by
  have hl := ho.toLaidOut
  have hsame : ∀ i ∈ starts, View.SameLayout (h.view i) (h'.view i) := fun i hi =>
    (ha.agrees hl hi).toSameLayout
  refine
    { toWellFormed := ha.wellFormed ho.toWellFormed ho.reserved hctx
        (hcls.mono fun i hi => List.mem_append.mpr (.inl hi)) hnil
      zero := (ha.below 0 (Nat.lt_of_lt_of_le Nat.zero_lt_one hl.tiles.le)).trans ho.zero
      table := ho.table.congr ha.largeIntegers fun i hi s hs =>
        ⟨i, List.mem_append.mpr (.inl hi), (ha.largeSlot? hl hi).trans hs⟩
      reserved := by rw [ha.reservedWords]; exact ho.reserved
      follows := ?_ }
  intro i hi k hfixed
  rcases List.mem_append.mp hi with hold | hnew
  · have hfixed' := ((hsame i hold).isFixed_iff k).mp hfixed
    have href : (h'.view i).ref k = (h.view i).ref k :=
      congrArg Ref.mk (ha.view_eq hl hold hfixed'.isTraced.bounds.2)
    rw [(hsame i hold).shape_eq, href, kind_congr hl ha.nil (ho.traced i hold k hfixed'.isTraced) hsame]
    exact ho.follows i hold k hfixed'
  · rw [List.mem_singleton.mp hnew] at hfixed ⊢
    have hview : (h'.view h.top).shape = (format, fields) := Prod.ext ha.fresh_format ha.fresh_fields
    rw [ha.fresh_ref (ha.addressable hl ho.reserved) hfixed.isTraced, hview]
    rcases hfixed with rfl | ⟨-, hlo, hhi⟩
    · rw [if_pos rfl, kind_congr hl ha.nil hcls hsame]
      exact hclass
    · have hone : k ≠ 1 := by
        simp only [headerWords] at hlo
        omega
      rw [if_neg hone, kind_congr hl ha.nil hnil hsame, kind_nil]
      exact fun _ _ => .inl rfl

/-! ## Stores -/

/-- A store to an object keeps memory shaped if the object is still unmarked and its words lead to
what they may. -/
theorem Shaped.touch (ho : h.Shaped starts) (hi : i ∈ starts) (ht : Touches i h h')
    (hunmarked : (h'.view i).header.isMarked = false)
    (htraced : ∀ k, (h'.view i).IsTraced k → Known starts ((h'.view i).ref k))
    (hfixed : ∀ k, (h.view i).IsFixed k →
      (h.kind ((h'.view i).ref k)).Suits (h.view i).shape k)
    (howned : h'.SlotsOwned starts) (htable : h'.TableOwned starts) : h'.Shaped starts := by
  have hl := ho.toLaidOut
  have hsame : ∀ j ∈ starts, View.SameLayout (h.view j) (h'.view j) := fun j hj =>
    ht.sameLayout hl hi hj
  have href : ∀ j ∈ starts, j ≠ i → ∀ k, k < (h.view j).size →
      (h'.view j).ref k = (h.view j).ref k := fun j hj hne k hk =>
    congrArg Ref.mk (ht.view_eq hl hi hj hne hk)
  refine
    { toLaidOut := ht.laidOut hl hi
      toSlotsOwned := howned
      unmarked := ?_
      traced := ?_
      zero := (ht.outside 0 (.inl (hl.first_le hi))).trans ho.zero
      table := htable
      reserved := by rw [ht.reservedWords]; exact ho.reserved
      follows := ?_ }
  · intro j hj
    by_cases hne : j = i
    · rw [hne]
      exact hunmarked
    · rw [ht.header_eq hl hi hj hne]
      exact ho.unmarked j hj
  · intro j hj k hk hp
    by_cases hne : j = i
    · subst hne
      exact htraced k hk hp
    · have hk' := ((ht.agrees hl hi hj hne).isTraced_iff k).mp hk
      rw [href j hj hne k hk'.bounds.2] at hp ⊢
      exact ho.traced j hj k hk' hp
  · intro j hj k hk
    have hk' := ((hsame j hj).isFixed_iff k).mp hk
    rw [(hsame j hj).shape_eq]
    by_cases hne : j = i
    · subst hne
      rw [kind_congr hl ht.nil (htraced k hk.isTraced) hsame]
      exact hfixed k hk'
    · rw [href j hj hne k hk'.isTraced.bounds.2,
        kind_congr hl ht.nil (ho.traced j hj k hk'.isTraced) hsame]
      exact ho.follows j hj k hk'

/-- Storing a reference to a word of an object that is no context. -/
theorem Shaped.storeRef (ho : h.Shaped starts) (hi : i ∈ starts) (hpos : 0 < k)
    (hlt : k < (h.view i).size) (hcount : k ≠ headerWords + (h.view i).fields)
    (hcontext : (h.view i).format ≠ .context) (hlarge : (h.view i).format ≠ .largeInteger ∨ k = 1)
    (hvalue : Known starts value)
    (hsuits : (h.view i).IsFixed k → (h.kind value).Suits (h.view i).shape k) :
    (h.poke (i + k) value.bits).Shaped starts := by
  have hl := ho.toLaidOut
  have hin : i + k < h.memory.size := by
    have := hl.fits_memory hi
    omega
  have htouch := touches_poke hlt (hl.fits_memory hi) (by omega) hcount value.bits
  have hagree := agrees_poke hin (by omega) hcount (fun hc => absurd hc hcontext) value.bits
  have hview : ∀ l, ((h.poke (i + k) value.bits).view i).ref l =
      if l = k then value else (h.view i).ref l := by
    intro l
    unfold View.ref
    rw [view_poke hin]
    split <;> rfl
  have hheader : ((h.poke (i + k) value.bits).view i).header = (h.view i).header := by
    unfold View.header
    rw [view_poke hin, if_neg (by omega)]
  have hslot : (h.poke (i + k) value.bits).largeSlot? i = h.largeSlot? i := by
    unfold largeSlot?
    rw [hagree.format_eq]
    rcases hlarge with hf | rfl
    · simp [hf]
    · rw [cell_poke_ne (by simp [headerWords])]
  refine ho.touch hi htouch ?_ ?_ ?_ (htouch.slotsOwned hl hi ho.toSlotsOwned rfl hslot)
    (ho.table.touches htouch hl hi rfl hslot)
  · rw [hheader]
    exact ho.unmarked i hi
  · intro l hl'
    rw [hview]
    split
    · exact hvalue
    · exact ho.traced i hi l ((hagree.isTraced_iff l).mp hl')
  · intro l hl'
    rw [hview]
    split
    · rename_i hlk
      exact hlk ▸ hsuits (hlk ▸ hl')
    · exact ho.follows i hi l hl'

/-- Storing to words of an object that are no references. -/
theorem Shaped.storeRaw (ho : h.Shaped starts) (hi : i ∈ starts) {first last : Nat}
    (hraw : (h.view i).format.allowsFields = false) (hlarge : (h.view i).format ≠ .largeInteger)
    (hw : Within first last h h') (hfirst : i + headerWords ≤ first)
    (hcount : (h.view i).format.isIndexable = true → i + (h.view i).elements ≤ first)
    (hlast : last ≤ i + (h.view i).size) : Touches i h h' ∧ h'.Shaped starts := by
  have hl := ho.toLaidOut
  have hfront : ∀ k, k < headerWords → h'.view i k = h.view i k := fun k hk =>
    hw.outside _ (.inl (by omega))
  have hheader : (h'.view i).header = (h.view i).header :=
    congrArg Header.mk (hfront 0 (by decide))
  have hone : (h'.view i).ref 1 = (h.view i).ref 1 := congrArg Ref.mk (hfront 1 (by decide))
  have hlayout : View.SameLayout (h.view i) (h'.view i) := by
    refine ⟨by rw [hheader]; exact .refl _, ?_⟩
    intro hidx
    have hbehind := hcount hidx
    simp only [View.elements] at hbehind
    exact hw.outside _ (.inl (by omega))
  have htouch := hw.touches (by omega) hlast hlayout
  have hsame : h'.largeIntegers = h.largeIntegers := (congrArg Heap.largeIntegers hw.rest :)
  have hslot : h'.largeSlot? i = h.largeSlot? i := by
    unfold Heap.largeSlot?
    rw [hlayout.format_eq]
    simp [hlarge]
  refine ⟨htouch, ho.touch hi htouch ?_ ?_ ?_ (htouch.slotsOwned hl hi ho.toSlotsOwned hsame hslot)
    (ho.table.touches htouch hl hi hsame hslot)⟩
  · rw [hheader]
    exact ho.unmarked i hi
  · intro k hk
    rw [(View.isTraced_iff_class (by rw [hlayout.format_eq]; exact hraw) k).mp hk, hone]
    exact ho.traced i hi 1 (.inl rfl)
  · rintro k (rfl | ⟨hallows, -⟩)
    · rw [hone]
      exact ho.follows i hi 1 (.inl rfl)
    · rw [hraw] at hallows
      cases hallows

/-- Nil may be chosen while nothing is expected of any word. -/
theorem Shaped.setNil (ho : h.Shaped starts)
    (hfree : ∀ i ∈ starts, ∀ k, (h.view i).shape.expects k = none) (nil : Ref) :
    (h.setNil nil).Shaped starts where
  committed := ho.committed
  addressable := ho.addressable
  tiles := ho.tiles
  readable := ho.readable
  held := ho.held
  own := ho.own
  unmarked := ho.unmarked
  traced := ho.traced
  zero := ho.zero
  table := ⟨ho.table.1, ho.table.2, ho.table.3, ho.table.4⟩
  reserved := ho.reserved
  follows i hi k _ := Kind.suits_of_expects (hfree i hi k)

/-! ## Growth -/

/-- Memory in which the objects of other memory are where they were, with the same words unless they
have the shape of an association. -/
structure Extends (h : Heap) (starts : List Nat) (h' : Heap) (starts' : List Nat) : Prop where
  mem : ∀ i ∈ starts, i ∈ starts'
  top : h.top ≤ h'.top
  size : h.memory.size ≤ h'.memory.size
  nil : h'.nil = h.nil
  layout : ∀ i ∈ starts, View.SameLayout (h.view i) (h'.view i)
  words : ∀ i ∈ starts, (h.view i).shape ≠ .association →
    ∀ k < (h.view i).size, h'.view i k = h.view i k

namespace Extends

variable {h'' : Heap} {starts' starts'' : List Nat}

theorem refl (h : Heap) (starts : List Nat) : h.Extends starts h starts where
  mem _ hi := hi
  top := Nat.le_refl _
  size := Nat.le_refl _
  nil := rfl
  layout _ _ := .refl _
  words _ _ _ _ _ := rfl

theorem trans (he : h.Extends starts h' starts') (he' : h'.Extends starts' h'' starts'') :
    h.Extends starts h'' starts'' where
  mem i hi := he'.mem i (he.mem i hi)
  top := Nat.le_trans he.top he'.top
  size := Nat.le_trans he.size he'.size
  nil := he'.nil.trans he.nil
  layout i hi := (he.layout i hi).trans (he'.layout i (he.mem i hi))
  words i hi hshape k hk := by
    have hlayout := he.layout i hi
    rw [he'.words i (he.mem i hi) (by rw [hlayout.shape_eq]; exact hshape) k
      (by rw [hlayout.size_eq]; exact hk), he.words i hi hshape k hk]

/-- A store to an object that was not there, or that has the shape of an association. -/
theorem touches (he : h.Extends starts h' starts') (ht : Touches i h' h'') (hl : h.LaidOut starts)
    (hl' : h'.LaidOut starts') (hi : i ∈ starts')
    (hnew : h.top ≤ i ∨ (h'.view i).shape = .association) : h.Extends starts h'' starts' where
  mem := he.mem
  top := by
    rw [ht.top]
    exact he.top
  size := by
    rw [ht.size]
    exact he.size
  nil := ht.nil.trans he.nil
  layout j hj := (he.layout j hj).trans (ht.sameLayout hl' hi (he.mem j hj))
  words j hj hshape k hk := by
    have hlayout := he.layout j hj
    rw [← he.words j hj hshape k hk]
    refine ht.view_eq hl' hi (he.mem j hj) ?_ (by rw [hlayout.size_eq]; exact hk)
    rintro rfl
    rcases hnew with htop | hpair
    · have := hl.lt_top hj
      omega
    · rw [hlayout.shape_eq] at hpair
      exact hshape hpair

end Extends

theorem Allocated.extends (ha : h.Allocated cls format fields len h') (hl : h.LaidOut starts) :
    h.Extends starts h' (starts ++ [h.top]) where
  mem i hi := List.mem_append.mpr (.inl hi)
  top := by
    rw [ha.top]
    omega
  size := ha.grown
  nil := ha.nil
  layout i hi := (ha.agrees hl hi).toSameLayout
  words i hi _ k hk := ha.view_eq hl hi hk

end Heap

end ObjectMachine
