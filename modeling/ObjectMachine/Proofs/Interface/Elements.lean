import ObjectMachine.Proofs.Heap.Packing
import ObjectMachine.Proofs.Interface.Stores

/-!
# Stores to elements are local

Elements share words with their neighbours, the last ones with the null byte of a byte array and with
what is left of the last word. A store to one element reads back, and every other element, the rest
of the object and all other objects are as they were. Each format keeps its elements by a `Packing`,
and that a format does so is all that its stores have to be examined for: where there is room for an
element, what is fetched and what is stored.

## Main results

* `Replaces`: memory in which elements of one object have other values, and nothing else.
* `KeepsElements.replaces`: a store to one element replaces that element.
* `storeBytes_spec`: a store of bytes replaces the first ones and no other byte.
* `LaidOut.stores_local`: the stores to elements of all formats, and the bytes that are read after
  them.
-/

namespace ObjectMachine.Heap

/-! ## What a store may change -/

/-- Memory in which elements of the object that begins at `i` have other values, and nothing else.
`new` has the new values by the indices of the elements; `fetch` is how elements are read. -/
structure Replaces {α : Type} (fetch : Heap → Ref → Nat → Except Fatal α) (new : Nat → Option α)
    (starts : List Nat) (i : Nat) (h h' : Heap) : Prop extends
    Within (i + (h.view i).elements) (i + (h.view i).size) h h' where
  /-- What was written is read. -/
  written : ∀ k value, new k = some value → fetch h' (.ofWordIndex i) k = .ok value
  /-- The other elements are read as before. -/
  kept : ∀ k < (h.view i).len, new k = none →
    fetch h' (.ofWordIndex i) k = fetch h (.ofWordIndex i) k
  header : h'.header (.ofWordIndex i) = h.header (.ofWordIndex i)
  classOf : h'.classOf (.ofWordIndex i) = h.classOf (.ofWordIndex i)
  length : h'.length (.ofWordIndex i) = h.length (.ofWordIndex i)
  fields : ∀ k, h'.fetchField (.ofWordIndex i) k = h.fetchField (.ofWordIndex i) k
  /-- All words of the other objects are the same. -/
  others : ∀ j ∈ starts, j ≠ i → ∀ k < h.sizeOf j, h'.word (j + k) = h.word (j + k)
  laidOut : h'.LaidOut starts

/-- A byte array whose null byte, which is inside the object, is the same, and whose bytes are
answered in order. -/
structure KeepsNull (i : Nat) (h h' : Heap) : Prop where
  null : ∃ offset byte, h.bytesOffset (.ofWordIndex i) = .ok offset ∧
    offset + (h.view i).len < (i + (h.view i).size) * 8 ∧
    h.byteAtOffset (offset + (h.view i).len) = .ok byte ∧
    h'.byteAtOffset (offset + (h.view i).len) = .ok byte
  bytes : ∃ values, h'.bytes (.ofWordIndex i) = .ok values ∧ values.length = (h.view i).len ∧
    ∀ k, (hk : k < values.length) → h'.fetchByte (.ofWordIndex i) k = .ok values[k]

/-- The new values of a store to one element. -/
def single {α : Type} (k : Nat) (value : α) (l : Nat) : Option α :=
  if l = k then some value else none

theorem eq_of_single {α : Type} {k l : Nat} {value v : α} (h : single k value l = some v) :
    l = k := by
  unfold single at h
  split at h
  · assumption
  · cases h

/-! ## What stays -/

section Frame

variable {h h' : Heap} {starts : List Nat} {first last i p : Nat}

theorem Within.word_eq (hw : Within first last h h') (hp : p < first ∨ last ≤ p) :
    h'.word p = h.word p := by
  by_cases hin : p < h.memory.size
  · rw [Heap.word_eq hin, Heap.word_eq (by rw [hw.size]; exact hin), hw.outside p hp]
  · have hin' : ¬ p < h'.memory.size := by
      rw [hw.size]
      exact hin
    unfold word
    rw [dif_neg hin, dif_neg hin']

/-- Changes behind the element count leave the shape of an object as it is. -/
theorem Within.sameLayout (hw : Within (i + (h.view i).elements) last h h') :
    View.SameLayout (h.view i) (h'.view i) where
  header := by
    have hword : h'.view i 0 = h.view i 0 :=
      hw.outside _ (.inl (by simp only [View.elements]; omega))
    unfold View.header
    rw [hword]
    exact .refl _
  count _ := hw.outside _ (.inl (by simp only [View.elements]; omega))

/-- If only words of elements change, then nothing but elements does. -/
theorem Within.replaces {α : Type} {fetch : Heap → Ref → Nat → Except Fatal α}
    {new : Nat → Option α} (hw : Within (i + (h.view i).elements) (i + (h.view i).size) h h')
    (hl : h.LaidOut starts) (hi : i ∈ starts)
    (hwritten : ∀ k value, new k = some value → fetch h' (.ofWordIndex i) k = .ok value)
    (hkept : ∀ k < (h.view i).len, new k = none →
      fetch h' (.ofWordIndex i) k = fetch h (.ofWordIndex i) k) :
    Replaces fetch new starts i h h' := by
  have htouches : Touches i h h' := hw.touches (by omega) (Nat.le_refl _) hw.sameLayout
  have hl' := htouches.laidOut hl hi
  have hbefore : ∀ {q}, q < i + (h.view i).elements → h'.word q = h.word q :=
    fun hq => hw.word_eq (.inl hq)
  have hheader : h'.header (.ofWordIndex i) = h.header (.ofWordIndex i) := by
    unfold Heap.header
    rw [hl.wordIndex hi, hbefore (by simp only [View.elements]; omega)]
  refine ⟨hw, hwritten, hkept, hheader, ?_, ?_, ?_, ?_, hl'⟩
  · unfold Heap.classOf slot
    rw [hl.wordIndex hi, hbefore (by simp only [View.elements, headerWords]; omega)]
  · rw [hl.length hi, hl'.length hi, htouches.layout.len_eq]
  · intro k
    unfold fetchField fieldIndex slot
    rw [hheader, hl.header hi, hl.wordIndex hi]
    dsimp only
    split
    · rename_i position hposition
      split at hposition
      · rename_i hk
        cases hposition
        have hk' : k < (h.view i).fields := hk
        rw [hbefore (by simp only [View.elements]; omega)]
      · cases hposition
    · rfl
  · intro j hj hne k hk
    have hk' := hl.fits_memory hj
    have hlt : j + k < h.memory.size := Nat.lt_of_lt_of_le (Nat.add_lt_add_left hk j) hk'
    have hcell : h'.cell (j + k) = h.cell (j + k) := htouches.view_eq hl hi hj hne hk
    rw [Heap.word_eq hlt, Heap.word_eq (by rw [hw.size]; exact hlt), hcell]

end Frame

/-! ## How the formats keep their elements -/

/-- Objects of a format keep their elements by a packing, with room for each inside the object, and
these are what is fetched and stored. -/
structure KeepsElements {α : Type} (p : Packing α) (f : Format)
    (fetch : Heap → Ref → Nat → Except Fatal α)
    (store : Heap → Ref → Nat → α → Except Fatal Heap) : Prop where
  room : ∀ {fields len k : Nat}, k < len →
    headerWords + fields + 1 + k / p.count < f.sizeInWords fields len
  fetch_eq : ∀ {h : Heap} {starts : List Nat} {i k : Nat}, h.LaidOut starts → i ∈ starts →
    k < (h.view i).len → (h.view i).elements + k / p.count < (h.view i).size →
    fetch h (.ofWordIndex i) k = .ok (h.packed p (i + (h.view i).elements) k)
  store_eq : ∀ {h : Heap} {starts : List Nat} {i k : Nat}, h.LaidOut starts → i ∈ starts →
    k < (h.view i).len → (h.view i).elements + k / p.count < (h.view i).size → ∀ value : α,
    store h (.ofWordIndex i) k value = .ok (h.putPacked p (i + (h.view i).elements) k value)

theorem keepsReferences : KeepsElements .references .array fetchElement storeElement where
  room hk := by
    simp only [Packing.references, Format.sizeInWords, Format.tailWords]
    omega
  fetch_eq hl hi hk hin := by
    have hfit := hl.fits_memory hi
    simp only [Packing.references, Nat.div_one] at hin
    unfold fetchElement
    rw [elementIndex_eq hl hi hk]
    show Heap.slot _ _ = _
    rw [slot_eq (by omega), packed, Nat.add_assoc]
    simp [Packing.references]
  store_eq hl hi hk hin value := by
    simp only [Packing.references, Nat.div_one] at hin
    rw [storeElement_eq hl hi hk hin, putPacked, Nat.add_assoc]
    simp [Packing.references]

theorem keepsFloats : KeepsElements .floats .floatArray fetchFloatElement storeFloatElement where
  room hk := by
    simp only [Packing.floats, Format.sizeInWords, Format.tailWords]
    omega
  fetch_eq hl hi hk hin := by
    have hfit := hl.fits_memory hi
    simp only [Packing.floats, Nat.div_one] at hin
    unfold fetchFloatElement
    rw [elementIndex_eq hl hi hk]
    show (Heap.word _ _ >>= _) = _
    rw [Heap.word_eq (by omega), packed, Nat.add_assoc]
    simp [Packing.floats, bind, Except.bind, pure, Except.pure]
  store_eq hl hi hk hin value := by
    simp only [Packing.floats, Nat.div_one] at hin
    rw [storeFloatElement_eq hl hi hk hin, putPacked, Nat.add_assoc]
    simp [Packing.floats]

theorem keepsHalves : KeepsElements .halves .wordArray fetchWordElement storeWordElement where
  room hk := by
    simp only [Packing.halves, Format.sizeInWords, Format.tailWords]
    omega
  fetch_eq hl hi hk hin := by
    have hfit := hl.fits_memory hi
    simp only [Packing.halves] at hin
    unfold fetchWordElement
    rw [checkElement_eq hl hi hk, elementsIndex_eq hl hi]
    show (Heap.word _ (_ + _ / 2) >>= _) = _
    rw [Heap.word_eq (by omega)]
    rfl
  store_eq hl hi hk hin value := by
    have hfit := hl.fits_memory hi
    simp only [Packing.halves] at hin
    unfold storeWordElement
    rw [checkElement_eq hl hi hk, elementsIndex_eq hl hi]
    show (Heap.word _ (_ + _ / 2) >>= _) = _
    rw [Heap.word_eq (by omega)]
    exact setWord_eq (by omega) _

theorem keepsBytes : KeepsElements .bytes .byteArray fetchByte storeByte where
  room hk := by
    simp only [Packing.bytes, Format.sizeInWords, Format.tailWords]
    omega
  fetch_eq hl hi hk hin := by
    have hfit := hl.fits_memory hi
    simp only [Packing.bytes] at hin
    unfold fetchByte
    rw [checkElement_eq hl hi hk, bytesOffset_eq hl hi]
    exact byteAtOffset_packed (by omega)
  store_eq hl hi hk hin value := by
    have hfit := hl.fits_memory hi
    simp only [Packing.bytes] at hin
    unfold storeByte
    rw [checkElement_eq hl hi hk, bytesOffset_eq hl hi]
    exact setByteAtOffset_packed (by omega) value

namespace KeepsElements

variable {α : Type} {p : Packing α} {f : Format} {fetch : Heap → Ref → Nat → Except Fatal α}
  {store : Heap → Ref → Nat → α → Except Fatal Heap} {h h' : Heap} {starts : List Nat} {i k : Nat}

/-- Every element lies inside its object. -/
theorem inside (hp : KeepsElements p f fetch store) (hf : (h.view i).format = f)
    (hk : k < (h.view i).len) : (h.view i).elements + k / p.count < (h.view i).size := by
  unfold View.size
  rw [hf]
  exact hp.room hk

/-- If the packed values are replaced, then so are the elements. -/
theorem replaces_of_packed (hp : KeepsElements p f fetch store) (hl : h.LaidOut starts)
    (hi : i ∈ starts) (hf : (h.view i).format = f) {new : Nat → Option α}
    (hw : Within (i + (h.view i).elements) (i + (h.view i).size) h h')
    (hnew : ∀ l, h'.packed p (i + (h.view i).elements) l =
      (new l).getD (h.packed p (i + (h.view i).elements) l))
    (hlen : ∀ l value, new l = some value → l < (h.view i).len) :
    Replaces fetch new starts i h h' := by
  have hsame := hw.sameLayout
  have hl' : h'.LaidOut starts :=
    (hw.touches (by omega) (Nat.le_refl _) hsame).laidOut hl hi
  have hfetch' : ∀ l < (h.view i).len, fetch h' (.ofWordIndex i) l =
      .ok (h'.packed p (i + (h.view i).elements) l) := by
    intro l hlt
    have hlt' : l < (h'.view i).len := by
      rw [hsame.len_eq]
      exact hlt
    rw [hp.fetch_eq hl' hi hlt' (hp.inside (hsame.format_eq.trans hf) hlt'), hsame.elements_eq]
  refine hw.replaces hl hi ?_ ?_
  · intro l value hvalue
    rw [hfetch' l (hlen l value hvalue), hnew, hvalue]
    rfl
  · intro l hlt hnone
    rw [hfetch' l hlt, hnew, hnone, hp.fetch_eq hl hi hlt (hp.inside hf hlt)]
    rfl

/-- A store to one element: what it makes of memory, and of the packed values. -/
theorem store_spec (hp : KeepsElements p f fetch store) (hl : h.LaidOut starts) (hi : i ∈ starts)
    (hf : (h.view i).format = f) (hk : k < (h.view i).len) (value : α) :
    ∃ h', store h (.ofWordIndex i) k value = .ok h' ∧
      Within (i + (h.view i).elements) (i + (h.view i).size) h h' ∧
      ∀ l, h'.packed p (i + (h.view i).elements) l =
        (single k value l).getD (h.packed p (i + (h.view i).elements) l) := by
  have hin := hp.inside hf hk
  have hfit := hl.fits_memory hi
  refine ⟨_, hp.store_eq hl hi hk hin value, .poke (Nat.le_add_right _ _) (by omega) _, ?_⟩
  intro l
  rw [packed_putPacked (by omega), single]
  split <;> rfl

/-- A store to one element replaces that element. -/
theorem replaces (hp : KeepsElements p f fetch store) (hl : h.LaidOut starts) (hi : i ∈ starts)
    (hf : (h.view i).format = f) (hk : k < (h.view i).len) (value : α) :
    ∃ h', store h (.ofWordIndex i) k value = .ok h' ∧
      Replaces fetch (single k value) starts i h h' := by
  obtain ⟨h', hstore, hw, hnew⟩ := hp.store_spec hl hi hf hk value
  exact ⟨h', hstore, hp.replaces_of_packed hl hi hf hw hnew fun l v hv => eq_of_single hv ▸ hk⟩

end KeepsElements

/-! ## Bytes -/

section Bytes

variable {h h' : Heap} {starts : List Nat} {i : Nat}

/-- The bytes of a byte array and its null byte lie inside it. -/
theorem bytes_inside (hf : (h.view i).format = .byteArray) :
    (h.view i).elements + (h.view i).len / 8 < (h.view i).size := by
  unfold View.size View.elements
  rw [hf]
  simp only [Format.sizeInWords, Format.tailWords]
  omega

theorem bytes_eq (hl : h.LaidOut starts) (hi : i ∈ starts) (hf : (h.view i).format = .byteArray) :
    h.bytes (.ofWordIndex i) =
      .ok ((List.range (h.view i).len).map (h.packed .bytes (i + (h.view i).elements))) := by
  have hin := bytes_inside hf
  have hfit := hl.fits_memory hi
  have hroom : (h.view i).len = 0 ∨
      (i + (h.view i).elements) * 8 + (h.view i).len ≤ h.memory.size * 8 := by
    right
    omega
  unfold Heap.bytes
  rw [bytesOffset_eq hl hi, hl.length hi]
  show (if _ then _ else _) = _
  rw [if_pos hroom]
  show Except.ok (h.bytesFrom _ _) = _
  unfold bytesFrom
  congr 1
  apply List.map_congr_left
  intro k _
  have hdiv : ((i + (h.view i).elements) * 8 + k) / 8 = i + (h.view i).elements + k / 8 := by omega
  have hmod : ((i + (h.view i).elements) * 8 + k) % 8 = k % 8 := by omega
  rw [hdiv, hmod]
  rfl

/-- If the byte behind the last one is the same, then the null byte is kept. -/
theorem Within.keepsNull (hw : Within (i + (h.view i).elements) (i + (h.view i).size) h h')
    (hl : h.LaidOut starts) (hi : i ∈ starts) (hf : (h.view i).format = .byteArray)
    (hnull : h'.packed .bytes (i + (h.view i).elements) (h.view i).len =
      h.packed .bytes (i + (h.view i).elements) (h.view i).len) : KeepsNull i h h' := by
  have hin := bytes_inside hf
  have hfit := hl.fits_memory hi
  have hsame := hw.sameLayout
  have hl' : h'.LaidOut starts := (hw.touches (by omega) (Nat.le_refl _) hsame).laidOut hl hi
  have hf' : (h'.view i).format = .byteArray := hsame.format_eq.trans hf
  refine ⟨⟨_, _, bytesOffset_eq hl hi, by omega, byteAtOffset_packed (by omega), ?_⟩,
    ⟨_, bytes_eq hl' hi hf', ?_, ?_⟩⟩
  · rw [byteAtOffset_packed (by rw [hw.size]; omega), hnull]
  · rw [List.length_map, List.length_range, hsame.len_eq]
  · intro k hk
    rw [List.length_map, List.length_range] at hk
    rw [keepsBytes.fetch_eq hl' hi hk (keepsBytes.inside hf' hk)]
    simp

/-- Writing bytes one after the other replaces them from the first one on. -/
theorem setBytesFrom_spec {b last : Nat} (values : List UInt8) (first : Nat)
    (hlast : last ≤ h.memory.size) (hroom : b * 8 + first + values.length ≤ last * 8) :
    ∃ h', h.setBytesFrom (b * 8 + first) values = .ok h' ∧ Within b last h h' ∧
      ∀ l, h'.packed .bytes b l =
        if l < first then h.packed .bytes b l
        else values[l - first]?.getD (h.packed .bytes b l) := by
  induction values generalizing h first with
  | nil => exact ⟨h, rfl, .refl b last h, fun l => by simp⟩
  | cons value values ih =>
    rw [List.length_cons] at hroom
    have hin : b + first / 8 < h.memory.size := by omega
    have hbyte := setByteAtOffset_packed hin value
    have hw : Within b last h (h.putPacked .bytes b first value) :=
      .poke (Nat.le_add_right _ _) (show b + first / 8 < last by omega) _
    obtain ⟨h', hrest, hw', hpacked⟩ := ih (h := h.putPacked .bytes b first value) (first + 1)
      (by rw [hw.size]; exact hlast) (by omega)
    refine ⟨h', ?_, hw.trans hw', ?_⟩
    · rw [setBytesFrom, hbyte]
      exact hrest
    · intro l
      rw [hpacked, packed_putPacked hin]
      by_cases hlt : l < first
      · rw [if_pos (by omega), if_neg (by omega), if_pos hlt]
      · rw [if_neg hlt]
        by_cases heq : l = first
        · rw [if_pos (by omega), if_pos heq, heq, Nat.sub_self]
          rfl
        · have hsub : l - first = (l - (first + 1)) + 1 := by omega
          rw [if_neg (by omega), if_neg heq, hsub, List.getElem?_cons_succ]

/-- A store to the first bytes: what it makes of memory, and of the packed values. -/
theorem storeBytes_spec (hl : h.LaidOut starts) (hi : i ∈ starts)
    (hf : (h.view i).format = .byteArray) {values : List UInt8}
    (hlen : values.length ≤ (h.view i).len) :
    ∃ h', h.storeBytes (.ofWordIndex i) values = .ok h' ∧
      Within (i + (h.view i).elements) (i + (h.view i).size) h h' ∧
      ∀ l, h'.packed .bytes (i + (h.view i).elements) l =
        values[l]?.getD (h.packed .bytes (i + (h.view i).elements) l) := by
  have hin := bytes_inside hf
  obtain ⟨h', hstore, hw, hpacked⟩ := setBytesFrom_spec (b := i + (h.view i).elements) values 0
    (hl.fits_memory hi) (by omega)
  refine ⟨h', ?_, hw, fun l => by rw [hpacked, if_neg (Nat.not_lt_zero l), Nat.sub_zero]⟩
  unfold storeBytes
  rw [hl.length hi]
  show (require (decide (values.length ≤ (h.view i).len)) .position >>= _) = _
  rw [require, if_pos (decide_eq_true hlen)]
  show (h.bytesOffset (.ofWordIndex i) >>= _) = _
  rw [bytesOffset_eq hl hi]
  exact hstore

end Bytes

/-! ## All stores -/

/-- The stores to elements are local. In memory whose objects are laid out, a store of any value to
any element of an object of the store's format succeeds, and so does a store of bytes to a byte array
that is at least as long: the elements stored to are read as what was stored, and everything else is
as it was, the null byte of a byte array included. The bytes of a byte array are its elements, in
their order. -/
theorem LaidOut.stores_local {h : Heap} {starts : List Nat} {i : Nat} (hl : h.LaidOut starts)
    (hi : i ∈ starts) :
    ((h.view i).format = .array → ∀ k < (h.view i).len, ∀ value,
      ∃ h', h.storeElement (.ofWordIndex i) k value = .ok h' ∧
        Replaces fetchElement (single k value) starts i h h') ∧
    ((h.view i).format = .wordArray → ∀ k < (h.view i).len, ∀ value,
      ∃ h', h.storeWordElement (.ofWordIndex i) k value = .ok h' ∧
        Replaces fetchWordElement (single k value) starts i h h') ∧
    ((h.view i).format = .floatArray → ∀ k < (h.view i).len, ∀ value,
      ∃ h', h.storeFloatElement (.ofWordIndex i) k value = .ok h' ∧
        Replaces fetchFloatElement (single k value) starts i h h') ∧
    ((h.view i).format = .byteArray →
      (∀ k < (h.view i).len, ∀ value,
        ∃ h', h.storeByte (.ofWordIndex i) k value = .ok h' ∧
          Replaces fetchByte (single k value) starts i h h' ∧ KeepsNull i h h') ∧
      ∀ values, values.length ≤ (h.view i).len →
        ∃ h', h.storeBytes (.ofWordIndex i) values = .ok h' ∧
          Replaces fetchByte (fun k => values[k]?) starts i h h' ∧ KeepsNull i h h') := by
  refine ⟨fun hf k hk value => keepsReferences.replaces hl hi hf hk value,
    fun hf k hk value => keepsHalves.replaces hl hi hf hk value,
    fun hf k hk value => keepsFloats.replaces hl hi hf hk value, fun hf => ⟨?_, ?_⟩⟩
  · intro k hk value
    obtain ⟨h', hstore, hw, hnew⟩ := keepsBytes.store_spec hl hi hf hk value
    refine ⟨h', hstore, keepsBytes.replaces_of_packed hl hi hf hw hnew
      fun l v hv => eq_of_single hv ▸ hk, hw.keepsNull hl hi hf ?_⟩
    rw [hnew, single, if_neg (Nat.ne_of_gt hk)]
    rfl
  · intro values hlen
    obtain ⟨h', hstore, hw, hnew⟩ := storeBytes_spec hl hi hf hlen
    refine ⟨h', hstore, keepsBytes.replaces_of_packed hl hi hf hw hnew ?_, hw.keepsNull hl hi hf ?_⟩
    · intro k value hvalue
      obtain ⟨hk, -⟩ := List.getElem?_eq_some_iff.mp hvalue
      omega
    · rw [hnew, List.getElem?_eq_none hlen]
      rfl

/-- Seven bytes, three 32-bit words, one number and one reference: the null byte fills the word of
the bytes, and the last 32-bit word has one to itself. -/
def packedRow : Heap where
  memory := #[0,
    (Header.pack .byteArray 0 7).bits, (Ref.ofWordIndex 14).bits, 7, 0x0007060504030201,
    (Header.pack .wordArray 0 8).bits, (Ref.ofWordIndex 14).bits, 3, 0x0000000200000001, 3,
    (Header.pack .floatArray 0 9).bits, (Ref.ofWordIndex 14).bits, 1, 0x3FF0000000000000,
    (Header.pack .array 1 10).bits, (Ref.ofWordIndex 14).bits, (Ref.ofWordIndex 1).bits, 1,
    (Ref.ofWordIndex 5).bits]
  top := 19
  reservedWords := pageWords
  sinceCollection := 0
  config := {}
  hashState := 1
  nil := .null
  largeIntegers := .empty
  stats := {}

theorem packedRow_laidOut : packedRow.LaidOut [1, 5, 10, 14] where
  committed := by decide
  addressable := by decide
  tiles := .cons (.cons (.cons (.cons (.nil 19))))
  readable i hi := by
    have hall : ∀ i ∈ [1, 5, 10, 14], (packedRow.view i).header.isValid = true ∧
        Format.ofCode? (packedRow.view i).header.formatCode = some (packedRow.view i).format ∧
        (packedRow.view i).format ≠ .context := by decide
    obtain ⟨hvalid, hknown, hctx⟩ := hall i hi
    exact ⟨hvalid, hknown, fun hc => absurd hc hctx⟩

/-- The last byte is stored beside the null byte, the last 32-bit word in a word of its own, and the
number and the reference right before the next object and the end of memory. -/
theorem packedRow_stores :
    packedRow.LaidOut [1, 5, 10, 14] ∧
      (∃ h', packedRow.storeByte (.ofWordIndex 1) 6 0xFF = .ok h' ∧
        Replaces fetchByte (single 6 0xFF) [1, 5, 10, 14] 1 packedRow h' ∧
        KeepsNull 1 packedRow h') ∧
      (∃ h', packedRow.storeBytes (.ofWordIndex 1) [0x61, 0x62] = .ok h' ∧
        Replaces fetchByte (fun k => [0x61, 0x62][k]?) [1, 5, 10, 14] 1 packedRow h' ∧
        KeepsNull 1 packedRow h') ∧
      (∃ h', packedRow.storeWordElement (.ofWordIndex 5) 2 0xFFFFFFFF = .ok h' ∧
        Replaces fetchWordElement (single 2 0xFFFFFFFF) [1, 5, 10, 14] 5 packedRow h') ∧
      (∃ h', packedRow.storeFloatElement (.ofWordIndex 10) 0 ⟨0⟩ = .ok h' ∧
        Replaces fetchFloatElement (single 0 ⟨0⟩) [1, 5, 10, 14] 10 packedRow h') ∧
      ∃ h', packedRow.storeElement (.ofWordIndex 14) 0 .zero = .ok h' ∧
        Replaces fetchElement (single 0 .zero) [1, 5, 10, 14] 14 packedRow h' := by
  have hl := packedRow_laidOut
  have hbytes := (LaidOut.stores_local hl (show 1 ∈ [1, 5, 10, 14] by decide)).2.2.2 (by decide)
  have hwords := (LaidOut.stores_local hl (show 5 ∈ [1, 5, 10, 14] by decide)).2.1 (by decide)
  have hfloats := (LaidOut.stores_local hl (show 10 ∈ [1, 5, 10, 14] by decide)).2.2.1 (by decide)
  have hrefs := (LaidOut.stores_local hl (show 14 ∈ [1, 5, 10, 14] by decide)).1 (by decide)
  exact ⟨hl, hbytes.1 6 (by decide) _, hbytes.2 _ (by decide), hwords 2 (by decide) _,
    hfloats 0 (by decide) _, hrefs 0 (by decide) _⟩

end ObjectMachine.Heap
