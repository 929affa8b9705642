import ObjectMachine.Proofs.Collection.Accounting

/-!
# Keeping to the reservation

Three roundings decide how far memory reaches: the bytes committed at first are rounded up to whole
pages, later growth is rounded up and cut off at the reservation, and the reservation is rounded down
to whole words. Only growth looks at the reservation. So the pages committed at first are the one
thing that can lie beyond it, and the allocator hands out what is committed.

## Main results

* `Heap.Grown.limited`: what allocations and collections make of the words committed.
* `Heap.tryAllocate_eq_none_iff`: when the allocator refuses an object.
* `Heap.reservation_kept_iff`: memory keeps to its reservation, and the allocator agrees with the
  check for room, if and only if the pages committed at first fit the reservation.
-/

namespace ObjectMachine

/-- The pages committed at first lie inside the reservation. -/
def HeapConfig.PagesFit (c : HeapConfig) : Prop :=
  Heap.initialWords c ≤ c.maxBytes / wordBytes

instance (c : HeapConfig) : Decidable c.PagesFit :=
  inferInstanceAs (Decidable (_ ≤ _))

namespace Heap

variable {h h' : Heap} {c : HeapConfig} {starts : List Nat} {cls : Ref} {format : Format}
  {fields len words : Nat}

/-! ## The words committed -/

/-- Memory is as large as it was at first, or inside the reservation. -/
structure Limited (h : Heap) : Prop where
  reservedWords : h.reservedWords = h.config.maxBytes / wordBytes
  size : h.memory.size ≤ max (initialWords h.config) h.reservedWords

namespace Limited

theorem ofConfig (hok : Heap.ofConfig c = .ok h) : h.Limited := by
  unfold Heap.ofConfig at hok
  split at hok
  · cases hok
  · cases hok
    exact ⟨rfl, by simp⟩

theorem allocated (hm : h.Limited) (ha : h.Allocated cls format fields len h') : h'.Limited := by
  have hbounded := ha.bounded
  have hsize := hm.size
  refine ⟨?_, ?_⟩
  · rw [ha.reservedWords, ha.config]
    exact hm.reservedWords
  · rw [ha.reservedWords, ha.config]
    omega

theorem tryAllocate (hm : h.Limited) {r : Option Ref}
    (hok : h.tryAllocate cls format fields len = .ok (r, h')) : h'.Limited := by
  rcases tryAllocate_cases hok with ⟨-, rfl⟩ | ⟨-, ha⟩
  · exact hm
  · exact hm.allocated ha

theorem collect (hm : h.Limited) (ho : h.Orderly starts) {roots : List Ref} {c : Collected}
    (hr : ∀ r ∈ roots, r.isPointer = true → Designates starts r)
    (hok : h.collect roots = .ok c) : c.heap.Limited := by
  rcases collect_spec ho.toWellFormed ⟨hr, ho.nil⟩ with ⟨-, herror⟩ | ⟨c', live, hok', -, hc⟩
  · rw [herror] at hok
    cases hok
  · rw [hok'] at hok
    cases hok
    refine ⟨?_, ?_⟩
    · rw [hc.reservedWords, hc.config]
      exact hm.reservedWords
    · rw [hc.size, hc.reservedWords, hc.config]
      exact hm.size

theorem prepares (hm : h.Limited) (ho : h.Orderly starts) {roots roots' : List Ref} {cls' : Ref}
    (hr : ∀ r ∈ roots, r.isPointer = true → Designates starts r)
    (hcls : cls.isPointer = true → Designates starts cls)
    (hp : Prepares h roots cls h' roots' cls') : h'.Limited := by
  induction hp generalizing starts with
  | ready h roots cls => exact hm
  | @collect h h' roots roots' cls cls' c hok _ ih =>
    have hall : ∀ r ∈ roots ++ [cls], r.isPointer = true → Designates starts r := by
      intro r hmem
      rcases List.mem_append.mp hmem with hroot | hlast
      · exact hr r hroot
      · rw [List.mem_singleton.mp hlast]
        exact hcls
    obtain ⟨starts', ho', hr', hcls'⟩ := ho.prepares hr hcls (.collect hok (.ready ..))
    exact ih (hm.collect ho hall hok) ho' hr' hcls'

end Limited

/-- Whatever was allocated and collected, memory is as large as at first or inside the reservation. -/
theorem Grown.limited (hg : Grown h) : h.Limited := by
  induction hg with
  | start hok _ => exact .ofConfig hok
  | tryAllocate _ _ _ hok ih => exact ih.tryAllocate hok
  | allocate hg hr hcls _ hok ih =>
    obtain ⟨starts, ho⟩ := hg.orderly
    obtain ⟨h₁, cls₁, hprepares, htry⟩ := allocate_cases hok
    exact (ih.prepares ho (fun r hmem hp => ho.holds_iff.mp (hr r hmem hp))
      (fun hp => ho.holds_iff.mp (hcls hp)) hprepares).tryAllocate htry
  | collect hg hr hok ih =>
    obtain ⟨starts, ho⟩ := hg.orderly
    exact ih.collect ho (fun r hmem hp => ho.holds_iff.mp (hr r hmem hp)) hok

/-! ## Refusals -/

/-- The allocator refuses an object that lies neither inside what is committed nor inside the
reservation. -/
theorem tryAllocate_eq_none_iff (hcls : cls.isImmediate = false)
    (hallowed : fields = 0 ∨ format.allowsFields = true)
    (hwords : format.checkedSize fields len = .ok words) (hcount : h.top + words < countLimit) :
    (∃ h', h.tryAllocate cls format fields len = .ok (none, h')) ↔
      h.memory.size < h.top + words ∧ h.reservedWords < h.top + words := by
  have hclass : require (!cls.isImmediate) .operand = .ok () := by rw [hcls]; rfl
  have hfields : require (fields == 0 || format.allowsFields) .operand = .ok () :=
    if_pos (by simpa using hallowed)
  have hlast : checkedCount (h.top + words) = .ok (h.top + words) := if_pos hcount
  unfold tryAllocate
  rw [hclass, hfields, hwords]
  show (∃ h', (checkedCount (h.top + words) >>= fun last => _) = .ok (none, h')) ↔ _
  rw [hlast]
  show (∃ h', (if (!(h.ensureCommitted (h.top + words)).1) = true then _ else _ :
    Except Fatal (Option Ref × Heap)) = .ok (none, h')) ↔ _
  unfold ensureCommitted
  split
  · rename_i hin
    refine ⟨fun ⟨h', hok⟩ => ?_, fun ⟨hout, _⟩ => absurd hin (by omega)⟩
    obtain ⟨header, -, hnone⟩ := bind_eq_ok.mp hok
    cases hnone
  · rename_i hout
    split
    · rename_i hreserved
      exact ⟨fun _ => ⟨by omega, hreserved⟩, fun _ => ⟨_, rfl⟩⟩
    · rename_i hreserved
      refine ⟨fun ⟨h', hok⟩ => ?_, fun ⟨_, hbeyond⟩ => absurd hbeyond hreserved⟩
      obtain ⟨header, -, hnone⟩ := bind_eq_ok.mp hok
      cases hnone

/-- A request whose words can be counted does not run out of numbers. -/
theorem tryAllocate_ne_overflow (hwords : format.checkedSize fields len = .ok words)
    (hcount : h.top + words < countLimit) :
    h.tryAllocate cls format fields len ≠ .error (.fault .overflow) := by
  intro herror
  unfold tryAllocate at herror
  rcases bind_eq_error.mp herror with hcls | ⟨_, -, herror⟩
  · unfold require at hcls
    split at hcls <;> cases hcls
  rcases bind_eq_error.mp herror with hfields | ⟨_, -, herror⟩
  · unfold require at hfields
    split at hfields <;> cases hfields
  rcases bind_eq_error.mp herror with hsize | ⟨words', hsize, herror⟩
  · rw [hwords] at hsize
    cases hsize
  rw [hwords] at hsize
  cases hsize
  have hlast : checkedCount (h.top + words) = .ok (h.top + words) := if_pos hcount
  rw [hlast] at herror
  change (if (!(h.ensureCommitted (h.top + words)).1) = true then _ else _ :
    Except Fatal (Option Ref × Heap)) = _ at herror
  split at herror
  · cases herror
  · rcases bind_eq_error.mp herror with hheader | ⟨_, -, hrest⟩
    · cases (make_error hheader).1
    · cases hrest

/-- The allocator refuses exactly the objects that the check for room refuses. -/
def RefusesExactly (h : Heap) : Prop :=
  ∀ cls format fields len words, cls.isImmediate = false →
    (fields = 0 ∨ format.allowsFields = true) → format.checkedSize fields len = .ok words →
    h.top + words < countLimit →
    ((∃ h', h.tryAllocate cls format fields len = .ok (none, h')) ↔ h.hasRoomFor words = false)

theorem Limited.refusesExactly (hm : h.Limited) (hfit : h.config.PagesFit) : h.RefusesExactly := by
  intro cls format fields len words hcls hallowed hwords hcount
  rw [tryAllocate_eq_none_iff hcls hallowed hwords hcount]
  have hsize := hm.size
  have hreserved := hm.reservedWords
  unfold HeapConfig.PagesFit at hfit
  unfold hasRoomFor
  rw [decide_eq_true hcount, Bool.true_and, decide_eq_false_iff_not]
  omega

theorem Limited.committedBytes_le (hm : h.Limited) (hfit : h.config.PagesFit) :
    h.committedBytes ≤ h.config.maxBytes := by
  have hsize := hm.size
  have hreserved := hm.reservedWords
  unfold HeapConfig.PagesFit at hfit
  unfold committedBytes
  simp only [wordBytes] at hreserved hfit ⊢
  omega

theorem Grown.usedBytes_le_committedBytes (hg : Grown h) : h.usedBytes ≤ h.committedBytes := by
  obtain ⟨starts, ho⟩ := hg.orderly
  exact Nat.mul_le_mul_right wordBytes ho.committed

/-! ## Pages beyond the reservation -/

theorem initialWords_bounds (hvalid : c.problem? = none) (hbytes : c.maxBytes < countLimit) :
    pageWords ≤ initialWords c ∧ initialWords c < countLimit := by
  have hinitial : c.initialBytes ≤ c.maxBytes := by
    unfold HeapConfig.problem? at hvalid
    grind
  simp only [initialWords, wordBytes, pageWords, countLimit] at hbytes ⊢
  omega

/-- An array of `len` elements that takes all pages committed at first, in a heap without other
objects, and the heap with it. -/
structure Fills (c : HeapConfig) (len : Nat) (h h' : Heap) : Prop where
  grown : Grown h ∧ h.config = c
  size : h.memory.size = initialWords c
  reservedWords : h.reservedWords = c.maxBytes / wordBytes
  words : Format.array.checkedSize 0 len = .ok (initialWords c - firstWord)
  top : h.top = firstWord
  placed : h.tryAllocate .null .array 0 len = .ok (some (.ofWordIndex firstWord), h')
  grown' : Grown h' ∧ h'.config = c
  top' : h'.top = initialWords c

theorem exists_fills (hvalid : c.problem? = none) (hbytes : c.maxBytes < countLimit) :
    ∃ len h h', Fills c len h h' := by
  obtain ⟨hpage, hcount⟩ := initialWords_bounds hvalid hbytes
  simp only [pageWords] at hpage
  obtain ⟨h, hok, hsize, htop, hconfig, hreserved⟩ : ∃ h, ofConfig c = .ok h ∧
      h.memory.size = initialWords c ∧ h.top = firstWord ∧ h.config = c ∧
      h.reservedWords = c.maxBytes / wordBytes := by
    unfold ofConfig
    rw [hvalid]
    exact ⟨_, rfl, by simp, rfl, rfl, rfl⟩
  have hg : Grown h := .start hok hbytes
  have hshape : Format.array.sizeInWords 0 (initialWords c - 4) = initialWords c - firstWord := by
    simp only [Format.sizeInWords, Format.tailWords, headerWords, firstWord]
    omega
  have hwords : Format.array.checkedSize 0 (initialWords c - 4) =
      .ok (initialWords c - firstWord) := by
    show checkedCount (Format.array.sizeInWords 0 (initialWords c - 4)) = _
    rw [hshape]
    exact if_pos (by omega)
  have hlast : h.top + (initialWords c - firstWord) = initialWords c := by
    simp only [htop, firstWord]
    omega
  cases htry : h.tryAllocate .null .array 0 (initialWords c - 4) with
  | error e =>
    exfalso
    rcases tryAllocate_error rfl (.inl rfl) htry with rfl | ⟨-, hfields⟩
    · exact tryAllocate_ne_overflow hwords (by rw [hlast]; exact hcount) htry
    · cases hfields
  | ok x =>
    obtain ⟨r, h'⟩ := x
    rcases tryAllocate_cases htry with ⟨rfl, rfl⟩ | ⟨rfl, ha⟩
    · obtain ⟨hbeyond, -⟩ := (tryAllocate_eq_none_iff rfl (.inl rfl) hwords
        (by rw [hlast]; exact hcount)).mp ⟨_, htry⟩
      omega
    · have hg' : Grown h' := by
        refine .tryAllocate hg ?_ ?_ htry
        · intro hp
          cases hp
        · intro hf
          cases hf
      refine ⟨_, h, h', ⟨hg, hconfig⟩, hsize, hreserved, hwords, htop, ?_,
        ⟨hg', ha.config.trans hconfig⟩, ?_⟩
      · rw [htry, htop]
      · rw [ha.top, hshape, hlast]

/-- Over all histories of allocations and collections, bytes in use stay inside the reservation if
and only if the pages committed at first do. The same holds of the bytes committed, and of the
agreement between the allocator and the check for room. -/
theorem reservation_kept_iff (hvalid : c.problem? = none) (hbytes : c.maxBytes < countLimit) :
    ((∀ h, Grown h → h.config = c → h.usedBytes ≤ c.maxBytes) ↔ c.PagesFit) ∧
    ((∀ h, Grown h → h.config = c → h.committedBytes ≤ c.maxBytes) ↔ c.PagesFit) ∧
    ((∀ h, Grown h → h.config = c → h.RefusesExactly) ↔ c.PagesFit) := by
  obtain ⟨len, h, h', hfills⟩ := exists_fills hvalid hbytes
  obtain ⟨hpage, hcount⟩ := initialWords_bounds hvalid hbytes
  have hlast : firstWord + (initialWords c - firstWord) = initialWords c := by
    simp only [pageWords, firstWord] at hpage ⊢
    omega
  refine ⟨⟨fun hused => ?_, ?_⟩, ⟨fun hcommitted => ?_, ?_⟩, ⟨fun hrefuses => ?_, ?_⟩⟩
  · have hle := hused h' hfills.grown'.1 hfills.grown'.2
    unfold usedBytes at hle
    rw [hfills.top'] at hle
    unfold HeapConfig.PagesFit
    simp only [wordBytes] at hle ⊢
    omega
  · rintro hfit h hg rfl
    exact Nat.le_trans hg.usedBytes_le_committedBytes (hg.limited.committedBytes_le hfit)
  · have hle := hcommitted h hfills.grown.1 hfills.grown.2
    unfold committedBytes at hle
    rw [hfills.size] at hle
    unfold HeapConfig.PagesFit
    simp only [wordBytes] at hle ⊢
    omega
  · rintro hfit h hg rfl
    exact hg.limited.committedBytes_le hfit
  · -- The array that takes all pages is not refused, so there has to be room for it.
    have hroom : h.hasRoomFor (initialWords c - firstWord) = true := by
      have hiff := hrefuses h hfills.grown.1 hfills.grown.2 .null .array 0 len _ rfl (.inl rfl)
        hfills.words (by rw [hfills.top, hlast]; exact hcount)
      by_contra hnot
      obtain ⟨h'', hnone⟩ := hiff.mpr (Bool.eq_false_iff.mpr hnot)
      rw [hfills.placed] at hnone
      cases hnone
    have hle := of_decide_eq_true (Bool.and_eq_true_iff.mp hroom).2
    rw [hfills.top, hfills.reservedWords, hlast] at hle
    exact hle
  · rintro hfit h hg rfl
    exact hg.limited.refusesExactly hfit

/-- Of 5000 bytes, 625 words are reserved and two pages are committed at first. -/
def halfPageOver : HeapConfig := { initialBytes := 5000, maxBytes := 5000 }

theorem halfPageOver_notKept :
    halfPageOver.problem? = none ∧ halfPageOver.maxBytes < countLimit ∧
    (¬ ∀ h, Grown h → h.config = halfPageOver → h.committedBytes ≤ halfPageOver.maxBytes) ∧
    ¬ ∀ h, Grown h → h.config = halfPageOver → h.RefusesExactly := by
  have hkept := @reservation_kept_iff halfPageOver (by decide) (by decide)
  have hfit : ¬ halfPageOver.PagesFit := by decide
  exact ⟨by decide, by decide, fun h => hfit (hkept.2.1.mp h), fun h => hfit (hkept.2.2.mp h)⟩

end Heap

end ObjectMachine
