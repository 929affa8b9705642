import ObjectMachine.Collection.Relocation
import ObjectMachine.Proofs.Collection.BitVector
import ObjectMachine.Proofs.Heap.Bits

/-!
# Relocation through the tables

The tables of a relocation describe a map from old to new positions on the survivors recorded so
far. Recording keeps the description exact, and as long as the map is increasing, following the
tables from an old position leads to the new one: the `k`-th survivor of a block is the `k`-th set
bit from the new beginning of the first one on.

## Main results

* `Relocation.Tracks.record`: recording a survivor extends what the tables describe.
* `Relocation.Tracks.forward_ok`: the tables lead every survivor to its new position.
* `Relocation.Tracks.forward_error`: and nothing else anywhere.
-/

namespace ObjectMachine.Relocation

/-- The tables describe that the survivors `kept`, in this order, go where `target` says. -/
structure Tracks (t : Relocation) (top : Nat) (kept : List Nat) (target : Nat → Nat) : Prop where
  oldRoom : top ≤ t.old.capacity
  newRoom : top ≤ t.new.capacity
  blockRoom : t.firstOfBlock.size = (top + 63) / 64
  old : ∀ p, t.old.get p = true ↔ p ∈ kept
  new : ∀ p, t.new.get p = true ↔ p ∈ kept.map target
  first : ∀ b (hb : b < t.firstOfBlock.size),
    t.firstOfBlock[b] = (kept.find? fun i => decide (i / 64 = b)).map target

variable {t : Relocation} {top : Nat} {kept : List Nat} {target : Nat → Nat} {i : Nat}

theorem tracks_empty (top : Nat) (target : Nat → Nat) : (empty top).Tracks top [] target where
  oldRoom := BitVector.capacity_empty top
  newRoom := BitVector.capacity_empty top
  blockRoom := by simp [empty]
  old p := by simp [empty]
  new p := by simp [empty]
  first b hb := by simp [empty]

/-- Recording a survivor extends what the tables describe by it. -/
theorem Tracks.record (h : t.Tracks top kept target) (hi : i < top) (htarget : target i < top) :
    ∃ t', t.record i (target i) = .ok t' ∧ t'.Tracks top (kept ++ [i]) target := by
  obtain ⟨oldBits, newBits, firsts⟩ := t
  obtain ⟨old', hold⟩ := BitVector.exists_set (Nat.lt_of_lt_of_le hi h.oldRoom)
  obtain ⟨new', hnew⟩ := BitVector.exists_set (Nat.lt_of_lt_of_le htarget h.newRoom)
  have hroom : firsts.size = (top + 63) / 64 := h.blockRoom
  have hblock : i / 64 < firsts.size := by omega
  have hfirst := h.first (i / 64) hblock
  have holdGet : ∀ p, old'.get p = true ↔ p ∈ kept ++ [i] := by
    intro p
    have := h.old p
    simp only at this
    rw [BitVector.get_set hold, Bool.or_eq_true, this, List.mem_append, List.mem_singleton,
      decide_eq_true_eq, eq_comm]
  have hnewGet : ∀ p, new'.get p = true ↔ p ∈ (kept ++ [i]).map target := by
    intro p
    have := h.new p
    simp only at this
    rw [BitVector.get_set hnew, Bool.or_eq_true, this, List.map_append, List.mem_append,
      List.map_singleton, List.mem_singleton, decide_eq_true_eq, eq_comm]
  have holdRoom : top ≤ old'.capacity := by
    rw [BitVector.capacity_set hold]
    exact h.oldRoom
  have hnewRoom : top ≤ new'.capacity := by
    rw [BitVector.capacity_set hnew]
    exact h.newRoom
  have hrecord : Relocation.record ⟨oldBits, newBits, firsts⟩ i (target i) =
      if firsts[i / 64].isSome then .ok ⟨old', new', firsts⟩
      else .ok ⟨old', new', firsts.set (i / 64) (some (target i))⟩ := by
    unfold Relocation.record
    simp only [hold, hnew]
    show (if h : i / 64 < firsts.size then _ else _) = _
    rw [dif_pos hblock]
    rfl
  rw [hrecord]
  cases hsome : firsts[i / 64].isSome with
  | true =>
    refine ⟨_, rfl, holdRoom, hnewRoom, hroom, holdGet, hnewGet, fun b hb => ?_⟩
    have hb' := h.first b hb
    simp only at hb' hfirst
    rw [hb', List.find?_append]
    by_cases hbi : i / 64 = b
    · subst hbi
      rw [hfirst, Option.isSome_map] at hsome
      obtain ⟨j, hj⟩ := Option.isSome_iff_exists.mp hsome
      rw [hj]
      rfl
    · simp [hbi]
  | false =>
    refine ⟨_, rfl, holdRoom, hnewRoom, by simpa using hroom, holdGet, hnewGet, fun b hb => ?_⟩
    have hb' := h.first b (by simpa using hb)
    simp only at hb' hfirst
    rw [List.find?_append]
    by_cases hbi : i / 64 = b
    · subst hbi
      rw [hfirst, Option.isSome_map, Option.isSome_eq_false_iff, Option.isNone_iff_eq_none] at hsome
      rw [hsome]
      simp
    · simp only [Array.getElem_set, hbi, if_false]
      rw [hb']
      simp [hbi]

/-- The first member of an increasing list with a property is the least one. -/
private theorem le_of_find? {xs : List Nat} (hsorted : xs.Pairwise (· < ·)) {p : Nat → Bool}
    {a b : Nat} (ha : xs.find? p = some a) (hb : b ∈ xs) (hpb : p b = true) : a ≤ b := by
  obtain ⟨-, as, bs, rfl, hnone⟩ := List.find?_eq_some_iff_append.mp ha
  rcases List.mem_append.mp hb with hbas | hbbs
  · have := hnone b hbas
    rw [hpb] at this
    cases this
  · rcases List.mem_cons.mp hbbs with rfl | hbs
    · exact Nat.le_refl _
    · have hpair := (List.pairwise_append.mp hsorted).2.1
      exact Nat.le_of_lt ((List.pairwise_cons.mp hpair).1 b hbs)

/-- As many survivors lie between the first one of a block and a later one of it as there are set
bits between their new positions. -/
private theorem Tracks.rank_new (h : t.Tracks top kept target) (hsorted : kept.Pairwise (· < ·))
    (hmono : ∀ a ∈ kept, ∀ b ∈ kept, a < b → target a < target b) (hi : i ∈ kept) {j : Nat}
    (hj : kept.find? (fun a => decide (a / 64 = i / 64)) = some j) :
    t.new.rank (target j) (target i) = t.old.rank (64 * (i / 64)) i := by
  have hnodup : kept.Nodup := hsorted.imp fun hlt => Nat.ne_of_lt hlt
  have hmono' : ∀ a ∈ kept, ∀ b ∈ kept, (target a < target b ↔ a < b) := by
    intro a ha b hb
    refine ⟨fun hlt => ?_, hmono a ha b hb⟩
    rcases Nat.lt_trichotomy a b with hab | rfl | hba
    · exact hab
    · omega
    · have := hmono b hb a ha hba
      omega
  have hinj : ∀ a ∈ kept, ∀ b ∈ kept, target a = target b → a = b := by
    intro a ha b hb heq
    have hab := hmono' a ha b hb
    have hba := hmono' b hb a ha
    omega
  have hmapNodup : (kept.map target).Nodup := hnodup.map_on hinj
  have hjmem : j ∈ kept := List.mem_of_find?_eq_some hj
  have hjblock : j / 64 = i / 64 := by simpa using List.find?_some hj
  rw [BitVector.rank_eq_countP hmapNodup h.new, BitVector.rank_eq_countP hnodup h.old,
    List.countP_map]
  refine List.countP_congr fun a ha => ?_
  have hlt := hmono' a ha i hi
  have hge := hmono' a ha j hjmem
  simp only [Function.comp_apply, decide_eq_true_eq]
  constructor
  · rintro ⟨hja, hai⟩
    omega
  · rintro ⟨hblock, hai⟩
    have hleast : j ≤ a := le_of_find? hsorted hj ha (by simp; omega)
    omega

/-- The tables lead the position of every survivor to its new position, whatever else the reference
holds. -/
theorem Tracks.forward_ok (h : t.Tracks top kept target) (hsorted : kept.Pairwise (· < ·))
    (hmono : ∀ a ∈ kept, ∀ b ∈ kept, a < b → target a < target b) {r : Ref}
    (hi : r.wordIndex ∈ kept) (htop : r.wordIndex < top) :
    t.forward r = .ok (.ofWordIndex (target r.wordIndex)) := by
  generalize hindex : r.wordIndex = i at hi htop
  have hget : t.old.get i = true := (h.old i).mpr hi
  have hblock : i / 64 < t.firstOfBlock.size := by
    rw [h.blockRoom]
    omega
  obtain ⟨j, hj⟩ : ∃ j, kept.find? (fun a => decide (a / 64 = i / 64)) = some j := by
    rw [← Option.isSome_iff_exists, List.find?_isSome]
    exact ⟨i, hi, by simp⟩
  have hjmem : j ∈ kept := List.mem_of_find?_eq_some hj
  have hfirst : t.firstOfBlock[i / 64]? = some (some (target j)) := by
    rw [Array.getElem?_eq_getElem hblock, h.first _ hblock, hj]
    rfl
  have hle : target j ≤ target i := by
    rcases Nat.lt_or_eq_of_le (le_of_find? hsorted hj hi (by simp)) with hlt | rfl
    · exact Nat.le_of_lt (hmono j hjmem i hi hlt)
    · exact Nat.le_refl _
  have hnew : t.new.get (target i) = true :=
    (h.new _).mpr (List.mem_map.mpr ⟨i, hi, rfl⟩)
  have hselect : t.new.nthSetFrom (target j) (t.old.rank (64 * (i / 64)) i) = some (target i) :=
    (BitVector.nthSetFrom_eq_some_iff ..).mpr ⟨hle, hnew, h.rank_new hsorted hmono hi hj⟩
  unfold forward
  simp only [hindex, hget, if_true, hfirst, hselect,
    BitVector.ordinalInBlock_eq (Nat.lt_of_lt_of_le htop h.oldRoom)]

/-- The tables lead every survivor to its new position. -/
theorem Tracks.forward_eq (h : t.Tracks top kept target) (hsorted : kept.Pairwise (· < ·))
    (hmono : ∀ a ∈ kept, ∀ b ∈ kept, a < b → target a < target b) (hi : i ∈ kept)
    (htop : i < top) (haddr : i < Ref.addressLimit) :
    t.forward (.ofWordIndex i) = .ok (.ofWordIndex (target i)) := by
  have hindex : (Ref.ofWordIndex i).wordIndex = i := Ref.wordIndex_ofWordIndex haddr
  have hforward := h.forward_ok hsorted hmono (r := .ofWordIndex i) (by rwa [hindex])
    (by rwa [hindex])
  rwa [hindex] at hforward

/-- What is no survivor is refused. -/
theorem Tracks.forward_error (h : t.Tracks top kept target) {r : Ref}
    (hr : r.wordIndex ∉ kept) : t.forward r = .error (.notASurvivor r) := by
  have hget : t.old.get r.wordIndex = false := by
    rw [← Bool.not_eq_true, h.old]
    exact hr
  unfold forward
  simp [hget]

end ObjectMachine.Relocation
