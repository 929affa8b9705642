import ObjectMachine.Proofs.Collection.Compaction
import ObjectMachine.Proofs.Heap.Allocation

/-!
# Where the tables of a compaction lead

A compaction answers memory with the survivors slid together, and tables that lead from their old
references to the new ones. These tables are compared with the plain address map: a survivor is found
behind all survivors that began below it. They lead every survivor there, they refuse every other
reference, and they never contradict each other, whatever objects are marked. That large integers own
their slots is needed for the compaction to come to an end, and not for its tables to be right.

## Main results

* `Heap.compacted_of_compact`: what a compaction that comes to an end has done.
* `Heap.compact_forwards`: the tables are the plain address map of the survivors.
-/

namespace ObjectMachine.Heap

variable {h h' : Heap} {starts done rest : List Nat} {c c' : Compaction} {i : Nat} {t : Relocation}

/-- What was released had been there. -/
theorem held_of_finalize (hr : (h.view i).Readable)
    (hfit : i + (h.view i).size ≤ h.memory.size)
    (hok : h.finalize i (h.view i).header = .ok h') (s : Nat) (hs : h.largeSlot? i = some s) :
    (h.largeIntegers.get? s).isSome = true := by
  have hformat := format_of_known hr (.refl (h.view i).header)
  unfold largeSlot? at hs
  split at hs
  · rename_i hlarge
    cases hs
    have hsize : (h.view i).size = headerWords + 1 := by
      simp [View.size, hlarge.1, Format.sizeInWords]
    unfold finalize at hok
    rw [hformat, hlarge.1] at hok
    change (h.word (i + headerWords) >>= _) = _ at hok
    rw [word_eq (by omega)] at hok
    change (if h.cell (i + headerWords) = noSlot then _ else _) = _ at hok
    rw [if_neg hlarge.2] at hok
    -- Only a slot that holds a value is released.
    by_contra hnot
    have hrefused : h.largeIntegers.release (h.cell (i + headerWords)).toNat =
        .error (.releasedTwice (h.cell (i + headerWords)).toNat) := by
      unfold LargeIntegers.release
      split
      · rename_i hlt
        rw [LargeIntegers.get?_eq_getElem hlt] at hnot
        rw [if_neg hnot]
      · rfl
    simp only [onLargeIntegers, hrefused] at hok
    cases hok
  · cases hs

namespace Sliding

/-- An object that was dropped kept the invariant. -/
theorem of_drop (hs : Sliding h starts done (i :: rest) c) (hl : h.LaidOut starts)
    (hm : h.isMarkedAt i = false)
    (hok : c.drop (h.view i).header (h.view i).size = .ok c') :
    Sliding h starts (done ++ [i]) rest c' := by
  have hi := hs.mem
  have hview := hs.view_eq
  have hheld : ∀ s, c.heap.largeSlot? i = some s →
      (c.heap.largeIntegers.get? s).isSome = true := by
    obtain ⟨h', hfinal⟩ : ∃ h', c.heap.finalize c.scan (h.view i).header = .ok h' := by
      obtain ⟨heap, relocation, scan, free, moved, reclaimed⟩ := c
      change (heap.finalize scan (h.view i).header >>= _) = _ at hok
      obtain ⟨h', hfinal, -⟩ := bind_eq_ok.mp hok
      exact ⟨h', hfinal⟩
    rw [hs.scan_eq, ← hview] at hfinal
    refine held_of_finalize ?_ ?_ hfinal
    · rw [hview]
      exact hl.readable i hi
    · rw [hview, hs.size]
      exact hl.fits_memory hi
  obtain ⟨c'', hdrop, hs'⟩ := hs.drop_of_held hl hheld hm
  rw [hdrop] at hok
  cases hok
  exact hs'

/-- A walk that came to an end looked at every object. -/
theorem of_run (hl : h.LaidOut starts) {fuel : Nat} (hs : Sliding h starts done rest c)
    (hfuel : rest.length ≤ fuel) (hok : c.run h.top fuel = .ok c') :
    Sliding h starts starts [] c' := by
  induction rest generalizing done c fuel with
  | nil =>
    rw [hs.run_nil] at hok
    cases hok
    exact hs.done_eq ▸ hs
  | cons i rest ih =>
    obtain ⟨fuel, rfl⟩ : ∃ n, fuel = n + 1 :=
      ⟨fuel - 1, by simp only [List.length_cons] at hfuel; omega⟩
    have hrest : rest.length ≤ fuel := by simpa using hfuel
    rw [hs.run_cons hl] at hok
    cases hm : h.isMarkedAt i with
    | true =>
      obtain ⟨c₁, hkeep, hs'⟩ := hs.keep hl hm
      rw [hm, if_pos rfl, hkeep] at hok
      exact ih hs' hrest hok
    | false =>
      rw [hm, if_neg Bool.false_ne_true] at hok
      obtain ⟨c₁, hdrop, hok⟩ := bind_eq_ok.mp hok
      exact ih (hs.of_drop hl hm hdrop) hrest hok

end Sliding

/-- What a compaction that comes to an end has done. -/
theorem compacted_of_compact (hl : h.LaidOut starts) (hok : h.compact = .ok (h', t)) :
    h.Compacted starts h.isMarkedAt h.unmarkedView h' t := by
  obtain ⟨c, hrun, hfinished⟩ := bind_eq_ok.mp hok
  obtain ⟨h₁, hfinish, hc⟩ := ((Sliding.start hl).of_run hl hl.length_le_top hrun).finish hl
  rw [hfinish] at hfinished
  cases hfinished
  exact hc.1

/-- The tables of a compaction are the plain address map: a reference to a survivor leads behind all
survivors that began below it, where its words now are, and every other reference is refused. The
tables do not contradict each other. A compaction comes to an end if large integers own their
slots. -/
theorem compact_forwards (hl : h.LaidOut starts) :
    (h.SlotsOwned starts → ∃ h' t, h.compact = .ok (h', t)) ∧
    ∀ h' t, h.compact = .ok (h', t) → ∀ r : Ref,
      (∀ i ∈ starts, h.isMarkedAt i = true → r.wordIndex = i →
        let target := firstWord + (((starts.filter (· < i)).filter h.isMarkedAt).map h.sizeOf).sum
        t.forward r = .ok (.ofWordIndex target) ∧
          ∀ k < h.sizeOf i, h'.view target k = h.unmarkedView i k) ∧
      (t.forward r = .error (.notASurvivor r) ↔
        ¬ ∃ i ∈ starts, h.isMarkedAt i = true ∧ r.wordIndex = i) ∧
      ∀ r', t.forward r ≠ .error (.inconsistentRelocation r') := by
  refine ⟨fun ho => ?_, fun h' t hok r => ?_⟩
  · obtain ⟨h', t, hok, -⟩ := compact_spec hl ho
    exact ⟨h', t, hok⟩
  have hc := compacted_of_compact hl hok
  have hmono : ∀ a ∈ starts.filter h.isMarkedAt, ∀ b ∈ starts.filter h.isMarkedAt, a < b →
      slide h.sizeOf h.isMarkedAt starts a < slide h.sizeOf h.isMarkedAt starts b := by
    intro a ha b hb hab
    obtain ⟨ha, hla⟩ := List.mem_filter.mp ha
    obtain ⟨hb, hlb⟩ := List.mem_filter.mp hb
    exact (hl.tiles.slide_lt_iff h.sizeOf_pos ha hb hla hlb).mpr hab
  have hforward : ∀ i ∈ starts, h.isMarkedAt i = true → r.wordIndex = i →
      t.forward r = .ok (.ofWordIndex (slide h.sizeOf h.isMarkedAt starts i)) := by
    rintro i hi hm rfl
    exact hc.tracks.forward_ok ((hl.tiles.sorted h.sizeOf_pos).filter _) hmono
      (List.mem_filter.mpr ⟨hi, hm⟩) (hl.lt_top hi)
  have hrefused : (¬ ∃ i ∈ starts, h.isMarkedAt i = true ∧ r.wordIndex = i) →
      t.forward r = .error (.notASurvivor r) := by
    intro hnone
    apply hc.tracks.forward_error
    intro hmem
    obtain ⟨hi, hm⟩ := List.mem_filter.mp hmem
    exact hnone ⟨_, hi, hm, rfl⟩
  refine ⟨fun i hi hm hindex => ⟨hforward i hi hm hindex, hc.view i hi hm⟩, ⟨?_, hrefused⟩, ?_⟩
  · rintro herror ⟨i, hi, hm, hindex⟩
    rw [hforward i hi hm hindex] at herror
    cases herror
  · intro r' herror
    by_cases hlive : ∃ i ∈ starts, h.isMarkedAt i = true ∧ r.wordIndex = i
    · obtain ⟨i, hi, hm, hindex⟩ := hlive
      rw [hforward i hi hm hindex] at herror
      cases herror
    · rw [hrefused hlive] at herror
      cases herror

/-- Two objects that refer to each other, both of them marked, and one between them that is not. -/
def ringMarked : Heap :=
  (ringWithGap.setMark 1 (ringWithGap.view 1).header).setMark 6 (ringWithGap.view 6).header

theorem ringMarked_laidOut : ringMarked.LaidOut [1, 4, 6] where
  committed := by decide
  addressable := by decide
  tiles := .cons (.cons (.cons (.nil 10)))
  readable i hi := by
    have hall : ∀ i ∈ [1, 4, 6], (ringMarked.view i).header.isValid = true ∧
        Format.ofCode? (ringMarked.view i).header.formatCode = some (ringMarked.view i).format ∧
        (ringMarked.view i).format ≠ .context := by decide
    obtain ⟨hvalid, hknown, hctx⟩ := hall i hi
    exact ⟨hvalid, hknown, fun hc => absurd hc hctx⟩

/-- The second survivor is led down over the gap, and the object in the gap is refused. -/
theorem ringMarked_forwards : ∃ h' t, ringMarked.compact = .ok (h', t) ∧
    t.forward (.ofWordIndex 6) = .ok (.ofWordIndex 4) ∧
    t.forward (.ofWordIndex 4) = .error (.notASurvivor (.ofWordIndex 4)) := by
  have hslots : ringMarked.SlotsOwned [1, 4, 6] := by
    have hnone : ∀ i ∈ [1, 4, 6], ringMarked.largeSlot? i = none := by decide
    refine ⟨fun i hi s hs => ?_, fun i hi j _ s hs _ => ?_⟩
    · rw [hnone i hi] at hs
      cases hs
    · rw [hnone i hi] at hs
      cases hs
  obtain ⟨hends, hforwards⟩ := compact_forwards ringMarked_laidOut
  obtain ⟨h', t, hok⟩ := hends hslots
  refine ⟨h', t, hok, ?_, ?_⟩
  · exact ((hforwards h' t hok (.ofWordIndex 6)).1 6 (by decide) (by decide) (by decide)).1
  · exact (hforwards h' t hok (.ofWordIndex 4)).2.1.mpr (by decide)

end ObjectMachine.Heap
