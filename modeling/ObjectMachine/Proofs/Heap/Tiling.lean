import Mathlib
import ObjectMachine.Heap.Basic

/-!
# Tilings

Objects follow one another without a gap. `Tiles size first starts last` says that the objects that
begin at `starts`, in this order and with these sizes, take exactly the words from `first` up to
`last`. Sliding some of them down closes the gaps that the others leave: an object goes to the first
word behind the survivors that begin below it.

## Main results

* `Tiles.apart`, `Tiles.not_mem_inside`: objects of a tiling do not overlap.
* `Tiles.split`: a tiling can be cut at every object.
* `Tiles.slide_apart`, `Tiles.slide_le`: sliding keeps objects apart and in order, and never moves
  one up.
* `Tiles.slide_tiles`: the survivors tile the words they slide to.
-/

namespace ObjectMachine

/-- Objects that begin at `starts` take the words from one position exactly up to another. -/
inductive Tiles (size : Nat → Nat) : Nat → List Nat → Nat → Prop
  | nil (i : Nat) : Tiles size i [] i
  | cons {i last : Nat} {starts : List Nat} :
      Tiles size (i + size i) starts last → Tiles size i (i :: starts) last

namespace Tiles

variable {size : Nat → Nat} {first last : Nat} {starts : List Nat}

theorem le (h : Tiles size first starts last) : first ≤ last := by
  induction h with
  | nil => exact Nat.le_refl _
  | cons _ ih => omega

/-- Every object lies inside the words that are tiled. -/
theorem bounds (h : Tiles size first starts last) :
    ∀ i ∈ starts, first ≤ i ∧ i + size i ≤ last := by
  induction h with
  | nil => simp
  | @cons j last starts htail ih =>
    intro i hi
    rcases List.mem_cons.mp hi with rfl | hmem
    · exact ⟨Nat.le_refl _, htail.le⟩
    · have := ih i hmem
      omega

/-- The sizes add up to the words that are tiled. -/
theorem sum_eq (h : Tiles size first starts last) : first + (starts.map size).sum = last := by
  induction h with
  | nil => simp
  | cons _ ih =>
    simp only [List.map_cons, List.sum_cons]
    omega

theorem append {middle : Nat} {xs ys : List Nat} (hx : Tiles size first xs middle)
    (hy : Tiles size middle ys last) : Tiles size first (xs ++ ys) last := by
  induction hx with
  | nil => exact hy
  | cons _ ih => exact .cons (ih hy)

/-- A tiling can be cut between any two objects. -/
theorem split {xs ys : List Nat} (h : Tiles size first (xs ++ ys) last) :
    ∃ middle, Tiles size first xs middle ∧ Tiles size middle ys last := by
  induction xs generalizing first with
  | nil => exact ⟨first, .nil first, h⟩
  | cons x xs ih =>
    cases h with
    | cons htail =>
      obtain ⟨middle, hx, hy⟩ := ih htail
      exact ⟨middle, .cons hx, hy⟩

/-- Cut at an object, a tiling continues where that object begins. -/
theorem split_at {i : Nat} {xs ys : List Nat} (h : Tiles size first (xs ++ i :: ys) last) :
    Tiles size first xs i ∧ Tiles size (i + size i) ys last := by
  obtain ⟨middle, hx, hy⟩ := h.split
  cases hy with
  | cons htail => exact ⟨hx, htail⟩

theorem congr {size' : Nat → Nat} (h : Tiles size first starts last)
    (hsize : ∀ i ∈ starts, size' i = size i) : Tiles size' first starts last := by
  induction h with
  | nil => exact .nil _
  | cons _ ih =>
    have hhead := hsize _ List.mem_cons_self
    refine .cons ?_
    rw [hhead]
    exact ih fun i hi => hsize i (List.mem_cons_of_mem _ hi)

/-- An object ends before the next one begins. -/
theorem apart (h : Tiles size first starts last) {i j : Nat} (hi : i ∈ starts) (hj : j ∈ starts)
    (hlt : i < j) : i + size i ≤ j := by
  induction h with
  | nil => simp at hi
  | @cons k last starts htail ih =>
    rcases List.mem_cons.mp hi with rfl | hi'
    · rcases List.mem_cons.mp hj with rfl | hj'
      · omega
      · exact (htail.bounds j hj').1
    · rcases List.mem_cons.mp hj with rfl | hj'
      · have := (htail.bounds i hi').1
        omega
      · exact ih hi' hj'

/-- No object begins inside another one. -/
theorem not_mem_inside (h : Tiles size first starts last) {i k : Nat} (hi : i ∈ starts)
    (hk : 0 < k) (hlt : k < size i) : i + k ∉ starts := by
  intro hmem
  have := h.apart hi hmem (by omega)
  omega

/-- Every word that is tiled lies inside an object. -/
theorem cover (h : Tiles size first starts last) {p : Nat} (hlo : first ≤ p) (hhi : p < last) :
    ∃ i ∈ starts, ∃ k, k < size i ∧ p = i + k := by
  induction h with
  | nil => omega
  | @cons i last starts _ ih =>
    rcases Nat.lt_or_ge p (i + size i) with hlt | hge
    · exact ⟨i, List.mem_cons_self, p - i, by omega, by omega⟩
    · obtain ⟨j, hj, k, hk, heq⟩ := ih hge hhi
      exact ⟨j, List.mem_cons_of_mem _ hj, k, hk, heq⟩

/-- Positions inside two objects differ unless the objects are the same. -/
theorem offset_inj (h : Tiles size first starts last) {i j k l : Nat} (hi : i ∈ starts)
    (hj : j ∈ starts) (hk : k < size i) (hl : l < size j) (heq : i + k = j + l) :
    i = j ∧ k = l := by
  rcases Nat.lt_trichotomy i j with hlt | rfl | hgt
  · have := h.apart hi hj hlt
    omega
  · exact ⟨rfl, by omega⟩
  · have := h.apart hj hi hgt
    omega

section Positive

variable (hpos : ∀ i, 0 < size i)
include hpos

theorem sorted (h : Tiles size first starts last) : starts.Pairwise (· < ·) := by
  induction h with
  | nil => exact .nil
  | @cons j last starts htail ih =>
    refine List.pairwise_cons.mpr ⟨fun i hi => ?_, ih⟩
    have := (htail.bounds i hi).1
    have := hpos j
    omega

theorem lt_last (h : Tiles size first starts last) {i : Nat} (hi : i ∈ starts) : i < last := by
  have := (h.bounds i hi).2
  have := hpos i
  omega

end Positive

/-- There are at most half as many objects as words. -/
theorem two_mul_length_le (htwo : ∀ i, 2 ≤ size i) (h : Tiles size first starts last) :
    first + 2 * starts.length ≤ last := by
  induction h with
  | nil => simp
  | @cons i last starts _ ih =>
    have := htwo i
    simp only [List.length_cons]
    omega

end Tiles

/-! ## Sliding -/

/-- The words taken by the survivors among some objects. -/
def liveWords (size : Nat → Nat) (live : Nat → Bool) (starts : List Nat) : Nat :=
  ((starts.filter live).map size).sum

/-- Where an object goes: behind the survivors that begin below it. -/
def slide (size : Nat → Nat) (live : Nat → Bool) (starts : List Nat) (i : Nat) : Nat :=
  firstWord + liveWords size live (starts.filter (· < i))

section LiveWords

variable {size : Nat → Nat} {live : Nat → Bool}

@[simp] theorem liveWords_nil : liveWords size live [] = 0 := rfl

theorem liveWords_append (xs ys : List Nat) :
    liveWords size live (xs ++ ys) = liveWords size live xs + liveWords size live ys := by
  simp [liveWords]

theorem liveWords_singleton (i : Nat) :
    liveWords size live [i] = if live i then size i else 0 := by
  cases h : live i <;> simp [liveWords, h]

theorem liveWords_le_sum (size : Nat → Nat) (live : Nat → Bool) (starts : List Nat) :
    liveWords size live starts ≤ (starts.map size).sum := by
  induction starts with
  | nil => simp
  | cons i starts ih =>
    have hcons : liveWords size live (i :: starts) =
        (if live i then size i else 0) + liveWords size live starts := by
      rw [← liveWords_singleton, ← liveWords_append]
      rfl
    rw [hcons, List.map_cons, List.sum_cons]
    split <;> omega

/-- What the survivors leave is taken by the others. -/
theorem liveWords_of_all {starts : List Nat} (hall : ∀ i ∈ starts, live i = true) :
    liveWords size live starts = (starts.map size).sum := by
  rw [liveWords, List.filter_eq_self.mpr hall]

theorem liveWords_add_not (size : Nat → Nat) (live : Nat → Bool) (starts : List Nat) :
    liveWords size live starts + liveWords size (fun i => !live i) starts =
      (starts.map size).sum := by
  induction starts with
  | nil => rfl
  | cons i starts ih =>
    simp only [liveWords, List.filter_cons, List.map_cons, List.sum_cons] at ih ⊢
    cases live i <;> simp <;> omega

theorem liveWords_congr {size' : Nat → Nat} {starts : List Nat}
    (hsize : ∀ i ∈ starts, size' i = size i) :
    liveWords size' live starts = liveWords size live starts := by
  unfold liveWords
  congr 1
  exact List.map_congr_left fun i hi => hsize i (List.mem_filter.mp hi).1

theorem slide_congr {size' : Nat → Nat} {starts : List Nat}
    (hsize : ∀ i ∈ starts, size' i = size i) : slide size' live starts = slide size live starts := by
  funext i
  unfold slide
  rw [liveWords_congr fun j hj => hsize j (List.mem_filter.mp hj).1]

theorem first_le_slide (starts : List Nat) (i : Nat) : firstWord ≤ slide size live starts i :=
  Nat.le_add_right ..

end LiveWords

namespace Tiles

variable {size : Nat → Nat} {live : Nat → Bool} {last : Nat} {starts : List Nat}

section Positive

variable (hpos : ∀ i, 0 < size i)
include hpos

/-- The survivors below an object are those in front of it. -/
theorem slide_eq {i : Nat} {xs ys : List Nat} (h : Tiles size firstWord (xs ++ i :: ys) last) :
    slide size live (xs ++ i :: ys) i = firstWord + liveWords size live xs := by
  have hbelow : xs.filter (· < i) = xs := by
    rw [List.filter_eq_self]
    intro j hj
    simpa using (h.split_at.1).lt_last hpos hj
  have habove : (i :: ys).filter (· < i) = [] := by
    rw [List.filter_eq_nil_iff]
    intro j hj
    simp only [decide_eq_true_eq]
    rcases List.mem_cons.mp hj with rfl | hj'
    · omega
    · have := ((h.split_at.2).bounds j hj').1
      omega
  rw [slide, List.filter_append, hbelow, habove, List.append_nil]

/-- No object slides up. -/
theorem slide_le (h : Tiles size firstWord starts last) {i : Nat} (hi : i ∈ starts) :
    slide size live starts i ≤ i := by
  obtain ⟨xs, ys, rfl⟩ := List.append_of_mem hi
  have hsum := h.split_at.1.sum_eq
  have hle : liveWords size live xs ≤ (xs.map size).sum := liveWords_le_sum ..
  rw [h.slide_eq hpos]
  omega

/-- No object slides at all if all of them survive. -/
theorem slide_eq_self (hall : ∀ i ∈ starts, live i = true) (h : Tiles size firstWord starts last)
    {i : Nat} (hi : i ∈ starts) : slide size live starts i = i := by
  obtain ⟨xs, ys, rfl⟩ := List.append_of_mem hi
  rw [h.slide_eq hpos, liveWords_of_all fun j hj => hall j (List.mem_append_left _ hj)]
  exact h.split_at.1.sum_eq

/-- A survivor leaves its words to no other object. -/
theorem slide_apart (h : Tiles size firstWord starts last) {i j : Nat} (hi : i ∈ starts)
    (hj : j ∈ starts) (hlive : live i = true) (hlt : i < j) :
    slide size live starts i + size i ≤ slide size live starts j := by
  obtain ⟨xs, ys, rfl⟩ := List.append_of_mem hj
  have hi' : i ∈ xs := by
    rcases List.mem_append.mp hi with hx | hy
    · exact hx
    · rcases List.mem_cons.mp hy with rfl | hy'
      · omega
      · have := (h.split_at.2.bounds i hy').1
        omega
  obtain ⟨us, vs, rfl⟩ := List.append_of_mem hi'
  rw [h.slide_eq hpos]
  rw [List.append_assoc, List.cons_append] at h ⊢
  rw [h.slide_eq hpos, liveWords_append, ← List.singleton_append, liveWords_append,
    liveWords_singleton, hlive, if_pos rfl]
  omega

theorem slide_lt_iff (h : Tiles size firstWord starts last) {i j : Nat} (hi : i ∈ starts)
    (hj : j ∈ starts) (hli : live i = true) (hlj : live j = true) :
    slide size live starts i < slide size live starts j ↔ i < j := by
  have hsi := hpos i
  have hsj := hpos j
  constructor
  · intro hlt
    rcases Nat.lt_trichotomy i j with hij | rfl | hji
    · exact hij
    · omega
    · have := h.slide_apart hpos hj hi hlj hji
      omega
  · intro hij
    have := h.slide_apart hpos hi hj hli hij
    omega

/-- Survivors do not slide onto each other. -/
theorem slide_inj (h : Tiles size firstWord starts last) {i j : Nat} (hi : i ∈ starts)
    (hj : j ∈ starts) (hli : live i = true) (hlj : live j = true)
    (heq : slide size live starts i = slide size live starts j) : i = j := by
  rcases Nat.lt_trichotomy i j with hlt | rfl | hgt
  · have := (h.slide_lt_iff hpos hi hj hli hlj).mpr hlt
    omega
  · rfl
  · have := (h.slide_lt_iff hpos hj hi hlj hli).mpr hgt
    omega

/-- A survivor slides to words below those of all survivors together. -/
theorem slide_add_size_le (h : Tiles size firstWord starts last) {i : Nat} (hi : i ∈ starts)
    (hlive : live i = true) :
    slide size live starts i + size i ≤ firstWord + liveWords size live starts := by
  obtain ⟨xs, ys, rfl⟩ := List.append_of_mem hi
  rw [h.slide_eq hpos, liveWords_append, ← List.singleton_append, liveWords_append,
    liveWords_singleton, hlive, if_pos rfl]
  omega

/-- The survivors tile the words that they slide to. -/
theorem slide_tiles (h : Tiles size firstWord starts last) {size' : Nat → Nat}
    (hsize : ∀ i ∈ starts, live i = true → size' (slide size live starts i) = size i) :
    Tiles size' firstWord ((starts.filter live).map (slide size live starts))
      (firstWord + liveWords size live starts) := by
  -- The tiling grows object by object: `xs` are those looked at so far.
  have key : ∀ ys xs, starts = xs ++ ys →
      Tiles size' firstWord ((xs.filter live).map (slide size live starts))
        (firstWord + liveWords size live xs) →
      Tiles size' firstWord ((starts.filter live).map (slide size live starts))
        (firstWord + liveWords size live starts) := by
    intro ys
    induction ys with
    | nil =>
      intro xs hxs hx
      rw [List.append_nil] at hxs
      rw [hxs] at hx ⊢
      exact hx
    | cons i ys ih =>
      intro xs hxs hx
      refine ih (xs ++ [i]) (by simp [hxs]) ?_
      have hi : i ∈ starts := by simp [hxs]
      have hslide : slide size live starts i = firstWord + liveWords size live xs := by
        subst hxs
        exact h.slide_eq hpos
      rw [List.filter_append, List.map_append, liveWords_append, liveWords_singleton]
      cases hlive : live i with
      | false => simpa [hlive] using hx
      | true =>
        have htail : Tiles size' (slide size live starts i) [slide size live starts i]
            (slide size live starts i + size i) := by
          refine .cons ?_
          rw [hsize i hi hlive]
          exact .nil _
        rw [hslide] at htail
        simpa [hlive, hslide, Nat.add_assoc] using hx.append htail
  exact key starts [] rfl (.nil _)

end Positive

end Tiles

end ObjectMachine
