import Mathlib

/-!
# Probing

A table with open addressing has places, each of which is free or has a key with a value. A key is
looked for from the place of its hash upwards, around the end. What is found is right as long as no
free place comes between the place of the hash of a key and the place where the key is. Keys are
added and values are replaced where the looking ends, which keeps that so; nothing is ever removed.

## Main results

* `Slots.exists_lands`: in a table that is not full looking for a key ends.
* `Slots.Probed.lands`: it ends at the key if the table has it.
* `Slots.Probed.set`: a table is still in order after a key was put where the looking ended.
-/

namespace ObjectMachine

/-- The places of a table, which are free or have a key and a value. -/
abbrev Slots (κ ν : Type) := List (Option (κ × ν))

namespace Slots

variable {κ ν : Type} {slots : Slots κ ν} {hash : κ → Nat} {start i j n n' : Nat} {key key' : κ}
  {value value' : ν}

/-- The number of places that are not free. -/
def used (slots : Slots κ ν) : Nat := slots.countP Option.isSome

/-- The keys in the order of their places. -/
def keys (slots : Slots κ ν) : List κ := (slots.filterMap id).map Prod.fst

/-- The place that is looked at after `n` others. -/
def place (slots : Slots κ ν) (start n : Nat) : Nat := (start + n) % slots.length

/-- Looking for a key ends after `n` places that have other keys, where the key is or where nothing
is. -/
structure Lands (slots : Slots κ ν) (start : Nat) (key : κ) (n : Nat) : Prop where
  lt : n < slots.length
  ends : slots[slots.place start n]? = some none ∨
    ∃ value, slots[slots.place start n]? = some (some (key, value))
  passes : ∀ i < n, ∃ key' value', slots[slots.place start i]? = some (some (key', value')) ∧
    key' ≠ key

/-- A table has each key once, where looking for it ends. -/
structure Probed (hash : κ → Nat) (slots : Slots κ ν) : Prop where
  once : ∀ {i j : Nat} {key value value'}, slots[i]? = some (some (key, value)) →
    slots[j]? = some (some (key, value')) → i = j
  reached : ∀ {j : Nat} {key value}, slots[j]? = some (some (key, value)) →
    ∃ n, slots.Lands (hash key) key n ∧ slots.place (hash key) n = j

/-! ## Places -/

theorem place_lt (slots : Slots κ ν) (start : Nat) (hn : n < slots.length) :
    slots.place start n < slots.length :=
  Nat.mod_lt _ (by omega)

/-- No place is looked at twice. -/
theorem place_inj (hn : n < slots.length) (hn' : n' < slots.length)
    (h : slots.place start n = slots.place start n') : n = n' := by
  have hmod : n ≡ n' [MOD slots.length] := Nat.ModEq.add_left_cancel' start h
  rwa [Nat.ModEq, Nat.mod_eq_of_lt hn, Nat.mod_eq_of_lt hn'] at hmod

/-- Every place is looked at. -/
theorem exists_place (start : Nat) (hj : j < slots.length) :
    ∃ n < slots.length, slots.place start n = j := by
  have hstart := Nat.mod_lt start (show 0 < slots.length by omega)
  refine ⟨(j + (slots.length - start % slots.length)) % slots.length, Nat.mod_lt _ (by omega), ?_⟩
  have hsum : start % slots.length + (j + (slots.length - start % slots.length)) =
      j + slots.length := by omega
  calc (start + (j + (slots.length - start % slots.length)) % slots.length) % slots.length
      = (start % slots.length + (j + (slots.length - start % slots.length))) % slots.length := by
        simp [Nat.add_mod]
    _ = j := by rw [hsum, Nat.add_mod_right, Nat.mod_eq_of_lt hj]

/-! ## Looking for a key -/

/-- Looking for a key ends at one place. -/
theorem Lands.unique (hn : slots.Lands start key n) (hn' : slots.Lands start key n') : n = n' := by
  have hle : ∀ {n n'}, slots.Lands start key n → slots.Lands start key n' → ¬ n < n' := by
    intro n n' hn hn' hlt
    obtain ⟨key', value', hslot, hne⟩ := hn'.passes n hlt
    rcases hn.ends with hfree | ⟨value, hkey⟩
    · rw [hfree] at hslot
      cases hslot
    · rw [hkey] at hslot
      cases hslot
      exact hne rfl
  have hlt := hle hn hn'
  have hgt := hle hn' hn
  omega

theorem exists_free (hused : slots.used < slots.length) : ∃ j < slots.length, slots[j]? = some none := by
  by_contra hnone
  push Not at hnone
  have hall : slots.countP Option.isSome = slots.length := by
    rw [List.countP_eq_length]
    intro slot hmem
    obtain ⟨j, hj, rfl⟩ := List.mem_iff_getElem.mp hmem
    have hj' := hnone j hj
    rw [List.getElem?_eq_getElem hj] at hj'
    exact Option.isSome_iff_ne_none.mpr fun hslot => hj' (congrArg some hslot)
  unfold used at hused
  omega

/-- In a table that is not full looking for a key ends. -/
theorem exists_lands (start : Nat) (key : κ) (hused : slots.used < slots.length) :
    ∃ n, slots.Lands start key n := by
  classical
  obtain ⟨j, hj, hfree⟩ := exists_free hused
  obtain ⟨m, hm, rfl⟩ := exists_place start hj
  let Ends (n : Nat) : Prop := slots[slots.place start n]? = some none ∨
    ∃ value, slots[slots.place start n]? = some (some (key, value))
  have hends : ∃ n, Ends n := ⟨m, .inl hfree⟩
  -- The first place at which it may end is where it ends.
  have hle : Nat.find hends ≤ m := Nat.find_min' hends (.inl hfree)
  refine ⟨Nat.find hends, by omega, Nat.find_spec hends, fun i hi => ?_⟩
  have hnot := Nat.find_min hends hi
  have hplace := slots.place_lt start (show i < slots.length by omega)
  cases hslot : slots[slots.place start i] with
  | none => exact absurd (.inl (by rw [List.getElem?_eq_getElem hplace, hslot])) hnot
  | some entry =>
    obtain ⟨key', value'⟩ := entry
    have hget : slots[slots.place start i]? = some (some (key', value')) := by
      rw [List.getElem?_eq_getElem hplace, hslot]
    refine ⟨key', value', hget, fun heq => hnot (.inr ⟨value', ?_⟩)⟩
    rw [hget, heq]

theorem mem_iff {entry : κ × ν} : some entry ∈ slots ↔ ∃ j : Nat, slots[j]? = some (some entry) :=
  List.mem_iff_getElem?

namespace Probed

/-- Looking for a key ends at the key if the table has it. -/
theorem lands (hp : Probed hash slots) (hn : slots.Lands (hash key) key n)
    (hmem : some (key, value) ∈ slots) :
    slots[slots.place (hash key) n]? = some (some (key, value)) := by
  obtain ⟨j, hj⟩ := mem_iff.mp hmem
  obtain ⟨n', hn', rfl⟩ := hp.reached hj
  rwa [hn.unique hn']

/-- Looking for a key ends at a free place if the table does not have it. -/
theorem lands_free (hn : slots.Lands start key n) (hmem : ∀ value, some (key, value) ∉ slots) :
    slots[slots.place start n]? = some none := by
  rcases hn.ends with hfree | ⟨value, hkey⟩
  · exact hfree
  · exact absurd (mem_iff.mpr ⟨_, hkey⟩) (hmem value)

theorem congr {hash' : κ → Nat} (hp : Probed hash slots)
    (hhash : ∀ key value, some (key, value) ∈ slots → hash' key = hash key) :
    Probed hash' slots := by
  refine ⟨hp.once, fun {j key value} hj => ?_⟩
  rw [hhash key value (mem_iff.mpr ⟨j, hj⟩)]
  exact hp.reached hj

/-! ## Adding a key -/

/-- The place where looking for a key ends is the only one that has the key. -/
theorem eq_place (hp : Probed hash slots) (hn : slots.Lands (hash key) key n)
    (hj : slots[j]? = some (some (key, value))) : j = slots.place (hash key) n := by
  obtain ⟨n', hn', rfl⟩ := hp.reached hj
  rw [hn'.unique hn]

/-- The table is still in order after a key was put where looking for it ended. -/
theorem set (hp : Probed hash slots) (hn : slots.Lands (hash key) key n) (value : ν) :
    Probed hash (slots.set (slots.place (hash key) n) (some (key, value))) := by
  have hlt := slots.place_lt (hash key) hn.lt
  have hplace : ∀ start n', place (slots.set (slots.place (hash key) n) (some (key, value)))
      start n' = slots.place start n' := by
    intro start n'
    unfold place
    rw [List.length_set]
  have hself : (slots.set (slots.place (hash key) n) (some (key, value)))[slots.place (hash key) n]? =
      some (some (key, value)) := by rw [List.getElem?_set_self hlt]
  have hother : ∀ {j}, j ≠ slots.place (hash key) n →
      (slots.set (slots.place (hash key) n) (some (key, value)))[j]? = slots[j]? := fun hne =>
    List.getElem?_set_ne (Ne.symm hne)
  constructor
  · intro i j key' value₁ value₂ hi hj
    by_cases hi' : i = slots.place (hash key) n <;> by_cases hj' : j = slots.place (hash key) n
    · rw [hi', hj']
    · rw [hi', hself] at hi
      cases hi
      rw [hother hj'] at hj
      exact absurd (hp.eq_place hn hj) hj'
    · rw [hj', hself] at hj
      cases hj
      rw [hother hi'] at hi
      exact absurd (hp.eq_place hn hi) hi'
    · rw [hother hi'] at hi
      rw [hother hj'] at hj
      exact hp.once hi hj
  · intro j key' value' hj
    by_cases hj' : j = slots.place (hash key) n
    · rw [hj', hself] at hj
      cases hj
      refine ⟨n, ⟨by rw [List.length_set]; exact hn.lt, .inr ⟨value, ?_⟩, fun i hi => ?_⟩,
        (hplace ..).trans hj'.symm⟩
      · rw [hplace]
        exact hself
      · rw [hplace, hother fun heq => absurd (place_inj (by have := hn.lt; omega) hn.lt heq) (by omega)]
        exact hn.passes i hi
    · rw [hother hj'] at hj
      obtain ⟨n', hn', rfl⟩ := hp.reached hj
      refine ⟨n', ⟨by rw [List.length_set]; exact hn'.lt, .inr ⟨value', ?_⟩, fun i hi => ?_⟩, hplace ..⟩
      · rw [hplace, hother hj']
        exact hj
      · rw [hplace]
        by_cases hi' : slots.place (hash key') i = slots.place (hash key) n
        · refine ⟨key, value, by rw [hi']; exact hself, fun heq => hj' ?_⟩
          subst heq
          exact hp.eq_place hn hj
        · rw [hother hi']
          exact hn'.passes i hi

/-- What a table has after a key was put where looking for it ended. -/
theorem mem_set (hp : Probed hash slots) (hn : slots.Lands (hash key) key n) :
    some (key', value') ∈ slots.set (slots.place (hash key) n) (some (key, value)) ↔
      (key' = key ∧ value' = value) ∨ (key' ≠ key ∧ some (key', value') ∈ slots) := by
  have hlt := slots.place_lt (hash key) hn.lt
  rw [mem_iff, mem_iff]
  constructor
  · rintro ⟨j, hj⟩
    by_cases hj' : j = slots.place (hash key) n
    · rw [hj', List.getElem?_set_self hlt] at hj
      cases hj
      exact .inl ⟨rfl, rfl⟩
    · rw [List.getElem?_set_ne (Ne.symm hj')] at hj
      refine .inr ⟨fun heq => hj' ?_, j, hj⟩
      subst heq
      exact hp.eq_place hn hj
  · rintro (⟨rfl, rfl⟩ | ⟨hne, j, hj⟩)
    · exact ⟨_, List.getElem?_set_self hlt⟩
    · refine ⟨j, ?_⟩
      rw [List.getElem?_set_ne fun heq => ?_]
      · exact hj
      · rw [← heq] at hj
        rcases hn.ends with hfree | ⟨old, hold⟩
        · rw [hfree] at hj
          cases hj
        · rw [hold] at hj
          cases hj
          exact hne rfl

end Probed

/-- Putting a key into a free place uses one more. -/
theorem used_set_free (hj : slots[j]? = some none) (entry : κ × ν) :
    used (slots.set j (some entry)) = slots.used + 1 := by
  obtain ⟨hlt, hslot⟩ := List.getElem?_eq_some_iff.mp hj
  unfold used
  rw [List.countP_set hlt, hslot]
  simp

/-- Replacing a value uses no more places. -/
theorem used_set_used {old : κ × ν} (hj : slots[j]? = some (some old)) (entry : κ × ν) :
    used (slots.set j (some entry)) = slots.used := by
  obtain ⟨hlt, hslot⟩ := List.getElem?_eq_some_iff.mp hj
  have hpos : 0 < slots.countP Option.isSome :=
    List.countP_pos_iff.mpr ⟨some old, hslot ▸ List.getElem_mem hlt, rfl⟩
  unfold used
  rw [List.countP_set hlt, hslot]
  simp only [Option.isSome_some, if_true]
  omega

/-! ## Tables without keys -/

theorem used_replicate (count : Nat) : used (List.replicate count none : Slots κ ν) = 0 := by
  unfold used
  rw [List.countP_replicate]
  rfl

theorem not_mem_replicate (count : Nat) (entry : κ × ν) :
    some entry ∉ (List.replicate count none : Slots κ ν) := fun hmem => by
  cases List.eq_of_mem_replicate hmem

theorem probed_replicate (hash : κ → Nat) (count : Nat) :
    Probed hash (List.replicate count none : Slots κ ν) where
  once hi := absurd (mem_iff.mpr ⟨_, hi⟩) (not_mem_replicate count _)
  reached hj := absurd (mem_iff.mpr ⟨_, hj⟩) (not_mem_replicate count _)

/-! ## Other values -/

/-- The table with the images of its values. -/
def mapValues (f : ν → ν) (slots : Slots κ ν) : Slots κ ν :=
  slots.map (Option.map fun entry => (entry.1, f entry.2))

variable {f : ν → ν}

@[simp] theorem length_mapValues : (slots.mapValues f).length = slots.length :=
  List.length_map _

theorem mapValues_id : slots.mapValues id = slots := by
  unfold mapValues
  simp [Prod.mk.eta]

theorem place_mapValues : (slots.mapValues f).place start n = slots.place start n := by
  unfold place
  rw [length_mapValues]

theorem getElem?_mapValues :
    (slots.mapValues f)[j]? = (slots[j]?).map (Option.map fun entry => (entry.1, f entry.2)) :=
  List.getElem?_map

theorem mapValues_free : (slots.mapValues f)[j]? = some none ↔ slots[j]? = some none := by
  rw [getElem?_mapValues]
  cases slots[j]? with
  | none => simp
  | some slot => cases slot <;> simp

theorem mapValues_used : (slots.mapValues f)[j]? = some (some (key, value)) ↔
    ∃ old, slots[j]? = some (some (key, old)) ∧ f old = value := by
  rw [getElem?_mapValues]
  cases slots[j]? with
  | none => simp
  | some slot =>
    cases slot with
    | none => simp
    | some entry =>
      obtain ⟨key', value'⟩ := entry
      simp only [Option.map_some, Option.some.injEq, Prod.mk.injEq]
      constructor
      · rintro ⟨rfl, rfl⟩
        exact ⟨value', ⟨rfl, rfl⟩, rfl⟩
      · rintro ⟨old, ⟨rfl, rfl⟩, rfl⟩
        exact ⟨rfl, rfl⟩

theorem mem_mapValues : some (key, value) ∈ slots.mapValues f ↔
    ∃ old, some (key, old) ∈ slots ∧ f old = value := by
  constructor
  · intro hmem
    obtain ⟨j, hj⟩ := mem_iff.mp hmem
    obtain ⟨old, hold, hf⟩ := mapValues_used.mp hj
    exact ⟨old, mem_iff.mpr ⟨j, hold⟩, hf⟩
  · rintro ⟨old, hmem, hf⟩
    obtain ⟨j, hj⟩ := mem_iff.mp hmem
    exact mem_iff.mpr ⟨j, mapValues_used.mpr ⟨old, hj, hf⟩⟩

theorem used_mapValues : (slots.mapValues f).used = slots.used := by
  unfold used mapValues
  rw [List.countP_map]
  congr 1
  funext slot
  simp

theorem Probed.mapValues (hp : Probed hash slots) (f : ν → ν) : Probed hash (slots.mapValues f) := by
  constructor
  · intro i j key value value' hi hj
    obtain ⟨old, hi, -⟩ := mapValues_used.mp hi
    obtain ⟨old', hj, -⟩ := mapValues_used.mp hj
    exact hp.once hi hj
  · intro j key value hj
    obtain ⟨old, hj, -⟩ := mapValues_used.mp hj
    obtain ⟨n, hn, hplace⟩ := hp.reached hj
    refine ⟨n, ⟨by rw [length_mapValues]; exact hn.lt, ?_, fun i hi => ?_⟩, by rwa [place_mapValues]⟩
    · rw [place_mapValues]
      rcases hn.ends with hfree | ⟨found, hfound⟩
      · exact .inl (mapValues_free.mpr hfree)
      · exact .inr ⟨f found, mapValues_used.mpr ⟨found, hfound, rfl⟩⟩
    · rw [place_mapValues]
      obtain ⟨key', value', hslot, hne⟩ := hn.passes i hi
      exact ⟨key', f value', mapValues_used.mpr ⟨value', hslot, rfl⟩, hne⟩

/-! ## Keys -/

theorem mem_keys : key ∈ slots.keys ↔ ∃ value, some (key, value) ∈ slots := by
  simp [keys]

theorem length_keys (slots : Slots κ ν) : slots.keys.length = slots.used := by
  unfold keys used
  rw [List.length_map]
  induction slots with
  | nil => rfl
  | cons slot rest ih =>
    cases slot with
    | none =>
      rw [List.filterMap_cons_none rfl, List.countP_cons_of_neg (by simp)]
      exact ih
    | some entry =>
      rw [List.countP_cons_of_pos rfl, ← ih]
      rfl

theorem Probed.nodup_keys (hp : Probed hash slots) : slots.keys.Nodup := by
  have hnodup : ∀ rest : Slots κ ν, (∀ {i j : Nat} {key value value'},
      rest[i]? = some (some (key, value)) → rest[j]? = some (some (key, value')) → i = j) →
      rest.keys.Nodup := by
    intro rest honce
    induction rest with
    | nil => exact List.nodup_nil
    | cons slot rest ih =>
      have hrest := ih fun {i j key value value'} hi hj =>
        Nat.succ.inj (honce (i := i + 1) (j := j + 1) hi hj)
      cases slot with
      | none => exact hrest
      | some entry =>
        refine List.nodup_cons.mpr ⟨fun hmem => ?_, hrest⟩
        obtain ⟨value, hvalue⟩ := mem_keys.mp hmem
        obtain ⟨j, hj⟩ := mem_iff.mp hvalue
        have hfirst : (some entry :: rest)[0]? = some (some (entry.1, entry.2)) := rfl
        exact absurd (honce (j := j + 1) hfirst hj) (by omega)
  exact hnodup slots hp.once

end Slots

end ObjectMachine
