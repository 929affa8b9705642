import ObjectMachine.Proofs.Interface.Storing

/-!
# Soundness is an invariant of the interface

Stores leave the objects where they are. An allocation adds one, and may collect before: then every
object may get another place, the class of the object to come included. A session stays sound over
all of this, and no operation that is allowed fails but for a limit of the heap.

## Main results

* `Session.Sound.collected`, `Session.Sound.allocated`: what a collection and what an allocation
  leave behind is sound.
* `Session.Sound.step`: an operation that is allowed keeps a session sound, or meets a limit.
* `Session.Reached.sound`: every session is sound.
* `Session.reached_intact`: verification finds nothing in it, and its objects tile memory.
-/

namespace ObjectMachine

/-! ## Collections -/

/-- What a survivor or a root holds may stand in a slot after a collection. -/
theorem Genuine.moveRef {h : Heap} {starts : List Nat} {live : Nat → Bool} {r : Ref}
    (hg : Genuine starts r) (hl : h.LaidOut starts)
    (hlive : r.isPointer = true → ∃ i ∈ starts, live i = true ∧ r = .ofWordIndex i) :
    Genuine (h.survivors starts live) (h.moveRef starts live r) := by
  have hp : (h.moveRef starts live r).isPointer = r.isPointer :=
    Heap.isPointer_moveRef hl hg.designates
  constructor
  · by_cases hr : r.isPointer = true
    · rw [hr] at hp
      exact Ref.not_isMarker_of_isPointer hp
    · rw [Heap.moveRef, if_neg hr]
      exact hg.isMarker
  · intro hp'
    rw [hp] at hp'
    exact Heap.Collects.designates_moveRef hl (hlive hp')

namespace Session

/-- An operation leads to a sound session, or meets a limit. -/
def Advances (s : Session) (op : HeapOperation) : Prop :=
  (∃ s' starts, s.run op = .ok s' ∧ s'.Sound starts) ∨ ∃ e, s.run op = .error e ∧ op.Meets e

theorem Advances.of_store {s : Session} {op : HeapOperation} {starts : List Nat}
    (hstore : ∃ s', s.run op = .ok s' ∧ s'.Sound starts) : s.Advances op := by
  obtain ⟨s', hrun, hs'⟩ := hstore
  exact .inl ⟨s', starts, hrun, hs'⟩

namespace Sound

variable {s : Session} {starts : List Nat}

/-- A collection leaves a sound session in which nothing has been written yet. Its roots are what
they were, moved. -/
theorem collected {roots : List Ref} {c : Collected} (hs : s.Sound starts)
    (hroots : ∀ r ∈ roots, Genuine starts r) (hok : s.heap.collect roots = .ok c) :
    ∃ starts' move, (⟨c.heap, []⟩ : Session).Sound starts' ∧
      c.heap.stats.collections = s.heap.stats.collections + 1 ∧ c.roots = roots.map move ∧
      ∀ r ∈ roots, Genuine starts' (move r) ∧ (move r).isPointer = r.isPointer := by
  have hw := hs.toWellFormed
  have hl := hs.toLaidOut
  have hr : s.heap.RootsIn starts roots :=
    ⟨fun r hmem => (hroots r hmem).designates, hs.nil.designates⟩
  rcases Heap.collect_spec hw hr with ⟨-, herror⟩ | ⟨c', live, hok', hk, hc⟩
  · rw [herror] at hok
    cases hok
  · rw [hok'] at hok
    cases hok
    refine ⟨s.heap.survivors starts live, s.heap.moveRef starts live, ?_, ?_, hc.roots, ?_⟩
    · refine
        { toWellFormed := hc.wellFormed hw hr hk
          classes := ?_
          slots := ?_
          table := hc.tableOwned hw hs.table
          reserved := ?_
          nil := ?_
          admitted := ?_
          written := ?_ }
      · intro j hj
        obtain ⟨i, hi, hlive, rfl⟩ := Heap.mem_survivors.mp hj
        have htraced : (s.heap.view i).IsTraced 1 := .inl rfl
        show ((c.heap.view _).ref 1).isPointer = true
        rw [hc.ref_of_isTraced hi hlive htraced,
          Heap.isPointer_moveRef hl (hs.traced i hi 1 htraced)]
        exact hs.classes i hi
      · intro j hj k hk'
        obtain ⟨i, hi, hlive, rfl⟩ := Heap.mem_survivors.mp hj
        have hslot := ((hc.agrees hw hi hlive).isSlot_iff k).mp hk'
        show ((c.heap.view _).ref k).isMarker = false
        rw [hc.ref_of_isTraced hi hlive (.inr hslot)]
        have hgenuine := hs.genuine_slot hi hslot
        exact (hgenuine.moveRef hl (hk.live_of_traced hw hr hi hlive (.inr hslot))).isMarker
      · show c.heap.reservedWords ≤ _
        rw [hc.reservedWords]
        exact hs.reserved
      · show Genuine _ c.heap.nil
        rw [hc.nil]
        exact hs.nil.moveRef hl fun hp => hk.live_of_reachable hw hr (.nil hp)
      · intro j hj
        obtain ⟨i, hi, hlive, rfl⟩ := Heap.mem_survivors.mp hj
        have hagree := hc.agrees hw hi hlive
        show (c.heap.view _).fields = 0 ∨ (c.heap.view _).format.allowsFields = true
        rw [hagree.fields_eq, hagree.format_eq]
        exact hs.admitted i hi
      · intro o k hmem
        cases hmem
    · rw [hc.stats]
    · intro r hmem
      exact ⟨(hroots r hmem).moveRef hl fun hp => hk.live_of_reachable hw hr (.root hmem hp),
        Heap.isPointer_moveRef hl (hroots r hmem).designates⟩

/-- Collections that make room for an object keep a session sound and its class an object. What was
written is forgotten if there was one at all. -/
theorem prepares {h h' : Heap} {written : List (Ref × Nat)} {roots roots' : List Ref}
    {cls cls' : Ref} (hp : Heap.Prepares h roots cls h' roots' cls')
    (hs : (⟨h, written⟩ : Session).Sound starts) (hroots : ∀ r ∈ roots, Genuine starts r)
    (hcls : cls.isPointer = true) (hdesignates : Designates starts cls) :
    ∃ starts' written', (⟨h', written'⟩ : Session).Sound starts' ∧
      (∀ r ∈ roots', Genuine starts' r) ∧
      cls'.isPointer = true ∧ Designates starts' cls' ∧ h.stats.collections ≤ h'.stats.collections ∧
      written' = if h'.stats.collections = h.stats.collections then written else [] := by
  induction hp generalizing starts written with
  | ready h roots cls =>
    exact ⟨starts, written, hs, hroots, hcls, hdesignates, Nat.le_refl _, (if_pos rfl).symm⟩
  | @collect h h' roots roots' cls cls' c hok _ ih =>
    have hgenuine : Genuine starts cls :=
      ⟨Ref.not_isMarker_of_isPointer hcls, fun _ => hdesignates⟩
    have hall : ∀ r ∈ roots ++ [cls], Genuine starts r := by
      intro r hmem
      rcases List.mem_append.mp hmem with hroot | hlast
      · exact hroots r hroot
      · rw [List.mem_singleton.mp hlast]
        exact hgenuine
    obtain ⟨starts', move, hs', hcount, hmoved, hmove⟩ := hs.collected hall hok
    have hfront : c.roots.dropLast = roots.map move := by simp [hmoved]
    have hlast : c.roots.getLastD cls = move cls := by simp [hmoved]
    have hnew := hmove cls (List.mem_append.mpr (.inr List.mem_cons_self))
    rw [hcls] at hnew
    have hkept : ∀ r ∈ c.roots.dropLast, Genuine starts' r := by
      intro r hmem
      rw [hfront] at hmem
      obtain ⟨r, hr, rfl⟩ := List.mem_map.mp hmem
      exact (hmove r (List.mem_append.mpr (.inl hr))).1
    obtain ⟨starts'', written'', hs'', hroots'', hcls'', hdesignates'', hle, hwritten⟩ :=
      ih hs' hkept (by rw [hlast]; exact hnew.2) (by rw [hlast]; exact hnew.1.designates hnew.2)
    have hmore : c.heap.stats.collections = h.stats.collections + 1 := hcount
    refine ⟨starts'', written'', hs'', hroots'', hcls'', hdesignates'', by omega, ?_⟩
    rw [hwritten, ite_self, if_neg (by omega)]

/-! ## Allocations -/

theorem mem_freshElements {r o : Ref} {format : Format} {len k : Nat} :
    (o, k) ∈ freshElements r format len ↔
      o = r ∧ format.hasReferenceTail = true ∧ k < len := by
  unfold freshElements
  split
  · rename_i htail
    simp only [List.mem_map, List.mem_range, Prod.mk.injEq, htail, true_and]
    constructor
    · rintro ⟨l, hl, rfl, rfl⟩
      exact ⟨rfl, hl⟩
    · rintro ⟨rfl, hk⟩
      exact ⟨k, hk, rfl, rfl⟩
  · simp_all

/-- The elements of a fresh object hold nil. -/
theorem genuineElement_fresh {h h' : Heap} {cls : Ref} {format : Format} {fields len k : Nat}
    (ha : h.Allocated cls format fields len h') (haddr : h'.memory.size ≤ Ref.addressLimit)
    (hnil : Genuine starts h.nil) (htail : format.hasReferenceTail = true) (hk : k < len) :
    (h'.view h.top).GenuineElement starts k := by
  have hidx : format.isIndexable = true := by
    cases format <;> simp_all [Format.hasReferenceTail, Format.isIndexable]
  have hlen := ha.fresh_len haddr hidx
  have htail' : (h'.view h.top).format.hasReferenceTail = true := by
    rw [ha.fresh_format]
    exact htail
  have hin : (h'.view h.top).elements + k < format.sizeInWords fields len := by
    rw [← ha.fresh_size haddr]
    exact View.elements_lt_size htail' (by omega)
  refine ⟨htail', by omega, ?_⟩
  obtain ⟨hash, hfresh⟩ := ha.fresh
  have hword := hfresh _ hin
  rw [Heap.freshView_element _ _ _ _ _ htail
    (by simp only [View.elements, ha.fresh_fields]; omega)] at hword
  have href : (h'.view h.top).ref ((h'.view h.top).elements + k) = h.nil := congrArg Ref.mk hword
  rw [href]
  exact hnil

/-- An allocation leaves a sound session with one more object, which may be its own class. All its
elements count as written. -/
theorem allocated {h' : Heap} {cls : Ref} {format : Format} {fields len : Nat}
    (hs : s.Sound starts) (ha : s.heap.Allocated cls format fields len h')
    (hctx : format = .context → 3 ≤ fields) (hcls : cls.isPointer = true)
    (hdesignates : Designates (starts ++ [s.heap.top]) cls) :
    (⟨h', freshElements (.ofWordIndex s.heap.top) format len ++ s.written⟩ : Session).Sound
      (starts ++ [s.heap.top]) := by
  have hl := hs.toLaidOut
  have haddr := ha.addressable hl hs.reserved
  have hsub : ∀ i ∈ starts, i ∈ starts ++ [s.heap.top] := by
    intro i hi
    exact List.mem_append.mpr (.inl hi)
  have hlast : s.heap.top ∈ starts ++ [s.heap.top] :=
    List.mem_append.mpr (.inr List.mem_cons_self)
  have href : ∀ i ∈ starts, ∀ k, k < (s.heap.view i).size →
      (h'.view i).ref k = (s.heap.view i).ref k := by
    intro i hi k hk
    exact congrArg Ref.mk (ha.view_eq hl hi hk)
  refine
    { toWellFormed := ha.wellFormed hs.toWellFormed hs.reserved hctx (fun _ => hdesignates)
        hs.nil.designates
      classes := ?_
      slots := ?_
      table := ?_
      reserved := ?_
      nil := ?_
      admitted := ?_
      written := ?_ }
  · intro i hi
    show ((h'.view i).ref 1).isPointer = true
    rcases List.mem_append.mp hi with hold | hnew
    · have htwo := (s.heap.view i).two_le_size
      rw [href i hold 1 (by omega)]
      exact hs.classes i hold
    · rw [List.mem_singleton.mp hnew, ha.fresh_ref haddr (.inl rfl), if_pos rfl]
      exact hcls
  · intro i hi k hk
    show ((h'.view i).ref k).isMarker = false
    rcases List.mem_append.mp hi with hold | hnew
    · have hk' := ((ha.agrees hl hold).isSlot_iff k).mp hk
      rw [href i hold k hk'.bounds.2]
      exact hs.slots i hold k hk'
    · rw [List.mem_singleton.mp hnew] at hk ⊢
      have hlo := hk.bounds.1
      simp only [headerWords] at hlo
      rw [ha.fresh_ref haddr (.inr hk), if_neg (by omega)]
      exact hs.nil.isMarker
  · show h'.TableOwned _
    apply hs.table.congr ha.largeIntegers
    intro i hi slot hslot
    exact ⟨i, hsub i hi, (ha.largeSlot? hl hi).trans hslot⟩
  · show h'.reservedWords ≤ _
    rw [ha.reservedWords]
    exact hs.reserved
  · show Genuine _ h'.nil
    rw [ha.nil]
    exact hs.nil.mono hsub
  · intro i hi
    show (h'.view i).fields = 0 ∨ (h'.view i).format.allowsFields = true
    rcases List.mem_append.mp hi with hold | hnew
    · have hagree := ha.agrees hl hold
      rw [hagree.fields_eq, hagree.format_eq]
      exact hs.admitted i hold
    · rw [List.mem_singleton.mp hnew, ha.fresh_fields, ha.fresh_format]
      exact ha.allowed
  · intro o k hmem
    rcases List.mem_append.mp hmem with hfresh | hold
    · obtain ⟨rfl, htail, hk⟩ := mem_freshElements.mp hfresh
      exact ⟨s.heap.top, hlast, rfl, genuineElement_fresh ha haddr (hs.nil.mono hsub) htail hk⟩
    · obtain ⟨i, hi, rfl, helement⟩ := hs.written o k hold
      exact ⟨i, hsub i hi, rfl, helement.congr (ha.agrees hl hi).toSameLayout
        (href i hi _ helement.lt_size) hsub⟩

/-! ## Operations -/

/-- A collection that fails has met the limit of its work list. -/
theorem collect_error {roots : List Ref} {e : Fatal} (hs : s.Sound starts)
    (hroots : ∀ r ∈ roots, Genuine starts r) (herror : s.heap.collect roots = .error e) :
    ∃ limit, e = .markStackOverflow limit := by
  have hr : s.heap.RootsIn starts roots :=
    ⟨fun r hmem => (hroots r hmem).designates, hs.nil.designates⟩
  rcases Heap.collect_spec hs.toWellFormed hr with ⟨-, hlimit⟩ | ⟨c, live, hok, -⟩
  · rw [hlimit] at herror
    cases herror
    exact ⟨_, rfl⟩
  · rw [hok] at herror
    cases herror

theorem collect {roots : List Ref} (hs : s.Sound starts) (ha : s.Allows (.collect roots)) :
    s.Advances (.collect roots) := by
  have hroots : ∀ r ∈ roots, Genuine starts r := by
    intro r hmem
    exact hs.storable (ha r hmem)
  cases hrun : s.heap.collect roots with
  | error e =>
    refine .inr ⟨e, ?_, hs.collect_error hroots hrun⟩
    show (s.heap.collect roots >>= _) = _
    rw [hrun]
    rfl
  | ok c =>
    obtain ⟨starts', -, hs', -⟩ := hs.collected hroots hrun
    refine .inl ⟨⟨c.heap, []⟩, starts', ?_, hs'⟩
    show (s.heap.collect roots >>= _) = _
    rw [hrun]
    rfl

theorem three_le_of_admits {format : Format} {fields : Nat} (ha : format.Admits fields) :
    format = .context → 3 ≤ fields := by
  intro hctx
  rw [ha.context hctx]
  decide

theorem tryAllocate {cls : Ref} {format : Format} {fields len : Nat} (hs : s.Sound starts)
    (ha : s.Allows (.tryAllocate cls format fields len)) :
    s.Advances (.tryAllocate cls format fields len) := by
  obtain ⟨hcls, hadmits⟩ := ha
  have hdesignates := hs.holds_iff.mp hcls
  have hpointer : cls.isPointer = true := by
    obtain ⟨i, hi, rfl⟩ := hdesignates
    exact hs.isPointer hi
  cases hrun : s.heap.tryAllocate cls format fields len with
  | error e =>
    refine .inr ⟨e, ?_, Heap.tryAllocate_error (Ref.not_isImmediate_of_isPointer hpointer)
      hadmits.allowed hrun⟩
    show (s.heap.tryAllocate cls format fields len >>= _) = _
    rw [hrun]
    rfl
  | ok result =>
    obtain ⟨r, h'⟩ := result
    rcases Heap.tryAllocate_cases hrun with ⟨rfl, rfl⟩ | ⟨rfl, hallocated⟩
    · refine .inl ⟨s, starts, ?_, hs⟩
      show (s.heap.tryAllocate cls format fields len >>= _) = _
      rw [hrun]
      rfl
    · refine .inl ⟨_, _, ?_, hs.allocated hallocated (three_le_of_admits hadmits) hpointer
        (hdesignates.mono fun i hi => List.mem_append.mpr (.inl hi))⟩
      show (s.heap.tryAllocate cls format fields len >>= _) = _
      rw [hrun]
      rfl

theorem allocate {roots : List Ref} {cls : Ref} {format : Format} {fields len : Nat}
    (hs : s.Sound starts) (ha : s.Allows (.allocate roots cls format fields len)) :
    s.Advances (.allocate roots cls format fields len) := by
  obtain ⟨hstorable, hcls, hadmits⟩ := ha
  have hroots : ∀ r ∈ roots, Genuine starts r := by
    intro r hmem
    exact hs.storable (hstorable r hmem)
  have hdesignates := hs.holds_iff.mp hcls
  have hpointer : cls.isPointer = true := by
    obtain ⟨i, hi, rfl⟩ := hdesignates
    exact hs.isPointer hi
  cases hrun : s.heap.allocate roots cls format fields len with
  | error e =>
    refine .inr ⟨e, ?_, ?_⟩
    · show (s.heap.allocate roots cls format fields len >>= _) = _
      rw [hrun]
      rfl
    · rcases Heap.allocate_error hrun with hsize | ⟨h₁, roots₁, cls₁, hprepares, hfails⟩
      · exact .inl (.inl hsize)
      · obtain ⟨starts₁, written₁, hs₁, hroots₁, hpointer₁, hdesignates₁, -⟩ :=
          prepares hprepares hs hroots hpointer hdesignates
        cases hfails with
        | collect herror =>
          refine .inr (.inl (hs₁.collect_error ?_ herror))
          intro r hmem
          rcases List.mem_append.mp hmem with hroot | hlast
          · exact hroots₁ r hroot
          · rw [List.mem_singleton.mp hlast]
            exact ⟨Ref.not_isMarker_of_isPointer hpointer₁, fun _ => hdesignates₁⟩
        | tryAllocate herror =>
          exact .inl (Heap.tryAllocate_error (Ref.not_isImmediate_of_isPointer hpointer₁)
            hadmits.allowed herror)
        | exhausted heq =>
          unfold Heap.reservationExhausted at heq
          split at heq
          · exact .inr (.inr ⟨_, _, _, heq⟩)
          · exact .inl (.inl heq)
  | ok result =>
    obtain ⟨r, roots', h'⟩ := result
    obtain ⟨h₁, cls₁, hprepares, htry⟩ := Heap.allocate_cases hrun
    obtain ⟨starts₁, written₁, hs₁, -, hpointer₁, hdesignates₁, -, hwritten⟩ :=
      prepares hprepares hs hroots hpointer hdesignates
    rcases Heap.tryAllocate_cases htry with ⟨hnone, -⟩ | ⟨hsome, hallocated⟩
    · cases hnone
    · cases hsome
      refine .inl ⟨_, _, ?_, hs₁.allocated hallocated (three_le_of_admits hadmits) hpointer₁
        (hdesignates₁.mono fun i hi => List.mem_append.mpr (.inl hi))⟩
      have hcount : h'.stats.collections = h₁.stats.collections := by rw [hallocated.stats]
      show (s.heap.allocate roots cls format fields len >>= _) = _
      rw [hrun, hwritten, ← hcount]
      rfl

/-- An operation that is allowed keeps a session sound, or meets a limit. -/
theorem step {op : HeapOperation} (hs : s.Sound starts) (ha : s.Allows op) : s.Advances op := by
  cases op with
  | allocate => exact hs.allocate ha
  | tryAllocate => exact hs.tryAllocate ha
  | storeField => exact .of_store (hs.storeField ha)
  | storeElement => exact .of_store (hs.storeElement ha)
  | setClassOf => exact .of_store (hs.setClassOf ha)
  | setCaptured => exact .of_store (hs.setCaptured ha)
  | storeByte => exact .of_store (hs.storeByte ha)
  | storeBytes => exact .of_store (hs.storeBytes ha)
  | storeWord => exact .of_store (hs.storeWord ha)
  | storeFloat => exact .of_store (hs.storeFloat ha)
  | setFloatValue => exact .of_store (hs.setFloatValue ha)
  | setLargeInteger => exact .of_store (hs.setLargeInteger ha)
  | setNil => exact .of_store (hs.setNil ha)
  | collect => exact hs.collect ha

/-! ## Sessions -/

/-- A heap without objects is sound. -/
theorem ofConfig {config : HeapConfig} {h : Heap} (hok : Heap.ofConfig config = .ok h)
    (hbytes : config.maxBytes < countLimit) : (⟨h, []⟩ : Session).Sound [] := by
  obtain ⟨hw, hreserved⟩ := Heap.wellFormed_ofConfig hok hbytes
  obtain ⟨hnil, -, -, hlarge⟩ := Heap.ofConfig_ok hok
  refine
    { toWellFormed := hw
      classes := by simp
      slots := by simp
      table := ?_
      reserved := hreserved
      nil := ?_
      admitted := by simp
      written := by simp }
  · show h.TableOwned []
    constructor <;> simp [hlarge, LargeIntegers.empty]
  · show Genuine [] h.nil
    rw [hnil]
    exact genuine_null []

end Sound

/-- Every session is sound. -/
theorem Reached.sound {s : Session} (hr : Reached s) : ∃ starts, s.Sound starts := by
  induction hr with
  | @start config h h₁ h₂ format fields len r hok hbytes hadmits htry hset =>
    have hs := Sound.ofConfig hok hbytes
    rcases Heap.tryAllocate_cases htry with ⟨hnone, -⟩ | ⟨hsome, ha⟩
    · cases hnone
    · cases hsome
      have hctx := Sound.three_le_of_admits hadmits
      have hl := ha.laidOut hs.toLaidOut hs.reserved hctx
      have htop : h.top ∈ [] ++ [h.top] := List.mem_cons_self
      -- Choosing the class afterwards is as good as having it chosen before.
      rw [Heap.setClassOf_eq hl htop] at hset
      cases hset
      have hsound := hs.allocated (ha.withClass _) hctx (hl.isPointer htop) ⟨h.top, htop, rfl⟩
      rw [List.append_nil] at hsound
      exact ⟨_, hsound⟩
  | step _ ha hrun ih =>
    obtain ⟨starts, hs⟩ := ih
    rcases hs.step ha with ⟨s', starts', hok, hs'⟩ | ⟨e, herror, -⟩
    · rw [hrun] at hok
      cases hok
      exact ⟨starts', hs'⟩
    · rw [hrun] at herror
      cases herror

/-- In every session verification finds no damage, the objects follow one another from the first word
exactly up to the first free one, in words that are committed, and have their reference slots
strictly inside themselves, behind header and class. Every operation that is allowed succeeds, or
meets a limit. -/
theorem reached_intact {s : Session} (hr : Reached s) :
    s.heap.damage? = .ok none ∧
    s.heap.top ≤ s.heap.memory.size ∧
    (∃ objects, s.heap.objects = .ok objects ∧
      Tiles s.heap.sizeOf firstWord (objects.map Ref.wordIndex) s.heap.top ∧
      ∀ o ∈ objects, s.heap.sizeInWords o = .ok (s.heap.sizeOf o.wordIndex) ∧
        ∃ slots, s.heap.referenceSlots o = .ok slots ∧
          ∀ p ∈ slots.positions, o.wordIndex + headerWords ≤ p ∧
            p < o.wordIndex + s.heap.sizeOf o.wordIndex) ∧
    ∀ op, s.Allows op → (∃ s', s.run op = .ok s') ∨ ∃ e, s.run op = .error e ∧ op.Meets e := by
  obtain ⟨starts, hs⟩ := hr.sound
  have hl := hs.toLaidOut
  refine ⟨Heap.damage?_eq_none hs.toFaultless, hl.committed, ?_, ?_⟩
  · refine ⟨_, hl.objects_eq, ?_, ?_⟩
    · have hplaces : (starts.map Ref.ofWordIndex).map Ref.wordIndex = starts := by
        rw [List.map_map]
        exact (List.map_congr_left fun i hi => hl.wordIndex hi).trans (List.map_id _)
      rw [hplaces]
      exact hl.tiles
    · intro o ho
      obtain ⟨i, hi, rfl⟩ := List.mem_map.mp ho
      rw [hl.wordIndex hi]
      refine ⟨hl.sizeInWords hi, _, hl.referenceSlots hi, ?_⟩
      intro p hp
      obtain ⟨k, rfl, hk⟩ := Heap.mem_slotsAt_positions.mp hp
      have hbounds := hk.bounds
      exact ⟨Nat.add_le_add_left hbounds.1 i, Nat.add_lt_add_left hbounds.2 i⟩
  · intro op ha
    rcases hs.step ha with ⟨s', -, hok, -⟩ | hlimit
    · exact .inl ⟨s', hok⟩
    · exact .inr hlimit

set_option maxRecDepth 8000 in
/-- A session in one page of memory, whose object has a field and two elements. -/
private theorem reached_onePage :
    ∃ s, Reached s ∧ s.heap.objects = .ok [.ofWordIndex 1] := by
  refine ⟨_, @Reached.start { initialBytes := 4096, maxBytes := 4096 } _ _ _ .array 1 2 _ rfl
    (by decide) ⟨.inr rfl, by decide⟩ rfl rfl, ?_⟩
  cbv

theorem onePage_intact :
    ∃ s, Reached s ∧ s.heap.nil = .ofWordIndex 1 ∧ s.heap.damage? = .ok none := by
  obtain ⟨s, hs, hobjects⟩ := reached_onePage
  have hnil : s.Allows (.setNil (.ofWordIndex 1)) := ⟨_, hobjects, List.mem_cons_self⟩
  have hstep : Reached ⟨s.heap.setNil (.ofWordIndex 1), s.written⟩ := .step hs hnil rfl
  exact ⟨_, hstep, rfl, (reached_intact hstep).1⟩

end Session

end ObjectMachine
