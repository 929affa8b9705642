import ObjectMachine.Proofs.Class.Catalog
import ObjectMachine.Proofs.Class.Room

/-!
# Dictionaries that are made, filled and replaced

A new dictionary is empty and belongs to nobody. Adding a method to a class that a catalog follows
puts the method into the dictionary, after it was replaced by one of twice the capacity if it would
get too full; everything else in the catalog stays.

## Main results

* `Machine.Stage.newDictionary`: a new dictionary is an empty table.
* `Machine.Stage.installFiled`: adding a method to a class adds it to what the dictionary has.
-/

namespace ObjectMachine

/-- The object that was allocated last is one of the objects. -/
theorem Heap.Allocated.top_mem {h g : Heap} {starts : List Nat} {cls : Ref} {s : Shape}
    {format : Format} {fields len : Nat} (ha : h.Allocated cls format fields len g)
    (hl : g.LaidOut starts) (hknown : Known starts (.ofWordIndex h.top))
    (hkind : g.kind (.ofWordIndex h.top) = .object s) :
    h.top ∈ starts ∧ (g.view h.top).shape = s := by
  obtain ⟨i, hi, heq, hshape⟩ := hl.of_kind hknown hkind
  have hsize := format.two_le_sizeInWords fields len
  have htop := ha.top
  have hcommitted := ha.committed
  have haddr := hl.addressable
  have hi' := Ref.ofWordIndex_inj (show h.top < Ref.addressLimit by omega) (hl.lt_addressLimit hi) heq
  rw [hi']
  exact ⟨hi, hshape⟩

namespace Machine

variable {m m' : Machine} {starts starts' : List Nat} {h : Heap} {r cls value method : Ref}
  {s : Shape} {w : Watch} {marks : List Mark} {t : Catalog} {hb : t.Below} {x : Handle} {log : Log}

/-! ## New dictionaries -/

/-- What was allocated last is above everything else. -/
theorem Stage.allocate_placed {format : Format} {fields len : Nat} (hs : Stage w marks m starts)
    (hctx : format = .context → 3 ≤ fields)
    (hcls : Mark.Holds ⟨(·.Suits (format, fields) 1), none⟩ w m starts cls) :
    (m.allocate cls format fields len).Meets (fun r m' => ∃ (n : Machine) (cls' : Ref) (h : Heap)
      (starts' : List Nat), n.heap.Allocated cls' format fields len h ∧
      r = .ofWordIndex n.heap.top ∧ m' = { n with heap := h } ∧ Stage w marks m' starts' ∧
      (Mark.new (format, fields)).Holds w m' starts' r) fun _ => False := by
  refine allocate_meets (P := Gives w marks ⟨(·.Suits (format, fields) 1), none⟩)
    ⟨starts, hs, hcls⟩ ?_ ?_
  · rintro r n ⟨starts, hs, hr⟩
    exact hs.collectKeeping hr
  · rintro r n h ⟨starts, hs, hr⟩ ha
    obtain ⟨starts', hs', hr'⟩ := hs.allocated ha hctx hr fun hshaped =>
      w.fresh hs.sound ha hshaped hs.kept
    exact ⟨n, r, h, starts', ha, rfl, rfl, hs', hr'⟩

theorem pinnedAt_ok {position : Nat} (hok : m.pinnedAt position = .ok r m') :
    m.pinned[position]? = some r := by
  unfold Machine.pinnedAt at hok
  split at hok <;> cases hok
  assumption

theorem unpin_ok (hok : m.unpin = .ok r m') :
    m.pinned.back? = some r ∧ m' = { m with pinned := m.pinned.pop } := by
  unfold Machine.unpin at hok
  split at hok
  · rename_i r' hr'
    cases hok
    exact ⟨hr', rfl⟩
  · cases hok

/-- A dictionary without selectors is an empty table when it has got its fields. -/
theorem Table.empty {d a capacity : Nat} {h₁ : Heap} (hl : m.heap.LaidOut starts) (hd : d ∈ starts)
    (hdshape : (m.heap.view d).shape = .dictionary) (hdlen : (m.heap.view d).len = capacity)
    (hfree : ∀ j < capacity, (m.heap.view d).ref ((m.heap.view d).elements + j) = m.heap.nil)
    (ha : a ∈ starts) (hashape : (m.heap.view a).shape = .array)
    (halen : (m.heap.view a).len = capacity) (hpower : ∃ k, capacity = 2 ^ k)
    (htally : m.heap.storeField (.ofWordIndex d) MethodDictionary.tallyField .zero = .ok h₁)
    (hmethods : h₁.storeField (.ofWordIndex d) MethodDictionary.methodsField (.ofWordIndex a) =
      .ok h) :
    ({ m with heap := h } : Machine).Table starts d a (List.replicate capacity none) := by
  have hfields : (m.heap.view d).fields = MethodDictionary.fieldCount := congrArg Prod.snd hdshape
  have hformat : (m.heap.view d).format = .array := congrArg Prod.fst hdshape
  have hlt : ∀ k < MethodDictionary.fieldCount, headerWords + k < (m.heap.view d).size :=
    fun k hk => View.fields_lt_size (by rw [hformat]; rfl) (by rw [hfields]; omega)
  obtain ⟨hc₁, hviews₁, -⟩ := changes_poke (a := a) (.refl hl [d, a]) hd (by simp)
    (k := tallyWord) (by decide) (hlt _ (by decide)) (by rw [hfields]; decide) .zero
  obtain ⟨hc₂, hviews₂, -⟩ := changes_poke hc₁ hd (by simp) (k := methodsWord) (by decide)
    (hlt _ (by decide)) (by rw [hfields]; decide) (.ofWordIndex a)
  have hlayout₁ := hc₁.layout d hd
  have hstore₁ : m.heap.storeField (.ofWordIndex d) MethodDictionary.tallyField .zero =
      .ok (m.heap.poke (d + tallyWord) Ref.zero.bits) :=
    Heap.storeField_eq hl hd (by rw [hfields]; decide) (hlt _ (by decide)) _
  cases htally.symm.trans hstore₁
  have hstore₂ : (m.heap.poke (d + tallyWord) Ref.zero.bits).storeField (.ofWordIndex d)
      MethodDictionary.methodsField (.ofWordIndex a) =
        .ok ((m.heap.poke (d + tallyWord) Ref.zero.bits).poke (d + methodsWord)
          (Ref.ofWordIndex a).bits) :=
    Heap.storeField_eq hc₁.laidOut hd (by rw [hlayout₁.fields_eq, hfields]; decide)
      (by rw [hlayout₁.size_eq]; exact hlt _ (by decide)) _
  cases hmethods.symm.trans hstore₂
  have hdl := hc₂.layout d hd
  have hal := hc₂.layout a ha
  exact
    { selectors := ⟨hd, hdl.shape_eq.trans hdshape⟩
      methods := ⟨ha, hal.shape_eq.trans hashape⟩
      link := by rw [hviews₂, if_pos rfl]
      selectors_len := by rw [List.length_replicate]; exact hdl.len_eq.trans hdlen
      methods_len := by rw [List.length_replicate]; exact hal.len_eq.trans halen
      power := by rw [List.length_replicate]; exact hpower
      tally := by rw [Slots.used_replicate, hviews₂, if_neg (by decide), hviews₁, if_pos rfl]; rfl
      load := by rw [Slots.used_replicate]; omega
      free := fun {j} hj => by
        have hj : j < capacity := by simpa using (List.getElem?_eq_some_iff.mp hj).1
        have hbehind : methodsWord < (m.heap.view d).elements ∧
            tallyWord < (m.heap.view d).elements := by
          unfold View.elements
          rw [hfields]
          decide
        rw [hdl.elements_eq, hviews₂, if_neg (by omega), hviews₁, if_neg (by omega), hfree j hj]
        exact hc₂.nil.symm
      used := fun hj => absurd (Slots.mem_iff.mpr ⟨_, hj⟩) (Slots.not_mem_replicate _ _)
      probed := Slots.probed_replicate _ _ }

namespace Stage

/-- A new array is known to have as many elements as were asked for. -/
theorem newArray_spare (hs : Stage (t.watch hb) marks m starts) (len : Nat) :
    (m.newArray len).Meets (Gives (t.watch hb) marks ⟨(· = .object .array), some (.spare len)⟩)
      fun _ => False := by
  have hcls := hs.kernelClass .array
  refine .step rfl (hs.allocate_tagged (fun h => nomatch h) ⟨hcls.known, ?_, fun _ h => nomatch h⟩ ?_)
  · exact Kind.suits_of_expects rfl
  · intro n starts cls h hsound ha hshaped hkept
    have hmem : n.heap.top ∈ starts ++ [n.heap.top] := by simp
    refine ⟨(t.watch hb).fresh hsound ha hshaped hkept, hshaped.isPointer hmem, ?_⟩
    show (h.view _).len = len
    rw [hshaped.wordIndex hmem]
    exact ha.fresh_len hshaped.addressable rfl

/-- A new dictionary is an empty table whose parts are not in the catalog. -/
theorem newDictionary (hs : Stage (t.watch hb) marks m starts) {capacity : Nat}
    (hpower : ∃ k, capacity = 2 ^ k) :
    (m.newMethodDictionary capacity).Meets (fun r m' => ∃ starts' d a,
      Stage (t.watch hb) marks m' starts' ∧ r = .ofWordIndex d ∧ t.Free m' (.ofWordIndex d) ∧
      t.Free m' (.ofWordIndex a) ∧ m'.Table starts' d a (List.replicate capacity none))
      fun _ => False := by
  unfold Machine.newMethodDictionary
  refine .lift fun _ _ => .bind_of_never (hs.newArray_spare capacity) ?_
  rintro methods m₁ ⟨starts₁, hs₁, hmethods⟩
  have hs₂ := hs₁.pin hmethods
  have hcls := hs₂.kernelClass .methodDictionary
  refine .step rfl (.step rfl (.bind_of_never (hs₂.allocate_placed (fun h => nomatch h)
    ⟨hcls.known, Kind.suits_of_expects rfl, fun _ h => nomatch h⟩) ?_))
  rintro _ _ ⟨n, cls, g, starts₃, ha, rfl, rfl, hs₃, hr₃⟩
  obtain ⟨a, m₄, hunpin, hs₄, ha₄, hcarries₄⟩ := hs₃.unpin
  obtain ⟨-, rfl⟩ := unpin_ok hunpin
  refine .step hunpin (.write fun h hok => ?_)
  obtain ⟨h₁, hok₁, hok₂⟩ := bind_eq_ok.mp hok
  have hl : g.LaidOut starts₃ := hs₄.laidOut
  have hr₄ := hcarries₄ _ _ hr₃
  obtain ⟨hd, hdshape⟩ := ha.top_mem hl hr₄.known hr₄.kind
  obtain ⟨a, hamem, rfl, hashape⟩ := hl.of_kind ha₄.known ha₄.kind
  obtain ⟨-, -, halen⟩ := ha₄.tag _ rfl
  have halen : (g.view a).len = capacity := by
    rw [← hl.wordIndex hamem]
    exact halen
  have hdlen := ha.fresh_len hl.addressable rfl
  have hfree : ∀ j < capacity,
      (g.view n.heap.top).ref ((g.view n.heap.top).elements + j) = n.heap.nil := by
    intro j hj
    have hformat : (g.view n.heap.top).format = .array := congrArg Prod.fst hdshape
    have hlive : (g.view n.heap.top).live = (g.view n.heap.top).len := by
      unfold View.live
      rw [hformat]
    rw [ha.fresh_ref hl.addressable (.inr (.inr ⟨by rw [hformat]; rfl, by omega, by omega⟩)),
      if_neg (by unfold View.elements; simp only [headerWords]; omega)]
  have hempty := Table.empty (m := { n with heap := g, pinned := n.pinned.pop }) hl hd hdshape hdlen
    (fun j hj => (hfree j hj).trans ha.nil.symm) hamem hashape halen hpower hok₁ hok₂
  obtain ⟨hs₅, hcarries₅⟩ := hs₄.storeField (hs₄.writable_new hr₄) (by decide)
    (small (w := t.watch hb) (m := m) (by decide)).known (Kind.suits_of_expects rfl)
    (fun h => absurd h (by decide)) hok₁
  have hr₅ := hcarries₅ _ _ hr₄
  have ha₅ := hcarries₅ _ _ ha₄
  obtain ⟨hs₆, hcarries₆⟩ := hs₅.storeField (hs₅.writable_new hr₅) (by decide) ha₅.known
    (fun expected he => by cases he; exact .inr (.inl ha₅.kind)) (fun _ => (ha₅.tag _ rfl).1) hok₂
  have hr₆ := hcarries₆ _ _ hr₅
  have ha₆ := hcarries₆ _ _ ha₅
  exact ⟨starts₃, _, a, hs₆, rfl, hr₆.tag _ rfl, (ha₆.tag _ rfl).1, hempty⟩

end Stage

/-! ## Replacing a dictionary and adding to it -/

/-- Changes in the two arrays of a dictionary do not concern the words of classes. -/
theorem Filed.step_changes {d a i k : Nat} {slots : Slots String Ref} (hf : m.Filed starts x log)
    (hl : m.heap.LaidOut starts) (ht : m.Table starts d a slots)
    (hc : m.heap.Changes starts [d, a] h) (hi : i ∈ starts)
    (hmem : (Ref.ofWordIndex i, k) ∈ m.steps (x.root.ref m) x.path)
    (hfixed : (m.heap.view i).IsFixed k) : (h.view i).ref k = (m.heap.view i).ref k := by
  obtain ⟨i', hi', heq, hshape⟩ := hf.walks.cls (mem_trail_of_steps hmem)
  cases hl.ofWordIndex_inj hi hi' heq
  exact hc.ref hi (by simpa using ht.ne_cls hshape) hfixed.isTraced.bounds.2

/-- Changes in the two arrays of a dictionary do not concern the way to it. -/
theorem Filed.way_changes (hf : m.Filed starts x log) (hl : m.heap.LaidOut starts) {d a : Nat}
    {slots : Slots String Ref} (ht : m.Table starts d a slots)
    (hc : m.heap.Changes starts [d, a] h) :
    ({ m with heap := h } : Machine).Walks starts (x.root.ref m) x.path ∧
      x.dictionary { m with heap := h } = x.dictionary m ∧
      ({ m with heap := h } : Machine).trail (x.root.ref m) x.path = x.trail m := by
  have hsteps : ∀ i ∈ starts, ∀ k, (Ref.ofWordIndex i, k) ∈ m.steps (x.root.ref m) x.path →
      (m.heap.view i).IsFixed k →
        (({ m with heap := h } : Machine).heap.view i).ref k = (m.heap.view i).ref k :=
    fun i hi k hmem hfixed => hf.step_changes hl ht hc hi hmem hfixed
  obtain ⟨hwalks, hfollow, htrail⟩ := hf.walks.congr hl (fun _ hi => hi) hc.layout hsteps
  refine ⟨hwalks, ?_, htrail⟩
  have hroot : x.root.ref { m with heap := h } = x.root.ref m := by
    cases x.root <;> rfl
  unfold Handle.dictionary
  rw [hroot, hfollow]

namespace Catalog

/-- A catalog in which a dictionary has got other contents. -/
def put (t : Catalog) (x : Handle) (log : Log) : Catalog :=
  { t with entries := fun y => if y = x then some log else t.entries y }

theorem entries_put {y : Handle} {log' : Log} (hy : (t.put x log).entries y = some log') :
    (y = x ∧ log' = log) ∨ (y ≠ x ∧ t.entries y = some log') := by
  unfold put at hy
  dsimp only at hy
  split at hy
  · exact .inl ⟨by assumption, (Option.some.inj hy).symm⟩
  · exact .inr ⟨by assumption, hy⟩

theorem put_self (hx : t.entries x = some log) : t.put x log = t := by
  unfold put
  congr
  funext y
  split
  · subst y
    exact hx.symm
  · rfl

theorem Below.put (hb : t.Below) (hx : t.entries x = some log) {name : String} {held : Option Nat}
    (hheld : ∀ position ∈ held, position < t.base) : (t.put x ((name, held) :: log)).Below where
  roots {y log'} hy := by
    rcases entries_put hy with ⟨rfl, -⟩ | ⟨-, hy⟩
    · exact hb.roots hx
    · exact hb.roots hy
  logs {y log'} hy e he position hp := by
    rcases entries_put hy with ⟨rfl, rfl⟩ | ⟨-, hy⟩
    · rcases List.mem_cons.mp he with rfl | he
      · exact hheld position hp
      · exact hb.logs hx e he position hp
    · exact hb.logs hy e he position hp
  kinds := hb.kinds
  subject y hy := by
    obtain ⟨log', hlog⟩ := hb.subject y hy
    unfold Catalog.put
    dsimp only
    split
    · exact ⟨_, rfl⟩
    · exact ⟨log', hlog⟩

/-- The parts of a dictionary tell the dictionary and the array of its methods. -/
theorem parts_last (hparts : x.parts m' = x.parts m) :
    x.dictionary m' = x.dictionary m ∧ x.methods m' = x.methods m := by
  obtain ⟨-, hend⟩ := List.append_inj' hparts rfl
  simpa using hend

/-- One dictionary gets other contents, or is replaced by one that is in no catalog, and the others
stay. -/
theorem Kept.put {log' : Log} {changed : List Nat} (hk : t.Kept m starts)
    (hx : t.entries x = some log) (hc : m.heap.Changes starts changed h)
    (hothers : ∀ {y log'}, t.entries y = some log' → y ≠ x →
      ({ m with heap := h } : Machine).Filed starts y log' ∧
        y.parts { m with heap := h } = y.parts m)
    (hfiled : ({ m with heap := h } : Machine).Filed starts x log')
    (hends : (x.dictionary { m with heap := h } = x.dictionary m ∧
        x.methods { m with heap := h } = x.methods m) ∨
      (t.Free m (x.dictionary { m with heap := h }) ∧ t.Free m (x.methods { m with heap := h })))
    (haway : ∀ k ∈ t.vacant, m.core.cls k ∉ x.parts { m with heap := h }) :
    (t.put x log').Kept { m with heap := h } starts := by
  have hlast : ∀ {y log'}, t.entries y = some log' → y ≠ x → _ := fun hy hne =>
    parts_last (hothers hy hne).2
  -- The ends of the one are not those of another.
  have hnew : ∀ {y log'}, t.entries y = some log' → y ≠ x →
      x.dictionary { m with heap := h } ≠ y.dictionary m ∧
        x.methods { m with heap := h } ≠ y.methods m := by
    intro y log' hy hne
    rcases hends with ⟨hd, ha⟩ | ⟨hd, ha⟩
    · rw [hd, ha]
      exact hk.apart hx hy (Ne.symm hne)
    · refine ⟨fun heq => hd y log' hy ?_, fun heq => ha y log' hy ?_⟩ <;>
        simp [Handle.parts, heq]
  refine ⟨hc.laidOut, hk.one, ?_, ?_, ?_, hk.vacant, ?_⟩
  · intro y log₁ hy
    rcases entries_put hy with ⟨rfl, rfl⟩ | ⟨hne, hy⟩
    · exact hfiled
    · exact (hothers hy hne).1
  · intro y z log₁ log₂ hy hz hne
    unfold Apart
    rcases entries_put hy with ⟨hyx, -⟩ | ⟨hyx, hy'⟩ <;>
      rcases entries_put hz with ⟨hzx, -⟩ | ⟨hzx, hz'⟩
    · exact absurd (hyx.trans hzx.symm) hne
    · rw [hyx, (hlast hz' hzx).1, (hlast hz' hzx).2]
      exact hnew hz' hzx
    · rw [hzx, (hlast hy' hyx).1, (hlast hy' hyx).2]
      exact ⟨(hnew hy' hyx).1.symm, (hnew hy' hyx).2.symm⟩
    · rw [(hlast hy' hyx).1, (hlast hy' hyx).2, (hlast hz' hzx).1, (hlast hz' hzx).2]
      exact hk.apart hy' hz' hne
  · intro e he
    obtain ⟨hknown, hkind⟩ := hk.kinds e he
    refine ⟨hknown, ?_⟩
    have hsame : h.kind ((Root.pinned e.1).ref m) = m.heap.kind ((Root.pinned e.1).ref m) :=
      Heap.kind_congr hk.laidOut hc.nil hknown hc.layout
    show e.2 (h.kind ((Root.pinned e.1).ref m))
    rw [hsame]
    exact hkind
  · intro k hkv y log₁ hy
    rcases entries_put hy with ⟨rfl, rfl⟩ | ⟨hne, hy⟩
    · exact haway k hkv
    · rw [(hothers hy hne).2]
      exact hk.away k hkv hy

/-- Changes in the two arrays of one dictionary do not concern the others. -/
theorem Kept.others_of_changes {y : Handle} {d a : Nat} {slots : Slots String Ref} {log' : Log}
    (hk : t.Kept m starts)
    (hm : m.Sound starts) (hx : t.entries x = some log) (hd : x.dictionary m = .ofWordIndex d)
    (ht : m.Table starts d a slots) (hc : m.heap.Changes starts [d, a] h)
    (hy : t.entries y = some log') (hne : y ≠ x) :
    ({ m with heap := h } : Machine).Filed starts y log' ∧
      y.parts { m with heap := h } = y.parts m := by
  have hl := hm.laidOut
  have hapart := hk.apart hy hx hne
  obtain ⟨d', a', slots', hd', ht', -⟩ := (hk.filed hy).table
  have ha := Filed.methods_eq hl hd ht
  have ha' := Filed.methods_eq hl hd' ht'
  have hwords : ∀ i ∈ starts, Ref.ofWordIndex i = y.dictionary m ∨ Ref.ofWordIndex i = y.methods m →
      ∀ k < (m.heap.view i).size, h.view i k = m.heap.view i k := by
    intro i hi hend k hk
    refine hc.words i hi ?_ k hk
    simp only [List.mem_cons, List.not_mem_nil, or_false]
    rcases hend with heq | heq
    · rw [hd'] at heq
      cases hl.ofWordIndex_inj hi ht'.selectors.1 heq
      rintro (rfl | rfl)
      · exact hapart.1 (hd'.trans hd.symm)
      · have hshape := ht'.selectors.2.symm.trans ht.methods.2
        cases hshape
    · rw [ha'] at heq
      cases hl.ofWordIndex_inj hi ht'.methods.1 heq
      rintro (rfl | rfl)
      · have hshape := ht'.methods.2.symm.trans ht.selectors.2
        cases hshape
      · exact hapart.2 (ha'.trans ha.symm)
  have hcongr : ({ m with heap := h } : Machine).Filed starts y log' ∧
      y.parts { m with heap := h } = y.parts m ∧ y.trail { m with heap := h } = y.trail m :=
    (hk.filed hy).congr hl rfl (fun _ hi => hi) hc.nil hc.layout
      (fun i hi k hmem hfixed => (hk.filed hy).step_changes hl ht hc hi hmem hfixed) hwords
      (fun _ _ _ _ => rfl) (fun _ _ hs => hs) fun name _ _ => hashOf_changes hm hc name
  exact ⟨hcongr.1, hcongr.2.1⟩

/-- A dictionary in the catalog gets another entry. -/
theorem Kept.insert {d a n : Nat} {slots : Slots String Ref} {name : String} {held : Option Nat}
    (hk : t.Kept m starts) (hm : m.Sound starts) (hx : t.entries x = some log)
    (hd : x.dictionary m = .ofWordIndex d) (ht : m.Table starts d a slots)
    (hrecords : Records log m.pinned slots) (hn : slots.Lands (m.hashOf name) name n)
    (hc : m.heap.Changes starts [d, a] h)
    (ht' : ({ m with heap := h } : Machine).Table starts d a
      (slots.set (slots.place (m.hashOf name) n) (some (name, method))))
    (hheld : ∀ position ∈ held, m.pinned[position]? = some method) :
    (t.put x ((name, held) :: log)).Kept { m with heap := h } starts := by
  have hl := hm.laidOut
  have hfiled := hk.filed hx
  obtain ⟨hwalks, hsame, htrail⟩ := hfiled.way_changes hl ht hc
  have hroot : x.root.ref { m with heap := h } = x.root.ref m := by
    cases x.root <;> rfl
  have hd' : x.dictionary { m with heap := h } = .ofWordIndex d := hsame.trans hd
  have ha := Filed.methods_eq hl hd ht
  have ha' := Filed.methods_eq hc.laidOut hd' ht'
  refine hk.put hx hc (fun hy hne => hk.others_of_changes hm hx hd ht hc hy hne) ?_
    (.inl ⟨hd'.trans hd.symm, ha'.trans ha.symm⟩) fun k hkv => ?_
  · refine ⟨by rw [hroot]; exact hwalks, d, a, _, hd', ht', fun name' => ?_, ?_⟩
    · rw [Slots.mem_keys, List.map_cons, List.mem_cons, ← hrecords.names name', Slots.mem_keys]
      simp only [ht.probed.mem_set hn]
      constructor
      · rintro ⟨r, ⟨hname, -⟩ | ⟨-, hmem⟩⟩
        · exact .inl hname
        · exact .inr ⟨r, hmem⟩
      · rintro (hname | ⟨r, hmem⟩)
        · exact ⟨method, .inl ⟨hname, rfl⟩⟩
        · by_cases hname : name' = name
          · exact ⟨method, .inl ⟨hname, rfl⟩⟩
          · exact ⟨r, .inr ⟨hname, hmem⟩⟩
    · intro name' position r hlookup hmem
      rw [ht.probed.mem_set hn] at hmem
      rw [List.lookup_cons] at hlookup
      rcases hmem with ⟨rfl, rfl⟩ | ⟨hname, hmem⟩
      · rw [beq_self_eq_true] at hlookup
        exact hheld position (Option.some.inj hlookup)
      · rw [beq_false_of_ne hname] at hlookup
        exact hrecords.methods name' position r hlookup hmem
  · have hparts : x.parts { m with heap := h } = x.parts m := by
      unfold Handle.parts Handle.trail
      rw [hd', ha', hd, ha, hroot, htrail]
      rfl
    rw [hparts]
    exact hk.away k hkv hx

/-! ### Another dictionary for a class -/

/-- The class whose dictionary is at the end of a way. -/
theorem trail_append (r : Ref) (path : List Nat) (k : Nat) :
    m.trail r (path ++ [k]) = m.trail r path ++ [m.wayEnd r path] := by
  induction path generalizing r with
  | nil => rfl
  | cons k' rest ih => exact congrArg (r :: ·) (ih _)

theorem wayEnd_append (r : Ref) (path : List Nat) (k : Nat) :
    m.wayEnd r (path ++ [k]) = m.word (m.wayEnd r path) k := by
  induction path generalizing r with
  | nil => rfl
  | cons k' rest ih => exact ih _

theorem walks_append (r : Ref) (path : List Nat) (k : Nat) :
    m.Walks starts r (path ++ [k]) ↔
      m.Walks starts r path ∧ m.Walks starts (m.wayEnd r path) [k] := by
  induction path generalizing r with
  | nil => simp [Walks, wayEnd]
  | cons k' rest ih =>
    show _ ∧ _ ∧ m.Walks starts _ (rest ++ [k]) ↔ (_ ∧ _ ∧ _) ∧ _
    rw [ih]
    simp only [and_assoc]
    rfl

/-- A way that goes over the word of a dictionary ends there. -/
theorem wayEnd_of_step {d : Nat} {r r' : Ref} {k : Nat} {path : List Nat} (hl : m.heap.LaidOut starts)
    (hw : m.Walks starts r path) (hstep : (r', k) ∈ m.steps r path) (hd : d ∈ starts)
    (hword : m.word r' k = .ofWordIndex d) (hshape : (m.heap.view d).shape ≠ .cls) :
    m.wayEnd r path = .ofWordIndex d := by
  induction path generalizing r with
  | nil => cases hstep
  | cons k' rest ih =>
    rcases List.mem_cons.mp hstep with heq | hstep
    · cases heq
      cases rest with
      | nil => exact hword
      | cons k'' rest =>
        obtain ⟨i, hi, heq, hcls⟩ := hw.2.2.1
        rw [hword] at heq
        cases hl.ofWordIndex_inj hd hi heq
        exact absurd hcls hshape
    · exact ih hw.2.2 hstep

/-- The class at the end of a way gets another dictionary with the same contents. -/
theorem Kept.relink {c d a : Nat} {path : List Nat} {slots : Slots String Ref} (hk : t.Kept m starts)
    (hm : m.Sound starts) (hx : t.entries x = some log) (hpath : x.path = path ++ [dictionaryWord])
    (hcls : m.wayEnd (x.root.ref m) path = .ofWordIndex c) (hc : c ∈ starts)
    (ht : m.Table starts d a slots) (hrecords : Records log m.pinned slots)
    (hd : t.Free m (.ofWordIndex d)) (ha : t.Free m (.ofWordIndex a))
    (hheap : m.heap.poke (c + dictionaryWord) (Ref.ofWordIndex d).bits = h) :
    t.Kept { m with heap := h } starts ∧ x.trail { m with heap := h } = x.trail m ∧
      x.dictionary { m with heap := h } = .ofWordIndex d ∧
      ({ m with heap := h } : Machine).Table starts d a slots := by
  have hl := hm.laidOut
  have hfiled := hk.filed hx
  obtain ⟨d₀, a₀, slots₀, hd₀, ht₀, -⟩ := hfiled.table
  have hwalks := hfiled.walks
  rw [hpath, walks_append, hcls] at hwalks
  obtain ⟨hwalks, ⟨c', hc', heq, hshape⟩, -⟩ := hwalks
  cases hl.ofWordIndex_inj hc hc' heq
  have hold : m.word (.ofWordIndex c) dictionaryWord = .ofWordIndex d₀ := by
    unfold Handle.dictionary at hd₀
    rwa [hpath, wayEnd_append, hcls] at hd₀
  have hfields : (m.heap.view c).fields = Class.fieldCount := congrArg Prod.snd hshape
  have hformat : (m.heap.view c).format = .plain := congrArg Prod.fst hshape
  have hlt : dictionaryWord < (m.heap.view c).size :=
    View.fields_lt_size (by rw [hformat]; rfl) (by rw [hfields]; decide)
  have hcount : dictionaryWord ≠ headerWords + (m.heap.view c).fields := by rw [hfields]; decide
  have hchanges : m.heap.Changes starts [c] h := by
    rw [← hheap]
    exact .poke hl hc (by decide) hlt hcount (by simp) _
  have hview : ∀ k, (h.view c).ref k =
      if k = dictionaryWord then .ofWordIndex d else (m.heap.view c).ref k := by
    intro k
    have hfits := hl.fits_memory hc
    unfold View.ref
    rw [← hheap, Heap.view_poke (by omega)]
    split <;> rfl
  -- A way over the word of the old dictionary leads to that dictionary.
  have hsteps : ∀ {r path}, m.Walks starts r path → m.wayEnd r path ≠ .ofWordIndex d₀ →
      ∀ i ∈ starts, ∀ k, (Ref.ofWordIndex i, k) ∈ m.steps r path → (m.heap.view i).IsFixed k →
        (h.view i).ref k = (m.heap.view i).ref k := by
    intro r path hw hne i hi k hmem hfixed
    by_cases hic : i = c
    · subst hic
      rw [hview, if_neg]
      rintro rfl
      refine hne (wayEnd_of_step hl hw hmem ht₀.selectors.1 hold ?_)
      rw [ht₀.selectors.2]
      decide
    · exact hchanges.ref hi (by simpa using hic) hfixed.isTraced.bounds.2
  have hothers : ∀ {y log'}, t.entries y = some log' → y ≠ x →
      ({ m with heap := h } : Machine).Filed starts y log' ∧
        y.parts { m with heap := h } = y.parts m ∧
        y.trail { m with heap := h } = y.trail m := by
    intro y log' hy hne
    obtain ⟨d₁, a₁, slots₁, hd₁, ht₁, -⟩ := (hk.filed hy).table
    have ha₁ := Filed.methods_eq hl hd₁ ht₁
    refine (hk.filed hy).congr hl rfl (fun _ hi => hi) hchanges.nil hchanges.layout
      (hsteps (hk.filed hy).walks ?_) ?_ (fun _ _ _ _ => rfl) (fun _ _ hs => hs)
      fun name _ _ => hashOf_changes hm hchanges name
    · intro heq
      exact (hk.apart hy hx hne).1 (Eq.trans heq hd₀.symm)
    · intro i hi hend k hk
      refine hchanges.words i hi ?_ k hk
      rw [List.mem_singleton]
      rintro rfl
      rcases hend with heq | heq
      · exact (ht₁.ne_cls hshape).1 (hl.ofWordIndex_inj hi ht₁.selectors.1 (heq.trans hd₁))
      · exact (ht₁.ne_cls hshape).2 (hl.ofWordIndex_inj hi ht₁.methods.1 (heq.trans ha₁))
  obtain ⟨hwalks', hfollow', htrail'⟩ :
      ({ m with heap := h } : Machine).Walks starts (x.root.ref m) path ∧
      ({ m with heap := h } : Machine).wayEnd (x.root.ref m) path = m.wayEnd (x.root.ref m) path ∧
      ({ m with heap := h } : Machine).trail (x.root.ref m) path = m.trail (x.root.ref m) path := by
    refine hwalks.congr hl (fun _ hi => hi) hchanges.layout (hsteps hwalks ?_)
    rw [hcls]
    exact fun heq => (ht₀.ne_cls hshape).1 (hl.ofWordIndex_inj hc ht₀.selectors.1 heq)
  have hroot : x.root.ref { m with heap := h } = x.root.ref m := by
    cases x.root <;> rfl
  have hword : ({ m with heap := h } : Machine).word (.ofWordIndex c) dictionaryWord =
      .ofWordIndex d := by
    rw [word_ofWordIndex hchanges.laidOut hc, hview, if_pos rfl]
  have hdictionary : x.dictionary { m with heap := h } = .ofWordIndex d := by
    unfold Handle.dictionary
    rw [hroot, hpath, wayEnd_append, hfollow', hcls, hword]
  have ht' : ({ m with heap := h } : Machine).Table starts d a slots :=
    ht.changes hm hchanges (by simpa using (ht.ne_cls hshape).1.symm)
      (by simpa using (ht.ne_cls hshape).2.symm)
  have hmethods := Filed.methods_eq hchanges.laidOut hdictionary ht'
  have htrail : x.trail { m with heap := h } = x.trail m := by
    unfold Handle.trail
    rw [hroot, hpath, trail_append, trail_append, htrail', hfollow']
  refine ⟨?_, htrail, hdictionary, ht'⟩
  rw [← put_self hx]
  refine hk.put hx hchanges (fun hy hne => ⟨(hothers hy hne).1, (hothers hy hne).2.1⟩) ?_
    (.inr ⟨by rw [hdictionary]; exact hd, by rw [hmethods]; exact ha⟩) fun k hkv hmem => ?_
  · refine ⟨?_, d, a, slots, hdictionary, ht', hrecords⟩
    rw [hroot, hpath, walks_append, hfollow', hcls]
    refine ⟨hwalks', ⟨c, hc, rfl, ?_⟩, .inr rfl, trivial⟩
    exact (hchanges.layout c hc).shape_eq.trans hshape
  · -- What is vacant is a class that is not on the way.
    unfold Handle.parts at hmem
    rw [htrail, hdictionary, hmethods] at hmem
    rcases List.mem_append.mp hmem with hmem | hmem
    · exact hk.away k hkv hx (List.mem_append_left _ hmem)
    · have hkernel := ht.ne_kernel hm k
      simp [hkernel.1, hkernel.2] at hmem

end Catalog

/-! ## Adding a method -/

/-- A dictionary has as many entries as there are names in the log. -/
theorem Records.used_eq {slots : Slots String Ref} {pinned : Array Ref} {hash : String → Nat}
    (hr : Records log pinned slots) (hp : slots.Probed hash) :
    slots.used = (log.map Prod.fst).dedup.length := by
  rw [← Slots.length_keys]
  refine List.Perm.length_eq ((List.perm_ext_iff_of_nodup hp.nodup_keys (List.nodup_dedup _)).mpr ?_)
  intro name
  rw [List.mem_dedup]
  exact hr.names name

/-- The class whose dictionary is followed. -/
def subjectMark : Mark := ⟨fun _ => True, some .subject⟩

/-- A method that may be pinned at a position. -/
def heldMark (held : Option Nat) : Mark := ⟨fun _ => True, held.map .handle⟩

/-- What is known of a reference that does not depend on the dictionaries in a catalog. -/
def Tag.Lasts : Tag → Prop
  | .subject => True
  | .handle _ => True
  | .symbol _ => True
  | _ => False

/-- Marks that do not depend on the dictionaries in a catalog. -/
def Lasting (marks : List Mark) : Prop := ∀ t ∈ marks, ∀ tag ∈ t.tag, tag.Lasts

namespace Stage

variable {path : List Nat}

/-- Another catalog, or other memory, for a machine with marks that do not depend on it. -/
theorem relabel {t' : Catalog} {hb' : t'.Below} (hs : Stage (t.watch hb) marks m starts)
    (hlasting : Lasting marks) (hm : ({ m with heap := h } : Machine).Sound starts)
    (hkept : t'.Kept { m with heap := h } starts) (hbase : t'.base = t.base)
    (hsubject : t'.subject = t.subject)
    (htrail : ∀ x ∈ t.subject, x.trail { m with heap := h } = x.trail m)
    (hkind : ∀ r, Known starts r → h.kind r = m.heap.kind r) :
    Stage (t'.watch hb') marks { m with heap := h } starts := by
  have hbase' : (t'.watch hb').base = (t.watch hb).base := hbase
  refine ⟨hm, by rw [hbase']; exact hs.base_le, ?_, hkept⟩
  have hholds : ∀ mark ∈ marks, ∀ r, mark.Holds (t.watch hb) m starts r →
      mark.Holds (t'.watch hb') { m with heap := h } starts r := by
    intro mark hmark r hr
    refine ⟨hr.known, ?_, fun tag htag => ?_⟩
    · rw [show Heap.kind h r = m.heap.kind r from hkind r hr.known]
      exact hr.kind
    · have htells : t.Tells tag m r := hr.tag tag htag
      have hlasts := hlasting mark hmark tag htag
      cases tag with
      | subject =>
        intro x hx
        rw [hsubject] at hx
        rw [htrail x hx]
        exact htells x hx
      | handle position => exact ⟨by rw [hbase]; exact htells.1, htells.2⟩
      | symbol name => exact htells
      | free => exact hlasts.elim
      | writable => exact hlasts.elim
      | spare len => exact hlasts.elim
  have hpins := hs.pins
  unfold Pins at hpins ⊢
  rw [hbase']
  show List.Forall₂ _ (m.pinned.toList.drop (t.watch hb).base) marks
  generalize m.pinned.toList.drop (t.watch hb).base = pinned at hpins ⊢
  clear hs hlasting
  induction hpins with
  | nil => exact .nil
  | cons hr _ ih =>
    exact .cons (hholds _ List.mem_cons_self _ hr) (ih fun mark hmark =>
      hholds mark (List.mem_cons_of_mem _ hmark))

/-- The dictionary of the class that is followed. -/
theorem subject (hs : Stage (t.watch hb) marks m starts) (hsubject : t.subject = some x)
    (hx : t.entries x = some log) (hpath : x.path = path ++ [dictionaryWord])
    (hcls : subjectMark.Holds (t.watch hb) m starts cls) :
    ∃ c d a slots, c ∈ starts ∧ (m.heap.view c).shape = .cls ∧ cls = .ofWordIndex c ∧
      m.wayEnd (x.root.ref m) path = .ofWordIndex c ∧ x.dictionary m = .ofWordIndex d ∧
      Class.dictionary m.heap cls = .ok (.ofWordIndex d) ∧ m.Table starts d a slots ∧
      Records log m.pinned slots := by
  have hl := hs.laidOut
  have hfiled := hs.kept.filed hx
  obtain ⟨d, a, slots, hd, ht, hrecords⟩ := hfiled.table
  have hlast : (x.trail m).getLast? = some cls := hcls.tag _ rfl x hsubject
  unfold Handle.trail at hlast
  rw [hpath, Catalog.trail_append, List.getLast?_append_of_ne_nil _ (by simp)] at hlast
  have hfollow : m.wayEnd (x.root.ref m) path = cls := by simpa using hlast
  have hwalks := hfiled.walks
  rw [hpath, Catalog.walks_append, hfollow] at hwalks
  obtain ⟨-, ⟨c, hc, rfl, hshape⟩, -⟩ := hwalks
  have hfields : (m.heap.view c).fields = Class.fieldCount := congrArg Prod.snd hshape
  have hformat : (m.heap.view c).format = .plain := congrArg Prod.fst hshape
  refine ⟨c, d, a, slots, hc, hshape, rfl, hfollow, hd, ?_, ht, hrecords⟩
  unfold Class.dictionary
  rw [Heap.fetchField_eq hl hc (by rw [hfields]; decide)
    (View.fields_lt_size (by rw [hformat]; rfl) (by rw [hfields]; decide))]
  unfold Handle.dictionary at hd
  rw [hpath, Catalog.wayEnd_append, hfollow, word_ofWordIndex hl hc] at hd
  exact congrArg Except.ok hd

/-- What a class refers to as its dictionary is replaced by an empty table that gets the same
entries. -/
theorem refillFiled {d a capacity : Nat} (hs : Stage (t.watch hb) marks m starts)
    (hsubject : t.subject = some x) (hx : t.entries x = some log)
    (hpath : x.path = path ++ [dictionaryWord]) (hlasting : Lasting marks)
    (hcls : subjectMark.Holds (t.watch hb) m starts cls) (hd : t.Free m (.ofWordIndex d))
    (ha : t.Free m (.ofWordIndex a)) (ht : m.Table starts d a (List.replicate capacity none))
    (hroom : 4 * (log.map Prod.fst).dedup.length ≤ 3 * capacity) :
    ∃ h slots, (do
        let entries ← MethodDictionary.entries m.heap (← Class.dictionary m.heap cls)
        let h ← Machine.insertAll m.heap (.ofWordIndex d) entries
        h.storeField cls Class.dictionaryField (.ofWordIndex d)) = .ok h ∧
      Stage (t.watch hb) marks { m with heap := h } starts ∧
      x.dictionary { m with heap := h } = .ofWordIndex d ∧
      ({ m with heap := h } : Machine).Table starts d a slots ∧ Records log m.pinned slots ∧
      slots.used = (log.map Prod.fst).dedup.length ∧ slots.length = capacity := by
  obtain ⟨c, d₀, a₀, slots₀, hc, hshape, rfl, hfollow, hd₀, hdictionary, ht₀, hrecords₀⟩ :=
    hs.subject hsubject hx hpath hcls
  have hm := hs.sound
  have hused := hrecords₀.used_eq ht₀.probed
  have hlen : (slots₀.filterMap id).length = slots₀.used := by
    rw [← Slots.length_keys]
    simp [Slots.keys]
  have hplace : ∀ e ∈ slots₀.filterMap id, ∃ j : Nat, slots₀[j]? = some (some e) := fun e he =>
    Slots.mem_iff.mp (by simpa using he)
  obtain ⟨h₂, slots₂, hinsert, hc₂, hm₂, ht₂, hused₂, hlen₂, hmem₂⟩ :=
    ht.insertAll hm hs.kept.one (slots₀.filterMap id)
      (fun e he => by
        obtain ⟨j, hj⟩ := hplace e he
        exact ⟨_, (ht₀.used hj).1⟩)
      (fun e he => by
        obtain ⟨j, hj⟩ := hplace e he
        exact ht₀.known hm hj)
      ht₀.probed.nodup_keys (fun e he r => Slots.not_mem_replicate _ _)
      (by rw [Slots.used_replicate, List.length_replicate, hlen, hused]; omega)
  rw [Slots.used_replicate, hlen, hused, Nat.zero_add] at hused₂
  rw [List.length_replicate] at hlen₂
  have hrecords₂ : Records log m.pinned slots₂ := by
    have hmem : ∀ name r, some (name, r) ∈ slots₂ ↔ some (name, r) ∈ slots₀ := by
      intro name r
      rw [hmem₂]
      simp
    refine ⟨fun name => ?_, fun name position r hlookup hr =>
      hrecords₀.methods name position r hlookup ((hmem name r).mp hr)⟩
    rw [← hrecords₀.names, Slots.mem_keys, Slots.mem_keys]
    simp only [hmem]
  -- First the entries are added to a dictionary that nobody follows.
  have halike : t.Alike m starts { m with heap := h₂ } starts :=
    Catalog.alike_of_changes hm hc₂ fun i _ hi => by
      simp only [List.mem_cons, List.not_mem_nil, or_false] at hi
      rcases hi with rfl | rfl
      · exact hd
      · exact ha
  have hkept₂ := halike.kept hb hs.kept hc₂.laidOut hs.kept.one
  have htrail₂ := (halike.filed hb hs.kept hx).2.2
  have hs₂ : Stage (t.watch hb) marks { m with heap := h₂ } starts :=
    hs.relabel hlasting hm₂ hkept₂ rfl rfl
      (fun y hy => by
        cases hsubject.symm.trans hy
        exact htrail₂)
      fun r hr => Heap.kind_congr hs.laidOut hc₂.nil hr hc₂.layout
  have hfollow₂ : ({ m with heap := h₂ } : Machine).wayEnd (x.root.ref { m with heap := h₂ }) path =
      .ofWordIndex c := by
    unfold Handle.trail at htrail₂
    rw [hpath, Catalog.trail_append, Catalog.trail_append] at htrail₂
    simpa [hfollow] using (List.append_inj' htrail₂ rfl).2
  -- Then the class gets it.
  have hclass : (h₂.view c).shape = .cls := (hc₂.layout c hc).shape_eq.trans hshape
  have hfields : (h₂.view c).fields = Class.fieldCount := congrArg Prod.snd hclass
  have hlt : dictionaryWord < (h₂.view c).size :=
    View.fields_lt_size (by rw [show (h₂.view c).format = .plain from congrArg Prod.fst hclass]; rfl)
      (by rw [hfields]; decide)
  have hstore : h₂.storeField (.ofWordIndex c) Class.dictionaryField (.ofWordIndex d) =
      .ok (h₂.poke (c + dictionaryWord) (Ref.ofWordIndex d).bits) :=
    Heap.storeField_eq hc₂.laidOut hc (by rw [hfields]; decide) hlt _
  obtain ⟨hkept₃, htrail₃, hdictionary₃, ht₃⟩ := hkept₂.relink hm₂ hx hpath hfollow₂ hc ht₂ hrecords₂
    (halike.free hb hs.kept hd) (halike.free hb hs.kept ha) rfl
  have hof : (Mark.of .cls).Holds (.any t.base) { m with heap := h₂ } starts (.ofWordIndex c) :=
    ⟨fun _ => ⟨c, hc, rfl⟩, hm₂.kind_of_shape hc hclass (by decide),
      fun _ h => (Option.not_mem_none _ h).elim⟩
  have hsuits : (h₂.kind (.ofWordIndex d)).Suits .cls (headerWords + Class.dictionaryField) := by
    intro expected he
    cases he
    rw [show h₂.kind (.ofWordIndex d) = .object .dictionary from ht₂.kind_selectors hm₂]
    exact Kind.fits_object _
  have hm₃ := (hs₂.forget.storeField (hs₂.forget.writable_of hof trivial) (by decide)
    (fun _ => ⟨d, ht₂.selectors.1, rfl⟩) hsuits (fun _ => trivial) hstore).1.sound
  have hc₃ : h₂.Changes starts [c] (h₂.poke (c + dictionaryWord) (Ref.ofWordIndex d).bits) :=
    .poke hc₂.laidOut hc (by decide) hlt (by rw [hfields]; decide) (by simp) _
  refine ⟨_, slots₂, ?_, ?_, hdictionary₃, ht₃, hrecords₂, hused₂, hlen₂⟩
  · rw [hdictionary]
    show (MethodDictionary.entries m.heap (.ofWordIndex d₀) >>= _) = _
    rw [ht₀.entries hm]
    show (Machine.insertAll m.heap (.ofWordIndex d) _ >>= _) = _
    rw [hinsert]
    exact hstore
  · exact hs₂.relabel hlasting hm₃ hkept₃ rfl rfl
      (fun y hy => by
        cases hsubject.symm.trans hy
        exact htrail₃)
      fun r hr => Heap.kind_congr hc₂.laidOut hc₃.nil hr hc₃.layout

/-- A dictionary that would get too full is replaced by one with room. -/
theorem growFiled {position : Nat} (hs : Stage (t.watch hb) marks m starts)
    (hsubject : t.subject = some x) (hx : t.entries x = some log)
    (hpath : x.path = path ++ [dictionaryWord]) (hmark : marks[position]? = some subjectMark)
    (hlasting : Lasting marks) :
    (m.growDictionary (t.base + position)).Safe fun _ m' => ∃ starts' d a slots,
      Stage (t.watch hb) marks m' starts' ∧ x.dictionary m' = .ofWordIndex d ∧
      m'.Table starts' d a slots ∧ Records log m'.pinned slots ∧
      4 * (slots.used + 1) ≤ 3 * slots.length := by
  obtain ⟨cls, hat, hcls⟩ := hs.pinnedAt hmark
  obtain ⟨c, d, a, slots, hc, -, rfl, hfollow, hd, hdictionary, ht, hrecords⟩ :=
    hs.subject hsubject hx hpath hcls
  have hread : (do MethodDictionary.capacity m.heap (← Class.dictionary m.heap (.ofWordIndex c))) =
      .ok slots.length := by
    rw [hdictionary]
    exact ht.capacity hs.laidOut
  have hcount : checkedCount (slots.length * 2) = .ok (slots.length * 2) := by
    have hlength := ht.length_lt hs.laidOut
    simp only [Ref.addressLimit] at hlength
    exact if_pos (by simp only [countLimit]; omega)
  have hpower : ∃ k, slots.length * 2 = 2 ^ k := by
    obtain ⟨k, hk⟩ := ht.power
    exact ⟨k + 1, by rw [hk, Nat.pow_succ]⟩
  unfold Machine.growDictionary
  refine .step hat (.step (Action.read_of_ok hread) ?_)
  rw [hcount]
  refine .step rfl (.bind ⟨hs.newDictionary hpower, hs.newMethodDictionary_spares _⟩ ?_)
  rintro _ m₁ ⟨starts₁, d₁, a₁, hs₁, rfl, hd₁, ha₁, ht₁⟩
  obtain ⟨cls, hat₁, hcls₁⟩ := hs₁.pinnedAt hmark
  -- Collections do not change the number of entries, for which there is now twice the room.
  have hused := hrecords.used_eq ht.probed
  have hload := ht.load
  have hpos := ht.pos
  obtain ⟨h₂, slots₂, hwrite, hs₂, hd₂, ht₂, hrecords₂, hused₂, hlen₂⟩ :=
    hs₁.refillFiled hsubject hx hpath hlasting hcls₁ hd₁ ha₁ ht₁ (by omega)
  exact .step hat₁ (.of_ok (Action.write_of_ok hwrite)
    ⟨starts₁, d₁, a₁, slots₂, hs₂, hd₂, ht₂, hrecords₂, by omega⟩)

/-- Puts the method pinned above a class into its dictionary, under the symbol pinned last, where it
is found then. -/
theorem insertFiled {selector : String} {held : Option Nat} {d a : Nat} {slots : Slots String Ref}
    (hs : Stage (t.watch hb) [subjectMark, heldMark held, .symbol selector] m starts)
    (hsubject : t.subject = some x) (hx : t.entries x = some log)
    (hpath : x.path = path ++ [dictionaryWord]) (hd : x.dictionary m = .ofWordIndex d)
    (ht : m.Table starts d a slots) (hrecords : Records log m.pinned slots)
    (hroom : 4 * (slots.used + 1) ≤ 3 * slots.length) :
    (m.insertPinned t.base).Safe fun _ m' =>
        (∃ hb' : (t.put x ((selector, held) :: log)).Below,
          Keeps ((t.put x ((selector, held) :: log)).watch hb') [] m' ∧ m'.cache.IsEmpty) ∧
        ∃ method symbol, m.pinned[t.base + 1]? = some method ∧ m'.symbol? selector = some symbol ∧
          MethodDictionary.lookup? m'.heap (x.dictionary m') symbol = .ok (some method) := by
  obtain ⟨cls, hat₀, hcls⟩ := hs.pinnedAt
    (show [subjectMark, heldMark held, .symbol selector][0]? = some subjectMark from rfl)
  obtain ⟨method, hat₁, hmethod⟩ := hs.pinnedAt
    (show [subjectMark, heldMark held, .symbol selector][1]? = some (heldMark held) from rfl)
  obtain ⟨s, hat₂, hname⟩ := hs.pinnedAt
    (show [subjectMark, heldMark held, .symbol selector][2]? = some (.symbol selector) from rfl)
  obtain ⟨hs₁, hcarries⟩ := hs.unpinning 0
  refine .step hat₀ (.step hat₁ (.step hat₂ (.step rfl ?_)))
  -- Unpinning leaves the dictionary what it is.
  obtain ⟨c, d', -, -, -, -, rfl, -, hd', hdictionary, -⟩ := hs.subject hsubject hx hpath hcls
  obtain ⟨-, d₁, a₁, slots₁, -, -, -, -, hd₁, hdictionary₁, ht₁, hrecords₁⟩ :=
    hs₁.subject hsubject hx hpath (hcarries _ _ hcls)
  have hdd : Ref.ofWordIndex d₁ = .ofWordIndex d' :=
    Except.ok.inj (hdictionary₁.symm.trans hdictionary)
  cases hs.laidOut.ofWordIndex_inj ht₁.selectors.1 ht.selectors.1 (hdd.trans (hd'.symm.trans hd))
  have hlen : slots₁.length = slots.length := ht₁.selectors_len.symm.trans ht.selectors_len
  have hused : slots₁.used = slots.used :=
    (hrecords₁.used_eq ht₁.probed).trans (hrecords.used_eq ht.probed).symm
  have hm₁ := hs₁.sound
  have hs' : m.symbols.find? selector = some s := hname.tag _ rfl
  have hheld : ∀ position ∈ held, position < t.base ∧
      (m.pinned.take (t.base + 0))[position]? = some method := by
    rintro position rfl
    exact (hcarries _ _ hmethod).tag _ rfl
  obtain ⟨n, hn⟩ := slots₁.exists_lands (m.hashOf selector) selector ht₁.not_full
  obtain ⟨h, hinsert, hc, ht₂⟩ := ht₁.insert hm₁ hs₁.kept.one hs' hn (.inr (by omega)) method
  have hb' : (t.put x ((selector, held) :: log)).Below :=
    hb.put hx fun position hp => (hheld position hp).1
  have hkept := hs₁.kept.insert hm₁ hx hd₁ ht₁ hrecords₁ hn hc ht₂ fun position hp =>
    (hheld position hp).2
  have hm₂ := ht₁.sound_insert hm₁ hname.known hmethod.known hinsert
  have hwrite : (do MethodDictionary.insert m.heap (← Class.dictionary m.heap (.ofWordIndex c)) s method) =
      .ok h := by
    rw [hdictionary₁]
    exact hinsert
  have hs₂ : Stage ((t.put x ((selector, held) :: log)).watch hb') []
      { m with pinned := m.pinned.take (t.base + 0), heap := h } starts :=
    .of_size hm₂ hs₁.size_pinned hkept
  have hfiled : some (selector, method) ∈ slots₁.set (slots₁.place (m.hashOf selector) n)
      (some (selector, method)) := List.mem_set (slots₁.place_lt _ hn.lt) _
  have hdictionary₂ : x.dictionary { m with pinned := m.pinned.take (t.base + 0), heap := h } =
      .ofWordIndex d := ((hs₁.kept.filed hx).way_changes hs₁.laidOut ht₁ hc).2.1.trans hd₁
  have halike : (t.put x ((selector, held) :: log)).Alike
      { m with pinned := m.pinned.take (t.base + 0), heap := h } starts
      { m with pinned := m.pinned.take (t.base + 0), heap := h, cache := m.cache.flush } starts :=
    Catalog.alike_of_heap starts rfl rfl (fun _ _ => rfl) fun _ _ h => h
  have hput : (t.put x ((selector, held) :: log)).entries x = some ((selector, held) :: log) := if_pos rfl
  have hflushed := (Catalog.parts_last (halike.filed hb' hkept hput).2.1).1.trans hdictionary₂
  refine .step (Action.write_of_ok hwrite) (.of_ok rfl
    ⟨⟨hb', ⟨starts, hs₂.flushCache⟩, find?_flush _⟩, method, s, pinnedAt_ok hat₁, hs', ?_⟩)
  exact (congrArg (MethodDictionary.lookup? h · s) hflushed).trans
    (ht₂.lookup_some hm₂ hs₁.kept.one hs' hfiled)

/-- There is room for another method in the dictionary of a class, which is pinned with the method and
the symbol of its selector. -/
theorem makeRoomFiled (hs : Stage (t.watch hb) [] m starts)
    (hsubject : t.subject = some x) (hx : t.entries x = some log)
    (hpath : x.path = path ++ [dictionaryWord]) (hcls : subjectMark.Holds (t.watch hb) m starts cls)
    (selector : String) (held : Option Nat) (hmethod : (heldMark held).Holds (t.watch hb) m starts method) :
    (m.makeRoom cls selector method).Safe fun base m' => base = t.base ∧ ∃ starts' d a slots,
      Stage (t.watch hb) [subjectMark, heldMark held, .symbol selector] m' starts' ∧
      x.dictionary m' = .ofWordIndex d ∧ m'.Table starts' d a slots ∧ Records log m'.pinned slots ∧
      4 * (slots.used + 1) ≤ 3 * slots.length := by
  unfold Machine.makeRoom
  obtain ⟨hs₀, hcarries₀⟩ := hs.pinning hcls
  have hs₁ := hs₀.pin (hcarries₀ _ _ hmethod)
  have hbase : m.pinned.size = t.base := hs.size_pinned
  refine .step rfl (.step rfl (.step rfl (.bind ⟨hs₁.intern selector, hs₁.intern_spares selector⟩ ?_)))
  rintro name m₂ ⟨starts₂, hs₂, hname⟩
  have hs₃ := hs₂.pin hname
  have hlasting : Lasting [subjectMark, heldMark held, .symbol selector] := by
    intro mark hmark tag htag
    simp only [List.mem_cons, List.not_mem_nil, or_false] at hmark
    rcases hmark with rfl | rfl | rfl
    · cases htag
      trivial
    · obtain ⟨position, -, rfl⟩ := Option.mem_map.mp htag
      trivial
    · cases htag
      trivial
  rw [hbase]
  have hmark : [subjectMark, heldMark held, .symbol selector][0]? = some subjectMark := rfl
  obtain ⟨cls₃, hat, hcls₃⟩ := hs₃.pinnedAt hmark
  obtain ⟨c, d, a, slots, -, -, rfl, -, hd, hdictionary, ht, hrecords⟩ :=
    hs₃.subject hsubject hx hpath hcls₃
  have hfull : (do MethodDictionary.isFull m₂.heap (← Class.dictionary m₂.heap (.ofWordIndex c))) =
      .ok (decide (slots.length * 3 < (slots.used + 1) * 4)) := by
    rw [hdictionary]
    exact ht.isFull_eq hs₃.laidOut
  refine .step rfl (.step hat (.step (Action.read_of_ok hfull) ?_))
  by_cases hroom : slots.length * 3 < (slots.used + 1) * 4
  · rw [decide_eq_true hroom]
    refine .bind (hs₃.growFiled hsubject hx hpath hmark hlasting) ?_
    rintro _ m₄ ⟨starts₄, d₄, a₄, slots₄, hs₄, hd₄, ht₄, hrecords₄, hroom₄⟩
    exact .of_ok rfl ⟨rfl, starts₄, d₄, a₄, slots₄, hs₄, hd₄, ht₄, hrecords₄, hroom₄⟩
  · rw [decide_eq_false hroom]
    exact .of_ok rfl ⟨rfl, starts₂, d, a, slots, hs₃, hd, ht, hrecords, by omega⟩

/-- Adding a method to a class adds it to what is known of the dictionary. -/
theorem installFiled (hs : Stage (t.watch hb) [] m starts)
    (hsubject : t.subject = some x) (hx : t.entries x = some log)
    (hpath : x.path = path ++ [dictionaryWord]) (hcls : subjectMark.Holds (t.watch hb) m starts cls)
    (selector : String) (held : Option Nat) (hmethod : (heldMark held).Holds (t.watch hb) m starts method) :
    (m.installMethod cls selector method).Safe fun _ m' =>
      ∃ hb' : (t.put x ((selector, held) :: log)).Below,
        Keeps ((t.put x ((selector, held) :: log)).watch hb') [] m' ∧ m'.cache.IsEmpty := by
  rw [installMethod_eq]
  refine .bind (hs.makeRoomFiled hsubject hx hpath hcls selector held hmethod) ?_
  rintro _ m₁ ⟨rfl, starts₁, d, a, slots, hs₁, hd, ht, hrecords, hroom⟩
  have hinserted := hs₁.insertFiled hsubject hx hpath hd ht hrecords hroom
  exact ⟨hinserted.meets.mono (fun _ _ h => h.1) fun _ h => h, hinserted.spares⟩

end Stage

end Machine

end ObjectMachine
