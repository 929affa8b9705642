import ObjectMachine.Proofs.Class.Installing
import ObjectMachine.Proofs.Machine.Bootstrapped

/-!
# Classes that are made

A class and its metaclass each get a new dictionary. The dictionaries are pinned until the classes
are there, so a catalog follows them from the temporaries first and over the class afterwards.

## Main results

* `Machine.Catalog.Kept.linked`: a class that was filled in leads to its dictionaries.
* `Machine.Stage.createFiled`, `Machine.Stage.defineFiled`: a class that was made has two dictionaries
  without entries.
-/

namespace ObjectMachine

namespace Machine

variable {m m' : Machine} {starts starts' : List Nat} {h g : Heap} {r cls value : Ref}
  {w : Watch} {marks : List Mark} {t : Catalog} {hb : t.Below} {x : Handle} {log : Log} {c k : Nat}

/-! ## The words of a class -/

/-- A word of a class gets another value. -/
theorem changes_class (hl : h.LaidOut starts) (hc : c ∈ starts) (hshape : (h.view c).shape = .cls)
    (hpos : k ≠ 0) (hk : k < headerWords + Class.fieldCount) (value : Ref) :
    h.Changes starts [c] (h.poke (c + k) value.bits) ∧
      ∀ l, ((h.poke (c + k) value.bits).view c).ref l = if l = k then value else (h.view c).ref l := by
  have hfields : (h.view c).fields = Class.fieldCount := congrArg Prod.snd hshape
  have hformat : (h.view c).format = .plain := congrArg Prod.fst hshape
  have hlt : k < (h.view c).size := View.fields_lt_size (by rw [hformat]; rfl) (by omega)
  have hfits := hl.fits_memory hc
  refine ⟨.poke hl hc hpos hlt (by omega) (by simp) _, fun l => ?_⟩
  unfold View.ref
  rw [Heap.view_poke (by omega)]
  split <;> rfl

/-- A field of a class gets another value. -/
theorem storeField_class {index : Nat} (hl : h.LaidOut starts) (hc : c ∈ starts)
    (hshape : (h.view c).shape = .cls) (hindex : index < Class.fieldCount)
    (hok : h.storeField (.ofWordIndex c) index value = .ok g) :
    h.Changes starts [c] g ∧ ∀ l, (g.view c).ref l =
      if l = headerWords + index then value else (h.view c).ref l := by
  have hfields : (h.view c).fields = Class.fieldCount := congrArg Prod.snd hshape
  have hformat : (h.view c).format = .plain := congrArg Prod.fst hshape
  rw [Heap.storeField_eq hl hc (by rw [hfields]; exact hindex)
    (View.fields_lt_size (by rw [hformat]; rfl) (by omega))] at hok
  cases hok
  exact changes_class hl hc hshape (by simp only [headerWords]; omega) (by omega) value

/-- Filling in a class gives it its dictionary and leaves its class. -/
theorem fillClass_class {superclass dictionary name owner : Ref} {spec : InstanceSpec}
    (hl : h.LaidOut starts) (hc : c ∈ starts) (hshape : (h.view c).shape = .cls)
    (hok : Machine.fillClass h (.ofWordIndex c) superclass dictionary spec name owner = .ok g) :
    h.Changes starts [c] g ∧ (g.view c).ref dictionaryWord = dictionary ∧
      (g.view c).ref 1 = (h.view c).ref 1 := by
  unfold Machine.fillClass at hok
  obtain ⟨h₁, hok₁, hok⟩ := bind_eq_ok.mp hok
  obtain ⟨h₂, hok₂, hok⟩ := bind_eq_ok.mp hok
  obtain ⟨h₃, hok₃, hok⟩ := bind_eq_ok.mp hok
  obtain ⟨h₄, hok₄, hok₅⟩ := bind_eq_ok.mp hok
  have hnext : ∀ {g₀ g₁ index value}, h.Changes starts [c] g₀ → index < Class.fieldCount →
      g₀.storeField (.ofWordIndex c) index value = .ok g₁ → h.Changes starts [c] g₁ ∧
        ∀ l, (g₁.view c).ref l = if l = headerWords + index then value else (g₀.view c).ref l := by
    intro g₀ g₁ index value hc₀ hindex hok
    obtain ⟨hc₁, hview⟩ := storeField_class hc₀.laidOut hc ((hc₀.layout c hc).shape_eq.trans hshape)
      hindex hok
    exact ⟨hc₀.trans hc₁, hview⟩
  obtain ⟨hc₁, hview₁⟩ := hnext (.refl hl [c]) (by decide) hok₁
  obtain ⟨hc₂, hview₂⟩ := hnext hc₁ (by decide) hok₂
  obtain ⟨hc₃, hview₃⟩ := hnext hc₂ (by decide) hok₃
  obtain ⟨hc₄, hview₄⟩ := hnext hc₃ (by decide) hok₄
  obtain ⟨hc₅, hview₅⟩ := hnext hc₄ (by decide) hok₅
  refine ⟨hc₅, ?_, ?_⟩
  · rw [hview₅, if_neg (by decide), hview₄, if_neg (by decide), hview₃, if_neg (by decide), hview₂]
    exact if_pos rfl
  · rw [hview₅, if_neg (by decide), hview₄, if_neg (by decide), hview₃, if_neg (by decide), hview₂,
      if_neg (by decide), hview₁, if_neg (by decide)]

/-- What a class and its metaclass lead to after they were linked. -/
structure Linked (h : Heap) (starts : List Nat) (c mc : Nat) (dictionary metaDictionary : Ref)
    (g : Heap) : Prop where
  changes : h.Changes starts [c, mc] g
  metaclass : (g.view c).ref 1 = .ofWordIndex mc
  dictionary : (g.view c).ref dictionaryWord = dictionary
  metaDictionary : (g.view mc).ref dictionaryWord = metaDictionary

theorem linkClass_linked {superclass name dictionary metaDictionary : Ref} {spec : InstanceSpec}
    {mc : Nat} (hl : m.heap.LaidOut starts) (hc : c ∈ starts) (hmc : mc ∈ starts) (hne : c ≠ mc)
    (hshape : (m.heap.view c).shape = .cls) (hmshape : (m.heap.view mc).shape = .cls) :
    (m.linkClass (.ofWordIndex c) (.ofWordIndex mc) superclass spec name dictionary
      metaDictionary).Meets (fun _ m' => ∃ h, m' = { m with heap := h } ∧
        Linked m.heap starts c mc dictionary metaDictionary h) fun _ => False := by
  have hrest : ∀ metaSuperclass, (Action.write (fun h => do
        let h ← h.setClassOf (.ofWordIndex c) (.ofWordIndex mc)
        let h ← Machine.fillClass h (.ofWordIndex c) superclass dictionary spec name m.core.nil
        Machine.fillClass h (.ofWordIndex mc) metaSuperclass metaDictionary
          ⟨.plain, Class.fieldCount⟩ m.core.nil (.ofWordIndex c)) m).Meets
      (fun _ m' => ∃ h, m' = { m with heap := h } ∧
        Linked m.heap starts c mc dictionary metaDictionary h) fun _ => False := by
    intro metaSuperclass
    refine .write_last fun h hok => ?_
    obtain ⟨h₁, hok₁, hok⟩ := bind_eq_ok.mp hok
    obtain ⟨h₂, hok₂, hok₃⟩ := bind_eq_ok.mp hok
    obtain ⟨hc₁, hview₁⟩ := changes_class hl hc hshape (k := 1) (by decide) (by decide)
      (.ofWordIndex mc)
    rw [Heap.setClassOf_eq hl hc] at hok₁
    cases hok₁
    obtain ⟨hc₂, hd, hcls⟩ := fillClass_class hc₁.laidOut hc
      ((hc₁.layout c hc).shape_eq.trans hshape) hok₂
    have hmshape₂ := ((hc₁.trans hc₂).layout mc hmc).shape_eq.trans hmshape
    obtain ⟨hc₃, hmd, -⟩ := fillClass_class hc₂.laidOut hmc hmshape₂ hok₃
    -- The metaclass is filled in without touching the class.
    have hkeeps : ∀ l < headerWords + Class.fieldCount, (h.view c).ref l = (h₂.view c).ref l := by
      intro l hl
      have hshape₂ := ((hc₁.trans hc₂).layout c hc).shape_eq.trans hshape
      have hfields : (h₂.view c).fields = Class.fieldCount := congrArg Prod.snd hshape₂
      have hformat : (h₂.view c).format = .plain := congrArg Prod.fst hshape₂
      exact hc₃.ref hc (by simpa using hne)
        (View.fields_lt_size (by rw [hformat]; rfl) (by omega))
    refine ⟨h, rfl, ((hc₁.trans hc₂).mono (by simp)).trans (hc₃.mono (by simp)), ?_, ?_, hmd⟩
    · rw [hkeeps 1 (by decide), hcls, hview₁, if_pos rfl]
    · rw [hkeeps dictionaryWord (by decide), hd]
  unfold Machine.linkClass
  refine .step rfl ?_
  split
  · exact .step rfl (hrest _)
  · exact .read fun metaSuperclass _ => hrest metaSuperclass

/-! ## Dictionaries that come into a catalog -/

/-- A dictionary does not depend on anything but memory and the symbols. -/
theorem Table.congr_heap {d a : Nat} {slots : Slots String Ref} (ht : m.Table starts d a slots)
    (hheap : m'.heap = m.heap) (hsymbols : m'.symbols = m.symbols) : m'.Table starts d a slots := by
  cases m
  cases m'
  cases hheap
  cases hsymbols
  exact ⟨ht.selectors, ht.methods, ht.link, ht.selectors_len, ht.methods_len, ht.power, ht.tally,
    ht.load, ht.free, ht.used, ht.probed⟩

namespace Catalog

/-- A catalog may follow less. -/
theorem Kept.restrict {t' : Catalog} (hk : t.Kept m starts)
    (hentries : ∀ {x log}, t'.entries x = some log → t.entries x = some log)
    (hkinds : ∀ e ∈ t'.kinds, Known starts ((Root.pinned e.1).ref m) ∧
      e.2 (m.heap.kind ((Root.pinned e.1).ref m)))
    (hvacant : t'.vacant.Sublist t.vacant) : t'.Kept m starts where
  laidOut := hk.laidOut
  one := hk.one
  filed hx := hk.filed (hentries hx)
  apart hx hy hne := hk.apart (hentries hx) (hentries hy) hne
  kinds := hkinds
  vacant := (hvacant.map _).nodup hk.vacant
  away k hkv _ _ hx := hk.away k (hvacant.subset hkv) (hentries hx)

/-- A catalog may follow one dictionary more, if it is no other one. -/
theorem Kept.add (hk : t.Kept m starts) (hx : m.Filed starts x log) (hd : t.Free m (x.dictionary m))
    (ha : t.Free m (x.methods m)) (haway : ∀ k ∈ t.vacant, m.core.cls k ∉ x.parts m) :
    (t.put x log).Kept m starts := by
  have hnew : ∀ {y log'}, t.entries y = some log' → Apart m x y := by
    intro y log' hy
    refine ⟨fun heq => hd y log' hy ?_, fun heq => ha y log' hy ?_⟩ <;> simp [Handle.parts, heq]
  refine ⟨hk.laidOut, hk.one, ?_, ?_, hk.kinds, hk.vacant, ?_⟩
  · intro y log' hy
    rcases entries_put hy with ⟨rfl, rfl⟩ | ⟨-, hy⟩
    · exact hx
    · exact hk.filed hy
  · intro y z log₁ log₂ hy hz hne
    rcases entries_put hy with ⟨hyx, -⟩ | ⟨-, hy'⟩ <;> rcases entries_put hz with ⟨hzx, -⟩ | ⟨-, hz'⟩
    · exact absurd (hyx.trans hzx.symm) hne
    · rw [hyx]
      exact hnew hz'
    · rw [hzx]
      exact ⟨(hnew hy').1.symm, (hnew hy').2.symm⟩
    · exact hk.apart hy' hz' hne
  · intro k hkv y log' hy
    rcases entries_put hy with ⟨rfl, -⟩ | ⟨-, hy⟩
    · exact haway k hkv
    · exact hk.away k hkv hy

/-- A class and its metaclass without methods. -/
def enroll (t : Catalog) (root : Root) : Catalog := (t.put (.cls root) []).put (.metaclass root) []

theorem entries_enroll {root : Root} (hx : (t.enroll root).entries x = some log) :
    ((x = .cls root ∨ x = .metaclass root) ∧ log = []) ∨ t.entries x = some log := by
  rcases entries_put hx with ⟨heq, hlog⟩ | ⟨-, hx⟩
  · exact .inl ⟨.inr heq, hlog⟩
  · rcases entries_put hx with ⟨heq, hlog⟩ | ⟨-, hx⟩
    · exact .inl ⟨.inl heq, hlog⟩
    · exact .inr hx

theorem Below.enroll (hb : t.Below) (root : Root) (hroot : root.Below t.base) :
    (t.enroll root).Below where
  roots hy := by
    rcases entries_enroll hy with ⟨rfl | rfl, -⟩ | hy
    · exact hroot
    · exact hroot
    · exact hb.roots hy
  logs hy e he := by
    rcases entries_enroll hy with ⟨-, rfl⟩ | hy
    · cases he
    · exact hb.logs hy e he
  kinds := hb.kinds
  subject y hy := by
    obtain ⟨log, hlog⟩ := hb.subject y hy
    unfold Catalog.enroll Catalog.put
    dsimp only
    split
    · exact ⟨_, rfl⟩
    · split
      · exact ⟨_, rfl⟩
      · exact ⟨log, hlog⟩

theorem records_nil {slots : Slots String Ref} {pinned pinned' : Array Ref}
    (hr : Records [] pinned slots) : Records [] pinned' slots :=
  ⟨hr.names, fun _ _ _ h => nomatch h⟩

/-- A dictionary without entries that a catalog does not follow. -/
structure Unused (t : Catalog) (m : Machine) (starts : List Nat) (d a : Nat) : Prop where
  table : ∃ slots, m.Table starts d a slots ∧ Records [] m.pinned slots
  dictionary : t.Free m (.ofWordIndex d)
  methods : t.Free m (.ofWordIndex a)

/-- A class that was filled in leads to its dictionaries. -/
theorem Kept.linked {root : Root} {c mc d a d' a' : Nat}
    (hb : t.Below) (hm : m.Sound starts) (hk : t.Kept m starts) (hc : c ∈ starts) (hmc : mc ∈ starts)
    (hshape : (m.heap.view c).shape = .cls) (hmshape : (m.heap.view mc).shape = .cls)
    (hfree : t.Free m (.ofWordIndex c)) (hmfree : t.Free m (.ofWordIndex mc))
    (hu : t.Unused m starts d a) (hu' : t.Unused m starts d' a') (hdd : d ≠ d') (haa : a ≠ a')
    (hlinked : Linked m.heap starts c mc (.ofWordIndex d) (.ofWordIndex d') m'.heap)
    (hclasses : m'.core.classes = m.core.classes) (hsymbols : m'.symbols = m.symbols)
    (hpinned : ∀ position < t.base, m'.pinned[position]? = m.pinned[position]?)
    (hroot : root.ref m' = .ofWordIndex c)
    (haway : ∀ k ∈ t.vacant, m.core.cls k ≠ .ofWordIndex c ∧ m.core.cls k ≠ .ofWordIndex mc) :
    (t.enroll root).Kept m' starts := by
  obtain ⟨⟨slots, ht, hslots⟩, hd, ha⟩ := hu
  obtain ⟨⟨slots', ht', hslots'⟩, hd', ha'⟩ := hu'
  have hchanges := hlinked.changes
  have hl := hm.laidOut
  have hl' := hchanges.laidOut
  have hfind : ∀ name r, m.symbols.find? name = some r → m'.symbols.find? name = some r := by
    rw [hsymbols]
    exact fun _ _ h => h
  have halike : t.Alike m starts m' starts :=
    { sub := fun _ hi => hi
      nil := hchanges.nil
      layout := hchanges.layout
      words := fun i hi hpart => hchanges.words i hi (by
        simp only [List.mem_cons, List.not_mem_nil, or_false]
        rintro (rfl | rfl)
        · exact hpart hfree
        · exact hpart hmfree)
      classes := hclasses
      pinned := hpinned
      symbols := hfind
      hash := fun name _ _ => by
        rw [← hashOf_changes hm hchanges name]
        unfold hashOf
        rw [hsymbols] }
  have hk' := halike.kept hb hk hl' fun name name' r hr hr' => by
    rw [hsymbols] at hr hr'
    exact hk.one name name' r hr hr'
  have htable : ∀ {d a slots}, m.Table starts d a slots → m'.Table starts d a slots := by
    intro d a slots ht
    have hne := ht.ne_cls hshape
    have hmne := ht.ne_cls hmshape
    have hchanged : ({ m with heap := m'.heap } : Machine).Table starts d a slots :=
      ht.changes hm hchanges (by simpa using ⟨hne.1.symm, hmne.1.symm⟩)
        (by simpa using ⟨hne.2.symm, hmne.2.symm⟩)
    exact hchanged.congr_heap rfl hsymbols
  have hcls : ∀ k, m'.core.cls k = m.core.cls k := fun k => by
    show m'.core.classes[k.index] = m.core.classes[k.index]
    rw [hclasses]
  have hword : m'.word (.ofWordIndex c) dictionaryWord = .ofWordIndex d := by
    rw [word_ofWordIndex hl' hc]
    exact hlinked.dictionary
  have hmword : m'.word (.ofWordIndex c) 1 = .ofWordIndex mc := by
    rw [word_ofWordIndex hl' hc]
    exact hlinked.metaclass
  have hdword : m'.word (.ofWordIndex mc) dictionaryWord = .ofWordIndex d' := by
    rw [word_ofWordIndex hl' hmc]
    exact hlinked.metaDictionary
  have hdictionary : (Handle.cls root).dictionary m' = .ofWordIndex d := by
    show m'.word (root.ref m') dictionaryWord = _
    rw [hroot, hword]
  have hdictionary' : (Handle.metaclass root).dictionary m' = .ofWordIndex d' := by
    show m'.word (m'.word (root.ref m') 1) dictionaryWord = _
    rw [hroot, hmword, hdword]
  have hmethods := Filed.methods_eq hl' hdictionary (htable ht)
  have hmethods' := Filed.methods_eq hl' hdictionary' (htable ht')
  have htrail : (Handle.cls root).trail m' = [.ofWordIndex c] := by
    show [root.ref m'] = _
    rw [hroot]
  have htrail' : (Handle.metaclass root).trail m' = [.ofWordIndex c, .ofWordIndex mc] := by
    show [root.ref m', m'.word (root.ref m') 1] = _
    rw [hroot, hmword]
  have hstep : ∃ i ∈ starts, root.ref m' = .ofWordIndex i ∧ (m'.heap.view i).shape = .cls :=
    ⟨c, hc, hroot, (hchanges.layout c hc).shape_eq.trans hshape⟩
  have hfiled : m'.Filed starts (.cls root) [] :=
    ⟨⟨hstep, .inr rfl, trivial⟩, d, a, slots, hdictionary, htable ht, records_nil hslots⟩
  have hfiled' : m'.Filed starts (.metaclass root) [] := by
    refine ⟨⟨hstep, .inl rfl, ⟨mc, hmc, ?_, (hchanges.layout mc hmc).shape_eq.trans hmshape⟩, .inr rfl,
      trivial⟩, d', a', slots', hdictionary', htable ht', records_nil hslots'⟩
    show m'.word (root.ref m') 1 = _
    rw [hroot, hmword]
  have hk₁ : (t.put (.cls root) []).Kept m' starts := by
    refine hk'.add hfiled (by rw [hdictionary]; exact halike.free hb hk hd)
      (by rw [hmethods]; exact halike.free hb hk ha) fun k hkv => ?_
    unfold Handle.parts
    rw [htrail, hdictionary, hmethods, hcls]
    simp [haway k hkv, ht.ne_kernel hm k]
  refine hk₁.add hfiled' ?_ ?_ fun k hkv => ?_
  · rw [hdictionary']
    intro y log hy
    rcases entries_put hy with ⟨rfl, -⟩ | ⟨-, hy⟩
    · unfold Handle.parts
      rw [htrail, hdictionary, hmethods]
      simp only [List.singleton_append, List.mem_cons, List.not_mem_nil, or_false]
      rintro (heq | heq | heq)
      · exact (ht'.ne_cls hshape).1 (hl.ofWordIndex_inj hc ht'.selectors.1 heq.symm)
      · exact hdd (hl.ofWordIndex_inj ht.selectors.1 ht'.selectors.1 heq.symm)
      · cases hl.ofWordIndex_inj ht'.selectors.1 ht.methods.1 heq
        have hboth := ht'.selectors.2.symm.trans ht.methods.2
        cases hboth
    · exact halike.free hb hk hd' y log hy
  · rw [hmethods']
    intro y log hy
    rcases entries_put hy with ⟨rfl, -⟩ | ⟨-, hy⟩
    · unfold Handle.parts
      rw [htrail, hdictionary, hmethods]
      simp only [List.singleton_append, List.mem_cons, List.not_mem_nil, or_false]
      rintro (heq | heq | heq)
      · exact (ht'.ne_cls hshape).2 (hl.ofWordIndex_inj hc ht'.methods.1 heq.symm)
      · cases hl.ofWordIndex_inj ht'.methods.1 ht.selectors.1 heq
        have hboth := ht'.methods.2.symm.trans ht.selectors.2
        cases hboth
      · exact haa (hl.ofWordIndex_inj ht.methods.1 ht'.methods.1 heq.symm)
    · exact halike.free hb hk ha' y log hy
  · unfold Handle.parts
    rw [htrail', hdictionary', hmethods', hcls]
    simp [haway k hkv, ht'.ne_kernel hm k]

/-- A dictionary that a catalog follows is unused in one that follows only others. -/
theorem Kept.unused {t' : Catalog} (hk : t.Kept m starts) (hx : t.entries x = some [])
    (hothers : ∀ {y log}, t'.entries y = some log → t.entries y = some log ∧ y ≠ x) :
    ∃ d a, x.dictionary m = .ofWordIndex d ∧ x.methods m = .ofWordIndex a ∧
      t'.Unused m starts d a := by
  have hl := hk.laidOut
  obtain ⟨d, a, slots, hd, ht, hrecords⟩ := (hk.filed hx).table
  have ha := Filed.methods_eq hl hd ht
  refine ⟨d, a, hd, ha, ⟨slots, ht, hrecords⟩, ?_, ?_⟩
  all_goals
    intro y log hy
    obtain ⟨hy, hne⟩ := hothers hy
    have hapart := hk.apart hx hy hne.symm
    obtain ⟨d', a', slots', hd', ht', -⟩ := (hk.filed hy).table
    have ha' := Filed.methods_eq hl hd' ht'
    intro hmem
    rcases List.mem_append.mp hmem with htrail | hend
  · obtain ⟨i, hi, heq, hshape⟩ := (hk.filed hy).walks.cls htrail
    exact (ht.ne_cls hshape).1 (hl.ofWordIndex_inj hi ht.selectors.1 heq.symm)
  · simp only [List.mem_cons, List.not_mem_nil, or_false] at hend
    rcases hend with heq | heq
    · exact hapart.1 (hd.trans heq)
    · cases hl.ofWordIndex_inj ht.selectors.1 ht'.methods.1 (heq.trans ha')
      have hboth := ht.selectors.2.symm.trans ht'.methods.2
      cases hboth
  · obtain ⟨i, hi, heq, hshape⟩ := (hk.filed hy).walks.cls htrail
    exact (ht.ne_cls hshape).2 (hl.ofWordIndex_inj hi ht.methods.1 heq.symm)
  · simp only [List.mem_cons, List.not_mem_nil, or_false] at hend
    rcases hend with heq | heq
    · cases hl.ofWordIndex_inj ht.methods.1 ht'.selectors.1 (heq.trans hd')
      have hboth := ht.methods.2.symm.trans ht'.selectors.2
      cases hboth
    · exact hapart.2 (ha.trans heq)

/-! ### Dictionaries that are pinned -/

/-- A catalog in which a temporary is a dictionary without entries. It includes the temporaries up to
that one, of some of which the kind is known. -/
def adopt (t : Catalog) (position : Nat) (kinds : List (Nat × (Kind → Prop))) : Catalog :=
  { t.put (.direct (.pinned position)) [] with base := position + 1, kinds }

/-- A catalog may include more temporaries. -/
theorem Below.raise {base : Nat} (hb : t.Below) (hbase : t.base ≤ base) :
    ({ t with base } : Catalog).Below where
  roots {y log'} hy := by
    have hroot := hb.roots hy
    revert hroot
    cases y.root with
    | kernel k => exact id
    | pinned p => exact fun hp => Nat.lt_of_lt_of_le hp hbase
  logs hy e he p hp := Nat.lt_of_lt_of_le (hb.logs hy e he p hp) hbase
  kinds e he := Nat.lt_of_lt_of_le (hb.kinds e he) hbase
  subject := hb.subject

theorem Below.adopt {position : Nat} {kinds : List (Nat × (Kind → Prop))} (hb : t.Below)
    (hbase : t.base ≤ position) (hkinds : ∀ e ∈ kinds, e.1 < position + 1) :
    (t.adopt position kinds).Below where
  roots {y log'} hy := by
    rcases entries_put hy with ⟨rfl, -⟩ | ⟨-, hy⟩
    · exact Nat.lt_succ_self position
    · exact (hb.raise (Nat.le_succ_of_le hbase)).roots hy
  logs {y log'} hy e he p hp := by
    rcases entries_put hy with ⟨-, rfl⟩ | ⟨-, hy⟩
    · cases he
    · exact (hb.raise (Nat.le_succ_of_le hbase)).logs hy e he p hp
  kinds := hkinds
  subject y hy := by
    obtain ⟨log', hlog⟩ := hb.subject y hy
    show ∃ log, (t.put (.direct (.pinned position)) []).entries y = some log
    unfold Catalog.put
    dsimp only
    split
    · exact ⟨_, rfl⟩
    · exact ⟨log', hlog⟩

/-- A catalog in which two temporaries are dictionaries without entries. -/
def adoptPair (t : Catalog) (position : Nat) (kinds : List (Nat × (Kind → Prop))) : Catalog :=
  (t.adopt position kinds).adopt (position + 1) kinds

theorem entries_adoptPair (t : Catalog) (position : Nat) (kinds : List (Nat × (Kind → Prop))) :
    (t.adoptPair position kinds).entries (.direct (.pinned position)) = some [] ∧
      (t.adoptPair position kinds).entries (.direct (.pinned (position + 1))) = some [] := by
  have hne : Handle.direct (.pinned position) ≠ .direct (.pinned (position + 1)) := by
    intro heq
    injection heq with hroot
    injection hroot with hposition
    omega
  exact ⟨(if_neg hne).trans (if_pos rfl), if_pos rfl⟩

theorem entries_adoptPair_of {position : Nat} {kinds : List (Nat × (Kind → Prop))} (hb : t.Below)
    (hbase : t.base ≤ position) {y : Handle} {log' : Log} (hy : t.entries y = some log') :
    (t.adoptPair position kinds).entries y = some log' ∧ y ≠ .direct (.pinned position) ∧
      y ≠ .direct (.pinned (position + 1)) := by
  have hne : ∀ p, t.base ≤ p → y ≠ .direct (.pinned p) := by
    rintro p hp rfl
    exact absurd (hb.roots hy) (Nat.not_lt.mpr hp)
  have h₀ := hne position hbase
  have h₁ := hne (position + 1) (Nat.le_succ_of_le hbase)
  exact ⟨(if_neg h₁).trans ((if_neg h₀).trans hy), h₀, h₁⟩

end Catalog

/-- A dictionary that was made and pinned. -/
theorem Stage.adopt {d a capacity position : Nat} {kinds : List (Nat × (Kind → Prop))}
    (hs : Stage (t.watch hb) marks m starts) (hd : t.Free m (.ofWordIndex d))
    (ha : t.Free m (.ofWordIndex a)) (ht : m.Table starts d a (List.replicate capacity none))
    (hsize : m.pinned.size = position)
    (hkinds : ∀ e ∈ kinds, e.1 < position ∧ Known starts ((Root.pinned e.1).ref m) ∧
      e.2 (m.heap.kind ((Root.pinned e.1).ref m))) :
    ∃ hb' : (t.adopt position kinds).Below, Stage ((t.adopt position kinds).watch hb') []
      { m with pinned := m.pinned.push (.ofWordIndex d) } starts := by
  subst hsize
  have hbase : t.base ≤ m.pinned.size := hs.base_le
  have hl := hs.laidOut
  have hb' : (t.adopt m.pinned.size kinds).Below :=
    hb.adopt hbase fun e he => Nat.lt_succ_of_lt (hkinds e he).1
  have hd' : (Mark.of .dictionary).Holds (t.watch hb) m starts (.ofWordIndex d) :=
    ⟨fun _ => ⟨d, ht.selectors.1, rfl⟩, ht.kind_selectors hs.sound, fun _ h => nomatch h⟩
  obtain ⟨hs₁, -⟩ := hs.pinning hd'
  have hlow : ∀ position < m.pinned.size,
      (m.pinned.push (.ofWordIndex d))[position]? = m.pinned[position]? := fun position hp => by
    rw [Array.getElem?_push, if_neg (by omega)]
  have halike : t.Alike m starts { m with pinned := m.pinned.push (.ofWordIndex d) } starts :=
    Catalog.alike_of_heap starts rfl rfl (fun position hp => hlow position (by omega)) fun _ _ h => h
  have href : ∀ position < m.pinned.size,
      (Root.pinned position).ref { m with pinned := m.pinned.push (.ofWordIndex d) } =
        (Root.pinned position).ref m := fun position hp => by
    show (m.pinned.push _).getD position .null = m.pinned.getD position .null
    rw [Array.getD_eq_getD_getElem?, Array.getD_eq_getD_getElem?, hlow position hp]
  have hlast : (Handle.direct (.pinned m.pinned.size)).dictionary
      { m with pinned := m.pinned.push (.ofWordIndex d) } = .ofWordIndex d := by
    show (m.pinned.push _).getD m.pinned.size .null = _
    rw [Array.getD_eq_getD_getElem?, Array.getElem?_push, if_pos rfl]
    rfl
  have ht' : ({ m with pinned := m.pinned.push (.ofWordIndex d) } : Machine).Table starts d a
      (List.replicate capacity none) := ht.congr_heap rfl rfl
  have hmethods := Filed.methods_eq hs₁.laidOut hlast ht'
  have hfiled : ({ m with pinned := m.pinned.push (.ofWordIndex d) } : Machine).Filed starts
      (.direct (.pinned m.pinned.size)) [] := by
    refine ⟨trivial, d, a, _, hlast, ht', fun name => ?_, fun _ _ _ h => nomatch h⟩
    simp [Slots.mem_keys]
  have hk := (halike.kept hb hs.kept hl hs.kept.one).add hfiled
    (by rw [hlast]; exact halike.free hb hs.kept hd)
    (by rw [hmethods]; exact halike.free hb hs.kept ha) fun k _ => by
      unfold Handle.parts
      rw [hlast, hmethods]
      simpa [Handle.trail, Handle.direct, trail] using ht'.ne_kernel hs₁.sound k
  refine ⟨hb', .of_size hs₁.sound (Array.size_push _) (hk.restrict id ?_ (.refl _))⟩
  intro e he
  rw [href e.1 (hkinds e he).1]
  exact (hkinds e he).2

/-! ## Making classes -/

theorem unpin_at {position : Nat} (hsize : m.pinned.size = position + 1) :
    m.unpin = .ok ((Root.pinned position).ref m) { m with pinned := m.pinned.pop } := by
  have hback : m.pinned.back? = some ((Root.pinned position).ref m) := by
    show m.pinned.back? = some (m.pinned.getD position .null)
    rw [Array.back?_eq_getElem?, hsize, Nat.add_sub_cancel, Array.getD_eq_getD_getElem?,
      Array.getElem?_eq_getElem (by omega)]
    rfl
  unfold Machine.unpin
  rw [hback]

theorem getElem?_pop {pinned : Array Ref} {i : Nat} (hi : i + 1 < pinned.size) :
    pinned.pop[i]? = pinned[i]? := by
  rw [Array.getElem?_pop, if_pos (by omega)]

theorem ref_pop {position : Nat} (hposition : position + 1 < m.pinned.size) :
    (Root.pinned position).ref { m with pinned := m.pinned.pop } = (Root.pinned position).ref m := by
  show m.pinned.pop.getD position .null = m.pinned.getD position .null
  rw [Array.getD_eq_getD_getElem?, Array.getD_eq_getD_getElem?, getElem?_pop hposition]

theorem mem_pop {pinned : Array Ref} (hr : r ∈ pinned.pop.toList) : r ∈ pinned.toList := by
  rw [Array.toList_pop] at hr
  exact List.mem_of_mem_dropLast hr

/-- Fewer temporaries may be pinned. -/
theorem Sound.unpinned (hm : m.Sound starts) {pinned : Array Ref}
    (hsub : ∀ r ∈ pinned.toList, r ∈ m.pinned.toList) : ({ m with pinned } : Machine).Sound starts := by
  refine hm.withRefs rfl rfl rfl ?_ (fun r hr hnew => absurd hr hnew)
    (fun r hr hnew => absurd hr hnew) fun r hr hnew => absurd hr hnew
  intro r hr hnew
  rw [mem_roots] at hr hnew
  have hmem := hsub r
  simp only at hr
  tauto

/-- What is pinned is known. -/
theorem Sound.known_pinned {position : Nat} (hm : m.Sound starts) (hlt : position < m.pinned.size) :
    Known starts ((Root.pinned position).ref m) := by
  refine hm.known (mem_roots.mpr (.inr (.inr (.inr (.inr ?_)))))
  show m.pinned.getD position .null ∈ _
  rw [Array.getD_eq_getD_getElem?, Array.getElem?_eq_getElem hlt]
  simp

/-- A class and its metaclass are filled in with dictionaries that were pinned. -/
theorem Stage.linkFiled {t' : Catalog} {p q c mc : Nat} {superclass name : Ref}
    {spec : InstanceSpec} {pinned : Array Ref} (root : Root) (hs : Stage (t.watch hb) marks m starts)
    (hb' : t'.Below) (hp : t.entries (.direct (.pinned p)) = some [])
    (hq : t.entries (.direct (.pinned q)) = some []) (hpq : p ≠ q)
    (hothers : ∀ {y log}, t'.entries y = some log → t.entries y = some log ∧
      y ≠ .direct (.pinned p) ∧ y ≠ .direct (.pinned q))
    (hkinds : ∀ e ∈ t'.kinds, e ∈ t.kinds) (hvacant : t'.vacant.Sublist t.vacant)
    (hcls : (Mark.new .cls).Holds (t.watch hb) m starts (.ofWordIndex c))
    (hmeta : (Mark.new .cls).Holds (t.watch hb) m starts (.ofWordIndex mc))
    (hc : c ∈ starts) (hmc : mc ∈ starts) (hne : c ≠ mc)
    (hsuper : Known starts superclass ∧ superclassMark.kind (m.heap.kind superclass))
    (hname : Known starts name)
    (haway : ∀ k ∈ t'.vacant, m.core.cls k ≠ .ofWordIndex c ∧ m.core.cls k ≠ .ofWordIndex mc)
    (hpinned : ∀ r ∈ pinned.toList, r ∈ m.pinned.toList) :
    (({ m with pinned } : Machine).linkClass (.ofWordIndex c) (.ofWordIndex mc) superclass spec name
      ((Root.pinned p).ref m) ((Root.pinned q).ref m)).Meets (fun _ m' => ∃ h,
        m' = { m with heap := h, pinned } ∧ m'.Sound starts ∧
        ∀ n : Machine, n.heap = h → n.core.classes = m.core.classes → n.symbols = m.symbols →
          (∀ position < t'.base, n.pinned[position]? = m.pinned[position]?) →
          root.ref n = .ofWordIndex c → (t'.enroll root).Kept n starts) fun _ => False := by
  have hl := hs.laidOut
  have hm := hs.sound
  obtain ⟨d, a, hd, ha, hu⟩ := hs.kept.unused hp fun hy => ⟨(hothers hy).1, (hothers hy).2.1⟩
  obtain ⟨d', a', hd', ha', hu'⟩ := hs.kept.unused hq fun hy => ⟨(hothers hy).1, (hothers hy).2.2⟩
  have hapart := hs.kept.apart hp hq fun heq => hpq (by cases heq; rfl)
  have hd : (Root.pinned p).ref m = .ofWordIndex d := hd
  have hd' : (Root.pinned q).ref m = .ofWordIndex d' := hd'
  have hm₁ : ({ m with pinned } : Machine).Sound starts := hm.unpinned hpinned
  have hshape : ∀ {i}, i ∈ starts → (Mark.new .cls).Holds (t.watch hb) m starts (.ofWordIndex i) →
      (m.heap.view i).shape = .cls := by
    intro i hi hmark
    obtain ⟨j, hj, heq, hshape⟩ := hl.of_kind hmark.known hmark.kind
    rw [hl.ofWordIndex_inj hi hj heq]
    exact hshape
  have hfree : ∀ {r}, t.Free m r → t'.Free m r := fun hr y log hy => hr y log (hothers hy).1
  have hk' : t'.Kept m starts :=
    hs.kept.restrict (fun hy => (hothers hy).1) (fun e he => hs.kept.kinds e (hkinds e he)) hvacant
  have hs₁ : Stage (.any pinned.size) [] { m with pinned } starts := .of_size hm₁ rfl trivial
  have hmark : ∀ {i}, (Mark.new .cls).Holds (t.watch hb) m starts (.ofWordIndex i) →
      (Mark.new .cls).Holds (.any pinned.size) { m with pinned } starts (.ofWordIndex i) :=
    fun hr => ⟨hr.known, hr.kind, fun _ _ => trivial⟩
  have hdictionary : ∀ {d a}, t'.Unused m starts d a →
      (Mark.new .dictionary).Holds (.any pinned.size) { m with pinned } starts (.ofWordIndex d) := by
    rintro d a ⟨⟨slots, ht, -⟩, -, -⟩
    exact ⟨fun _ => ⟨d, ht.selectors.1, rfl⟩, ht.kind_selectors hm, fun _ _ => trivial⟩
  rw [hd, hd']
  have hlinked : (({ m with pinned } : Machine).linkClass (.ofWordIndex c) (.ofWordIndex mc) superclass
      spec name (.ofWordIndex d) (.ofWordIndex d')).Meets (fun _ m' => ∃ h,
        m' = { m with heap := h, pinned } ∧
        Linked m.heap starts c mc (.ofWordIndex d) (.ofWordIndex d') h) fun _ => False :=
    linkClass_linked hl hc hmc hne (hshape hc hcls) (hshape hmc hmeta)
  have hstage := hs₁.linkClass spec (hmark hcls) (hmark hmeta)
    ⟨hsuper.1, hsuper.2, fun _ h => nomatch h⟩ hname (hdictionary hu) (hdictionary hu')
  refine (hlinked.and hstage).mono ?_ fun _ h => h.1
  rintro _ _ ⟨⟨h, rfl, hlinked⟩, hs₂, -⟩
  refine ⟨h, rfl, hs₂.sound, fun n hheap hclasses hsymbols hlow hroot => ?_⟩
  subst hheap
  refine hk'.linked hb' hm hc hmc (hshape hc hcls) (hshape hmc hmeta) (hfree (hcls.tag _ rfl))
    (hfree (hmeta.tag _ rfl)) hu hu' ?_ ?_ hlinked hclasses hsymbols hlow hroot haway
  · rintro rfl
    exact hapart.1 (hd.trans hd'.symm)
  · rintro rfl
    exact hapart.2 (ha.trans ha'.symm)

/-- Two dictionaries are made and pinned. -/
theorem Stage.bind_dictionaries {β : Type} {next : Action β} {Q : β → Machine → Prop}
    {E : Machine → Prop} (hs : Stage (t.watch hb) marks m starts) (position : Nat)
    (kinds : List (Nat × (Kind → Prop))) (hposition : position = t.base + marks.length)
    (hkinds : ∀ {m' starts'}, Stage (t.watch hb) marks m' starts' → ∀ e ∈ kinds, e.1 < position ∧
      Known starts' ((Root.pinned e.1).ref m') ∧ e.2 (m'.heap.kind ((Root.pinned e.1).ref m')))
    (hnext : ∀ m' starts' (hb' : (t.adoptPair position kinds).Below),
      Stage ((t.adoptPair position kinds).watch hb') [] m' starts' → (next m').Meets Q E) :
    ((do
      Machine.pin (← Machine.newMethodDictionary MethodDictionary.minCapacity)
      Machine.pin (← Machine.newMethodDictionary MethodDictionary.minCapacity)
      next) m).Meets Q E := by
  have hpower : ∃ n, MethodDictionary.minCapacity = 2 ^ n := ⟨3, rfl⟩
  refine .bind_of_never (hs.newDictionary hpower) ?_
  rintro _ m₁ ⟨starts₁, d, a, hs₁, rfl, hd, ha, ht⟩
  obtain ⟨hb₂, hs₂⟩ := hs₁.adopt hd ha ht (hs₁.size_pinned.trans hposition.symm) (hkinds hs₁)
  refine .step rfl (.bind_of_never (hs₂.newDictionary hpower) ?_)
  rintro _ m₃ ⟨starts₃, d', a', hs₃, rfl, hd', ha', ht'⟩
  obtain ⟨hb₄, hs₄⟩ := hs₃.adopt hd' ha' ht' hs₃.size_pinned fun e he =>
    ⟨hb₂.kinds e he, hs₃.kept.kinds e he⟩
  exact .step rfl (hnext _ _ hb₄ hs₄)

/-- A kernel class that is on no way is filled in, and has two dictionaries without entries. -/
theorem Stage.createFiled {k : KernelClass} {rest : List KernelClass}
    (hs : Stage (t.watch hb) [] m starts) (hvacant : t.vacant = k :: rest) :
    (m.createClass k).Meets (fun _ m' =>
      ∃ hb' : (({ t with vacant := rest } : Catalog).enroll (.kernel k)).Below,
        Keeps ((({ t with vacant := rest } : Catalog).enroll (.kernel k)).watch hb') [] m')
      fun _ => False := by
  unfold Machine.createClass
  refine .bind_of_never (hs.intern k.name) ?_
  rintro name m₁ ⟨starts₁, hs₁, hname⟩
  have hs₂ := hs₁.pin hname
  refine .step rfl (hs₂.bind_dictionaries (t.base + 1) t.kinds rfl
    (fun hs' e he => ⟨Nat.lt_succ_of_lt (hb.kinds e he), hs'.kept.kinds e he⟩)
    fun m₃ starts₃ hb₃ hs₃ => ?_)
  have hmade := (hs₃.allocate_cls (hs₃.kernelClass .metaclass)).and
    (hs₃.allocate_names (hs₃.kernelClass .metaclass))
  refine .step rfl (.bind_of_never (hmade.mono (fun _ _ h => h) fun _ h => h.1) ?_)
  rintro _ n ⟨⟨starts₄, hs₄, hmeta⟩, -, hfresh⟩
  have hl := hs₄.laidOut
  obtain ⟨c, hc, hceq, -⟩ := hl.of_kind (hs₄.kernelClass k).known (hs₄.kernelClass k).kind
  obtain ⟨mc, hmc, rfl, -⟩ := hl.of_kind hmeta.known hmeta.kind
  have hne : ∀ k', n.core.cls k' ≠ .ofWordIndex mc := fun k' heq => hfresh (heq ▸ root_cls n k')
  have hsize : n.pinned.size = t.base + 3 := hs₄.size_pinned
  have hsize₁ : n.pinned.pop.size = t.base + 2 := by rw [Array.size_pop, hsize]; rfl
  have hsize₂ : n.pinned.pop.pop.size = t.base + 1 := by rw [Array.size_pop, hsize₁]; rfl
  have hsize₃ : n.pinned.pop.pop.pop.size = t.base := by rw [Array.size_pop, hsize₂]; rfl
  refine .step (unpin_at hsize) (.step (unpin_at (m := { n with pinned := n.pinned.pop }) hsize₁)
    (.step (unpin_at (m := { n with pinned := n.pinned.pop.pop }) hsize₂) (.step rfl ?_)))
  rw [ref_pop (show t.base + 1 + 1 < n.pinned.size by omega)]
  have hvacant₄ : k :: rest = (t.adoptPair (t.base + 1) t.kinds).vacant := hvacant.symm
  have hnodup := hs₄.kept.vacant
  rw [← hvacant₄, List.map_cons, List.nodup_cons] at hnodup
  have hcls : (Mark.new .cls).Holds ((t.adoptPair (t.base + 1) t.kinds).watch hb₃) n starts₄
      (.ofWordIndex c) := by
    rw [← hceq]
    refine (hs₄.kernelClass k).withFree fun y log hy => hs₄.kept.away k ?_ hy
    rw [← hvacant₄]
    exact List.mem_cons_self
  have hb' : ({ t with vacant := rest } : Catalog).Below := ⟨hb.roots, hb.logs, hb.kinds, hb.subject⟩
  have hb₅ := hb'.enroll (.kernel k) trivial
  have hentries := t.entries_adoptPair (t.base + 1) t.kinds
  have hlink : ∀ superclass, Known starts₄ superclass →
      superclassMark.kind (n.heap.kind superclass) →
      ((Machine.linkClass (n.core.cls k) (.ofWordIndex mc) superclass k.spec
          ((Root.pinned t.base).ref { n with pinned := n.pinned.pop.pop })
          ((Root.pinned (t.base + 1)).ref n) ((Root.pinned (t.base + 2)).ref n) >>= fun _ =>
            Machine.setGlobal k.name (n.core.cls k))
        { n with pinned := n.pinned.pop.pop.pop }).Meets (fun _ m' =>
          ∃ hb' : (({ t with vacant := rest } : Catalog).enroll (.kernel k)).Below,
            Keeps ((({ t with vacant := rest } : Catalog).enroll (.kernel k)).watch hb') [] m')
        fun _ => False := by
    intro superclass hknown hsuper
    rw [hceq]
    refine .bind_of_never (hs₄.linkFiled (.kernel k) hb' hentries.1 hentries.2 (by omega)
      (Catalog.entries_adoptPair_of hb (Nat.le_succ _)) (fun e he => he) ?_ hcls hmeta hc hmc ?_
      ⟨hknown, hsuper⟩ ?_ ?_ ?_) ?_
    · rw [← hvacant₄]
      exact List.sublist_cons_self ..
    · rintro rfl
      exact hne k hceq
    · have hm := (hs₄.sound.unpinned fun _ => mem_pop).unpinned fun _ => mem_pop
      exact hm.known_pinned (show t.base < n.pinned.pop.pop.size by omega)
    · intro k' hk'
      refine ⟨fun heq => hnodup.1 ?_, hne k'⟩
      rw [show n.core.cls k = n.core.cls k' from hceq.trans heq.symm]
      exact List.mem_map_of_mem hk'
    · exact fun r hr => mem_pop (mem_pop (mem_pop hr))
    · rintro _ _ ⟨h', rfl, hm', hkept⟩
      have hk := hkept { n with heap := h', pinned := n.pinned.pop.pop.pop } rfl rfl rfl
        (fun position hp => ?_) hceq
      · have hs₅ : Stage ((({ t with vacant := rest } : Catalog).enroll (.kernel k)).watch hb₅) []
            { n with heap := h', pinned := n.pinned.pop.pop.pop } starts₄ := .of_size hm' hsize₃ hk
        refine (hs₅.setGlobal k.name (.any (hs₅.sound.known ?_))).mono (fun _ m' hm' => ⟨hb₅, hm'⟩)
          fun _ h => h
        rw [← hceq]
        exact root_cls _ k
      · have hp : position < t.base := hp
        show n.pinned.pop.pop.pop[position]? = n.pinned[position]?
        rw [getElem?_pop (by omega), getElem?_pop (by omega), getElem?_pop (by omega)]
  cases k.superclass? with
  | some superclass =>
    have hsuper := hs₄.kernelClass superclass
    exact hlink _ hsuper.known (.inr hsuper.kind)
  | none => exact hlink _ hs₄.nil.known (.inl hs₄.nil.kind)

/-! ### Classes that are bound to globals -/

theorem Stage.intern_globals (hs : Stage w marks m starts) (name : String) :
    (m.intern name).Meets (fun _ m' => m'.globals.names = m.globals.names) fun _ => False := by
  unfold Machine.intern
  refine .step rfl ?_
  dsimp only
  cases m.symbol? name with
  | some r => exact rfl
  | none =>
    refine .step rfl (.bind_of_never (hs.newBytes_names (hs.kernelClass .symbol) _) ?_)
    rintro r m₁ ⟨hnames, -⟩
    exact hnames.2

theorem Stage.newAssociation_globals {key : Ref} (hs : Stage w marks m starts)
    (hkey : Known starts key) (hvalue : Known starts value) :
    (m.newAssociation key value).Meets (fun _ m' => m'.globals.names = m.globals.names)
      fun _ => False := by
  unfold Machine.newAssociation
  obtain ⟨hs₁, hcarries⟩ := hs.pinning (.any hkey)
  have hs₂ := hs₁.pin (hcarries _ _ (.any hvalue))
  have hcls := hs₂.kernelClass .association
  have hunpin : ∀ n : Machine, n.unpin.Meets (fun _ n' => n'.globals = n.globals) fun _ => False := by
    intro n
    unfold Machine.unpin
    split
    · exact rfl
    · trivial
  refine .step rfl (.step rfl (.step rfl (.bind_of_never (hs₂.allocate_names hcls) ?_)))
  rintro r m₃ ⟨hnames, -⟩
  refine .bind_of_never (hunpin m₃) fun value m₄ h₄ => .bind_of_never (hunpin m₄) fun key m₅ h₅ =>
    .write fun h _ => ?_
  show m₅.globals.names = m.globals.names
  rw [h₅, h₄, hnames.2]

/-- The association of a global is found under its name. -/
theorem Stage.globalAssociation_found (hs : Stage w marks m starts) (name : String) :
    (m.globalAssociation name).Meets (fun r m' => m'.globals.find? name = some r) fun _ => False := by
  unfold Machine.globalAssociation
  refine .step rfl ?_
  dsimp only
  cases hfound : m.globals.find? name with
  | some r => exact hfound
  | none =>
    have hinterned := (hs.intern name).and (hs.intern_globals name)
    refine .bind_of_never (hinterned.mono (fun _ _ h => h) fun _ h => h.1) ?_
    rintro key m₁ ⟨⟨starts₁, hs₁, hkey⟩, hnames₁⟩
    refine .step rfl (.bind_of_never (hs₁.newAssociation_globals hkey.known hs₁.nil.known) ?_)
    intro r m₂ hnames₂
    have hnone : m₂.globals.find? name = none := by
      rw [NameTable.find?_eq_none, hnames₂, hnames₁, ← NameTable.find?_eq_none]
      exact hfound
    show (m₂.globals.add name r).find? name = some r
    rw [NameTable.find?_add, hnone, if_pos rfl]
    rfl

/-- A field that was stored is read back. -/
theorem fetchField_stored {i index : Nat} (hl : h.LaidOut starts) (hi : i ∈ starts)
    (hallows : (h.view i).format.allowsFields = true) (hindex : index < (h.view i).fields)
    (hok : h.storeField (.ofWordIndex i) index value = .ok g) :
    g.fetchField (.ofWordIndex i) index = .ok value := by
  have hlt : headerWords + index < (h.view i).size := View.fields_lt_size hallows (by omega)
  have hfits := hl.fits_memory hi
  rw [Heap.storeField_eq hl hi hindex hlt] at hok
  cases hok
  have hc : h.Changes starts [i] (h.poke (i + (headerWords + index)) value.bits) :=
    .poke hl hi (by simp only [headerWords]; omega) hlt (by omega) (by simp) _
  have hlayout := hc.layout i hi
  rw [Heap.fetchField_eq hc.laidOut hi (by rw [hlayout.fields_eq]; exact hindex)
    (by rw [hlayout.size_eq]; exact hlt)]
  unfold View.ref
  rw [Heap.view_poke (by omega), if_pos rfl]

/-- A global is bound to what would be pinned next, and can be pinned in its place. -/
theorem Stage.setGlobal_bound (hs : Stage w [] { m with pinned := m.pinned.push r } starts)
    (name : String) :
    (m.setGlobal name r).Meets (fun _ m' => ∃ r', m'.global? name = .ok (some r') ∧
      Keeps w [] { m' with pinned := m'.pinned.push r' }) fun _ => False := by
  unfold Machine.setGlobal
  have hfound := (hs.globalAssociation name).and (hs.globalAssociation_found name)
  refine .step rfl (.bind_of_never (hfound.mono (fun _ _ h => h) fun _ h => h.1) ?_)
  rintro association m₁ ⟨⟨starts₁, hs₁, hassociation⟩, hglobal⟩
  have hsize : m₁.pinned.size = m.pinned.size + 1 := by
    have hsize₁ := hs₁.size_pinned
    have hsize₀ : (m.pinned.push r).size = _ := hs.size_pinned
    rw [Array.size_push] at hsize₀
    omega
  have hunpin := unpin_at hsize
  have hvalue := hs₁.sound.known_pinned (show m.pinned.size < m₁.pinned.size by omega)
  generalize hr' : (Root.pinned m.pinned.size).ref m₁ = r' at hunpin hvalue
  refine .step hunpin (.write_last fun h hok => ⟨r', ?_, starts₁, ?_⟩)
  · obtain ⟨i, hi, rfl, hshape⟩ := hs₁.laidOut.of_kind hassociation.known hassociation.kind
    have hfields : (m₁.heap.view i).fields = Association.fieldCount := congrArg Prod.snd hshape
    have hformat : (m₁.heap.view i).format = .plain := congrArg Prod.fst hshape
    unfold Machine.global?
    dsimp only
    rw [hglobal]
    show (h.fetchField _ _ >>= _) = _
    rw [fetchField_stored hs₁.laidOut hi (by rw [hformat]; rfl) (by rw [hfields]; decide) hok]
    rfl
  · have hback : m₁.pinned.pop.push r' = m₁.pinned := by
      apply Array.ext_getElem?
      intro i
      rw [Array.getElem?_push, Array.size_pop, hsize, Nat.add_sub_cancel]
      split
      · subst i
        rw [← hr', Array.getElem?_eq_getElem (by omega)]
        show some (m₁.pinned.getD m.pinned.size .null) = _
        rw [Array.getD_eq_getD_getElem?, Array.getElem?_eq_getElem (by omega)]
        rfl
      · rw [Array.getElem?_pop]
        split
        · rfl
        · rw [Array.getElem?_eq_none (by omega)]
    have hs₂ := (hs₁.storeField (hs₁.writable_association hassociation) (by decide) hvalue
      (Kind.suits_of_expects rfl) (fun h => absurd h (by decide)) hok).1
    dsimp only
    rw [hback]
    exact hs₂

/-- A class that was defined is found under its name, and has two dictionaries without entries. -/
theorem Stage.defineFiled {superclass : Ref} (hs : Stage (t.watch hb) [] m starts)
    (hvacant : t.vacant = []) (name : String)
    (hsuper : superclassMark.Holds (t.watch hb) m starts superclass) (spec : InstanceSpec) :
    (m.defineClass name superclass spec).Meets (fun _ m' =>
      ∃ cls, ∃ hb' : (({ t with base := t.base + 1 } : Catalog).enroll (.pinned t.base)).Below,
        m'.global? name = .ok (some cls) ∧
        Keeps ((({ t with base := t.base + 1 } : Catalog).enroll (.pinned t.base)).watch hb') []
          { m' with pinned := m'.pinned.push cls }) fun _ => False := by
  unfold Machine.defineClass
  have hs₁ := hs.pin hsuper
  refine .step rfl (.bind_of_never (hs₁.intern name) ?_)
  rintro symbol m₂ ⟨starts₂, hs₂, hsymbol⟩
  have hs₃ := hs₂.pin hsymbol
  refine .step rfl (hs₃.bind_dictionaries (t.base + 2) ((t.base, superclassMark.kind) :: t.kinds) rfl ?_
    fun m₄ starts₄ hb₄ hs₄ => ?_)
  · intro m' starts' hs' e he
    rcases List.mem_cons.mp he with rfl | he
    · obtain ⟨r, hr, hholds⟩ := hs'.pinned
        (show [superclassMark, .symbol name][0]? = some superclassMark from rfl)
      have href : (Root.pinned t.base).ref m' = r := by
        show m'.pinned.getD t.base .null = r
        rw [Array.getD_eq_getD_getElem?, show m'.pinned[t.base]? = some r from hr]
        rfl
      dsimp only
      rw [href]
      exact ⟨by omega, hholds.known, hholds.kind⟩
    · exact ⟨Nat.lt_of_lt_of_le (hb.kinds e he) (by omega), hs'.kept.kinds e he⟩
  refine .step rfl (.bind_of_never (hs₄.allocate_cls (hs₄.kernelClass .metaclass)) ?_)
  rintro metaclass m₅ ⟨starts₅, hs₅, hmeta₅⟩
  obtain ⟨hs₆, hcarries₆⟩ := hs₅.pinning hmeta₅
  have hmetaclass := hcarries₆ _ _ hmeta₅.toOf
  have hmade := (hs₆.allocate_cls hmetaclass).and (hs₆.allocate_names hmetaclass)
  refine .step rfl (.bind_of_never (hmade.mono (fun _ _ h => h) fun _ h => h.1) ?_)
  rintro _ n ⟨⟨starts₇, hs₇, hcls⟩, -, hfresh⟩
  have hl := hs₇.laidOut
  obtain ⟨metaclass, m₈, hunpin, hs₈, hmeta, hcarries₈⟩ := hs₇.unpin
  obtain ⟨hback, rfl⟩ := unpin_ok hunpin
  refine .step hunpin ?_
  obtain ⟨c, hc, rfl, -⟩ := hl.of_kind hcls.known hcls.kind
  obtain ⟨mc, hmc, rfl, -⟩ := hl.of_kind hmeta.known hmeta.kind
  have hne : c ≠ mc := by
    rintro rfl
    refine hfresh (mem_roots.mpr (.inr (.inr (.inr (.inr ?_)))))
    exact Array.mem_toList_iff.mpr (Array.mem_of_back? hback)
  have hsize₁ : n.pinned.pop.size = t.base + 4 := hs₈.size_pinned
  generalize hpinned : n.pinned.pop = pinned at hsize₁ hs₈ hmeta hcarries₈
  have hsize₂ : pinned.pop.size = t.base + 3 := by rw [Array.size_pop, hsize₁]; rfl
  have hsize₃ : pinned.pop.pop.size = t.base + 2 := by rw [Array.size_pop, hsize₂]; rfl
  have hsize₄ : pinned.pop.pop.pop.size = t.base + 1 := by rw [Array.size_pop, hsize₃]; rfl
  have hsize₅ : pinned.pop.pop.pop.pop.size = t.base := by rw [Array.size_pop, hsize₄]; rfl
  refine .step (unpin_at (m := { n with pinned }) hsize₁)
    (.step (unpin_at (m := { n with pinned := pinned.pop }) hsize₂)
      (.step (unpin_at (m := { n with pinned := pinned.pop.pop }) hsize₃)
        (.step (unpin_at (m := { n with pinned := pinned.pop.pop.pop }) hsize₄) ?_)))
  rw [ref_pop (m := { n with pinned }) (show t.base + 2 + 1 < pinned.size by omega)]
  have hsuperclass : (Root.pinned t.base).ref { n with pinned := pinned.pop.pop.pop } =
      (Root.pinned t.base).ref { n with pinned } := by
    rw [ref_pop (m := { n with pinned := pinned.pop.pop }) (show t.base + 1 < pinned.pop.pop.size by omega),
      ref_pop (m := { n with pinned := pinned.pop }) (show t.base + 1 < pinned.pop.size by omega),
      ref_pop (m := { n with pinned }) (show t.base + 1 < pinned.size by omega)]
  have hentries := t.entries_adoptPair (t.base + 2) ((t.base, superclassMark.kind) :: t.kinds)
  have hb₉ := (hb.raise (Nat.le_succ t.base)).enroll (.pinned t.base) (Nat.lt_succ_self t.base)
  have hkinds := hs₈.kept.kinds (t.base, superclassMark.kind) List.mem_cons_self
  rw [hsuperclass]
  refine .bind_of_never (hs₈.linkFiled (.pinned t.base) hb hentries.1 hentries.2 (by omega)
    (Catalog.entries_adoptPair_of hb (by omega)) (fun e he => List.mem_cons_of_mem _ he) (.refl _)
    (hcarries₈ _ _ hcls) hmeta hc hmc hne hkinds ?_ ?_ ?_) ?_
  · have hm := (hs₈.sound.unpinned fun _ => mem_pop).unpinned fun _ => mem_pop
    exact hm.known_pinned (show t.base + 1 < pinned.pop.pop.size by omega)
  · rw [hvacant]
    intro k hk
    cases hk
  · exact fun r hr => mem_pop (mem_pop (mem_pop (mem_pop hr)))
  · rintro _ _ ⟨h', rfl, hm', hkept⟩
    have hs₉ : Stage (.any t.base) [] { n with heap := h', pinned := pinned.pop.pop.pop.pop } starts₇ :=
      .of_size hm' hsize₅ trivial
    have hm₉ := (hs₉.pin (.any fun _ => ⟨c, hc, rfl⟩)).sound
    have hk := hkept
      { n with heap := h', pinned := pinned.pop.pop.pop.pop.push (.ofWordIndex c) } rfl rfl rfl ?_ ?_
    · have hs₁₀ : Stage ((({ t with base := t.base + 1 } : Catalog).enroll (.pinned t.base)).watch hb₉)
          [] { n with heap := h', pinned := pinned.pop.pop.pop.pop.push (.ofWordIndex c) } starts₇ :=
        .of_size hm₉ ((Array.size_push _).trans (congrArg (· + 1) hsize₅))
          (hk.restrict id hk.kinds (.refl _))
      refine .bind_of_never (Stage.setGlobal_bound
        (m := { n with heap := h', pinned := pinned.pop.pop.pop.pop }) hs₁₀ name) ?_
      rintro _ m' ⟨cls, hglobal, hkeeps⟩
      exact ⟨cls, hb₉, hglobal, hkeeps⟩
    · intro position hp
      show (pinned.pop.pop.pop.pop.push _)[position]? = pinned[position]?
      rw [Array.getElem?_push, if_neg (by omega), getElem?_pop (by omega), getElem?_pop (by omega),
        getElem?_pop (by omega), getElem?_pop (by omega)]
    · show (pinned.pop.pop.pop.pop.push _).getD t.base .null = _
      rw [Array.getD_eq_getD_getElem?, Array.getElem?_push, if_pos hsize₅.symm]
      rfl

end Machine

end ObjectMachine
