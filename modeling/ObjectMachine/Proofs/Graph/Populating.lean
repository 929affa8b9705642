import ObjectMachine.Proofs.Graph.Hierarchy

/-!
# Defining classes and methods in graphs

What is known of a graph after classes were defined and methods were installed: it is described by the
world with these classes and methods. Nothing else shows, apart from temporaries that are released
again, so that the steps can be put together in any order.

## Main results

* `Graph.World.Leads`: a step from one world to another.
* `Spec.Ends.installMethod`, `Spec.Ends.install`: a method is added to a class.
* `Spec.Ends.defineClass`: a class is added.
-/

namespace ObjectMachine

namespace Graph

/-- A graph goes over into one that another world describes, with the same temporaries, and everything
that may not change is what it was. -/
structure World.Leads (w : World) (g : Graph) (w' : World) (g' : Graph) : Prop where
  describes : w'.Describes g'
  advances : w.Advances g w' g'
  pinned : g'.pinned = g.pinned

variable {g g' g'' : Graph} {w w' w'' : World} {name : String} {v : Value} {c n : Nat}
  {values values' : List Value}

theorem Evolves.of_withPinned {changed : Nat → Prop} (h : (g.withPinned values).Evolves changed g') :
    g.Evolves changed g' := { h with }

theorem World.Describes.withPinned (hw : w.Describes g) (values : List Value) :
    w.Describes (g.withPinned values) :=
  hw.other values g.memo g.pool

theorem World.reshelve_self (w : World) (c : Nat) :
    w.reshelve c (w.shelf c).1 (w.shelf c).2 = w := by
  unfold World.reshelve
  rw [Function.update_eq_self]

namespace World.Leads

theorem refl (hw : w.Describes g) : w.Leads g w g := ⟨hw, .refl w g, rfl⟩

theorem trans (h : w.Leads g w' g') (h' : w'.Leads g' w'' g'') : w.Leads g w'' g'' :=
  ⟨h'.describes, h.advances.trans h'.advances, h'.pinned.trans h.pinned⟩

/-- What was done in the presence of other temporaries. -/
theorem withPinned (h : w.Leads (g.withPinned values) w' g') (values' : List Value) :
    w.Leads (g.withPinned values') w' (g'.withPinned values') where
  describes := h.describes.withPinned values'
  advances := ⟨h.advances.evolves.withPinned values' values', h.advances.loose⟩
  pinned := rfl

/-- The memo is not looked at. -/
theorem withMemo (h : w.Leads g w' g') (memo : Value → Value → Value → Prop) :
    w.Leads g w' { g' with memo := memo } where
  describes := h.describes.other g'.pinned memo g'.pool
  advances := ⟨{ h.advances.evolves with }, h.advances.loose⟩
  pinned := h.pinned

/-- Neither is the pool. -/
theorem withPool (h : w.Leads g w' g') (pool : Pool) : w.Leads g w' { g' with pool := pool } where
  describes := h.describes.other g'.pinned g'.memo pool
  advances := ⟨{ h.advances.evolves with }, h.advances.loose⟩
  pinned := h.pinned

theorem grows (hw : w.Describes g) (h : g.Grows g') (hsettled : g'.Settled)
    (hpinned : g'.pinned = g.pinned)
    (hglobals : ∀ {name n}, (name, .object n) ∈ g'.globals → n < g.next →
      (name, .object n) ∈ g.globals) : w.Leads g w g' :=
  ⟨hw.grows h hsettled, .of_grows w h fun hmem hlt => ⟨_, hglobals hmem hlt⟩, hpinned⟩

theorem adds (hw : w.Describes g) (h : g.Adds g') : w.Leads g w g' :=
  grows hw h.grows (hw.settled.adds h) h.pinned fun hmem _ => h.globals ▸ hmem

theorem interned (hw : w.Describes g) (h : g.Interned name v g') : w.Leads g w g' :=
  grows hw h.grows h.settled h.pinned fun hmem _ => h.globals ▸ hmem

/-- The dictionary of one class has other entries, or was replaced. -/
theorem filed (hw : w.Describes g) (hc : c ∈ w.classes) (hroster : w'.roster = w.roster)
    (hbindings : w'.bindings = w.bindings)
    (hothers : ∀ c' ≠ c, w'.shelf c' = w.shelf c' ∧ w'.log c' = w.log c')
    (h : g.Evolves (fun n => n = c ∨ n = (w.shelf c).1 ∨ n = (w.shelf c).2) g')
    (hsettled : g'.Settled) (hsame : SameClass (g.nodes c) (g'.nodes c)) (hfiles : w'.Files g' c)
    (hshelf : w'.shelf c = w.shelf c ∨ g.next ≤ (w'.shelf c).1 ∧ g.next ≤ (w'.shelf c).2)
    (hpinned : g'.pinned = g.pinned) (hglobals : g'.globals = g.globals) : w.Leads g w' g' where
  describes := hw.filed hc hroster hbindings hothers h hsettled hsame hfiles hshelf
  advances :=
    { evolves := h.mono fun n _ hn => hn.elim (fun hn => .inr (.inl (hn ▸ hc)))
        fun hn => .inr (.inr (.inl ⟨c, hc, hn⟩))
      loose := fun n hn hl => by
        obtain hk | hmem | ⟨c', hc', hkeeps⟩ | hglobal := hl
        · exact .inl hk
        · unfold World.classes at hmem
          rw [hroster] at hmem
          exact .inr (.inl hmem)
        · unfold World.classes at hc'
          rw [hroster] at hc'
          refine .inr (.inr (.inl ⟨c', hc', ?_⟩))
          by_cases hne : c' = c
          · rw [hne] at hkeeps ⊢
            rcases hshelf with hshelf | hshelf
            · unfold World.Keeps at hkeeps ⊢
              rw [← hshelf]
              exact hkeeps
            · rcases hkeeps with hkeeps | hkeeps <;> omega
          · unfold World.Keeps at hkeeps ⊢
            rw [← (hothers c' hne).1]
            exact hkeeps
        · rw [hglobals] at hglobal
          exact .inr (.inr (.inr hglobal)) }
  pinned := hpinned

end World.Leads

end Graph

namespace Spec.Ends

open ObjectMachine.Graph

variable {α β : Type} {g : Graph} {w : World} {E : Failure → Graph → Prop} {S : Fatal → Prop}
  {name : String} {v : Value} {c : Nat} {position : Nat}

/-! ## Temporaries -/

theorem pinnedAt {f : Value → Spec β} {Q : β → Graph → Prop} (h : g.pinned[position]? = some v)
    (hf : (f v).Ends g Q E S) : (Spec.pinnedAt position >>= f).Ends g Q E S :=
  read h hf

/-- Temporaries are released. -/
theorem unpinTo {values more : List Value} {f : Unit → Spec β} {Q : β → Graph → Prop}
    (hpinned : g.pinned = values ++ more) (hf : (f ()).Ends (g.withPinned values) Q E S) :
    (Spec.unpinTo values.length >>= f).Ends g Q E S := by
  refine modify ?_
  show (f ()).Ends { g with pinned := g.pinned.take values.length } Q E S
  rw [hpinned, List.take_left]
  exact hf

/-! ## Methods -/

/-- The dictionary of a class is replaced by one that has room. -/
theorem growDictionary (hw : w.Describes g) (hc : c ∈ w.classes)
    (hposition : g.pinned[position]? = some (.object c)) (hS : S (.fault .overflow)) :
    (Spec.growDictionary position).Ends g (fun _ g' => ∃ d a, w.Leads g (w.reshelve c d a) g' ∧
      g'.isClassFull (.object c) = some false) E S := by
  obtain ⟨slots, hd, hmem⟩ := (hw.files c hc).places
  obtain ⟨k, hk⟩ := hd.power
  obtain ⟨hlt, hformat, hfields⟩ := hw.layout hc
  have hcapacity : g.doubledCapacity (.object c) = some (2 ^ (k + 1)) := by
    unfold doubledCapacity nodeOf
    rw [hw.dictionary_field hc, pow_succ, ← hk, ← hd.selectors_len]
    show (if (g.nodes (w.shelf c).1).format = .array then _ else _ : Option Node).bind _ = _
    rw [if_pos hd.selectors]
    rfl
  refine pinnedAt hposition (read hcapacity ?_)
  refine bind (newMethodDictionary hw.settled rfl fun _ => hS) ?_
  rintro v g₁ ⟨d, a, hadds, rfl, hd_new, ha_new, hgrown⟩
  have hw₁ := hw.grows hadds.grows (hw.settled.adds hadds)
  refine pinnedAt (hadds.pinned ▸ hposition) ?_
  -- The entries move over.
  have hd₁ := hd.evolves hadds.grows id id
  have hused : 4 * (slots.filterMap id).length ≤ 3 * 2 ^ (k + 1) := by
    have hlength := slots.length_keys
    have hfull := hd.not_full
    unfold Slots.keys at hlength
    rw [List.length_map] at hlength
    rw [hlength, pow_succ, ← hk]
    have hload := hd.load
    omega
  obtain ⟨g₂, slots', hinsert, hchanges, hd₂, hlength', hused', hmem'⟩ :=
    hgrown.insertAll (slots.filterMap id)
      (fun e he => by
        obtain ⟨slot, hslot, heq⟩ := List.mem_filterMap.mp he
        obtain ⟨j, hj⟩ := List.mem_iff_getElem?.mp hslot
        exact (hd₁.used (hj.trans (congrArg some heq))).2.2)
      hd.probed.nodup_keys (fun e _ m => Slots.not_mem_replicate _ _)
      (by rw [Slots.used_replicate, List.length_replicate, Nat.zero_add]; exact hused)
  have hne : ∀ n, n = d ∨ n = a → n ≠ c := by
    rintro n (rfl | rfl) rfl
    · exact absurd hlt (Nat.not_lt.mpr hd_new)
    · exact absurd hlt (Nat.not_lt.mpr ha_new)
  have hnode₂ : g₂.nodes c = g.nodes c := by
    rw [hchanges.evolves.nodes c (hlt.trans_le hadds.grows.next_le) fun h => hne c h rfl,
      hadds.grows.nodes c hlt id]
  have hmove : g₁.moveEntries (.object c) (.object d) = some (g₂.setNode c
      ((g₂.nodes c).withField Class.dictionaryField (.object d))) := by
    unfold moveEntries
    rw [hw₁.dictionary_field hc]
    show (g₁.entries (.object (w.shelf c).1)).bind _ = _
    rw [hd₁.entries]
    show (g₁.insertAll (.object d) (slots.filterMap id)).bind _ = _
    rw [hinsert]
    refine storeField_of_lt ?_ ?_
    · rw [hnode₂, hformat]
      nofun
    · rw [hnode₂, hfields]
      decide
  refine write_last hmove ⟨d, a, ?_, ?_⟩
  · have hstore : g₂.Evolves (· = c) (g₂.setNode c
        ((g₂.nodes c).withField Class.dictionaryField (.object d))) :=
      evolves_setNode ⟨rfl, rfl, rfl⟩ rfl
    have hdictionary := hd₂.evolves hstore (hne d (.inl rfl)) (hne a (.inr rfl))
    have hsettled₂ : g₂.Settled := by
      refine (hw.settled.adds hadds).evolves hchanges.evolves hchanges.symbols hchanges.globals ?_
      rintro n - (rfl | rfl)
      · rw [hgrown.selectors]
        nofun
      · rw [hgrown.methods]
        nofun
    have hsymbols : g₂.symbols = g.symbols := hchanges.symbols.trans hadds.symbols
    refine .filed hw hc rfl rfl (fun c' hc' => ⟨Function.update_of_ne hc' .., rfl⟩) ?_ ?_ ?_ ?_
      (.inr ?_) (hchanges.pinned.trans hadds.pinned) (hchanges.globals.trans hadds.globals)
    · have hbefore : g.Evolves (· = c) g₂ := by
        refine (hadds.grows.mono fun _ _ => False.elim).trans hchanges.evolves fun n hn hchanged => ?_
        rcases hchanged with rfl | rfl
        · exact absurd hn (Nat.not_lt.mpr hd_new)
        · exact absurd hn (Nat.not_lt.mpr ha_new)
      exact (hbefore.trans hstore fun n _ hchanged => hchanged).mono fun n _ hchanged => .inl hchanged
    · refine hsettled₂.evolves hstore rfl rfl ?_
      rintro n - rfl
      rw [hnode₂, hformat]
      nofun
    · constructor
      · simp [hnode₂]
      · intro index hindex
        simp [hnode₂, hindex]
    · refine ⟨by simp [World.reshelve], ⟨slots', ?_, fun s m => ?_⟩, fun hm => ?_⟩
      · simpa [World.reshelve] using hdictionary
      · rw [hmem', ← exists_congr fun name => and_congr_left' (by
          show named? g.symbols name = some s ↔ named? g₂.symbols name = some s
          rw [hsymbols])]
        show _ ↔ ∃ name, g.symbol? name = some s ∧ (w.log c).lookup name = some m
        rw [← hmem]
        simp
      · obtain ⟨s, hs⟩ := (hw.files c hc).interned hm
        exact ⟨s, (congrArg (named? · _) hsymbols).trans hs⟩
    · simpa [World.reshelve] using ⟨hd_new, ha_new⟩
  · have hlen : slots'.length = 2 ^ (k + 1) := hlength'.trans (List.length_replicate ..)
    have hfield : Graph.field (g₂.setNode c ((g₂.nodes c).withField Class.dictionaryField (.object d)))
        (.object c) Class.dictionaryField = some (.object d) := by
      rw [field_of_lt]
      · simp
      · simp [hnode₂, hfields]
        decide
    have hfull := (hd₂.evolves (evolves_setNode ⟨rfl, rfl, rfl⟩ rfl) (hne d (.inl rfl))
      (hne a (.inr rfl)) : (g₂.setNode c ((g₂.nodes c).withField Class.dictionaryField
        (.object d))).IsDictionary d a slots').isFull_eq
    unfold isClassFull
    rw [hfield]
    refine hfull.trans (congrArg some (decide_eq_false ?_))
    rw [Slots.used_replicate, Nat.zero_add] at hused'
    have hlength := slots.length_keys
    have hnotFull := hd.not_full
    have hload := hd.load
    have hpos := hd.pos
    unfold Slots.keys at hlength
    rw [List.length_map] at hlength
    rw [hlen, pow_succ, ← hk]
    omega

/-- A method is put into the dictionary of a class that has room. -/
theorem insertMethod (hw : w.Describes g) (hc : c ∈ w.classes)
    (hroom : g.isClassFull (.object c) = some false) {selector : String} {s : Value}
    (hs : g.symbol? selector = some s) (method : Value) :
    ∃ g', g.insertMethod (.object c) s method = some g' ∧ w.Leads g (w.file c selector method) g' := by
  obtain ⟨slots, hd, hmem⟩ := (hw.files c hc).places
  obtain ⟨hlt, hformat, hfields⟩ := hw.layout hc
  have hselector := (hw.settled.isSymbol hs).isSelector hw.settled.kernel
  have hload : 4 * (slots.used + 1) ≤ 3 * slots.length := by
    unfold isClassFull at hroom
    rw [hw.dictionary_field hc] at hroom
    have hnot := of_decide_eq_false (Option.some.inj (hd.isFull_eq.symm.trans hroom))
    omega
  obtain ⟨g', slots', hinsert, hchanges, hd', -, -, hmem'⟩ := hd.insert hselector (.inr hload) method
  have hnode : g'.nodes c = g.nodes c :=
    hchanges.evolves.nodes c hlt fun hkeeps => hw.ne_shelf hc hformat hkeeps
  have hsymbol? : ∀ name, g'.symbol? name = g.symbol? name :=
    fun name => congrArg (named? · name) hchanges.symbols
  refine ⟨g', ?_, ?_⟩
  · unfold Graph.insertMethod
    rw [hw.dictionary_field hc]
    exact hinsert
  refine .filed hw hc rfl rfl (fun c' hc' => ⟨rfl, Function.update_of_ne hc' ..⟩)
    (hchanges.evolves.mono fun _ _ hn => .inr hn) ?_ (.of_eq hnode) ?_ (.inl rfl) hchanges.pinned
    hchanges.globals
  · refine hw.settled.evolves hchanges.evolves hchanges.symbols hchanges.globals ?_
    rintro n - (rfl | rfl)
    · rw [hd.selectors]
      nofun
    · rw [hd.methods]
      nofun
  have hlog : (w.file c selector method).log c = (selector, method) :: w.log c :=
    Function.update_self ..
  have hlookup : ∀ name, ((w.file c selector method).log c).lookup name =
      if name = selector then some method else (w.log c).lookup name := by
    intro name
    rw [hlog, List.lookup_cons]
    by_cases hname : name = selector
    · rw [if_pos hname, hname, beq_self_eq_true]
    · rw [if_neg hname, beq_false_of_ne hname]
  refine ⟨hnode ▸ (hw.files c hc).shelf, ⟨slots', hd', fun s' m => ?_⟩, fun {name m} hm => ?_⟩
  · rw [hmem']
    simp only [hsymbol?, hlookup]
    constructor
    · rintro (⟨rfl, rfl⟩ | ⟨hne, hm⟩)
      · exact ⟨selector, hs, if_pos rfl⟩
      · obtain ⟨name, hname, hm⟩ := (hmem s' m).mp hm
        refine ⟨name, hname, ?_⟩
        rw [if_neg]
        · exact hm
        · rintro rfl
          exact hne (Option.some.inj (hname.symm.trans hs))
    · rintro ⟨name, hname, hm⟩
      by_cases heq : name = selector
      · subst heq
        rw [if_pos rfl] at hm
        exact .inl ⟨Option.some.inj (hname.symm.trans hs), (Option.some.inj hm).symm⟩
      · rw [if_neg heq] at hm
        refine .inr ⟨?_, (hmem s' m).mpr ⟨name, hname, hm⟩⟩
        rintro rfl
        exact heq (hw.settled.symbolsDistinct.name_unique (mem_of_named? hname) (mem_of_named? hs))
  · rw [hlookup] at hm
    rw [hsymbol?]
    by_cases heq : name = selector
    · rw [heq]
      exact ⟨s, hs⟩
    · rw [if_neg heq] at hm
      exact (hw.files c hc).interned hm

/-- A method is added to a class. -/
theorem installMethod (hw : w.Describes g) (hc : c ∈ w.classes) (hS : S (.fault .overflow))
    (selector : String) (method : Value) :
    (Spec.installMethod (.object c) selector method).Ends g (fun _ g' => ∃ d a,
      w.Leads g ((w.reshelve c d a).file c selector method) g') E S := by
  refine ask (pin (pin (bind (intern ((hw.settled.withPinned _).withPinned _) fun _ => hS) ?_)))
  intro s g₁ hinterned
  refine pin ?_
  have hpinned₁ : g₁.pinned = g.pinned ++ [.object c] ++ [method] := hinterned.pinned
  have hleads₁ : w.Leads g w (g₁.withPinned g.pinned) :=
    (World.Leads.interned ((hw.withPinned _).withPinned _) hinterned).withPinned g.pinned
  generalize hvalues : g₁.pinned ++ [s] = values
  have hbase : values[g.pinned.length]? = some (.object c) := by
    rw [← hvalues, hpinned₁]
    simp
  have hmethod : values[g.pinned.length + 1]? = some method := by
    rw [← hvalues, hpinned₁]
    simp
  have hsymbol : values[g.pinned.length + 2]? = some s := by
    rw [← hvalues, hpinned₁]
    simp
  have hw₁ : w.Describes (g₁.withPinned values) := hleads₁.describes.withPinned values
  obtain ⟨slots, hd, -⟩ := (hw₁.files c hc).places
  refine pinnedAt hbase ?_
  -- Whether the dictionary grows or not, there is room in it.
  have hgrow : (if decide (slots.length * 3 < (slots.used + 1) * 4) then
      Spec.growDictionary g.pinned.length else Pure.pure ()).Ends (g₁.withPinned values)
      (fun _ g' => ∃ d a, w.Leads (g₁.withPinned values) (w.reshelve c d a) g' ∧
        g'.isClassFull (.object c) = some false) E S := by
    by_cases hfull : slots.length * 3 < (slots.used + 1) * 4
    · rw [decide_eq_true hfull]
      exact growDictionary hw₁ hc hbase hS
    · rw [decide_eq_false hfull]
      refine pure ⟨(w.shelf c).1, (w.shelf c).2, ?_, ?_⟩
      · rw [w.reshelve_self]
        exact .refl hw₁
      · unfold isClassFull
        rw [hw₁.dictionary_field hc]
        exact hd.isFull_eq.trans (congrArg some (decide_eq_false hfull))
  have hfull : (g₁.withPinned values).isClassFull (.object c) =
      some (decide (slots.length * 3 < (slots.used + 1) * 4)) := by
    unfold isClassFull
    rw [hw₁.dictionary_field hc]
    exact hd.isFull_eq
  refine read hfull (bind hgrow ?_)
  rintro - g₂ ⟨d, a, hleads₂, hroom⟩
  have hpinned₂ : g₂.pinned = values := hleads₂.pinned
  refine pinnedAt (hpinned₂ ▸ hbase) (pinnedAt (hpinned₂ ▸ hmethod) (pinnedAt (hpinned₂ ▸ hsymbol) ?_))
  have hrestored : g₂.pinned = g.pinned ++ [.object c, method, s] := by
    rw [hpinned₂, ← hvalues, hpinned₁]
    simp
  refine unpinTo hrestored ?_
  have hleads₂ : w.Leads (g₁.withPinned g.pinned) (w.reshelve c d a) (g₂.withPinned g.pinned) :=
    hleads₂.withPinned g.pinned
  have hs : (g₂.withPinned g.pinned).symbol? selector = some s :=
    symbol?_evolves (g := g₁.withPinned g.pinned) hinterned.symbol hleads₂.advances.evolves
  have hroom : (g₂.withPinned g.pinned).isClassFull (.object c) = some false := hroom
  obtain ⟨g₃, hinsert, hleads₃⟩ := insertMethod hleads₂.describes hc hroom hs method
  refine write hinsert ?_
  have hleads := hleads₁.trans (hleads₂.trans hleads₃)
  exact fun r hr => hr ▸ ⟨d, a, hleads.withMemo fun _ _ _ => False⟩

end Spec.Ends

/-! ## Classes -/

namespace Graph

/-- The fields of a class, filled in. -/
def classFields (field : Nat → Value) (superclass dictionary : Value) (spec : InstanceSpec)
    (name other : Value) : Nat → Value :=
  Function.update (Function.update (Function.update (Function.update (Function.update field
    Class.superclassField superclass) Class.dictionaryField dictionary) Class.specField
      (.immediate spec.toRef)) Class.nameField name) Class.instanceField other

/-- A class whose fields were filled in. -/
def filled (o : Node) (superclass dictionary : Value) (spec : InstanceSpec) (name other : Value) :
    Node :=
  { o with field := classFields o.field superclass dictionary spec name other }

section Filled

variable (o : Node) (superclass dictionary : Value) (spec : InstanceSpec) (name other : Value)

@[simp] theorem cls_filled : (filled o superclass dictionary spec name other).cls = o.cls := rfl
@[simp] theorem superclass_filled :
    (filled o superclass dictionary spec name other).field Class.superclassField = superclass := rfl
@[simp] theorem dictionary_filled :
    (filled o superclass dictionary spec name other).field Class.dictionaryField = dictionary := rfl
@[simp] theorem spec_filled :
    (filled o superclass dictionary spec name other).field Class.specField =
      .immediate spec.toRef := rfl
@[simp] theorem name_filled :
    (filled o superclass dictionary spec name other).field Class.nameField = name := rfl
@[simp] theorem instance_filled :
    (filled o superclass dictionary spec name other).field Class.instanceField = other := rfl

end Filled

theorem fillClass_eq {g : Graph} {n : Nat} (hformat : (g.nodes n).format = .plain)
    (hfields : (g.nodes n).fields = Class.fieldCount) (superclass dictionary : Value)
    (spec : InstanceSpec) (name other : Value) :
    g.fillClass (.object n) superclass dictionary spec name other =
      some (g.setNode n (filled (g.nodes n) superclass dictionary spec name other)) := by
  have hplain : (g.nodes n).format ≠ .context := by
    rw [hformat]
    nofun
  have hlt : ∀ index < Class.fieldCount, index < (g.nodes n).fields :=
    fun index hindex => hfields ▸ hindex
  refine (storeField_bind hplain (hlt Class.superclassField (by decide)) _).trans ?_
  refine (setNode_storeField_bind (by exact hplain)
    (by exact hlt Class.dictionaryField (by decide)) _).trans ?_
  refine (setNode_storeField_bind (by exact hplain)
    (by exact hlt Class.specField (by decide)) _).trans ?_
  refine (setNode_storeField_bind (by exact hplain)
    (by exact hlt Class.nameField (by decide)) _).trans ?_
  rw [setNode_storeField (by exact hplain) (by exact hlt Class.instanceField (by decide))]
  simp only [Node.withField, filled, classFields]

/-- Two objects have other contents. -/
theorem evolves_setNodes {g : Graph} {c m : Nat} {o o' : Node} (hne : c ≠ m)
    (hlayout : Node.SameLayout (g.nodes c) o) (hhash : o.hash = (g.nodes c).hash)
    (hlayout' : Node.SameLayout (g.nodes m) o') (hhash' : o'.hash = (g.nodes m).hash) :
    g.Evolves (fun n => n = c ∨ n = m) ((g.setNode c o).setNode m o') := by
  have hsame : (g.setNode c o).nodes m = g.nodes m := Function.update_of_ne hne.symm ..
  have hfirst : g.Evolves (· = c) (g.setNode c o) := evolves_setNode hlayout hhash
  have hsecond : (g.setNode c o).Evolves (· = m) ((g.setNode c o).setNode m o') :=
    evolves_setNode (hsame ▸ hlayout') (hsame ▸ hhash')
  exact (hfirst.mono fun n _ hn => .inl hn).trans (hsecond.mono fun n _ hn => .inr hn)
    fun n _ hn => hn

/-- The graph with a class and a metaclass that were filled in. -/
def withClass (g : Graph) (c m : Nat) (superclass inherited : Value) (spec : InstanceSpec)
    (name dictionary metaDictionary : Value) : Graph :=
  (g.setNode c (filled ((g.nodes c).withClass (.object m)) superclass dictionary spec name
    g.core.nil)).setNode m (filled (g.nodes m) inherited metaDictionary ⟨.plain, Class.fieldCount⟩
      g.core.nil (.object c))

section WithClass

variable (g : Graph) (c m : Nat) (superclass inherited : Value) (spec : InstanceSpec)
  (name dictionary metaDictionary : Value)

@[simp] theorem symbols_withClass :
    (g.withClass c m superclass inherited spec name dictionary metaDictionary).symbols =
      g.symbols := rfl
@[simp] theorem globals_withClass :
    (g.withClass c m superclass inherited spec name dictionary metaDictionary).globals =
      g.globals := rfl
@[simp] theorem pinned_withClass :
    (g.withClass c m superclass inherited spec name dictionary metaDictionary).pinned =
      g.pinned := rfl

end WithClass

theorem evolves_withClass {g : Graph} {c m : Nat} (hne : c ≠ m) (superclass inherited : Value)
    (spec : InstanceSpec) (name dictionary metaDictionary : Value) :
    g.Evolves (fun n => n = c ∨ n = m)
      (g.withClass c m superclass inherited spec name dictionary metaDictionary) := by
  unfold Graph.withClass
  exact evolves_setNodes hne ⟨rfl, rfl, rfl⟩ rfl ⟨rfl, rfl, rfl⟩ rfl

/-- What a class is made of, before it is filled in. The class itself is one of the kernel or new, and
everything else is new. -/
structure Prepared (g : Graph) (w : World) (g' : Graph) (c m : Nat) (shelf metaShelf : Nat × Nat) :
    Prop where
  grows : g.Grows g'
  settled : g'.Settled
  globals : g'.globals = g.globals
  cls : (∃ k, c = classNode k) ∨ g.next ≤ c
  free : c ∉ w.classes
  metaclass : g.next ≤ m
  ne : c ≠ m
  lt : c < g'.next ∧ m < g'.next
  format : (g'.nodes c).format = .plain ∧ (g'.nodes m).format = .plain
  fields : (g'.nodes c).fields = Class.fieldCount ∧ (g'.nodes m).fields = Class.fieldCount
  kind : (g'.nodes m).cls = .object (classNode .metaclass)
  dictionary : g'.IsDictionary shelf.1 shelf.2 (List.replicate MethodDictionary.minCapacity none)
  metaDictionary : g'.IsDictionary metaShelf.1 metaShelf.2
    (List.replicate MethodDictionary.minCapacity none)
  shelf_new : g.next ≤ shelf.1 ∧ g.next ≤ shelf.2
  metaShelf_new : g.next ≤ metaShelf.1 ∧ g.next ≤ metaShelf.2
  apart : shelf.1 ≠ metaShelf.1 ∧ shelf.2 ≠ metaShelf.2

variable {g g' : Graph} {w : World} {c : Nat} {shelf metaShelf : Nat × Nat} {symbol : Value}
  {e : Entry} {inherited : Nat}

/-- An empty dictionary has what was added to a new class. -/
theorem World.Files.of_empty {d a count : Nat} (hshelf : w.shelf c = (d, a)) (hlog : w.log c = [])
    (hfield : (g.nodes c).field Class.dictionaryField = .object d)
    (hd : g.IsDictionary d a (List.replicate count none)) : w.Files g c where
  shelf := by rw [hfield, hshelf]
  places := by
    refine ⟨_, by rw [hshelf]; exact hd, fun s m => ?_⟩
    rw [hlog]
    simp
  interned := by
    rw [hlog]
    nofun

/-- The new class is described once it is filled in. -/
theorem World.Describes.withClass (hw : w.Describes g)
    (hp : Prepared g w g' e.cls e.metaclass shelf metaShelf) (hsymbol : g'.symbol? e.name = some symbol)
    (hinherits : e.Inherits w.roster inherited) :
    (w.enroll e shelf metaShelf).Describes (g'.withClass e.cls e.metaclass
        (superclassValue e.superclass) (.object inherited) e.spec symbol (.object shelf.1)
        (.object metaShelf.1)) ∧
      w.Advances g (w.enroll e shelf metaShelf) (g'.withClass e.cls e.metaclass
        (superclassValue e.superclass) (.object inherited) e.spec symbol (.object shelf.1)
        (.object metaShelf.1)) := by
  have hw' := hw.grows hp.grows hp.settled
  generalize hresult : g'.withClass e.cls e.metaclass (superclassValue e.superclass)
    (.object inherited) e.spec symbol (.object shelf.1) (.object metaShelf.1) = g''
  have hmeta : e.metaclass ∉ w.classes := fun hc => absurd (hw.layout hc).1
    (Nat.not_lt.mpr hp.metaclass)
  have hcls'' : g''.nodes e.cls = filled ((g'.nodes e.cls).withClass (.object e.metaclass))
      (superclassValue e.superclass) (.object shelf.1) e.spec symbol g'.core.nil := by
    rw [← hresult]
    simp [Graph.withClass, Function.update_of_ne hp.ne]
  have hmeta'' : g''.nodes e.metaclass = filled (g'.nodes e.metaclass) (.object inherited)
      (.object metaShelf.1) ⟨.plain, Class.fieldCount⟩ g'.core.nil (.object e.cls) := by
    rw [← hresult]
    simp [Graph.withClass]
  have hevolves : g'.Evolves (fun n => n = e.cls ∨ n = e.metaclass) g'' := by
    rw [← hresult]
    exact evolves_withClass hp.ne ..
  have hsettled : g''.Settled := by
    refine hp.settled.evolves hevolves (by rw [← hresult, symbols_withClass])
      (by rw [← hresult, globals_withClass]) ?_
    rintro n - (rfl | rfl)
    · rw [hp.format.1]
      nofun
    · rw [hp.format.2]
      nofun
  have hunchanged : ∀ n, (g'.nodes n).format = .array → ¬ (n = e.cls ∨ n = e.metaclass) := by
    rintro n hn (rfl | rfl)
    · rw [hp.format.1] at hn
      cases hn
    · rw [hp.format.2] at hn
      cases hn
  have hcls : g''.IsLinked e.cls (.object e.metaclass) (superclassValue e.superclass) := by
    refine ⟨hp.lt.1.trans_le hevolves.next_le, ?_, ?_, ?_, ?_⟩ <;> rw [hcls'']
    · exact hp.format.1
    · exact hp.fields.1
    · rfl
    · rfl
  have hlinked : g''.IsLinked e.metaclass (.object (classNode .metaclass)) (.object inherited) := by
    refine ⟨hp.lt.2.trans_le hevolves.next_le, ?_, ?_, ?_, ?_⟩ <;> rw [hmeta'']
    · exact hp.format.2
    · exact hp.fields.2
    · exact hp.kind
    · rfl
  have hentry : g''.IsEntry w.roster e :=
    { cls := hcls
      metaclass := ⟨inherited, hinherits, hlinked⟩
      name := by
        rw [hcls'', name_filled]
        exact symbol?_evolves hsymbol hevolves
      spec := by rw [hcls'', spec_filled]
      sole := by rw [hmeta'', instance_filled] }
  have hshelf : ∀ c ∈ w.classes, ∀ n, w.Keeps c n →
      n ≠ shelf.1 ∧ n ≠ shelf.2 ∧ n ≠ metaShelf.1 ∧ n ≠ metaShelf.2 := by
    intro c hc n hn
    have hlt := (hw.shelf_array hc hn).1
    have h₁ := hp.shelf_new
    have h₂ := hp.metaShelf_new
    omega
  constructor
  · refine hw'.enroll hevolves hsettled hentry hp.free hmeta hp.ne (hw.next_le.trans hp.metaclass) ?_
      (.of_empty (d := shelf.1) (a := shelf.2) ?_ ?_ ?_ (hp.dictionary.evolves hevolves
        (hunchanged _ hp.dictionary.selectors) (hunchanged _ hp.dictionary.methods)))
      (.of_empty (d := metaShelf.1) (a := metaShelf.2) ?_ ?_ ?_ (hp.metaDictionary.evolves hevolves
        (hunchanged _ hp.metaDictionary.selectors) (hunchanged _ hp.metaDictionary.methods)))
      hp.apart hshelf
    · rintro n (rfl | rfl) -
      · exact ⟨hp.format.1, hp.fields.1⟩
      · exact ⟨hp.format.2, hp.fields.2⟩
    · simp [World.enroll, Function.update_of_ne hp.ne]
    · simp [World.enroll, Function.update_of_ne hp.ne]
    · rw [hcls'', dictionary_filled]
    · simp [World.enroll]
    · simp [World.enroll]
    · rw [hmeta'', dictionary_filled]
  · refine ⟨(hp.grows.mono fun _ _ => False.elim).trans hevolves ?_, fun n hn hl => ?_⟩
    · rintro n hn (rfl | rfl)
      · exact .inl (hp.cls.resolve_right (Nat.not_le.mpr hn))
      · exact absurd hn (Nat.not_lt.mpr hp.metaclass)
    · have hglobals : g''.globals = g.globals := by
        rw [← hresult, globals_withClass, hp.globals]
      obtain hk | hc | ⟨c, hc, hkeeps⟩ | hglobal := hl
      · exact .inl hk
      · obtain rfl | hc := List.mem_cons.mp hc
        · exact .inl (hp.cls.resolve_right (Nat.not_le.mpr hn))
        obtain rfl | hc := List.mem_cons.mp hc
        · exact absurd hn (Nat.not_lt.mpr hp.metaclass)
        · exact .inr (.inl hc)
      · have hnot : ∀ p : Nat × Nat, g.next ≤ p.1 ∧ g.next ≤ p.2 → ¬ (n = p.1 ∨ n = p.2) := by
          intro p hp hkeeps
          omega
        refine .inr (.inr (.inl ⟨c, ?_⟩))
        unfold World.Keeps at hkeeps ⊢
        obtain rfl | hc := List.mem_cons.mp hc
        · simp only [World.enroll, Function.update_of_ne hp.ne, Function.update_self] at hkeeps
          exact absurd hkeeps (hnot _ hp.shelf_new)
        obtain rfl | hc := List.mem_cons.mp hc
        · simp only [World.enroll, Function.update_self] at hkeeps
          exact absurd hkeeps (hnot _ hp.metaShelf_new)
        · refine ⟨hc, ?_⟩
          have hne : c ≠ e.cls := by
            rintro rfl
            exact hp.free hc
          have hne' : c ≠ e.metaclass := by
            rintro rfl
            exact hmeta hc
          simpa only [World.enroll, Function.update_of_ne hne, Function.update_of_ne hne'] using hkeeps
      · rw [hglobals] at hglobal
        exact .inr (.inr (.inr hglobal))

end Graph

namespace Spec.Ends

open ObjectMachine.Graph

variable {α β : Type} {g : Graph} {w : World} {E : Failure → Graph → Prop} {S : Fatal → Prop}
  {name : String} {c m : Nat}

/-- A class and its metaclass are filled in. -/
theorem linkClass (hkernel : g.Kernel) (hne : c ≠ m)
    (hformat : (g.nodes c).format = .plain ∧ (g.nodes m).format = .plain)
    (hfields : (g.nodes c).fields = Class.fieldCount ∧ (g.nodes m).fields = Class.fieldCount)
    {superclass inherited : Value}
    (hinherited : if superclass = .object 0 then inherited = .object (classNode .theClass)
      else g.classWord superclass = some inherited) (spec : InstanceSpec)
    (symbol dictionary metaDictionary : Value) :
    (Spec.linkClass (.object c) (.object m) superclass spec symbol dictionary metaDictionary).Ends g
      (fun _ g' => g' = g.withClass c m superclass inherited spec symbol dictionary metaDictionary)
      E S := by
  have hmetaSuperclass : (Spec.metaSuperclass g.core superclass).Ends g
      (fun v g' => v = inherited ∧ g' = g) E S := by
    unfold Spec.metaSuperclass
    rw [hkernel.coreNil]
    by_cases hnil : superclass = .object 0
    · rw [if_pos hnil] at hinherited ⊢
      exact pure ⟨by rw [hinherited, hkernel.cls], rfl⟩
    · rw [if_neg hnil] at hinherited ⊢
      exact read_last hinherited ⟨rfl, rfl⟩
  refine ask (bind hmetaSuperclass ?_)
  rintro v g' ⟨hv, hg'⟩
  rw [hv, hg']
  refine write_last ?_ rfl
  have hself : ∀ o : Node, (g.setNode c o).nodes c = o := fun o => Function.update_self ..
  have hother : ∀ o : Node, (g.setNode c o).nodes m = g.nodes m :=
    fun o => Function.update_of_ne hne.symm ..
  show ((g.setNode c ((g.nodes c).withClass (.object m))).fillClass (.object c) superclass dictionary
    spec symbol g.core.nil >>= fun g' => g'.fillClass (.object m) inherited metaDictionary
      ⟨.plain, Class.fieldCount⟩ g.core.nil (.object c)) = _
  rw [fillClass_eq (by rw [hself]; exact hformat.1) (by rw [hself]; exact hfields.1), hself,
    setNode_setNode]
  show Graph.fillClass _ _ _ _ _ _ _ = _
  rw [fillClass_eq (by rw [hother]; exact hformat.2) (by rw [hother]; exact hfields.2), hother]
  rfl

/-- What is made for a class before the class itself: the symbol of its name, two dictionaries, which
are pinned, and the metaclass. -/
structure Begun (g : Graph) (name : String) (g' : Graph) (symbol : Value) (shelf metaShelf : Nat × Nat)
    (m : Nat) : Prop where
  grows : g.Grows (g'.withPinned g.pinned)
  settled : g'.Settled
  globals : g'.globals = g.globals
  pinned : g'.pinned = g.pinned ++ [symbol] ++ [.object shelf.1] ++ [.object metaShelf.1]
  symbol : g'.symbol? name = some symbol
  dictionary : g'.IsDictionary shelf.1 shelf.2 (List.replicate MethodDictionary.minCapacity none)
  metaDictionary : g'.IsDictionary metaShelf.1 metaShelf.2
    (List.replicate MethodDictionary.minCapacity none)
  shelf_new : g.next ≤ shelf.1 ∧ g.next ≤ shelf.2
  metaShelf_new : g.next ≤ metaShelf.1 ∧ g.next ≤ metaShelf.2
  apart : shelf.1 ≠ metaShelf.1 ∧ shelf.2 ≠ metaShelf.2
  metaclass : g.next ≤ m ∧ m < g'.next
  layout : (g'.nodes m).format = .plain ∧ (g'.nodes m).fields = Class.fieldCount ∧
    (g'.nodes m).cls = .object (classNode .metaclass)

theorem beginClass (hw : w.Describes g) (hS : S (.fault .overflow)) {f : Value → Spec β}
    {Q : β → Graph → Prop} (hf : ∀ g' symbol shelf metaShelf m,
      Begun g name g' symbol shelf metaShelf m → (f (.object m)).Ends g' Q E S) :
    Spec.Ends (do
      Spec.pin (← Spec.intern name)
      Spec.pin (← Spec.newMethodDictionary MethodDictionary.minCapacity)
      Spec.pin (← Spec.newMethodDictionary MethodDictionary.minCapacity)
      let metaclass ← Spec.allocate ((← Spec.getCore).cls .metaclass) .plain Class.fieldCount 0
      f metaclass) g Q E S := by
  have hpower : MethodDictionary.minCapacity = 2 ^ 3 := rfl
  refine bind (intern hw.settled fun _ => hS) fun symbol g₁ hinterned => pin ?_
  have hw₁ := hw.grows hinterned.grows hinterned.settled
  refine bind (newMethodDictionary (hw₁.settled.withPinned _) hpower fun _ => hS) ?_
  rintro v g₂ ⟨d, a, hadds₂, rfl, hd, ha, hdictionary⟩
  refine pin ?_
  have hsettled₂ := (hw₁.settled.withPinned _).adds hadds₂
  refine bind (newMethodDictionary (hsettled₂.withPinned _) hpower fun _ => hS) ?_
  rintro v g₃ ⟨d', a', hadds₃, rfl, hd', ha', hdictionary'⟩
  refine pin (ask ?_)
  have hsettled₃ := (hsettled₂.withPinned _).adds hadds₃
  refine bind (allocate_core hsettled₃.idle { hsettled₃.kernel with } (.inr rfl) (by decide) nofun
    fun _ => hS) ?_
  rintro v g₄ ⟨hadds₄, rfl, hnext₄, ⟨hash, hnode⟩, -⟩
  have hpinned₁ : g₁.pinned = g.pinned := hinterned.pinned
  have hpinned₂ : g₂.pinned = g.pinned ++ [symbol] := hadds₂.pinned.trans (by simp [hpinned₁])
  have hpinned₃ : g₃.pinned = g.pinned ++ [symbol] ++ [.object d] :=
    hadds₃.pinned.trans (by simp [hpinned₂])
  have hgrows₂ : g₁.Grows g₂ := hadds₂.grows.of_withPinned
  have hgrows₃ : g₂.Grows g₃ := hadds₃.grows.of_withPinned
  have hgrows₄ : g₃.Grows g₄ := hadds₄.grows.of_withPinned
  have hle₁ := hinterned.grows.next_le
  have hle₂ := hgrows₂.next_le
  have hle₃ := hgrows₃.next_le
  have hlt := hdictionary.selectors_lt
  have hlt' := hdictionary.methods_lt
  simp only [next_withPinned] at *
  refine hf g₄ symbol (d, a) (d', a') g₃.next
    { grows := ?_
      settled := (hsettled₃.withPinned _).adds hadds₄
      globals := hadds₄.globals.trans (hadds₃.globals.trans (hadds₂.globals.trans hinterned.globals))
      pinned := hadds₄.pinned.trans (by simp [hpinned₃])
      symbol := symbol?_evolves hinterned.symbol
        ((hgrows₂.trans hgrows₃ fun _ _ h => h).trans hgrows₄ fun _ _ h => h)
      dictionary := (hdictionary.evolves hgrows₃ id id).evolves hgrows₄ id id
      metaDictionary := hdictionary'.evolves hgrows₄ id id
      shelf_new := by omega
      metaShelf_new := by omega
      apart := by omega
      metaclass := by omega
      layout := ?_ }
  · exact (((hinterned.grows.trans hgrows₂ fun _ _ h => h).trans hgrows₃ fun _ _ h => h).trans hgrows₄
      fun _ _ h => h).withPinned g.pinned g.pinned
  · rw [hnode]
    exact ⟨rfl, rfl, hsettled₃.kernel.cls .metaclass⟩

/-- A global gets a value. -/
theorem setGlobal_leads {v : Value} (hw : w.Describes g) (hS : S (.fault .overflow)) :
    (Spec.setGlobal name v).Ends g (fun _ g' => w.Leads g (w.bind name v) g') E S := by
  refine (setGlobal hw.settled fun _ => hS).mono ?_ (fun _ _ h => h) fun _ h => h
  rintro - g' ⟨n, hevolves, hpinned, hsettled, hassociation, hbound, hknown, hold⟩
  refine ⟨hw.bind hevolves hsettled hassociation hbound hknown, ⟨hevolves.mono ?_, ?_⟩, hpinned⟩
  · rintro n' hn' rfl
    exact .inr (.inr (.inr ⟨name, mem_of_named? (hknown hn')⟩))
  · intro n' hn' hl
    obtain h | h | h | ⟨name', h⟩ := hl
    · exact .inl h
    · exact .inr (.inl h)
    · exact .inr (.inr (.inl h))
    · exact .inr (.inr (.inr ⟨name', hold h hn'⟩))

/-- Where the metaclass of a new class inherits from. -/
theorem inherits_of_mem (hw : w.Describes g) {superclass : Option Nat}
    (hsuper : ∀ s ∈ superclass, ∃ e ∈ w.roster, e.cls = s) :
    ∃ inherited, (∀ c m name spec, Entry.Inherits ⟨c, m, superclass, name, spec⟩ w.roster inherited) ∧
      if superclassValue superclass = .object 0 then
        Value.object inherited = .object (classNode .theClass)
      else g.classWord (superclassValue superclass) = some (.object inherited) := by
  cases superclass with
  | none => exact ⟨classNode .theClass, fun _ _ _ _ => rfl, by simp [superclassValue]⟩
  | some s =>
    obtain ⟨e, he, rfl⟩ := hsuper s rfl
    refine ⟨e.metaclass, fun _ _ _ _ => ⟨e, he, rfl, rfl⟩, ?_⟩
    have hmem : e.cls ∈ w.classes := mem_classesOf.mpr ⟨e, he, .inl rfl⟩
    obtain ⟨older, -, hentry⟩ := hw.linked.isEntry he
    rw [if_neg (by simpa [superclassValue] using hw.ne_zero hmem)]
    exact congrArg some hentry.cls.cls

/-- A class is added. -/
theorem defineClass (hw : w.Describes g) (hS : S (.fault .overflow)) {superclass : Option Nat}
    (hsuper : ∀ s ∈ superclass, ∃ e ∈ w.roster, e.cls = s) (spec : InstanceSpec) :
    (Spec.defineClass name (superclassValue superclass) spec).Ends g (fun _ g' =>
      ∃ c m shelf metaShelf, g.next ≤ c ∧
        w.Leads g ((w.enroll ⟨c, m, superclass, name, spec⟩ shelf metaShelf).bind name (.object c)) g')
      E S := by
  refine pin (beginClass (hw.withPinned _) hS ?_)
  intro g₁ symbol shelf metaShelf m hbegun
  refine pin ?_
  have hw₁ : w.Describes (g₁.withPinned g.pinned) :=
    ((hw.withPinned _).grows hbegun.grows (hbegun.settled.withPinned _)).withPinned g.pinned
  have hmakes : (Value.object m).Makes .plain Class.fieldCount :=
    Value.makes_object (.inr rfl) (by decide) nofun
  refine bind (allocate (hbegun.settled.withPinned _).idle (hbegun.settled.withPinned _).kernel.rooted
    hmakes fun _ => hS) ?_
  intro v g₂ hmade
  obtain ⟨hadds, rfl, hnext, ⟨hash, hnode⟩, -⟩ := hmade.fresh
  have hpinned₂ : g₂.pinned = g.pinned ++ [superclassValue superclass] ++ [symbol] ++
      [.object shelf.1] ++ [.object metaShelf.1] ++ [.object m] :=
    hadds.pinned.trans (by simp [hbegun.pinned])
  refine unpin hpinned₂ (unpin rfl (unpin rfl (unpin rfl (unpin rfl ?_))))
  simp only [withPinned_withPinned, next_withPinned] at *
  have hgrows₁ : g.Grows (g₁.withPinned g.pinned) := hbegun.grows.withPinned g.pinned g.pinned
  have hgrows₂ : (g₁.withPinned g.pinned).Grows (g₂.withPinned g.pinned) :=
    (hadds.withPinned g.pinned).grows
  have hm := hbegun.metaclass
  have hnodeM : (g₂.withPinned g.pinned).nodes m = g₁.nodes m := hgrows₂.nodes m hm.2 id
  have hprepared : Prepared g w (g₂.withPinned g.pinned) g₁.next m shelf metaShelf :=
    { grows := hgrows₁.trans hgrows₂ fun _ _ h => h
      settled := ((hbegun.settled.withPinned _).adds hadds).withPinned g.pinned
      globals := hadds.globals.trans hbegun.globals
      cls := .inr hgrows₁.next_le
      free := fun hc => absurd (hw.layout hc).1 (Nat.not_lt.mpr hgrows₁.next_le)
      metaclass := hm.1
      ne := by omega
      lt := by
        show g₁.next < g₂.next ∧ m < g₂.next
        omega
      format := ⟨by simp [hnode, Node.fresh], hnodeM ▸ hbegun.layout.1⟩
      fields := ⟨by simp [hnode, Node.fresh], hnodeM ▸ hbegun.layout.2.1⟩
      kind := hnodeM ▸ hbegun.layout.2.2
      dictionary := hbegun.dictionary.evolves (hgrows₂.of_withPinned) id id
      metaDictionary := hbegun.metaDictionary.evolves (hgrows₂.of_withPinned) id id
      shelf_new := hbegun.shelf_new
      metaShelf_new := hbegun.metaShelf_new
      apart := hbegun.apart }
  obtain ⟨inherited, hinherits, hinherited⟩ := inherits_of_mem (hw₁.grows hgrows₂ hprepared.settled) hsuper
  refine bind (linkClass hprepared.settled.kernel hprepared.ne hprepared.format hprepared.fields
    hinherited spec symbol _ _) ?_
  rintro - g₃ rfl
  have hsymbol : (g₂.withPinned g.pinned).symbol? name = some symbol :=
    symbol?_evolves (g := g₁) hbegun.symbol hgrows₂.of_withPinned
  obtain ⟨hdescribes, hadvances⟩ := hw.withClass (e := ⟨g₁.next, m, superclass, name, spec⟩) hprepared
    hsymbol (hinherits ..)
  refine bind (setGlobal_leads hdescribes hS) ?_
  intro _ g₄ hbound
  exact pure ⟨g₁.next, m, shelf, metaShelf, hgrows₁.next_le,
    .trans ⟨hdescribes, hadvances, pinned_withClass ..⟩ hbound⟩

end Spec.Ends

end ObjectMachine
