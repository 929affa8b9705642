import ObjectMachine.Proofs.Class.Dictionaries

/-!
# What defining a class and building a method answer

A class is made before its global is bound to it, and a method before there is room for it in the
dictionary of its class. Whatever is allocated in between may collect, so the global and the dictionary
are given the object as it is then, which was kept pinned; but the reference that is answered was read
before. It leads to the object that was bound or installed if nothing was collected meanwhile.

Collections are counted to tell. A watch over the number of them knows what a reference was as long as
the number is the same.

## Main results

* `Machine.Stage.setGlobal_binds`: a global is bound to what its value is when it gets it.
* `Machine.Filing.answers_installed`: a class that is defined is found under its name, and a method that is
  built in the dictionary of its class, and without a collection they are what was answered.
-/

namespace ObjectMachine.Machine

/-- How many collections there were. -/
def collections (m : Machine) : Nat := m.heap.stats.collections

variable {m m' : Machine} {starts starts' : List Nat} {h : Heap} {r cls method value : Ref}
  {w : Watch} {t : Mark} {marks : List Mark} {logs : Logs} {target : Target} {log : Log}

/-! ## Counting collections -/

theorem collections_moved {live : Nat → Bool} {c : Collected}
    (hc : m.heap.Collects starts live m.roots c) :
    (m.Moved starts live c).collections = m.collections + 1 := by
  show c.heap.stats.collections = _
  rw [hc.stats]
  rfl

theorem collections_allocated {format : Format} {fields len : Nat}
    (ha : m.heap.Allocated cls format fields len h) :
    ({ m with heap := h } : Machine).collections = m.collections := by
  show h.stats.collections = _
  rw [ha.stats]
  rfl

theorem collections_touched {i : Nat} (ht : Heap.Touches i m.heap h) :
    ({ m with heap := h } : Machine).collections = m.collections := by
  have hcount := congrArg (fun g : Heap => g.stats.collections) ht.rest
  exact hcount

/-- There were so many collections at least. What is watched is a given reference as long as there were
no more than were counted when it was read. -/
def Watch.counting (base : Nat) {count least : Nat} (hle : count ≤ least) (r : Ref) : Watch where
  base
  Kept m _ := least ≤ m.collections
  Tells
    | .subject, m, r' => m.collections = count → r' = r
    | _, _, _ => True
  writable _ := trivial
  symbol _ := trivial
  congr halike _ hm := by
    unfold collections at hm ⊢
    rw [halike.heap]
    exact hm
  tells_congr {tag m m' r'} halike hr := by
    cases tag with
    | subject =>
      dsimp only [collections] at hr ⊢
      rw [halike.heap]
      exact hr
    | _ => trivial
  flushed hm := hm
  tells_flushed {tag m r'} hr := by
    cases tag with
    | subject => exact hr
    | _ => trivial
  named _ _ hm := hm
  collected _ _ _ hc hm := by
    rw [collections_moved hc]
    exact Nat.le_succ_of_le hm
  tells_collected {tag m starts live c r'} _ _ _ hc hm _ _ := by
    cases tag with
    | subject =>
      intro hcount
      rw [collections_moved hc] at hcount
      omega
    | _ => trivial
  allocated _ ha _ hm := by
    rw [collections_allocated ha]
    exact hm
  tells_allocated {tag m starts cls format fields len h r'} _ ha _ _ hr := by
    cases tag with
    | subject =>
      dsimp only at hr ⊢
      rw [collections_allocated ha]
      exact hr
    | _ => trivial
  fresh _ _ _ _ := trivial
  stored _ hstores hm := by
    rw [collections_touched hstores.touches]
    exact hm
  tells_stored {tag m starts i h r'} _ hstores _ _ hr := by
    cases tag with
    | subject =>
      dsimp only at hr ⊢
      rw [collections_touched hstores.touches]
      exact hr
    | _ => trivial

theorem Watch.closed_counting (base : Nat) {count least : Nat} (hle : count ≤ least) (r : Ref) :
    (counting base hle r).Closed :=
  fun _ _ _ _ _ _ => trivial

namespace Stage

variable {base count least : Nat} {hle : count ≤ least}

/-- Counting begins. -/
theorem counting (hm : m.Sound starts) (r : Ref) :
    Stage (.counting m.pinned.size (Nat.le_refl m.collections) r) [] m starts :=
  .of_size hm rfl (Nat.le_refl m.collections)

/-- What is read when counting begins. -/
theorem current (hr : Known starts r) :
    subjectMark.Holds (.counting base (Nat.le_refl m.collections) r) m starts r :=
  ⟨hr, trivial, fun _ htag => by cases htag; exact fun _ => rfl⟩

/-- What there is now is the least from now on. -/
theorem recount (hs : Stage (.counting base hle r) marks m starts) :
    Stage (.counting base (Nat.le_trans hle hs.kept) r) marks m starts :=
  ⟨hs.sound, hs.base_le, hs.pins.imp fun _ _ hr => ⟨hr.known, hr.kind, fun tag htag => hr.tag tag htag⟩,
    Nat.le_refl m.collections⟩

/-- A global is bound to what its value is when it gets it. -/
theorem setGlobal_binds (hs : Stage w marks m starts) (name : String)
    (hvalue : t.Holds w m starts value) :
    (m.setGlobal name value).Meets (fun _ m' => ∃ bound, m'.global? name = .ok (some bound) ∧
      Gives w marks t bound m') fun _ => False := by
  unfold Machine.setGlobal
  have hs₀ := hs.pin hvalue
  have hfound := (hs₀.globalAssociation name).and (hs₀.globalAssociation_found name)
  refine .step rfl (.bind_of_never (hfound.mono (fun _ _ h => h) fun _ h => h.1) ?_)
  rintro association m₁ ⟨⟨starts₁, hs₁, hassociation⟩, hglobal⟩
  obtain ⟨value, m₂, hunpin, hs₂, hvalue₂, hcarries₂⟩ := hs₁.unpin
  obtain ⟨-, rfl⟩ := unpin_ok hunpin
  have hassociation₂ := hcarries₂ _ _ hassociation
  refine .step hunpin (.write_last fun h hok => ⟨value, ?_, starts₁, ?_⟩)
  · obtain ⟨i, hi, rfl, hshape⟩ := hs₁.laidOut.of_kind hassociation.known hassociation.kind
    have hfields : (m₁.heap.view i).fields = Association.fieldCount := congrArg Prod.snd hshape
    have hformat : (m₁.heap.view i).format = .plain := congrArg Prod.fst hshape
    unfold Machine.global?
    dsimp only
    rw [hglobal]
    show (h.fetchField _ _ >>= _) = _
    rw [fetchField_stored hs₁.laidOut hi (by rw [hformat]; rfl) (by rw [hfields]; decide) hok]
    rfl
  · obtain ⟨hs₃, hcarries₃⟩ := hs₂.storeField (hs₂.writable_association hassociation₂) (by decide)
      hvalue₂.known (Kind.suits_of_expects rfl) (fun h => absurd h (by decide)) hok
    exact ⟨hs₃, hcarries₃ _ _ hvalue₂⟩

/-- A class that is defined is the one its global is bound to, unless there was a collection. -/
theorem defineClass_answers (hs : Stage w [] m starts) {superclass : Ref} (name : String)
    (hsuper : superclassMark.Holds w m starts superclass) (spec : InstanceSpec) :
    (m.defineClass name superclass spec).Meets (fun cls m' => ∃ bound,
      m'.global? name = .ok (some bound) ∧ (m'.collections = m.collections → bound = cls))
      fun _ => False := by
  have hsuper₀ : superclassMark.Holds (.counting m.pinned.size (Nat.le_refl m.collections) .null)
      m starts superclass := ⟨hsuper.known, hsuper.kind, fun _ h => nomatch h⟩
  refine (counting hs.sound .null).defineClass_binds name hsuper₀ spec fun m₁ starts₁ cls hs₁ hcls => ?_
  have hleast : m.collections ≤ m₁.collections := hs₁.kept
  refine ((counting hs₁.sound cls).setGlobal_binds name (current hcls.known)).mono ?_ fun _ h => h
  rintro _ m₂ ⟨bound, hglobal, starts₂, hs₂, hbound⟩
  have hmore : m₁.collections ≤ m₂.collections := hs₂.kept
  exact ⟨bound, hglobal, fun hsame => hbound.tag _ rfl (by omega)⟩

/-- A method that is pinned while there is made room for it is known to be the same unless there was a
collection. -/
theorem makeRoom_counts (hm : m.Sound starts) (hcls : (Mark.of .cls).Holds w m starts cls)
    (selector : String) (hmethod : Known starts method) :
    (m.makeRoom cls selector method).Meets (fun _ m' => ∃ hle : m.collections ≤ m'.collections,
      Keeps (.counting m.pinned.size hle method)
        ([] ++ [.writable .cls] ++ [subjectMark] ++ [.symbol selector]) m')
      fun _ => False := by
  have hs := counting hm method
  have hwritable : (Mark.writable .cls).Holds (.counting m.pinned.size (Nat.le_refl m.collections)
      method) m starts cls :=
    ⟨hcls.known, .inr (.inl hcls.kind), fun _ htag => by cases htag; trivial⟩
  refine (hs.makeRoom (Watch.closed_counting _ _ _) hwritable selector (current hmethod)).mono ?_
    fun _ h => h
  rintro _ m' ⟨-, starts', hs'⟩
  exact ⟨hs'.kept, starts', hs'.recount⟩

end Stage

namespace Follows

/-- The dictionary of a class that is followed is read from the class. -/
theorem reads (hm : Follows logs m) (hlog : logs target = some log) (hcls : target.ref m = .ok cls) :
    Class.dictionary m.heap cls = .ok (target.handle.dictionary m) := by
  obtain ⟨t, hb, starts, hs, hsubject, hof, -, hlogs⟩ := hm.subject hlog hcls
  obtain ⟨c, d, a, slots, -, -, rfl, -, hd, hread, -⟩ :=
    hs.subject hof ((hlogs target).trans hlog) target.path_handle hsubject
  rw [hd]
  exact hread

/-- A method that is built for a class is found in the dictionary of the class, and is the one answered
unless there was a collection. -/
theorem buildInto (hm : Follows logs m) (hlog : logs target = some log)
    (hcls : target.ref m = .ok cls) (code : Assembler) (selector : String) :
    (m.buildInto code cls selector).Meets (fun method m' =>
      Follows (Function.update logs target (some ((selector, none) :: log))) m' ∧
      ∃ symbol found, m'.symbol? selector = some symbol ∧
        MethodDictionary.lookup? m'.heap (target.handle.dictionary m') symbol = .ok (some found) ∧
        (m'.collections = m.collections → found = method)) fun _ => True := by
  obtain ⟨t, hb, starts, hs, hsubject, hof, hbase, hlogs⟩ := hm.subject hlog hcls
  have hx := (hlogs target).trans hlog
  have hcompiled := (hs.compileFor hsubject code).and
    ((Stage.counting hs.sound .null).compileFor (.any hsubject.known) code)
  unfold Machine.buildInto
  refine .bind_of_never (hcompiled.mono (fun _ _ h => h) fun _ h => h.1) ?_
  rintro ⟨failure | method, cls₁⟩ m₁ ⟨⟨starts₁, hs₁, hsubject₁, hmethod₁⟩, _, hcount₁, -⟩
  · exact .inspect fun _ _ => trivial
  have hmethod := hmethod₁ method rfl
  have hsize₁ : m₁.pinned.size = t.base := hs₁.size_pinned
  obtain ⟨c, -, -, -, hc, hshape, rfl, -⟩ := hs₁.subject hof hx target.path_handle hsubject₁
  have hclass : (Mark.of .cls).Holds (t.watch hb) m₁ starts₁ (.ofWordIndex c) :=
    ⟨fun _ => ⟨c, hc, rfl⟩, hs₁.sound.kind_of_shape hc hshape (by decide), fun _ h => nomatch h⟩
  have hroom := (hs₁.makeRoomFiled hof hx target.path_handle hsubject₁ selector none
    ⟨hmethod.known, trivial, fun _ h => nomatch h⟩).meets.and
      (Stage.makeRoom_counts hs₁.sound hclass selector hmethod.known)
  dsimp only
  rw [installMethod_eq, Action.bind_assoc]
  refine .bind_of_never (hroom.mono (fun _ _ h => h) fun _ h => h.1) ?_
  rintro _ m₂ ⟨⟨rfl, starts₂, d, a, slots, hs₂, hd, ht, hrecords, hfree⟩, hle, starts₃, hs₃⟩
  have hinserted := (hs₂.insertFiled hof hx target.path_handle hd ht hrecords hfree).meets
  have hcounted := hs₃.insertPinned (Watch.closed_counting _ _ _)
  rw [← hsize₁] at hinserted ⊢
  refine .bind_of_never ((hinserted.and hcounted).mono (fun _ _ h => h) fun _ h => h.1) ?_
  rintro _ m₃ ⟨⟨⟨hb', hkeeps, -⟩, found, symbol, hat, hsymbol, hlookup⟩, ⟨starts₄, hs₄⟩, -⟩
  have hless : m.collections ≤ m₁.collections := hcount₁.kept
  have hmore : m₂.collections ≤ m₃.collections := hs₄.kept
  obtain ⟨r, hr, hholds⟩ := hs₃.pinned
    (show [Mark.writable .cls, subjectMark, .symbol selector][1]? = some subjectMark from rfl)
  cases hr.symm.trans hat
  refine ⟨of_put hkeeps hlogs, symbol, found, hsymbol, hlookup, fun hsame => hholds.tag _ rfl ?_⟩
  omega

end Follows

/-- A class that is defined is bound to its global, and a method that is built for a class is found in
the dictionary of the class, wherever collections moved them while more was allocated. If nothing was
collected, they are what was answered. -/
theorem Filing.answers_installed (hm : Filing logs m) :
    (∀ name superclass spec cls m', m.Allows (.defineClass name superclass spec) →
      m.defineClass name superclass spec = .ok cls m' → ∃ bound,
        m'.global? name = .ok (some bound) ∧ (m'.collections = m.collections → bound = cls)) ∧
    ∀ target log cls code selector method m', logs target = some log → target.ref m = .ok cls →
      m.buildInto code cls selector = .ok method m' → ∃ cls' dictionary symbol found,
        target.ref m' = .ok cls' ∧ Class.dictionary m'.heap cls' = .ok dictionary ∧
        m'.symbol? selector = some symbol ∧
        MethodDictionary.lookup? m'.heap dictionary symbol = .ok (some found) ∧
        (m'.collections = m.collections → found = method) := by
  refine ⟨fun name superclass spec cls m' hallows hrun => ?_,
    fun target log cls code selector method m' hlog hcls hrun => ?_⟩
  · obtain ⟨hb, starts, hs⟩ := hm.follows
    exact (hs.defineClass_answers name (hs.superclass hallows) spec).of_ok hrun
  · obtain ⟨hfollows, symbol, found, hsymbol, hlookup, hsame⟩ :=
      (hm.follows.buildInto hlog hcls code selector).of_ok hrun
    have hlog' := Function.update_self target (some ((selector, none) :: log)) logs
    obtain ⟨cls', -, hcls', -⟩ := hfollows.isFiniteMap hlog'
    exact ⟨cls', _, symbol, found, hcls', hfollows.reads hlog' hcls', hsymbol, hlookup, hsame⟩

/-! ## A run without a collection -/

/-- It makes no difference to what is known how much memory there may be. -/
theorem Follows.withReserve (hm : Follows logs m) {words : Nat} (hwords : words ≤ Ref.addressLimit) :
    Follows logs { m with heap := { m.heap with reservedWords := words } } := by
  obtain ⟨hb, starts, hs⟩ := hm
  have hl := hs.laidOut
  have hsound := hs.sound
  have hlaid : Heap.LaidOut { m.heap with reservedWords := words } starts :=
    ⟨hl.committed, hl.addressable, hl.tiles, hl.readable⟩
  have hw := hsound.shaped.toWellFormed
  have ht := hsound.shaped.table
  have hshaped : Heap.Shaped { m.heap with reservedWords := words } starts :=
    { hlaid with
      held := hw.held
      own := hw.own
      unmarked := hw.unmarked
      traced := hw.traced
      zero := hsound.shaped.zero
      table := ⟨ht.1, ht.2, ht.3, ht.4⟩
      reserved := hwords
      follows := hsound.shaped.follows }
  have halike : (logs.catalog m.pinned.size).Alike m starts
      { m with heap := { m.heap with reservedWords := words } } starts :=
    ⟨fun _ hi => hi, rfl, fun _ _ => .refl _, fun _ _ _ _ _ => rfl, rfl, fun _ _ => rfl,
      fun _ _ h => h, fun _ _ _ => rfl⟩
  refine ⟨hb, starts, .of_size (hsound.withHeap hshaped (fun _ hi => hi) rfl fun _ _ => .refl _) rfl ?_⟩
  exact halike.kept hb hs.kept hlaid hs.kept.one

/-- A machine with a class and with room for another one. -/
def roomy : Machine := { halfFull with heap := { halfFull.heap with reservedWords := 1024 } }

theorem roomy_answers :
    (∃ cls m', roomy.defineClass "A" roomy.core.nil ⟨.plain, 0⟩ = .ok cls m' ∧
      m'.global? "A" = .ok (some cls)) ∧
    ∃ method m' cls dictionary symbol,
      roomy.buildInto (Assembler.ofArgCount 0).returningSelf (roomy.core.cls .object) "y" = .ok method m' ∧
      Class.dictionary m'.heap cls = .ok dictionary ∧ m'.symbol? "y" = some symbol ∧
      MethodDictionary.lookup? m'.heap dictionary symbol = .ok (some method) := by
  have hm : Filing halfFullLogs roomy := .prepared (halfFull_follows.withReserve (by decide))
  obtain ⟨hdefined, hbuilt⟩ := hm.answers_installed
  constructor
  · have hanswers : (roomy.defineClass "A" roomy.core.nil ⟨.plain, 0⟩).answer?.map (·.2.collections) =
        some roomy.collections := by decide +kernel
    obtain ⟨⟨cls, m'⟩, hanswer, hsame⟩ := Option.map_eq_some_iff.mp hanswers
    have hok := Outcome.eq_ok_of_answer? hanswer
    obtain ⟨bound, hbound, heq⟩ := hdefined "A" _ _ cls m' (.inl rfl) hok
    exact ⟨cls, m', hok, heq hsame ▸ hbound⟩
  · have hanswers : (roomy.buildInto (Assembler.ofArgCount 0).returningSelf (roomy.core.cls .object)
        "y").answer?.map (·.2.collections) = some roomy.collections := by decide +kernel
    obtain ⟨⟨method, m'⟩, hanswer, hsame⟩ := Option.map_eq_some_iff.mp hanswers
    have hok := Outcome.eq_ok_of_answer? hanswer
    obtain ⟨cls, dictionary, symbol, found, -, hdictionary, hsymbol, hlookup, heq⟩ :=
      hbuilt (.cls (.kernel .object)) [("x", some 0)] _ _ "y" method m' (if_pos rfl) rfl hok
    exact ⟨method, m', cls, dictionary, symbol, hok, hdictionary, hsymbol, heq hsame ▸ hlookup⟩

end ObjectMachine.Machine
