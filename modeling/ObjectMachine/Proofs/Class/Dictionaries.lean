import ObjectMachine.Proofs.Class.Kernel
import ObjectMachine.Proofs.Machine.Coherence

/-!
# Method dictionaries are finite maps

A dictionary is told by what was put into it: the names, and where the method of each is pinned if it
is, so that it can be recognized after it was moved. The classes of the kernel are followed from the
start, and each class that is defined from then on. Adding methods to them in any order, and
everything else that is asked of a machine meanwhile, leaves each dictionary the finite map that its
log says.

## Main results

* `Machine.Filing`: machines in use, with what was put into the dictionaries of their classes.
* `Machine.Filing.follows`: each of the dictionaries is a table with the names in its log.
* `Machine.dictionary_isFiniteMap`: so it answers the latest method of each name and no other one.
-/

namespace ObjectMachine.Machine

variable {m m' : Machine} {starts : List Nat} {cls method dictionary : Ref} {log : Log}
  {target : Target}

/-! ## Logs -/

/-- What was put into the dictionaries of the classes that are followed. -/
abbrev Logs := Target → Option Log

namespace Logs

variable {logs : Logs} {base : Nat} {x : Handle}

/-- The catalog that follows these dictionaries. -/
def catalog (logs : Logs) (base : Nat) : Catalog where
  base
  entries x :=
    if x = .cls x.root then logs (.cls x.root)
    else if x = .metaclass x.root then logs (.metaclass x.root)
    else none

theorem entries_catalog (logs : Logs) (base : Nat) (target : Target) :
    (logs.catalog base).entries target.handle = logs target := by
  cases target with
  | cls root => exact if_pos rfl
  | metaclass root => exact (if_neg (by simp [Target.handle, Handle.cls, Handle.metaclass])).trans (if_pos rfl)

theorem of_entries (hx : (logs.catalog base).entries x = some log) :
    ∃ target : Target, x = target.handle ∧ logs target = some log := by
  unfold catalog at hx
  dsimp only at hx
  split at hx
  · exact ⟨.cls x.root, ‹_›, hx⟩
  · split at hx
    · exact ⟨.metaclass x.root, ‹_›, hx⟩
    · cases hx

/-- A log that is replaced in a catalog is replaced among the logs. -/
theorem entries_put (t : Catalog) (target : Target) (log : Log) :
    (fun target' : Target => (t.put target.handle log).entries target'.handle) =
      Function.update (fun target' => t.entries target'.handle) target (some log) := by
  funext target'
  rw [Function.update_apply]
  show (if target'.handle = target.handle then some log else t.entries target'.handle) = _
  by_cases heq : target' = target
  · rw [heq, if_pos rfl, if_pos rfl]
  · rw [if_neg heq, if_neg fun h => heq (Target.handle_inj h)]

/-- A class that was defined, and pinned at a position. -/
def enroll (logs : Logs) (position : Nat) : Logs :=
  Function.update (Function.update logs (.cls (.pinned position)) (some []))
    (.metaclass (.pinned position)) (some [])

theorem entries_enroll (t : Catalog) (position : Nat) (target : Target) :
    (t.enroll (.pinned position)).entries target.handle =
      enroll (fun target' => t.entries target'.handle) position target := by
  unfold enroll
  rw [← entries_put, ← entries_put]
  rfl

/-- The kernel methods. -/
def kernel : Logs
  | .cls (.kernel k) => some (KernelMethod.logOf (.cls k) [] KernelMethod.all)
  | .metaclass (.kernel k) => some (KernelMethod.logOf (.metaclass k) [] KernelMethod.all)
  | _ => none

theorem of_kernel (hlog : kernel target = some log) : ∃ owner : Owner, owner.target = target ∧
    log = KernelMethod.logOf owner [] KernelMethod.all := by
  match target with
  | .cls (.kernel k) => exact ⟨.cls k, rfl, (Option.some.inj hlog).symm⟩
  | .metaclass (.kernel k) => exact ⟨.metaclass k, rfl, (Option.some.inj hlog).symm⟩
  | .cls (.pinned _) => cases hlog
  | .metaclass (.pinned _) => cases hlog

end Logs

/-! ## Machines that follow logs -/

variable {logs : Logs}

/-- The dictionaries of a machine are what the logs say, and nothing is pinned beside what the logs
may mention. -/
def Follows (logs : Logs) (m : Machine) : Prop :=
  ∃ hb : (logs.catalog m.pinned.size).Below, Keeps ((logs.catalog m.pinned.size).watch hb) [] m

namespace Follows

/-- What a catalog says is true of the dictionaries that it has. -/
theorem of_keeps {t : Catalog} {hb : t.Below} (hm : Keeps (t.watch hb) [] m)
    (hlogs : ∀ target log, logs target = some log → t.entries target.handle = some log) :
    Follows logs m := by
  obtain ⟨starts, hs⟩ := hm
  have hsize : m.pinned.size = t.base := hs.size_pinned
  have hentries : ∀ {x log}, (logs.catalog m.pinned.size).entries x = some log →
      t.entries x = some log := by
    intro x log hx
    obtain ⟨target, rfl, hlog⟩ := Logs.of_entries hx
    exact hlogs target log hlog
  refine ⟨⟨fun hx => ?_, fun hx put hput position hp => ?_, fun _ he => (nomatch he),
    fun _ hx => nomatch hx⟩, starts, ?_⟩
  · show Root.Below m.pinned.size _
    rw [hsize]
    exact hb.roots (hentries hx)
  · exact Nat.lt_of_lt_of_eq (hb.logs (hentries hx) put hput position hp) hsize.symm
  · refine .of_size hs.sound rfl (hs.kept.restrict hentries (fun _ he => nomatch he) ?_)
    exact List.nil_sublist _

/-- Anything may be pinned. -/
theorem hold (hm : Follows logs m) (hr : method.isPointer = true → m.heap.Holds method) :
    Follows logs { m with pinned := m.pinned.push method } := by
  obtain ⟨hb, starts, hs⟩ := hm
  have hpushed := hs.pin (.any fun hp => hs.laidOut.holds_iff.mp (hr hp))
  have hraised : Keeps (Catalog.watch _ (hb.raise (Nat.le_succ m.pinned.size))) []
      { m with pinned := m.pinned.push method } :=
    ⟨starts, .of_size hpushed.sound (Array.size_push _)
      (hpushed.kept.restrict id (fun _ he => nomatch he) (.refl _))⟩
  exact of_keeps hraised fun target log hlog => (logs.entries_catalog _ target).trans hlog

/-- A class that is defined has no methods, nor has its metaclass. -/
theorem define {name : String} {superclass : Ref} {spec : InstanceSpec} (hm : Follows logs m)
    (hallows : m.Allows (.defineClass name superclass spec)) :
    (m.defineClass name superclass spec).Meets (fun _ m' => ∃ cls, m'.global? name = .ok (some cls) ∧
      Follows (logs.enroll m.pinned.size) { m' with pinned := m'.pinned.push cls }) fun _ => False := by
  obtain ⟨hb, starts, hs⟩ := hm
  refine (hs.defineFiled rfl name (hs.superclass hallows) spec).mono ?_ fun _ h => h
  rintro _ m' ⟨cls, hb', hglobal, hkeeps⟩
  refine ⟨cls, hglobal, of_keeps hkeeps fun target log hlog => ?_⟩
  refine (Logs.entries_enroll _ _ target).trans ?_
  rw [← hlog]
  exact congrArg (fun logs : Logs => logs.enroll m.pinned.size target)
    (funext (logs.entries_catalog m.pinned.size))

/-- What a catalog says after an entry was added to the dictionary of a class. -/
theorem of_put {selector : String} {held : Option Nat} {t : Catalog}
    {hb : (t.put target.handle ((selector, held) :: log)).Below}
    (hm : Keeps ((t.put target.handle ((selector, held) :: log)).watch hb) [] m)
    (hlogs : ∀ target, t.entries target.handle = logs target) :
    Follows (Function.update logs target (some ((selector, held) :: log))) m := by
  refine of_keeps hm fun target' log' hlog => ?_
  have hentries := Logs.entries_put t target ((selector, held) :: log)
  rw [funext hlogs] at hentries
  exact (congrFun hentries target').trans hlog

/-- The class may be made the subject of the catalog. -/
theorem subject (hm : Follows logs m) (hlog : logs target = some log)
    (hcls : target.ref m = .ok cls) : ∃ t : Catalog, ∃ hb : t.Below, ∃ starts,
      Stage (t.watch hb) [] m starts ∧ subjectMark.Holds (t.watch hb) m starts cls ∧
      t.subject = some target.handle ∧ t.base = m.pinned.size ∧
      ∀ target, t.entries target.handle = logs target := by
  obtain ⟨hb, starts, hs⟩ := hm
  have hx := (logs.entries_catalog m.pinned.size target).trans hlog
  obtain ⟨hb', hs'⟩ := hs.withSubject hx
  exact ⟨_, hb', starts, hs', hs'.targetSubject hx rfl hcls, rfl, rfl, logs.entries_catalog m.pinned.size⟩

/-- Adding a method to a class adds it to the log. -/
theorem installMethod (hm : Follows logs m) (hlog : logs target = some log)
    (hcls : target.ref m = .ok cls) (selector : String) (held : Option Nat)
    (hmethod : method.isPointer = true → m.heap.Holds method)
    (hheld : ∀ position ∈ held, m.pinned[position]? = some method) :
    (m.installMethod cls selector method).Safe fun _ m' =>
      Follows (Function.update logs target (some ((selector, held) :: log))) m' := by
  obtain ⟨t, hb, starts, hs, hsubject, hof, hbase, hlogs⟩ := hm.subject hlog hcls
  have hmark : (heldMark held).Holds (t.watch hb) m starts method := by
    refine ⟨fun hp => hs.laidOut.holds_iff.mp (hmethod hp), trivial, fun tag htag => ?_⟩
    obtain ⟨position, hposition, rfl⟩ := Option.mem_map.mp htag
    have hat := hheld position hposition
    exact ⟨Nat.lt_of_lt_of_eq (Array.getElem?_eq_some_iff.mp hat).1 hbase.symm, hat⟩
  have hinstalled := hs.installFiled hof ((hlogs target).trans hlog) target.path_handle hsubject
    selector held hmark
  refine ⟨hinstalled.meets.mono ?_ fun _ h => h, hinstalled.spares⟩
  rintro _ m' ⟨hb', hkeeps, -⟩
  exact of_put hkeeps hlogs

/-- So does building a method and adding it. -/
theorem install (hm : Follows logs m) (hlog : logs target = some log)
    (hcls : target.ref m = .ok cls) (code : Assembler) (selector : String) :
    (m.install code cls selector).Meets
      (fun _ m' => Follows (Function.update logs target (some ((selector, none) :: log))) m')
      (Follows logs) := by
  obtain ⟨t, hb, starts, hs, hsubject, hof, -, hlogs⟩ := hm.subject hlog hcls
  have hinstalled := hs.install hsubject code selector fun m' starts' cls' method' hs' hcls' hmethod' =>
    (hs'.installFiled hof ((hlogs target).trans hlog) target.path_handle hcls' selector none
      ⟨hmethod'.known, trivial, fun _ h => nomatch h⟩).meets
  refine hinstalled.mono ?_ fun m' hm' => of_keeps hm' fun target log hlog => (hlogs target).trans hlog
  rintro _ m' ⟨hb', hkeeps, -⟩
  exact of_put hkeeps hlogs

/-- Nothing else adds methods. -/
theorem serve {request : Request} (hm : Follows logs m) (hplain : request.Plain)
    (hallows : m.Allows request) :
    (request.run m).Meets (fun _ m' => Follows logs m') fun _ => False := by
  obtain ⟨hb, starts, hs⟩ := hm
  refine (hs.serve hplain hallows).mono ?_ fun _ h => h
  intro _ m' hm'
  exact of_keeps hm' fun target log hlog => (logs.entries_catalog _ target).trans hlog

/-- The cache does not matter. -/
theorem withCache (hm : Follows logs m) (cache : MethodCache) : Follows logs { m with cache } := by
  obtain ⟨hb, starts, hs⟩ := hm
  refine ⟨hb, starts, .of_size (hs.sound.withCache cache) rfl ?_⟩
  have halike : (logs.catalog m.pinned.size).Alike m starts { m with cache } starts :=
    Catalog.alike_of_heap starts rfl rfl (fun _ _ => rfl) fun _ _ h => h
  exact halike.kept hb hs.kept hs.laidOut hs.kept.one

theorem lookup (hm : Follows logs m) (cls selector : Ref) :
    (m.lookup cls selector).Meets (fun _ m' => Follows logs m') fun _ => False := by
  rw [lookup_eq]
  split
  · exact hm.withCache _
  · split
    · exact hm.withCache _
    · exact hm.withCache _
    · trivial

theorem bootstrapped {config : MachineConfig} (hok : ofConfig config = .ok m)
    (hbytes : config.heap.maxBytes < countLimit) (hrun : m.bootstrap = .ok () m') :
    Follows Logs.kernel m' := by
  obtain ⟨t, hb, hkeeps, -, hentries⟩ := (bootstrap_filed hok hbytes).of_ok hrun
  refine of_keeps hkeeps fun target log hlog => ?_
  obtain ⟨owner, rfl, rfl⟩ := Logs.of_kernel hlog
  exact hentries owner

end Follows

/-! ## Finite maps -/

/-- A dictionary is the finite map of what was put into it: it answers the latest method of a name,
and none for a name without one. It has each name once, in one of a power of two places, of which a
quarter is free. -/
structure IsFiniteMap (m : Machine) (dictionary : Ref) (log : Log) : Prop where
  absent : ∀ name symbol, m.symbol? name = some symbol → name ∉ log.map Prod.fst →
    MethodDictionary.lookup? m.heap dictionary symbol = .ok none
  present : ∀ name ∈ log.map Prod.fst, ∃ symbol method, m.symbol? name = some symbol ∧
    MethodDictionary.lookup? m.heap dictionary symbol = .ok (some method)
  latest : ∀ name symbol position, m.symbol? name = some symbol →
    log.lookup name = some (some position) → ∃ method, m.pinned[position]? = some method ∧
      MethodDictionary.lookup? m.heap dictionary symbol = .ok (some method)
  tally : MethodDictionary.tally m.heap dictionary = .ok (log.map Prod.fst).dedup.length
  entries : ∃ entries, MethodDictionary.entries m.heap dictionary = .ok entries ∧
    (entries.map Prod.fst).Nodup ∧ ∀ symbol method, (symbol, method) ∈ entries ↔
      (∃ name ∈ log.map Prod.fst, m.symbol? name = some symbol) ∧
        MethodDictionary.lookup? m.heap dictionary symbol = .ok (some method)
  capacity : ∃ exponent, MethodDictionary.capacity m.heap dictionary = .ok (2 ^ exponent) ∧
    4 * (log.map Prod.fst).dedup.length ≤ 3 * 2 ^ exponent

namespace IsFiniteMap

variable {d a : Nat} {slots : Slots String Ref}

/-- The entries of a table are its symbols with what it answers for them. -/
theorem mem_entries (ht : m.Table starts d a slots) (hm : m.Sound starts) (hone : m.OneSymbol)
    {symbol : Ref} : (symbol, method) ∈ (slots.filterMap id).map (Table.entry m) ↔
      (∃ name ∈ slots.keys, m.symbol? name = some symbol) ∧
        MethodDictionary.lookup? m.heap (.ofWordIndex d) symbol = .ok (some method) := by
  constructor
  · intro hmem
    obtain ⟨⟨name, r⟩, hslot, heq⟩ := List.mem_map.mp hmem
    have hslot : some (name, r) ∈ slots := by simpa using hslot
    obtain ⟨j, hj⟩ := Slots.mem_iff.mp hslot
    have hsymbol := (ht.used hj).1
    unfold Table.entry at heq
    rw [hsymbol] at heq
    cases heq
    exact ⟨⟨name, Slots.mem_keys.mpr ⟨_, hslot⟩, hsymbol⟩, ht.lookup_some hm hone hsymbol hslot⟩
  · rintro ⟨⟨name, hname, hsymbol⟩, hlookup⟩
    have hsymbol : m.symbols.find? name = some symbol := hsymbol
    obtain ⟨r, hslot⟩ := Slots.mem_keys.mp hname
    rw [ht.lookup_some hm hone hsymbol hslot] at hlookup
    cases hlookup
    refine List.mem_map.mpr ⟨(name, method), by simpa using hslot, ?_⟩
    unfold Table.entry
    rw [hsymbol]
    rfl

/-- No symbol is listed twice. -/
theorem nodup_entries (ht : m.Table starts d a slots) (hone : m.OneSymbol) :
    (((slots.filterMap id).map (Table.entry m)).map Prod.fst).Nodup := by
  have hkeys : ((slots.filterMap id).map (Table.entry m)).map Prod.fst =
      slots.keys.map fun name => (m.symbols.find? name).getD .null := by
    unfold Slots.keys
    rw [List.map_map, List.map_map]
    rfl
  rw [hkeys]
  refine ht.probed.nodup_keys.map_on fun name hname name' hname' heq => ?_
  have hfound : ∀ name ∈ slots.keys, ∃ symbol, m.symbols.find? name = some symbol := by
    intro name hname
    obtain ⟨r, hslot⟩ := Slots.mem_keys.mp hname
    obtain ⟨j, hj⟩ := Slots.mem_iff.mp hslot
    exact ⟨_, (ht.used hj).1⟩
  obtain ⟨symbol, hsymbol⟩ := hfound name hname
  obtain ⟨symbol', hsymbol'⟩ := hfound name' hname'
  rw [hsymbol, hsymbol'] at heq
  cases heq
  exact hone name name' symbol hsymbol hsymbol'

/-- A table with the names of a log is the finite map of the log. -/
theorem of_table (ht : m.Table starts d a slots) (hm : m.Sound starts) (hone : m.OneSymbol)
    (hr : Records log m.pinned slots) : m.IsFiniteMap (.ofWordIndex d) log := by
  have hused := hr.used_eq ht.probed
  have hslot : ∀ name ∈ log.map Prod.fst, ∃ method, some (name, method) ∈ slots :=
    fun name hname => Slots.mem_keys.mp ((hr.names name).mpr hname)
  refine ⟨fun name symbol hsymbol hnot => ?_, fun name hname => ?_,
    fun name symbol position hsymbol hlookup => ?_, ?_, ?_, ?_⟩
  · refine ht.lookup_none hm hone hsymbol fun r hmem => hnot ?_
    exact (hr.names name).mp (Slots.mem_keys.mpr ⟨r, hmem⟩)
  · obtain ⟨method, hmem⟩ := hslot name hname
    obtain ⟨j, hj⟩ := Slots.mem_iff.mp hmem
    have hsymbol := (ht.used hj).1
    exact ⟨_, method, hsymbol, ht.lookup_some hm hone hsymbol hmem⟩
  · obtain ⟨before, after, hlog, -⟩ := List.lookup_eq_some_iff.mp hlookup
    obtain ⟨method, hmem⟩ := hslot name (by simp [hlog])
    exact ⟨method, hr.methods name position method hlookup hmem,
      ht.lookup_some hm hone hsymbol hmem⟩
  · rw [← hused]
    exact ht.tally_eq hm.laidOut
  · refine ⟨_, ht.entries hm, nodup_entries ht hone, fun symbol method => ?_⟩
    simp only [mem_entries ht hm hone, hr.names]
  · obtain ⟨exponent, hpower⟩ := ht.power
    refine ⟨exponent, ?_, ?_⟩
    · rw [← hpower]
      exact ht.capacity hm.laidOut
    · rw [← hpower, ← hused]
      exact ht.load

end IsFiniteMap

/-- The dictionary of a class that is followed is the finite map of its log. -/
theorem Follows.isFiniteMap (hm : Follows logs m) (hlog : logs target = some log) :
    ∃ cls dictionary, target.ref m = .ok cls ∧ Class.dictionary m.heap cls = .ok dictionary ∧
      m.IsFiniteMap dictionary log := by
  obtain ⟨hb, starts, hs⟩ := hm
  have hl := hs.laidOut
  obtain ⟨hwalks, d, a, slots, hd, ht, hrecords⟩ :=
    hs.kept.filed ((logs.entries_catalog m.pinned.size target).trans hlog)
  have hmap := IsFiniteMap.of_table ht hs.sound hs.kept.one hrecords
  have hread : ∀ {i}, i ∈ starts → (m.heap.view i).shape = .cls →
      m.word (.ofWordIndex i) dictionaryWord = .ofWordIndex d →
      Class.dictionary m.heap (.ofWordIndex i) = .ok (.ofWordIndex d) := by
    intro i hi hshape hword
    have hformat : (m.heap.view i).format = .plain := congrArg Prod.fst hshape
    have hfields : (m.heap.view i).fields = Class.fieldCount := congrArg Prod.snd hshape
    have hlt : Class.dictionaryField < (m.heap.view i).fields := by rw [hfields]; decide
    unfold Class.dictionary
    rw [Heap.fetchField_eq hl hi hlt (View.fields_lt_size (by rw [hformat]; rfl)
      (Nat.add_lt_add_left hlt headerWords)), ← hword, word_ofWordIndex hl hi]
    rfl
  cases target with
  | cls root =>
    obtain ⟨⟨i, hi, heq, hshape⟩, -⟩ := hwalks
    have heq : root.ref m = .ofWordIndex i := heq
    have hd : m.word (root.ref m) dictionaryWord = .ofWordIndex d := hd
    rw [heq] at hd
    exact ⟨_, _, congrArg Except.ok heq, hread hi hshape hd, hmap⟩
  | metaclass root =>
    obtain ⟨⟨i, hi, heq, -⟩, -, ⟨j, hj, heq', hshape⟩, -⟩ := hwalks
    have heq : root.ref m = .ofWordIndex i := heq
    have heq' : m.word (root.ref m) 1 = .ofWordIndex j := heq'
    have hd : m.word (m.word (root.ref m) 1) dictionaryWord = .ofWordIndex d := hd
    rw [heq'] at hd
    refine ⟨_, _, ?_, hread hj hshape hd, hmap⟩
    show m.heap.classOf (root.ref m) = _
    rw [heq, word_ofWordIndex hl hi] at heq'
    rw [heq, hl.classOf hi]
    exact congrArg Except.ok heq'

/-! ## Machines in use -/

/-- Machines that are bootstrapped, or whose dictionaries are known, and what is done to them: classes
are defined, methods are added to the classes that are followed, and everything else may be asked for
in between. What is needed later is pinned. -/
inductive Filing : Logs → Machine → Prop
  | bootstrapped {config : MachineConfig} {m m' : Machine} : ofConfig config = .ok m →
      config.heap.maxBytes < countLimit → m.bootstrap = .ok () m' → Filing .kernel m'
  | prepared {logs : Logs} {m : Machine} : Follows logs m → Filing logs m
  | held {logs : Logs} {m : Machine} {r : Ref} : Filing logs m →
      (r.isPointer = true → m.heap.Holds r) → Filing logs { m with pinned := m.pinned.push r }
  | defined {logs : Logs} {m m' : Machine} {name : String} {superclass cls old : Ref}
      {spec : InstanceSpec} : Filing logs m → m.Allows (.defineClass name superclass spec) →
      m.defineClass name superclass spec = .ok old m' → m'.global? name = .ok (some cls) →
      Filing (logs.enroll m.pinned.size) { m' with pinned := m'.pinned.push cls }
  | installed {logs : Logs} {m m' : Machine} {target : Target} {log : Log} {cls method : Ref}
      {selector : String} {held : Option Nat} : Filing logs m → logs target = some log →
      target.ref m = .ok cls → (method.isPointer = true → m.heap.Holds method) →
      (∀ position ∈ held, m.pinned[position]? = some method) →
      m.installMethod cls selector method = .ok () m' →
      Filing (Function.update logs target (some ((selector, held) :: log))) m'
  | built {logs : Logs} {m m' : Machine} {target : Target} {log : Log} {cls : Ref}
      {code : Assembler} {selector : String} : Filing logs m → logs target = some log →
      target.ref m = .ok cls → m.install code cls selector = .ok () m' →
      Filing (Function.update logs target (some ((selector, none) :: log))) m'
  | refused {logs : Logs} {m m' : Machine} {target : Target} {log : Log} {cls : Ref}
      {code : Assembler} {selector : String} {failure : Failure} : Filing logs m →
      logs target = some log → target.ref m = .ok cls →
      m.install code cls selector = .failed failure m' → Filing logs m'
  | looked {logs : Logs} {m m' : Machine} {cls selector : Ref} {found : Option Ref} :
      Filing logs m → m.lookup cls selector = .ok found m' → Filing logs m'
  | served {logs : Logs} {m m' : Machine} {request : Request} : Filing logs m → request.Plain →
      m.Allows request → request.run m = .ok () m' → Filing logs m'

/-- The dictionaries of a machine in use are what the logs say. -/
theorem Filing.follows (hm : Filing logs m) : Follows logs m := by
  induction hm with
  | bootstrapped hok hbytes hrun => exact .bootstrapped hok hbytes hrun
  | prepared hm => exact hm
  | held _ hr ih => exact ih.hold hr
  | defined _ hallows hrun hglobal ih =>
    obtain ⟨cls, hcls, hfollows⟩ := (ih.define hallows).of_ok hrun
    cases hglobal.symm.trans hcls
    exact hfollows
  | installed _ hlog hcls hmethod hheld hrun ih =>
    exact (ih.installMethod hlog hcls _ _ hmethod hheld).meets.of_ok hrun
  | built _ hlog hcls hrun ih => exact (ih.install hlog hcls _ _).of_ok hrun
  | @refused _ _ _ _ _ _ code selector _ _ hlog hcls hrun ih =>
    have hmeets := ih.install hlog hcls code selector
    rw [hrun] at hmeets
    exact hmeets
  | looked _ hrun ih => exact (ih.lookup _ _).of_ok hrun
  | served _ hplain hallows hrun ih => exact (ih.serve hplain hallows).of_ok hrun

/-- The dictionary of a class that was made is the finite map of what was put into it, wherever
collections moved its symbols, its methods and itself; and there is room for whatever is added
next. -/
theorem dictionary_isFiniteMap (hm : Filing logs m) (hlog : logs target = some log) :
    ∃ cls dictionary, target.ref m = .ok cls ∧ Class.dictionary m.heap cls = .ok dictionary ∧
      m.IsFiniteMap dictionary log ∧ ∀ selector method,
        (method.isPointer = true → m.heap.Holds method) →
          ∀ full, m.installMethod cls selector method ≠ .stopped (.dictionaryFull full) := by
  have hfollows := hm.follows
  obtain ⟨cls, dictionary, hcls, hdictionary, hmap⟩ := hfollows.isFiniteMap hlog
  refine ⟨cls, dictionary, hcls, hdictionary, hmap, fun selector method hmethod => ?_⟩
  have hroom := hfollows.installMethod hlog hcls selector none hmethod fun _ h => nomatch h
  exact hroom.spares

/-- A machine with a class, in whose dictionary one of two places has a method, which is pinned. -/
def halfFull : Machine :=
  let nil : UInt64 := (Ref.ofWordIndex 1).bits
  let cls : UInt64 := (Ref.ofWordIndex 3).bits
  let heap : Heap :=
    { memory := #[0,
        (Header.pack .plain 0 4).bits, cls,
        (Header.pack .plain 5 5).bits, cls, nil, (Ref.ofWordIndex 10).bits, nil, nil, nil,
        (Header.pack .array 2 6).bits, cls, (Ref.ofNat 1).bits, (Ref.ofWordIndex 17).bits, 2,
        (Ref.ofWordIndex 22).bits, nil,
        (Header.pack .array 0 7).bits, cls, 2, (Ref.ofWordIndex 26).bits, nil,
        (Header.pack .byteArray 0 8).bits, cls, 1, 120,
        (Header.pack .plain 3 9).bits, cls, nil, nil, nil]
      top := 31
      reservedWords := 64
      sinceCollection := 0
      config := {}
      hashState := 1
      nil := .ofWordIndex 1
      largeIntegers := .empty
      stats := {} }
  { ofHeap heap ⟨#[], 0, 0⟩ with
    core := { CoreObjects.empty with
      nil := .ofWordIndex 1
      classes := Vector.replicate _ (.ofWordIndex 3) }
    symbols := ⟨#[("x", .ofWordIndex 22)]⟩
    pinned := #[.ofWordIndex 26] }

theorem halfFull_laidOut : halfFull.heap.LaidOut [1, 3, 10, 17, 22, 26] where
  committed := by decide
  addressable := by decide
  tiles := .cons (.cons (.cons (.cons (.cons (.cons (.nil 31))))))
  readable i hi := by
    have hall : ∀ i ∈ [1, 3, 10, 17, 22, 26], (halfFull.heap.view i).header.isValid = true ∧
        Format.ofCode? (halfFull.heap.view i).header.formatCode =
          some (halfFull.heap.view i).format ∧
        ((halfFull.heap.view i).format = .context → 3 ≤ (halfFull.heap.view i).fields) := by
      decide
    obtain ⟨hvalid, hknown, hctx⟩ := hall i hi
    exact ⟨hvalid, hknown, hctx⟩

theorem halfFull_shaped : halfFull.heap.Shaped [1, 3, 10, 17, 22, 26] where
  toWellFormed :=
    halfFull_laidOut.wellFormed_of_checked (b := 7) (by decide) (by decide) (by decide) (by decide)
  zero := rfl
  table := by constructor <;> simp [halfFull, ofHeap, LargeIntegers.empty]
  reserved := by decide
  follows i hi k hk expected he := by
    have hall : ∀ i ∈ [1, 3, 10, 17, 22, 26], ∀ k < 7, (halfFull.heap.view i).IsFixed k →
        ∀ expected ∈ (halfFull.heap.view i).shape.expects k,
          (halfFull.heap.kind ((halfFull.heap.view i).ref k)).Fits expected := by decide
    have hsize : ∀ i ∈ [1, 3, 10, 17, 22, 26], (halfFull.heap.view i).size ≤ 7 := by decide
    exact hall i hi k (Nat.lt_of_lt_of_le hk.isTraced.bounds.2 (hsize i hi)) hk expected he

theorem halfFull_sound : halfFull.Sound [1, 3, 10, 17, 22, 26] where
  idle := by decide
  shaped := halfFull_shaped
  rootsIn := by
    have hroots : ∀ r ∈ halfFull.roots, r.isPointer = true →
        ∃ i ∈ [1, 3, 10, 17, 22, 26], r = .ofWordIndex i := by
      rw [roots_eq]
      decide
    exact ⟨hroots, fun _ => ⟨1, by decide, rfl⟩⟩
  nil := ⟨1, by decide, rfl, by decide⟩
  core := rfl
  classes := by decide
  symbols := by decide
  globals := by decide

/-- The places of its dictionary. -/
theorem halfFull_table : halfFull.Table [1, 3, 10, 17, 22, 26] 10 17
    [some ("x", .ofWordIndex 26), none] where
  selectors := by decide
  methods := by decide
  link := by decide
  selectors_len := by decide
  methods_len := by decide
  power := ⟨1, rfl⟩
  tally := by decide
  load := by decide
  free {j} hj := by
    match j with
    | 0 => cases hj
    | 1 => decide
    | j + 2 => cases hj
  used {j name r} hj := by
    match j with
    | 0 => cases hj; decide
    | 1 => cases hj
    | j + 2 => cases hj
  probed := by
    have hplace : ∀ {j : Nat} {e : String × Ref},
        ([some ("x", .ofWordIndex 26), none] : Slots String Ref)[j]? = some (some e) → j = 0 := by
      intro j e hj
      match j with
      | 0 => rfl
      | 1 => cases hj
      | j + 2 => cases hj
    refine ⟨fun hi hj => (hplace hi).trans (hplace hj).symm, fun {j key value} hj => ?_⟩
    cases hplace hj
    cases hj
    exact ⟨0, ⟨by decide, .inr ⟨_, rfl⟩, fun i hi => absurd hi (Nat.not_lt_zero i)⟩, by decide⟩

/-- The method was put into the dictionary of one of the kernel classes. -/
def halfFullLogs : Logs := fun target =>
  if target = .cls (.kernel .object) then some [("x", some 0)] else none

theorem halfFull_follows : Follows halfFullLogs halfFull := by
  have hentries : ∀ {x log}, (halfFullLogs.catalog 1).entries x = some log →
      x = .cls (.kernel .object) ∧ log = [("x", some 0)] := by
    intro x log hx
    obtain ⟨target, rfl, hlog⟩ := Logs.of_entries hx
    unfold halfFullLogs at hlog
    split at hlog
    · subst target
      exact ⟨rfl, (Option.some.inj hlog).symm⟩
    · cases hlog
  refine ⟨⟨fun hx => ?_, fun hx put hput position hp => ?_, fun _ he => (nomatch he),
    fun _ hx => nomatch hx⟩, [1, 3, 10, 17, 22, 26], .of_size halfFull_sound rfl ?_⟩
  · rw [(hentries hx).1]
    trivial
  · rw [(hentries hx).2] at hput
    cases List.mem_singleton.mp hput
    cases hp
    exact Nat.zero_lt_one
  · refine ⟨halfFull_laidOut, ?_, fun {x log} hx => ?_, ?_, fun _ he => (nomatch he), List.nodup_nil,
      fun _ hk => nomatch hk⟩
    · intro name name' r hr hr'
      have hname : ∀ {name}, halfFull.symbols.find? name = some r → name = "x" := by
        intro name hr
        by_contra hne
        have hnone : halfFull.symbols.find? name = none :=
          NameTable.find?_eq_none.mpr (by simpa [halfFull, NameTable.names] using hne)
        rw [hnone] at hr
        cases hr
      rw [hname hr, hname hr']
    · obtain ⟨rfl, rfl⟩ := hentries hx
      refine ⟨⟨⟨3, by decide, rfl, by decide⟩, .inr rfl, trivial⟩, 10, 17, _, by decide,
        halfFull_table, fun name => ?_, fun name position r hlookup hr => ?_⟩
      · simp [Slots.keys]
      · have hslot : name = "x" ∧ r = .ofWordIndex 26 := by simpa using hr
        obtain ⟨rfl, rfl⟩ := hslot
        cases hlookup
        rfl
    · intro x y log log' hx hy hne
      exact absurd ((hentries hx).1.trans (hentries hy).1.symm) hne

/-- The dictionary answers the pinned method. -/
theorem halfFull_isFiniteMap : ∃ cls dictionary,
    (Target.cls (.kernel .object)).ref halfFull = .ok cls ∧
      Class.dictionary halfFull.heap cls = .ok dictionary ∧
      halfFull.IsFiniteMap dictionary [("x", some 0)] ∧ ∀ full,
        halfFull.installMethod cls "y" (.ofNat 1) ≠ .stopped (.dictionaryFull full) := by
  obtain ⟨cls, dictionary, hcls, hdictionary, hmap, hroom⟩ := dictionary_isFiniteMap
    (.prepared halfFull_follows)
    (show halfFullLogs (.cls (.kernel .object)) = some [("x", some 0)] from if_pos rfl)
  exact ⟨cls, dictionary, hcls, hdictionary, hmap, hroom "y" (.ofNat 1) fun hp => by cases hp⟩

end ObjectMachine.Machine
