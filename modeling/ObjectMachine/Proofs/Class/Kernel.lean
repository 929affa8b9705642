import ObjectMachine.Proofs.Class.Defining

/-!
# The dictionaries of the kernel

While a machine is made, all kernel classes and their metaclasses are followed at once: adding a
method to one of them must not disturb the others. In the end each dictionary has what the kernel
puts into it.

## Main results

* `Machine.bootstrap_filed`: every kernel class and every metaclass of one has the selectors of its
  kernel methods.
-/

namespace ObjectMachine

/-- A class that is followed: the one that a root has, or the metaclass of it. -/
inductive Machine.Target where
  | cls (root : Machine.Root)
  | metaclass (root : Machine.Root)
  deriving DecidableEq

namespace Machine.Target

/-- The class itself. -/
def ref (m : Machine) : Target → Except Fatal Ref
  | .cls root => .ok (root.ref m)
  | .metaclass root => m.heap.classOf (root.ref m)

/-- The way from the root to the class. -/
def path : Target → List Nat
  | .cls _ => []
  | .metaclass _ => [1]

/-- The way to the dictionary of the class. -/
def handle : Target → Handle
  | .cls root => .cls root
  | .metaclass root => .metaclass root

theorem path_handle (target : Target) : target.handle.path = target.path ++ [dictionaryWord] := by
  cases target <;> rfl

theorem handle_inj {target target' : Target} (heq : target.handle = target'.handle) :
    target = target' := by
  cases target <;> cases target' <;> cases heq <;> rfl

end Machine.Target

/-- The class that owns a method, as one that is followed. -/
def Owner.target : Owner → Machine.Target
  | .cls k => .cls (.kernel k)
  | .metaclass k => .metaclass (.kernel k)

theorem Owner.target_inj {owner owner' : Owner} (heq : owner.target = owner'.target) :
    owner = owner' := by
  cases owner <;> cases owner' <;> cases heq <;> rfl

/-- What a dictionary has after kernel methods were installed, if it had something before. -/
def KernelMethod.logOf (owner : Owner) (log : Machine.Log) : List KernelMethod → Machine.Log
  | [] => log
  | method :: rest =>
    logOf owner (if method.owner = owner then (method.selector, none) :: log else log) rest

namespace Machine

variable {m m' : Machine} {starts starts' : List Nat} {cls : Ref} {t : Catalog} {hb : t.Below}
  {x : Handle} {log : Log}

/-! ## Classes -/

/-- When only bare classes are there, nothing is followed. -/
def Catalog.bare (vacant : List KernelClass) : Catalog :=
  { base := 0, entries := fun _ => none, vacant }

theorem Catalog.below_bare (vacant : List KernelClass) : (Catalog.bare vacant).Below where
  roots hx := nomatch hx
  logs hx := nomatch hx
  kinds _ he := nomatch he
  subject _ hx := nomatch hx

theorem Catalog.kept_bare {vacant : List KernelClass} (hm : m.Sound starts) (hone : m.OneSymbol)
    (hvacant : (vacant.map m.core.cls).Nodup) : (Catalog.bare vacant).Kept m starts where
  laidOut := hm.laidOut
  one := hone
  filed hx := nomatch hx
  apart hx := nomatch hx
  kinds _ he := nomatch he
  vacant := hvacant
  away _ _ _ _ hx := nomatch hx

theorem Early.catalog {done : List KernelClass} (hm : Early true done m starts)
    (hdone : ∀ k, k ∈ done) :
    Stage ((Catalog.bare KernelClass.all).watch (Catalog.below_bare _)) [] m starts := by
  have hs := hm.stage hdone
  refine .of_size hs.sound hs.size_pinned (Catalog.kept_bare hs.sound ?_ ?_)
  · intro name name' r hr
    have hmem := NameTable.mem_of_find? hr
    rw [hm.symbols] at hmem
    cases hmem
  · have hnodup : KernelClass.all.Nodup := by decide
    exact hnodup.map_on fun k _ k' _ heq => hm.distinct k (hdone k) k' (hdone k') heq

/-- Every class that is filled in has two dictionaries without entries. -/
theorem Stage.createClassesFiled (hs : Stage (t.watch hb) [] m starts) (ks : List KernelClass)
    (hvacant : t.vacant = ks) :
    (m.createClasses ks).Meets (fun _ m' => ∃ t' : Catalog, ∃ hb' : t'.Below,
      Keeps (t'.watch hb') [] m' ∧ t'.base = t.base ∧
      ∀ owner : Owner, (∃ k ∈ ks, owner = .cls k ∨ owner = .metaclass k) ∨
        t.entries owner.target.handle = some [] → t'.entries owner.target.handle = some []) fun _ => False := by
  induction ks generalizing m starts t with
  | nil =>
    refine ⟨t, hb, ⟨starts, hs⟩, rfl, ?_⟩
    rintro owner (⟨k, hk, -⟩ | howner)
    · cases hk
    · exact howner
  | cons k rest ih =>
    refine .bind_of_never (hs.createFiled hvacant) ?_
    rintro _ m₁ ⟨hb₁, starts₁, hs₁⟩
    refine (ih hs₁ rfl).mono ?_ fun _ h => h
    rintro _ m₂ ⟨t₂, hb₂, hkeeps, hbase, howners⟩
    refine ⟨t₂, hb₂, hkeeps, hbase, fun owner howner => howners owner ?_⟩
    by_cases hrest : ∃ k' ∈ rest, owner = .cls k' ∨ owner = .metaclass k'
    · exact .inl hrest
    · right
      unfold Catalog.enroll Catalog.put
      dsimp only
      split
      · rfl
      · split
        · rfl
        · rename_i hcls hmeta
          rcases howner with ⟨k', hk', howner⟩ | howner
          · rcases List.mem_cons.mp hk' with rfl | hk'
            · rcases howner with rfl | rfl
              · exact absurd rfl hmeta
              · exact absurd rfl hcls
            · exact absurd ⟨k', hk', howner⟩ hrest
          · exact howner

/-! ## Methods -/

/-- Another class may be of interest. -/
theorem Stage.withSubject (hs : Stage (t.watch hb) [] m starts) (hx : t.entries x = some log) :
    ∃ hb' : ({ t with subject := some x } : Catalog).Below,
      Stage (({ t with subject := some x } : Catalog).watch hb') [] m starts :=
  ⟨⟨hb.roots, hb.logs, hb.kinds, fun y hy => by cases hy; exact ⟨log, hx⟩⟩,
    .of_size hs.sound hs.size_pinned (hs.kept.restrict id hs.kept.kinds (.refl _))⟩

/-- The class that is followed is the last one on the way to its dictionary. -/
theorem Stage.targetSubject {target : Target} (hs : Stage (t.watch hb) [] m starts)
    (hx : t.entries target.handle = some log) (hsubject : t.subject = some target.handle)
    (hok : target.ref m = .ok cls) : subjectMark.Holds (t.watch hb) m starts cls := by
  have hwalks := (hs.kept.filed hx).walks
  suffices h : Known starts cls ∧ (target.handle.trail m).getLast? = some cls by
    refine ⟨h.1, trivial, fun tag htag => ?_⟩
    cases htag
    intro y hy
    cases hsubject.symm.trans hy
    exact h.2
  cases target with
  | cls root =>
    obtain ⟨⟨i, hi, heq, -⟩, -⟩ := hwalks
    cases hok
    exact ⟨fun _ => ⟨i, hi, heq⟩, rfl⟩
  | metaclass root =>
    obtain ⟨⟨i, hi, heq, -⟩, -, ⟨j, hj, heq', -⟩, -⟩ := hwalks
    have heq : root.ref m = .ofWordIndex i := heq
    have hok : m.heap.classOf (root.ref m) = .ok cls := hok
    have hword : m.word (root.ref m) 1 = cls := by
      rw [heq, hs.laidOut.classOf hi] at hok
      rw [heq, word_ofWordIndex hs.laidOut hi]
      exact Except.ok.inj hok
    refine ⟨fun _ => ⟨j, hj, hword.symm.trans heq'⟩, ?_⟩
    show some (m.word (root.ref m) 1) = some cls
    rw [hword]

/-- Installing kernel methods adds each of them to the dictionary of its owner. -/
theorem Stage.installKernelFiled (hs : Stage (t.watch hb) [] m starts) (methods : List KernelMethod)
    (logs : Owner → Log) (hlogs : ∀ owner : Owner, t.entries owner.target.handle = some (logs owner)) :
    (m.installKernel methods).Meets (fun _ m' => ∃ t' : Catalog, ∃ hb' : t'.Below,
      Keeps (t'.watch hb') [] m' ∧ t'.base = t.base ∧
      ∀ owner : Owner, t'.entries owner.target.handle = some (KernelMethod.logOf owner (logs owner) methods))
      fun _ => True := by
  induction methods generalizing m starts t logs with
  | nil => exact ⟨t, hb, ⟨starts, hs⟩, rfl, hlogs⟩
  | cons method rest ih =>
    refine .inspect fun cls hcls => ?_
    have howner : method.owner.target.ref m = .ok cls := by
      rw [← hcls]
      cases method.owner <;> rfl
    obtain ⟨hb₁, hs₁⟩ := hs.withSubject (hlogs method.owner)
    have hinstalled := hs₁.install (hs₁.targetSubject (hlogs method.owner) rfl howner) method.code
      method.selector
      fun m' starts' cls' method' hs' hcls' hmethod' =>
        (hs'.installFiled rfl (hlogs method.owner) method.owner.target.path_handle hcls' method.selector none
          ⟨hmethod'.known, trivial, fun _ h => nomatch h⟩).meets
    refine .bind (hinstalled.mono (fun _ _ h => h) fun _ _ => trivial) ?_
    rintro _ m₂ ⟨hb₂, ⟨starts₂, hs₂⟩, -⟩
    refine (ih hs₂ (fun owner => if method.owner = owner then
      (method.selector, none) :: logs owner else logs owner) fun owner => ?_).mono ?_ fun _ h => h
    · show (if owner.target.handle = method.owner.target.handle then _ else _) = _
      by_cases heq : method.owner = owner
      · rw [heq, if_pos rfl, if_pos rfl]
      · rw [if_neg fun h => heq (Owner.target_inj (Target.handle_inj h)).symm, if_neg heq]
        exact hlogs owner
    · rintro _ m₃ ⟨t₃, hb₃, hkeeps, hbase, hentries⟩
      exact ⟨t₃, hb₃, hkeeps, hbase, hentries⟩

/-- A machine that was bootstrapped has, for each kernel class and each metaclass of one, a dictionary
with the selectors of its kernel methods. -/
theorem bootstrap_filed {config : MachineConfig} (hok : ofConfig config = .ok m)
    (hbytes : config.heap.maxBytes < countLimit) :
    m.bootstrap.Meets (fun _ m' => ∃ t : Catalog, ∃ hb : t.Below, Keeps (t.watch hb) [] m' ∧
      t.base = 0 ∧ ∀ owner : Owner, t.entries owner.target.handle =
        some (KernelMethod.logOf owner [] KernelMethod.all)) fun _ => True := by
  have hm := Early.ofConfig hok hbytes
  unfold Machine.bootstrap
  refine .bind_of_never hm.createNil ?_
  rintro _ m₁ ⟨starts₁, hm₁⟩
  refine .bind_of_never (hm₁.createBareClasses _) ?_
  rintro _ m₂ ⟨starts₂, hm₂⟩
  have hs₂ := hm₂.catalog fun k => by cases k <;> decide
  refine .bind_of_never (hs₂.createConstants fun r x log hx => nomatch hx) ?_
  rintro _ m₃ ⟨starts₃, hs₃⟩
  refine .bind_of_never (hs₃.createClassesFiled _ rfl) ?_
  rintro _ m₄ ⟨t₄, hb₄, ⟨starts₄, hs₄⟩, hbase₄, howners⟩
  refine .bind_of_never hs₄.internSelectors ?_
  rintro _ m₅ ⟨starts₅, hs₅⟩
  refine (Outcome.Meets.within (hs₅.installKernelFiled _ (fun _ => []) fun owner =>
    howners owner (.inl ?_))).mono ?_ fun _ h => h
  · have hall : ∀ k, k ∈ KernelClass.all := fun k => by cases k <;> decide
    cases owner with
    | cls k => exact ⟨k, hall k, .inl rfl⟩
    | metaclass k => exact ⟨k, hall k, .inr rfl⟩
  · rintro _ m₆ ⟨t₆, hb₆, hkeeps, hbase₆, hentries⟩
    exact ⟨t₆, hb₆, hkeeps, hbase₆.trans hbase₄, hentries⟩

end Machine

end ObjectMachine
