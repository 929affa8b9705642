import ObjectMachine.Proofs.Machine.Making

/-!
# A fresh machine is sound

Methods are built from literals, which are objects of all sorts, and installed; a machine gets its
kernel that way. Before there are nil and the kernel classes, nothing but these is allocated, and the
collections in between have only them to move.

## Main results

* `Machine.Stage.install`: building and installing a method keeps machines sound.
* `Machine.bootstrap_sound`: a machine that was bootstrapped is sound and has an empty cache.
-/

namespace ObjectMachine

namespace MethodHeader

/-- A word shifted past the tag has none of its bits. -/
theorem shift_and_tag (x : UInt32) {k : UInt32} (h2 : 2 ≤ k.toNat) (h32 : k.toNat < 32) :
    (x <<< k) &&& 3 = 0 := by
  obtain ⟨j, hj⟩ := Nat.exists_eq_add_of_le h2
  apply UInt32.toNat_inj.mp
  rw [UInt32.toNat_and, UInt32.toNat_shiftLeft, Nat.mod_eq_of_lt h32,
    show (3 : UInt32).toNat = 2 ^ 2 - 1 from rfl, Nat.and_two_pow_sub_one_eq_mod, Nat.shiftLeft_eq,
    Nat.mod_mod_of_dvd _ (by decide : 2 ^ 2 ∣ 2 ^ 32), hj, Nat.pow_add, ← Nat.mul_assoc,
    Nat.mul_right_comm]
  exact Nat.mul_mod_left _ _

theorem or_and_tag (x y : UInt32) : (x ||| y) &&& 3 = (x &&& 3) ||| (y &&& 3) := by
  apply UInt32.toNat_inj.mp
  simp only [UInt32.toNat_and, UInt32.toNat_or, Nat.and_or_distrib_right]

/-- The collector never takes a header for a reference. -/
theorem isSmallInteger_pack (flag : MethodFlag) (a t d p : Nat) :
    (pack flag a t d p).toRef.isSmallInteger = true := by
  have htag : ((pack flag a t d p).bits &&& 3).toUInt64 = 1 := by
    simp only [pack, or_and_tag]
    rw [shift_and_tag _ (k := 29) (by decide) (by decide),
      shift_and_tag _ (k := 24) (by decide) (by decide),
      shift_and_tag _ (k := 18) (by decide) (by decide),
      shift_and_tag _ (k := 10) (by decide) (by decide),
      shift_and_tag _ (k := 2) (by decide) (by decide)]
    rfl
  simpa [Ref.isSmallInteger, toRef, Ref.tagMask, UInt32.toUInt64_and] using htag
theorem isSmallInteger_of_make {flag : MethodFlag} {arguments temporaries depth primitive : Nat}
    {header : MethodHeader} (h : make flag arguments temporaries depth primitive = .ok header) :
    header.toRef.isSmallInteger = true := by
  unfold make at h
  repeat' split at h
  all_goals first | cases h; exact isSmallInteger_pack .. | cases h

theorem isSmallInteger_of_finish {a : Assembler} {draft : Draft} (h : a.finish.1 = .ok draft) :
    draft.header.toRef.isSmallInteger = true := by
  unfold Assembler.finish at h
  split at h
  · cases h
  split at h
  · cases h
  change a.draft = _ at h
  unfold Assembler.draft at h
  rcases hbytes : Assembler.resolve a.labels a.bytes a.fixups.toList with refusal | bytes <;>
    rw [hbytes] at h
  · cases h
  · change (if _ then _ else _) = _ at h
    split at h
    · cases h
    · rcases hheader : a.header with problem | header <;> rw [hheader] at h
      · cases h
      · change (if _ then _ else _) = _ at h
        split at h
        · cases h
        · cases h
          exact isSmallInteger_of_make hheader

end MethodHeader

namespace Machine.Stage

variable {m m' : Machine} {starts starts' : List Nat} {h : Heap} {r cls value method : Ref}
  {index position : Nat} {w : Watch} {t : Mark} {marks : List Mark}

/-! ## Methods -/

theorem materialize (hs : Stage w marks m starts) (ht : marks[position]? = some t)
    (literal : Literal) :
    (m.materialize (w.base + position) literal).Meets (Gives w marks .any) fun _ => False := by
  cases literal with
  | nil => exact .step rfl ⟨starts, hs, hs.nil.toAny⟩
  | true =>
    exact .step rfl ⟨starts, hs, hs.root (mem_roots.mpr (.inr (.inl (by simp [CoreObjects.refs]))))⟩
  | false =>
    exact .step rfl ⟨starts, hs, hs.root (mem_roots.mpr (.inr (.inl (by simp [CoreObjects.refs]))))⟩
  | integer value => exact hs.newInteger value
  | character value =>
    refine ⟨starts, hs, .any fun hp => ?_⟩
    rw [Ref.not_isPointer_ofChar] at hp
    cases hp
  | float value => exact hs.newFloat value
  | string text =>
    have hmade : (m.newString text).Meets (Gives w marks (.new .text)) fun _ => False :=
      .step rfl (hs.newBytes (hs.kernelClass .string) _)
    refine hmade.mono ?_ fun _ h => h
    rintro r m₁ ⟨starts₁, hs₁, hr⟩
    exact ⟨starts₁, hs₁, hr.toAny⟩
  | symbol name =>
    refine (hs.intern name).mono ?_ fun _ h => h
    rintro r m₁ ⟨starts₁, hs₁, hr⟩
    exact ⟨starts₁, hs₁, hr.toAny⟩
  | global name =>
    refine (hs.globalAssociation name).mono ?_ fun _ h => h
    rintro r m₁ ⟨starts₁, hs₁, hr⟩
    exact ⟨starts₁, hs₁, hr.toAny⟩
  | methodClass =>
    refine .step rfl (.bind_of_never (hs.newAssociation hs.nil.toAny hs.nil.toAny) ?_)
    rintro association m₁ ⟨starts₁, hs₁, hassociation⟩
    refine hs₁.bind_pinnedAt ht fun cls hcls => .write fun h hok => ?_
    obtain ⟨hs₂, hcarries⟩ := hs₁.storeField (hs₁.writable_new hassociation) (by decide) hcls.known
      (Kind.suits_of_expects rfl) (fun h => absurd h (by decide)) hok
    exact ⟨starts₁, hs₂, (hcarries _ _ hassociation).toAny⟩

theorem materializeAll (hs : Stage w marks m starts) (ht : marks[position]? = some t)
    (literals : List Literal) :
    (m.materializeAll (w.base + position) literals).Meets
      (fun _ => Keeps w (marks ++ List.replicate literals.length .any)) fun _ => False := by
  induction literals generalizing m starts marks with
  | nil =>
    rw [List.length_nil, List.replicate_zero, List.append_nil]
    exact ⟨starts, hs⟩
  | cons literal rest ih =>
    refine .bind_of_never (hs.materialize ht literal) ?_
    rintro r m₁ ⟨starts₁, hs₁, hr⟩
    have hlt : position < marks.length := (List.getElem?_eq_some_iff.mp ht).1
    have hrest := ih (hs₁.pin hr) (by rw [List.getElem?_append_left hlt]; exact ht)
    rw [List.append_assoc, ← List.replicate_one, List.replicate_append_replicate,
      Nat.add_comm 1] at hrest
    exact .step rfl hrest

/-- Pinned references are known. -/
theorem pinnedFrom (hs : Stage w marks m starts) (start count : Nat) :
    (m.pinnedFrom start count).Meets
      (fun values m' => m' = m ∧ ∀ v ∈ values, Known starts v) fun _ => False := by
  induction count generalizing start with
  | zero => exact ⟨rfl, by simp⟩
  | succ count ih =>
    refine .bind_of_never (R := fun r m' => m' = m ∧ Known starts r) ?_ ?_
    · unfold Machine.pinnedAt
      split
      · rename_i r hr
        refine ⟨rfl, hs.sound.known (mem_roots.mpr (.inr (.inr (.inr (.inr ?_)))))⟩
        exact Array.mem_toList_iff.mpr (Array.mem_of_getElem? hr)
      · trivial
    · rintro r _ ⟨rfl, hr⟩
      refine .bind_of_never (ih (start + 1)) ?_
      rintro values _ ⟨rfl, hvalues⟩
      refine ⟨rfl, fun v hv => ?_⟩
      rcases List.mem_cons.mp hv with rfl | hv
      · exact hr
      · exact hvalues v hv

theorem storeElements (hs : Stage w marks m starts) (hr : (Mark.new .array).Holds w m starts r)
    {values : List Ref} (hvalues : ∀ v ∈ values, Known starts v)
    (hok : Machine.storeElements m.heap r index values = .ok h) :
    Stage w marks { m with heap := h } starts ∧ Carries w m starts { m with heap := h } starts := by
  induction values generalizing m index with
  | nil =>
    cases hok
    exact ⟨hs, fun _ _ hr => hr⟩
  | cons value rest ih =>
    obtain ⟨h₁, hstore, hrest⟩ := bind_eq_ok.mp hok
    obtain ⟨hs₁, hcarries₁⟩ := hs.storeElement (hs.writable_new hr) rfl
      (hvalues value List.mem_cons_self) hstore
    obtain ⟨hs₂, hcarries₂⟩ := ih hs₁ (hcarries₁ _ _ hr)
      (fun v hv => hvalues v (List.mem_cons_of_mem _ hv)) hrest
    exact ⟨hs₂, hcarries₁.trans hcarries₂⟩

theorem buildLiterals (hs : Stage w marks m starts) (hcls : t.Holds w m starts cls)
    (literals : List Literal) :
    (m.buildLiterals literals cls).Meets (Gives w marks (.new .array)) fun _ => False := by
  unfold Machine.buildLiterals
  have hs₁ := hs.pin hcls
  refine .step rfl (.step rfl ?_)
  rw [hs.size_pinned]
  refine .bind_of_never (hs₁.materializeAll (t := t) (by simp) literals) ?_
  rintro _ m₂ ⟨starts₂, hs₂⟩
  refine .bind_of_never (hs₂.newArray _) ?_
  rintro array m₃ ⟨starts₃, hs₃, harray⟩
  refine .bind_of_never (hs₃.pinnedFrom _ _) ?_
  rintro values _ ⟨rfl, hvalues⟩
  refine .write fun h hok => ?_
  obtain ⟨hs₄, hcarries⟩ := hs₃.storeElements harray hvalues hok
  obtain ⟨hs₅, hcarries₅⟩ := hs₄.unpinning marks.length
  rw [List.append_assoc, List.take_left] at hs₅
  exact .step rfl ⟨starts₃, hs₅, hcarries₅ _ _ (hcarries _ _ harray)⟩

theorem newMethod {literals : Ref} (hs : Stage w marks m starts)
    (hliterals : t.Holds w m starts literals) {header : MethodHeader}
    (hheader : header.toRef.isSmallInteger = true) (bytes : List UInt8) :
    (m.newMethod header literals bytes).Meets (Gives w marks (.new (.plain, Method.fieldCount)))
      fun _ => False := by
  unfold Machine.newMethod
  have hs₁ := hs.pin hliterals
  refine .step rfl (.bind_of_never (.step rfl (hs₁.newBytes (hs₁.kernelClass .byteArray) bytes)) ?_)
  rintro code m₂ ⟨starts₂, hs₂, hcode⟩
  have hs₃ := hs₂.pin hcode
  refine .step rfl (.step rfl (.bind_of_never
    (hs₃.allocate_any (by decide) (by decide) (hs₃.kernelClass .compiledMethod)) ?_))
  rintro method m₄ ⟨starts₄, hs₄, hmethod⟩
  refine hs₄.bind_unpin fun code m₅ hs₅ hcode₅ hcarries₅ => ?_
  refine hs₅.bind_unpin fun literals m₆ hs₆ hliterals₆ hcarries₆ => .write fun h hok => ?_
  have hmethod₆ := (hcarries₅.trans hcarries₆) _ _ hmethod
  obtain ⟨h₁, hok₁, hok⟩ := bind_eq_ok.mp hok
  obtain ⟨h₂, hok₂, hok₃⟩ := bind_eq_ok.mp hok
  obtain ⟨hs₇, hcarries₇⟩ := hs₆.storeField (hs₆.writable_new hmethod₆) (by decide)
    (small (w := w) (m := m₆) hheader).known (Kind.suits_of_expects rfl)
    (fun h => absurd h (by decide)) hok₁
  have hmethod₇ := hcarries₇ _ _ hmethod₆
  obtain ⟨hs₈, hcarries₈⟩ := hs₇.storeField (hs₇.writable_new hmethod₇) (by decide)
    hliterals₆.known (Kind.suits_of_expects rfl) (fun h => absurd h (by decide)) hok₂
  have hmethod₈ := hcarries₈ _ _ hmethod₇
  obtain ⟨hs₉, hcarries₉⟩ := hs₈.storeField (hs₈.writable_new hmethod₈) (by decide)
    (hcarries₆ _ _ hcode₅).known (Kind.suits_of_expects rfl) (fun h => absurd h (by decide)) hok₃
  exact ⟨starts₄, hs₉, hcarries₉ _ _ hmethod₈⟩

theorem build (hs : Stage w marks m starts) (hcls : t.Holds w m starts cls) (a : Assembler) :
    (m.build a cls).Meets (Gives w marks (.new (.plain, Method.fieldCount))) (Keeps w marks) := by
  unfold Machine.build
  rcases hdraft : a.finish.1 with ((failure | cause) | draft)
  · exact ⟨starts, hs⟩
  · trivial
  · refine .bind_of_never (hs.buildLiterals hcls _) ?_
    rintro literals m₁ ⟨starts₁, hs₁, hliterals⟩
    exact (hs₁.newMethod hliterals (MethodHeader.isSmallInteger_of_finish hdraft) _).mono
      (fun _ _ h => h) fun _ h => h.elim

/-- A method that is built for a class is new, and the class is still known. -/
theorem compileFor (hs : Stage w marks m starts) (hcls : t.Holds w m starts cls) (a : Assembler) :
    (m.compileFor a cls).Meets (fun result m' => ∃ starts', Stage w marks m' starts' ∧
      t.Holds w m' starts' result.2 ∧ ∀ method, result.1 = .ok method →
        (Mark.new (.plain, Method.fieldCount)).Holds w m' starts' method) fun _ => False := by
  unfold Machine.compileFor
  obtain ⟨hs₁, hcarries₁⟩ := hs.pinning hcls
  refine .step rfl (.bind_of_never (.attempt (hs₁.build (hcarries₁ _ _ hcls) a)) ?_)
  rintro (failure | method) m₂ hm₂
  · obtain ⟨starts₂, hs₂⟩ := hm₂
    exact hs₂.bind_unpin fun cls m₃ hs₃ hcls₃ _ => ⟨starts₂, hs₃, hcls₃, fun _ h => nomatch h⟩
  · obtain ⟨starts₂, hs₂, hmethod⟩ := hm₂
    refine hs₂.bind_unpin fun cls m₃ hs₃ hcls₃ hcarries₃ => ⟨starts₂, hs₃, hcls₃, ?_⟩
    rintro _ ⟨⟩
    exact hcarries₃ _ _ hmethod

/-- Building and installing a method comes to what installing it does, unless it could not be
built. -/
theorem install {Q : Unit → Machine → Prop} (hs : Stage w marks m starts)
    (hcls : t.Holds w m starts cls) (a : Assembler) (selector : String)
    (hinstall : ∀ m' starts' cls' method, Stage w marks m' starts' → t.Holds w m' starts' cls' →
      (Mark.new (.plain, Method.fieldCount)).Holds w m' starts' method →
      (m'.installMethod cls' selector method).Meets Q fun _ => False) :
    (m.install a cls selector).Meets Q (Keeps w marks) := by
  unfold Machine.install
  refine .bind (R := fun _ => Q ()) (.bind_of_never (hs.compileFor hcls a) ?_) fun _ _ h => h
  rintro ⟨failure | method, cls'⟩ m' ⟨starts', hs', hcls', hmethod⟩
  · exact .inspect fun name _ => ⟨starts', hs'⟩
  · refine .bind (E := Keeps w marks) ((hinstall m' starts' cls' method hs' hcls' (hmethod _ rfl)).mono
      (fun _ _ h => h) fun _ h => h.elim) fun _ _ h => h

end Machine.Stage

namespace Machine

/-! ## Before there are classes -/

/-- A machine without symbols, globals or pinned temporaries, before and after nil is made, some of
whose classes are there. -/
structure Early (made : Bool) (done : List KernelClass) (m : Machine) (starts : List Nat) : Prop
    extends Stored m starts where
  nil : if made then ∃ i ∈ starts, m.heap.nil = .ofWordIndex i ∧ (m.heap.view i).shape = .nil
    else m.heap.nil = .null ∧ starts = []
  core : m.core.nil = m.heap.nil
  classes : ∀ k ∈ done, m.heap.kind (m.core.cls k) = .object .cls
  distinct : ∀ k ∈ done, ∀ k' ∈ done, m.core.cls k = m.core.cls k' → k = k'
  symbols : m.symbols.refs = []
  globals : m.globals.refs = []
  pinned : m.pinned = #[]

variable {m m' : Machine} {starts starts' : List Nat} {h : Heap} {r : Ref} {made : Bool}
  {done : List KernelClass} {format : Format} {fields len : Nat}

/-- The machine refers to what it did and to the core objects. -/
theorem mem_roots_withCore {core : CoreObjects}
    (hr : r ∈ ({ m with heap := h, core } : Machine).roots) : r ∈ core.refs ∨ r ∈ m.roots := by
  rw [mem_roots] at hr ⊢
  rcases hr with hr | hr | hr | hr | hr
  · exact .inr (.inl hr)
  · exact .inl hr
  · exact .inr (.inr (.inr (.inl hr)))
  · exact .inr (.inr (.inr (.inr (.inl hr))))
  · exact .inr (.inr (.inr (.inr (.inr hr))))

theorem refs_withNil {c : CoreObjects} {nil : Ref} (hr : r ∈ ({ c with nil } : CoreObjects).refs) :
    r = nil ∨ r ∈ c.refs := by
  simp only [CoreObjects.refs, List.mem_append, List.mem_cons] at hr ⊢
  tauto

theorem refs_setClass {c : CoreObjects} {k : KernelClass} {cls : Ref}
    (hr : r ∈ (c.setClass k cls).refs) : r = cls ∨ r ∈ c.refs := by
  simp only [CoreObjects.refs, CoreObjects.setClass, List.mem_append, List.mem_cons,
    Vector.mem_toList_iff] at hr ⊢
  have hset : r ∈ c.classes.set k.index cls → r ∈ c.classes ∨ r = cls := Vector.mem_or_eq_of_mem_set
  tauto

theorem cls_setClass_self (c : CoreObjects) (k : KernelClass) (cls : Ref) :
    (c.setClass k cls).cls k = cls := by
  simp [CoreObjects.cls, CoreObjects.setClass]

theorem cls_setClass_of_ne (c : CoreObjects) (cls : Ref) {k k' : KernelClass} (hne : k' ≠ k) :
    (c.setClass k cls).cls k' = c.cls k' := by
  have hindex : (k.index : Nat) ≠ k'.index := by
    cases k <;> cases k' <;> first | exact absurd rfl hne | decide
  simp [CoreObjects.cls, CoreObjects.setClass, hindex]

namespace Early

theorem collectKeeping (hm : Early made done m starts) :
    (m.collectKeeping .null).Meets (fun r m' => r = .null ∧ ∃ starts', Early made done m' starts')
      fun _ => False := by
  have hs : Stored { m with pinned := #[.null] } starts := by
    refine ⟨hm.idle, hm.shaped, fun r hr => ?_, hm.rootsIn.nil⟩
    rcases mem_roots.mp hr with h | h | h | h | h
    · exact hm.known (mem_roots.mpr (.inl h))
    · exact hm.known (mem_roots.mpr (.inr (.inl h)))
    · exact hm.known (mem_roots.mpr (.inr (.inr (.inl h))))
    · exact hm.known (mem_roots.mpr (.inr (.inr (.inr (.inl h)))))
    · rw [List.mem_singleton.mp h]
      intro hp
      cases hp
  unfold Machine.collectKeeping
  have hpin : m.pin .null = .ok () { m with pinned := #[.null] } := by
    show Outcome.ok () { m with pinned := m.pinned.push .null } = _
    rw [hm.pinned]
    rfl
  refine .step hpin (.bind_of_never hs.collectGarbage ?_)
  rintro _ _ ⟨live, c, hk, hc, rfl⟩
  have hs' := hs.moved hk hc
  have hunpin : (Moved { m with pinned := #[.null] } starts live c).unpin =
      .ok .null { Moved { m with pinned := #[.null] } starts live c with pinned := #[] } := by
    have hpinned : (Moved { m with pinned := #[.null] } starts live c).pinned = #[.null] := by
      show #[Ref.null].map _ = _
      rw [Array.map_singleton]
      rfl
    unfold Machine.unpin
    rw [hpinned]
    rfl
  rw [hunpin]
  have hcls : ∀ k, (m.core.mapRefs (m.heap.moveRef starts live)).cls k =
      m.heap.moveRef starts live (m.core.cls k) := fun k => by
    simp [CoreObjects.cls, CoreObjects.mapRefs]
  refine ⟨rfl, m.heap.survivors starts live, ⟨?_, ?_, ?_⟩, ?_, ?_, ?_, ?_, ?_, ?_, rfl⟩
  · exact hs'.idle
  · exact hs'.shaped
  · refine ⟨fun r hr => hs'.known ?_, hs'.rootsIn.nil⟩
    rw [mem_roots] at hr ⊢
    rcases hr with h | h | h | h | h
    · exact .inl h
    · exact .inr (.inl h)
    · exact .inr (.inr (.inl h))
    · exact .inr (.inr (.inr (.inl h)))
    · cases h
  · have hnil := hm.nil
    cases made with
    | true => exact hs.nil_moved hk hc hnil
    | false =>
      obtain ⟨hnull, rfl⟩ := hnil
      refine ⟨?_, rfl⟩
      show c.heap.nil = _
      rw [hc.nil]
      show m.heap.moveRef [] live m.heap.nil = _
      rw [hnull]
      rfl
  · show m.heap.moveRef starts live m.core.nil = c.heap.nil
    rw [hc.nil, hm.core]
  · intro k hk'
    show c.heap.kind ((m.core.mapRefs (m.heap.moveRef starts live)).cls k) = _
    rw [hcls]
    exact (hs.kind_moved hk hc (root_cls _ k)).trans (hm.classes k hk')
  · intro k hk₁ k' hk₂ heq
    have heq : (m.core.mapRefs (m.heap.moveRef starts live)).cls k =
      (m.core.mapRefs (m.heap.moveRef starts live)).cls k' := heq
    rw [hcls, hcls] at heq
    exact hm.distinct k hk₁ k' hk₂ (Heap.moveRef_inj hm.laidOut
      (hs.live_of_root hk (root_cls _ k)) (hs.live_of_root hk (root_cls _ k')) heq)
  · show (m.symbols.mapRefs _).refs = []
    rw [NameTable.refs_mapRefs, hm.symbols]
    rfl
  · show (m.globals.mapRefs _).refs = []
    rw [NameTable.refs_mapRefs, hm.globals]
    rfl

/-- The class of what is allocated is not there yet. -/
theorem allocate (hm : Early made done m starts) :
    (m.allocate .null format fields len).Meets (fun r m' => ∃ n starts' h,
      Early made done n starts' ∧ n.heap.Allocated .null format fields len h ∧
      r = .ofWordIndex n.heap.top ∧ m' = { n with heap := h }) fun _ => False := by
  refine allocate_meets (P := fun r n => r = .null ∧ ∃ starts', Early made done n starts')
    ⟨rfl, starts, hm⟩ ?_ ?_
  · rintro _ n ⟨rfl, starts', hn⟩
    exact hn.collectKeeping
  · rintro _ n h ⟨rfl, starts', hn⟩ ha
    exact ⟨n, starts', h, hn, ha, rfl, rfl⟩

theorem kind_null (h : Heap) : (h.kind .null).Fits .cls := by
  by_cases hnil : Ref.null = h.nil
  · exact .inl (by rw [hnil, Heap.kind_nil])
  · refine .inr (.inr ⟨?_, rfl⟩)
    rw [Heap.kind, if_neg hnil]
    rfl

/-- The machine after nil was made. -/
theorem createNil (hm : Early false done m starts) :
    m.createNil.Meets (fun _ m' => ∃ starts', Early true [] m' starts') fun _ => False := by
  unfold Machine.createNil
  refine .bind_of_never hm.allocate ?_
  rintro _ _ ⟨n, starts, h, hn, ha, rfl, rfl⟩
  obtain ⟨hnull, rfl⟩ := hn.nil
  have hl := hn.laidOut
  have hknown : Known [] Ref.null := fun hp => nomatch hp
  have hnil : Known [] n.heap.nil := by rw [hnull]; exact hknown
  have hshaped := hn.shaped.allocated ha (fun h => nomatch h) hknown
    (Kind.suits_of_expects rfl) hnil
  have hmem : n.heap.top ∈ [] ++ [n.heap.top] := by simp
  have hshape : (h.view n.heap.top).shape = .nil := Prod.ext ha.fresh_format ha.fresh_fields
  have hwrite : Action.write (fun h => .ok (h.setNil (.ofWordIndex n.heap.top)))
      { n with heap := h } = .ok () { n with heap := h.setNil (.ofWordIndex n.heap.top) } := rfl
  refine .step hwrite ?_
  refine ⟨[] ++ [n.heap.top], ⟨hn.idle, hshaped.setNil ?_ _, ?_, ?_⟩, ?_, rfl, by simp, by simp, hn.symbols,
    hn.globals, hn.pinned⟩
  · intro i hi k
    rw [List.mem_singleton.mp hi, hshape]
    rfl
  · intro r hr
    rcases mem_roots_withCore hr with hr | hr
    · rcases refs_withNil hr with rfl | hr
      · exact fun _ => ⟨_, hmem, rfl⟩
      · exact (hn.known (mem_roots.mpr (.inr (.inl hr)))).mono (by simp)
    · exact (hn.known hr).mono (by simp)
  · exact fun _ => ⟨_, hmem, rfl⟩
  · exact ⟨_, hmem, rfl, hshape⟩

/-- A class is made of which no more is known than that it is one. -/
theorem allocate_cls (hm : Early true done m starts) (k : KernelClass) :
    (m.allocate .null .plain Class.fieldCount 0).Meets (fun cls m' => ∃ starts',
      Early true (k :: done) { m' with core := m'.core.setClass k cls } starts') fun _ => False := by
  refine hm.allocate.mono ?_ fun _ h => h
  rintro _ _ ⟨n, starts, h, hn, ha, rfl, rfl⟩
  obtain ⟨i, hi, hnil, hshape⟩ := hn.nil
  have hl := hn.laidOut
  have hknown : Known starts Ref.null := fun hp => nomatch hp
  have hshaped := hn.shaped.allocated ha (fun h => nomatch h) hknown
    (fun expected he => by cases he; exact kind_null n.heap) hn.rootsIn.nil
  have hsub : ∀ i ∈ starts, i ∈ starts ++ [n.heap.top] := fun i hi => List.mem_append_left _ hi
  have hmem : n.heap.top ∈ starts ++ [n.heap.top] := by simp
  have hsame : ∀ i ∈ starts, View.SameLayout (n.heap.view i) (h.view i) := fun i hi =>
    (ha.agrees hl hi).toSameLayout
  have hfresh : ∀ j ∈ starts, Ref.ofWordIndex n.heap.top ≠ .ofWordIndex j := by
    intro j hj heq
    have hlt := hl.lt_top hj
    rw [hshaped.ofWordIndex_inj hmem (hsub j hj) heq] at hlt
    exact Nat.lt_irrefl _ hlt
  refine ⟨starts ++ [n.heap.top], ⟨hn.idle, hshaped, fun r hr => ?_, ?_⟩, ?_, ?_, ?_, ?_, hn.symbols,
    hn.globals, hn.pinned⟩
  · rcases mem_roots_withCore hr with hr | hr
    · rcases refs_setClass hr with rfl | hr
      · exact fun _ => ⟨_, hmem, rfl⟩
      · exact (hn.known (mem_roots.mpr (.inr (.inl hr)))).mono hsub
    · exact (hn.known hr).mono hsub
  · show Known _ h.nil
    rw [ha.nil]
    exact Known.mono hn.rootsIn.nil hsub
  · exact ⟨i, hsub i hi, ha.nil.trans hnil, (hsame i hi).shape_eq.trans hshape⟩
  · exact hn.core.trans ha.nil.symm
  · intro k' hk'
    show h.kind ((n.core.setClass k _).cls k') = _
    by_cases hkk : k' = k
    · subst hkk
      have hne : Ref.ofWordIndex n.heap.top ≠ h.nil := by
        rw [ha.nil, hnil]
        exact hfresh i hi
      rw [cls_setClass_self, hshaped.kind_eq hmem hne]
      exact congrArg Kind.object (Prod.ext ha.fresh_format ha.fresh_fields)
    · rw [cls_setClass_of_ne _ _ hkk, Heap.kind_congr hl ha.nil (hn.known (root_cls n k')) hsame]
      exact hn.classes k' ((List.mem_cons.mp hk').resolve_left hkk)
  · -- The new class is none of those that are done.
    have hnew : ∀ k' ∈ done, n.core.cls k' ≠ .ofWordIndex n.heap.top := by
      intro k' hk' heq
      obtain ⟨j, hj, hcls, -⟩ := hl.of_kind (hn.known (root_cls n k')) (hn.classes k' hk')
      exact hfresh j hj (heq.symm.trans hcls)
    intro k₁ hk₁ k₂ hk₂ heq
    have heq : (n.core.setClass k (.ofWordIndex n.heap.top)).cls k₁ =
      (n.core.setClass k (.ofWordIndex n.heap.top)).cls k₂ := heq
    by_cases h₁ : k₁ = k <;> by_cases h₂ : k₂ = k
    · exact h₁.trans h₂.symm
    · rw [h₁, cls_setClass_self, cls_setClass_of_ne _ _ h₂] at heq
      exact absurd heq.symm (hnew k₂ ((List.mem_cons.mp hk₂).resolve_left h₂))
    · rw [h₂, cls_setClass_self, cls_setClass_of_ne _ _ h₁] at heq
      exact absurd heq (hnew k₁ ((List.mem_cons.mp hk₁).resolve_left h₁))
    · rw [cls_setClass_of_ne _ _ h₁, cls_setClass_of_ne _ _ h₂] at heq
      exact hn.distinct k₁ ((List.mem_cons.mp hk₁).resolve_left h₁) k₂
        ((List.mem_cons.mp hk₂).resolve_left h₂) heq

theorem createBareClasses (hm : Early true done m starts) (ks : List KernelClass) :
    (m.createBareClasses ks).Meets (fun _ m' => ∃ starts', Early true (ks.reverse ++ done) m' starts')
      fun _ => False := by
  induction ks generalizing m starts done with
  | nil => exact ⟨starts, hm⟩
  | cons k rest ih =>
    refine .bind_of_never (hm.allocate_cls k) ?_
    rintro cls m' ⟨starts', hm'⟩
    rw [List.reverse_cons, List.append_assoc]
    exact .step rfl (ih hm')

/-- When all classes are there the machine is sound. -/
theorem stage (hm : Early true done m starts) (hdone : ∀ k, k ∈ done) :
    Stage (.any 0) [] m starts := by
  refine ⟨⟨hm.toStored, hm.nil, hm.core, ?_, ?_, ?_⟩, Nat.zero_le _, ?_, trivial⟩
  · intro r hr
    obtain ⟨i, hi, rfl⟩ := Vector.mem_iff_getElem.mp (Vector.mem_toList_iff.mp hr)
    have hall : ∀ i : Fin KernelClass.count, ∃ k ∈ KernelClass.all, i = k.index := by decide
    obtain ⟨k, -, hk⟩ := hall ⟨i, hi⟩
    cases hk
    exact hm.classes k (hdone k)
  · simp [hm.symbols]
  · simp [hm.globals]
  · unfold Pins
    rw [hm.pinned]
    exact .nil

/-- A machine without objects. -/
theorem ofConfig {config : MachineConfig} (hok : Machine.ofConfig config = .ok m)
    (hbytes : config.heap.maxBytes < countLimit) : Early false [] m [] := by
  unfold Machine.ofConfig at hok
  split at hok
  · cases hok
  · rename_i heap hheap
    split at hok
    · cases hok
    · cases hok
      obtain ⟨hw, hreserved⟩ := Heap.wellFormed_ofConfig hheap hbytes
      obtain ⟨hnil, -, -, hlarge⟩ := Heap.ofConfig_ok hheap
      have hcell : heap.cell 0 = 0 := by
        unfold Heap.ofConfig at hheap
        split at hheap
        · cases hheap
        · cases hheap
          rw [Heap.cell, Array.getD_eq_getD_getElem?, Array.getElem?_replicate]
          split <;> rfl
      have htable : heap.TableOwned [] := by
        constructor <;> simp [hlarge, LargeIntegers.empty]
      have hshaped : heap.Shaped [] := ⟨hw, hcell, htable, hreserved, by simp [Heap.Follows]⟩
      refine ⟨⟨show Ref.null.isPointer = false by decide, hshaped, ?_, ?_⟩, ⟨hnil, rfl⟩, hnil.symm, by simp, by simp, rfl, rfl, rfl⟩
      · intro r hr
        have hnull : r = .null := by
          rcases mem_roots.mp hr with h | h | h | h | h
          · simpa [Registers.refs, Machine.ofHeap, Registers.empty] using h
          · have hclasses : r ∈ (CoreObjects.empty.classes).toList → r = .null := by
              simp [CoreObjects.empty]
            have hspecial : r ∈ CoreObjects.empty.specialSelectors.toList → r = .null := by
              simp [CoreObjects.empty]
            simp only [CoreObjects.refs, Machine.ofHeap, List.mem_append, List.mem_cons] at h
            tauto
          · cases h
          · cases h
          · cases h
        rw [hnull]
        exact fun hp => absurd hp (by decide)
      · show Known [] heap.nil
        rw [hnil]
        exact fun hp => absurd hp (by decide)

end Early

/-! ## The kernel -/

namespace Stage

variable {w : Watch} {t : Mark} {marks : List Mark} {base : Nat}

/-- The machine may come to know another object. -/
theorem withCore (hs : Stage w marks m starts) (core : CoreObjects) (hnil : core.nil = m.core.nil)
    (hclasses : core.classes = m.core.classes) (hr : t.Holds w m starts r)
    (hrefs : ∀ x ∈ core.refs, x = r ∨ x ∈ m.core.refs) : Stage w marks { m with core } starts := by
  have halike : AlikeBelow w.base m { m with core } :=
    ⟨rfl, hclasses, rfl, fun _ _ => rfl, fun _ _ h => h⟩
  refine hs.withRefs (hs.sound.withRefs rfl rfl hnil ?_ ?_ (fun r hr hnew => absurd hr hnew)
    fun r hr hnew => absurd hr hnew) halike (w.congr halike rfl hs.kept) rfl
  · intro x hx hnew
    rcases mem_roots_withCore hx with hx | hx
    · rcases hrefs x hx with rfl | hold
      · exact hr.known
      · exact absurd (mem_roots.mpr (.inr (.inl hold))) hnew
    · exact absurd hx hnew
  · intro x hx hnew
    rw [hclasses] at hx
    exact absurd hx hnew

/-- The truth values are made while nothing depends on any object. -/
theorem createConstants (hs : Stage w marks m starts) (hfree : ∀ r, w.Tells .free m r) :
    m.createConstants.Meets (fun _ => Keeps w marks) fun _ => False := by
  unfold Machine.createConstants
  refine .step rfl (.write fun h hok => ?_)
  have hnil : Writable w m starts .nil m.core.nil := by
    obtain ⟨i, hi, heq, hshape⟩ := hs.sound.nil
    rw [hs.sound.core, heq]
    exact ⟨⟨i, hi, rfl, hshape⟩, .inl (w.writable (hfree _))⟩
  have hs₁ := (hs.setClassOf hnil (hfree _) (w.writable (hfree _)) rfl (hs.kernelClass .undefinedObject).known
    (Kind.suits_of_expects rfl) hok).1
  refine .bind_of_never (hs₁.allocate_any (by decide) (by decide) (hs₁.kernelClass .trueClass)) ?_
  rintro trueObject m₂ ⟨starts₂, hs₂, htrue⟩
  have hs₃ := hs₂.withCore { m₂.core with trueObject } rfl rfl htrue (by
    simp only [CoreObjects.refs, List.mem_append, List.mem_cons]
    tauto)
  refine .step rfl (.step rfl (.bind_of_never
    (hs₃.allocate_any (by decide) (by decide) (hs₃.kernelClass .falseClass)) ?_))
  rintro falseObject m₄ ⟨starts₄, hs₄, hfalse⟩
  refine ⟨starts₄, hs₄.withCore _ rfl rfl hfalse ?_⟩
  simp only [CoreObjects.refs, List.mem_append, List.mem_cons]
  tauto

/-- Filling in a kernel class that nothing depends on. -/
theorem createClass (hs : Stage w marks m starts) (k : KernelClass)
    (hk : ∀ m' starts', Stage w marks m' starts' → w.Tells .free m' (m'.core.cls k)) :
    (m.createClass k).Meets (fun _ => Keeps w marks) fun _ => False := by
  unfold Machine.createClass
  refine .bind_of_never (hs.intern k.name) ?_
  rintro name m₁ ⟨starts₁, hs₁, hname⟩
  have hs₂ := hs₁.pin hname
  refine .step rfl (.bind_of_never (hs₂.newMethodDictionary _) ?_)
  rintro dictionary m₃ ⟨starts₃, hs₃, hd⟩
  have hs₄ := hs₃.pin hd
  refine .step rfl (.bind_of_never (hs₄.newMethodDictionary _) ?_)
  rintro metaDictionary m₅ ⟨starts₅, hs₅, hmd⟩
  have hs₆ := hs₅.pin hmd
  refine .step rfl (.step rfl (.bind_of_never (hs₆.allocate_cls (hs₆.kernelClass .metaclass)) ?_))
  rintro metaclass m₇ ⟨starts₇, hs₇, hmeta⟩
  refine hs₇.bind_unpin fun metaDictionary m₈ hs₈ hmd hc₈ => ?_
  refine hs₈.bind_unpin fun dictionary m₉ hs₉ hd hc₉ => ?_
  refine hs₉.bind_unpin fun name m₁₀ hs₁₀ hname hc₁₀ => .step rfl ?_
  have hcls : (Mark.new .cls).Holds w m₁₀ starts₇ (m₁₀.core.cls k) :=
    (hs₁₀.kernelClass k).withFree (hk m₁₀ starts₇ hs₁₀)
  have hlink : ∀ superclass, superclassMark.Holds w m₁₀ starts₇ superclass →
      ((Machine.linkClass (m₁₀.core.cls k) metaclass superclass k.spec name dictionary
        metaDictionary >>= fun _ => Machine.setGlobal k.name (m₁₀.core.cls k)) m₁₀).Meets
        (fun _ => Keeps w marks) fun _ => False := by
    intro superclass hsuper
    refine .bind_of_never (hs₁₀.linkClass _ hcls ((hc₈.trans (hc₉.trans hc₁₀)) _ _ hmeta) hsuper
      hname.known (hc₁₀ _ _ hd) ((hc₉.trans hc₁₀) _ _ hmd)) ?_
    rintro _ m₁₁ ⟨hs₁₁, hc₁₁⟩
    exact hs₁₁.setGlobal k.name (hc₁₁ _ _ (hs₁₀.kernelClass k))
  cases k.superclass? with
  | some superclass =>
    have hcls := hs₁₀.kernelClass superclass
    exact hlink _ ⟨hcls.known, .inr hcls.kind, fun _ h => nomatch h⟩
  | none => exact hlink _ ⟨hs₁₀.nil.known, .inl hs₁₀.nil.kind, fun _ h => nomatch h⟩

theorem createClasses (hs : Stage w marks m starts) (ks : List KernelClass)
    (hks : ∀ k ∈ ks, ∀ m' starts', Stage w marks m' starts' → w.Tells .free m' (m'.core.cls k)) :
    (m.createClasses ks).Meets (fun _ => Keeps w marks) fun _ => False := by
  induction ks generalizing m starts with
  | nil => exact ⟨starts, hs⟩
  | cons k rest ih =>
    refine .bind_of_never (hs.createClass k (hks k List.mem_cons_self)) ?_
    rintro _ m' ⟨starts', hs'⟩
    exact ih hs' fun k hk => hks k (List.mem_cons_of_mem _ hk)

theorem internSpecial (hs : Stage w marks m starts) (index : Nat)
    (specials : List SpecialSelector) :
    (m.internSpecial index specials).Meets (fun _ => Keeps w marks) fun _ => False := by
  induction specials generalizing m starts index with
  | nil => exact ⟨starts, hs⟩
  | cons special rest ih =>
    refine .bind_of_never (hs.intern special.name) ?_
    rintro r m₁ ⟨starts₁, hs₁, hr⟩
    let specialSelectors := m₁.core.specialSelectors.setIfInBounds index r
    refine .step rfl (ih (hs₁.withCore { m₁.core with specialSelectors } rfl rfl hr ?_) (index + 1))
    have hset : ∀ x, x ∈ m₁.core.specialSelectors.toList.set index r →
        x ∈ m₁.core.specialSelectors.toList ∨ x = r := fun _ => List.mem_or_eq_of_mem_set
    simp only [CoreObjects.refs, List.mem_append, List.mem_cons, specialSelectors,
      Array.toList_setIfInBounds]
    intro x hx
    have := hset x
    tauto

theorem internSelectors (hs : Stage w marks m starts) :
    m.internSelectors.Meets (fun _ => Keeps w marks) fun _ => False := by
  unfold Machine.internSelectors
  refine .bind_of_never (hs.internSpecial 0 _) ?_
  rintro _ m₁ ⟨starts₁, hs₁⟩
  refine .bind_of_never (hs₁.intern _) ?_
  rintro doesNotUnderstand m₂ ⟨starts₂, hs₂, hr₂⟩
  have hs₃ := hs₂.withCore { m₂.core with doesNotUnderstand } rfl rfl hr₂ (by
    simp only [CoreObjects.refs, List.mem_append, List.mem_cons]
    tauto)
  refine .step rfl (.bind_of_never (hs₃.intern _) ?_)
  rintro escapedBlock m₄ ⟨starts₄, hs₄, hr₄⟩
  have hs₅ := hs₄.withCore { m₄.core with escapedBlock } rfl rfl hr₄ (by
    simp only [CoreObjects.refs, List.mem_append, List.mem_cons]
    tauto)
  refine .step rfl (.bind_of_never (hs₅.intern _) ?_)
  rintro mustBeBoolean m₆ ⟨starts₆, hs₆, hr₆⟩
  refine ⟨starts₆, hs₆.withCore _ rfl rfl hr₆ ?_⟩
  simp only [CoreObjects.refs, List.mem_append, List.mem_cons]
  tauto

theorem ownerClass (hs : Stage w marks m starts) {owner : Owner} {cls : Ref}
    (hok : m.ownerClass owner = .ok cls) : (Mark.fits .cls).Holds w m starts cls := by
  cases owner with
  | cls k =>
    cases hok
    exact (hs.kernelClass k).toFits
  | metaclass k => exact hs.classOf (hs.kernelClass k) hok

theorem installKernel (hs : Stage (.any base) marks m starts) (methods : List KernelMethod)
    (hempty : methods = [] → m.cache.IsEmpty) :
    (m.installKernel methods).Meets (fun _ m' => Keeps (.any base) marks m' ∧ m'.cache.IsEmpty)
      fun _ => True := by
  induction methods generalizing m starts with
  | nil => exact ⟨⟨starts, hs⟩, hempty rfl⟩
  | cons method rest ih =>
    refine .inspect fun cls hcls => ?_
    have hinstalled := hs.install (hs.ownerClass hcls) method.code method.selector
      fun m' starts' cls' method' hs' hcls' hmethod' =>
        hs'.installMethod (Watch.closed_any base) (hcls'.withWritable trivial) _ hmethod'
    refine .bind (hinstalled.mono (fun _ _ h => h) fun _ _ => trivial) ?_
    rintro _ m' ⟨⟨starts', hs'⟩, hempty'⟩
    exact ih hs' fun _ => hempty'

end Stage

/-- A machine that was bootstrapped is sound and has an empty cache. -/
theorem bootstrap_sound {config : MachineConfig} (hok : ofConfig config = .ok m)
    (hbytes : config.heap.maxBytes < countLimit) :
    m.bootstrap.Meets (fun _ m' => Keeps (.any 0) [] m' ∧ m'.cache.IsEmpty) fun _ => True := by
  have hm := Early.ofConfig hok hbytes
  unfold Machine.bootstrap
  refine .bind_of_never hm.createNil ?_
  rintro _ m₁ ⟨starts₁, hm₁⟩
  refine .bind_of_never (hm₁.createBareClasses _) ?_
  rintro _ m₂ ⟨starts₂, hm₂⟩
  have hs₂ := hm₂.stage fun k => by cases k <;> decide
  refine .bind_of_never (hs₂.createConstants fun _ => trivial) ?_
  rintro _ m₃ ⟨starts₃, hs₃⟩
  refine .bind_of_never (hs₃.createClasses _ fun _ _ _ _ _ => trivial) ?_
  rintro _ m₄ ⟨starts₄, hs₄⟩
  refine .bind_of_never hs₄.internSelectors ?_
  rintro _ m₅ ⟨starts₅, hs₅⟩
  exact .within (hs₅.installKernel _ fun h => nomatch h)

end Machine

end ObjectMachine
