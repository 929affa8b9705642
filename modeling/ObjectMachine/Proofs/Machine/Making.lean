import ObjectMachine.Kernel.Bootstrap
import ObjectMachine.Proofs.Machine.Soundness

/-!
# Making objects keeps machines sound

Arrays, texts, numbers, symbols, globals, dictionaries, methods and classes are made by allocations
and by stores to what is new. The exception is a method dictionary that gets another entry: after it
nothing is known of the origin, and the cache is flushed.

## Main results

* `Machine.Stage.intern`, `Machine.Stage.setGlobal`: symbols and globals.
* `Machine.Stage.installMethod`: adding a method leaves a sound machine with an empty cache.
* `Machine.Stage.defineClass`: defining a class changes nothing that was there but associations.
-/

namespace ObjectMachine

namespace Ref

/-- The tag of a word that was shifted past it. -/
theorem shift_and_tagMask (bits : UInt64) {tag : UInt64} (ht : tag.toNat < 4) :
    ((bits <<< 2) ||| tag) &&& tagMask = tag := by
  have hshift : (bits <<< 2).toNat = (bits.toNat % 2 ^ 62) <<< 2 := by
    rw [UInt64.toNat_shiftLeft, show (2 : UInt64).toNat % 64 = 2 from rfl, Nat.shiftLeft_eq,
      Nat.shiftLeft_eq]
    omega
  apply UInt64.toNat_inj.mp
  rw [UInt64.toNat_and, UInt64.toNat_or, hshift, ← Nat.shiftLeft_add_eq_or_of_lt ht,
    show tagMask.toNat = 2 ^ 2 - 1 from rfl, Nat.and_two_pow_sub_one_eq_mod, Nat.shiftLeft_eq]
  omega

theorem isSmallInteger_ofPayload (bits : UInt64) : (ofPayload bits).isSmallInteger = true := by
  simp [isSmallInteger, ofPayload, shift_and_tagMask bits (show (1 : UInt64).toNat < 4 by decide)]

theorem not_isPointer_ofChar (c : Char) : (ofChar c).isPointer = false := by
  simp [isPointer, ofChar, shift_and_tagMask _ (show (2 : UInt64).toNat < 4 by decide)]

theorem not_isPointer_of_isSmallInteger {r : Ref} (h : r.isSmallInteger = true) :
    r.isPointer = false := by
  by_contra hp
  rw [not_isSmallInteger_of_isPointer (by simpa using hp)] at h
  cases h

end Ref

theorem NameTable.mem_of_find? {t : NameTable} {name : String} {r : Ref}
    (h : t.find? name = some r) : r ∈ t.refs := by
  unfold find? at h
  obtain ⟨entry, hfound, rfl⟩ := Option.map_eq_some_iff.mp h
  unfold refs
  exact List.mem_map.mpr ⟨entry, by simpa using Array.mem_of_find?_eq_some hfound, rfl⟩

namespace Machine

/-- Pins a class, a method and the symbol of its selector, and makes room for one more entry in the
dictionary of the class. Answers where they are pinned. -/
def makeRoom (cls : Ref) (selector : String) (method : Ref) : Action Nat := do
  let base ← Machine.pinnedCount
  Machine.pin cls
  Machine.pin method
  Machine.pin (← Machine.intern selector)
  let cls ← Machine.pinnedAt base
  let full ← Action.read fun h => do MethodDictionary.isFull h (← Class.dictionary h cls)
  if full then Machine.growDictionary base
  return base

/-- Puts a pinned method into the dictionary of the class pinned below it. -/
def insertPinned (base : Nat) : Action Unit := do
  let cls ← Machine.pinnedAt base
  let method ← Machine.pinnedAt (base + 1)
  let selector ← Machine.pinnedAt (base + 2)
  Machine.unpinTo base
  Action.write fun h => do MethodDictionary.insert h (← Class.dictionary h cls) selector method
  Machine.flushCache

/-- Adding a method takes making room for it first. -/
theorem installMethod_eq (cls : Ref) (selector : String) (method : Ref) :
    Machine.installMethod cls selector method =
      (Machine.makeRoom cls selector method >>= Machine.insertPinned) := by
  unfold Machine.installMethod Machine.makeRoom
  simp only [Action.bind_assoc]
  refine congrArg _ (funext fun base => congrArg _ (funext fun _ => congrArg _ (funext fun _ =>
    congrArg _ (funext fun _ => congrArg _ (funext fun _ => congrArg _ (funext fun _ =>
      congrArg _ (funext fun full => ?_)))))))
  cases full with
  | false => rfl
  | true =>
    rw [if_pos rfl, if_pos rfl, Action.bind_assoc]
    rfl

end Machine

namespace Machine.Stage

variable {m m' : Machine} {starts starts' : List Nat} {h : Heap} {r cls key value method : Ref}
  {s : Shape} {index : Nat} {w : Watch} {t : Mark} {marks : List Mark} {β : Type}
  {Q : β → Machine → Prop} {E : Machine → Prop}

theorem small (hr : r.isSmallInteger = true) : Mark.any.Holds w m starts r :=
  .any fun hp => by
    rw [Ref.not_isPointer_of_isSmallInteger hr] at hp
    cases hp

/-- The temporary pinned last is read and no longer pinned. -/
theorem bind_unpin {k : Ref → Action β} (hs : Stage w (marks ++ [t]) m starts)
    (hk : ∀ r m', Stage w marks m' starts → t.Holds w m' starts r → Carries w m starts m' starts →
      (k r m').Meets Q E) : ((Machine.unpin >>= k) m).Meets Q E := by
  obtain ⟨r, m', hunpin, hs', hr, hcarries⟩ := hs.unpin
  exact .step hunpin (hk r m' hs' hr hcarries)

theorem bind_pinnedAt {k : Ref → Action β} (hs : Stage w marks m starts)
    (ht : marks[index]? = some t)
    (hk : ∀ r, t.Holds w m starts r → (k r m).Meets Q E) :
    ((Machine.pinnedAt (w.base + index) >>= k) m).Meets Q E := by
  obtain ⟨r, hr, hholds⟩ := hs.pinnedAt ht
  exact .step hr (hk r hholds)

/-- A field of an object leads to what is expected of it. -/
theorem fetchField (hs : Stage w marks m starts) (hr : (Mark.of s).Holds w m starts r)
    (hformat : s.1.allowsFields = true) (hok : m.heap.fetchField r index = .ok value) :
    Mark.Holds ⟨(·.Suits s (headerWords + index)), none⟩ w m starts value := by
  have hl := hs.laidOut
  obtain ⟨i, hi, rfl, hview⟩ := hl.of_kind hr.known hr.kind
  have hfmt : (m.heap.view i).format = s.1 := congrArg Prod.fst hview
  have hallows : (m.heap.view i).format.allowsFields = true := by
    rw [hfmt]
    exact hformat
  obtain ⟨hindex, rfl⟩ := Heap.fetchField_ok hl hi hallows hok
  have hfixed : (m.heap.view i).IsFixed (headerWords + index) := .inr ⟨hallows, by omega, by omega⟩
  refine ⟨hs.sound.shaped.traced i hi _ hfixed.isTraced, ?_, fun _ h => nomatch h⟩
  have hfollows := hs.sound.shaped.follows i hi _ hfixed
  rwa [hview] at hfollows

/-- Nil has neither fields nor elements. -/
theorem nil_view (hs : Stage w marks m starts) (hr : Mark.nil.Holds w m starts r) :
    ∃ i ∈ starts, r = .ofWordIndex i ∧ (m.heap.view i).fields = 0 ∧ (m.heap.view i).len = 0 ∧
      (m.heap.view i).format = .plain := by
  obtain ⟨i, hi, hnil, hshape⟩ := hs.sound.nil
  have hformat : (m.heap.view i).format = .plain := congrArg Prod.fst hshape
  refine ⟨i, hi, (Heap.eq_nil_of_kind hr.kind).trans hnil, congrArg Prod.snd hshape, ?_, hformat⟩
  unfold View.len
  rw [hformat]
  rfl

theorem fetchField_nil (hs : Stage w marks m starts) (hr : Mark.nil.Holds w m starts r)
    (hok : m.heap.fetchField r index = .ok value) : False := by
  obtain ⟨i, hi, rfl, hfields, -, hformat⟩ := hs.nil_view hr
  have := (Heap.fetchField_ok hs.laidOut hi (by rw [hformat]; rfl) hok).1
  omega

/-- Nor has what is read at null. -/
theorem fetchField_null (hs : Stage w marks m starts)
    (hok : m.heap.fetchField .null index = .ok value) : False := by
  unfold Heap.fetchField Heap.fieldIndex Heap.header at hok
  have hsize : 0 < m.heap.memory.size := by
    obtain ⟨i, hi, -⟩ := hs.sound.nil
    exact Nat.lt_of_le_of_lt (Nat.zero_le _) (Nat.lt_of_lt_of_le (hs.laidOut.lt_top hi)
      hs.laidOut.committed)
  rw [show Ref.null.wordIndex = 0 from rfl, Heap.word_eq hsize, hs.sound.shaped.zero] at hok
  cases hok

/-- What has a field is the object expected. -/
theorem of_fetchField (hs : Stage w marks m starts) (hr : (Mark.fits s).Holds w m starts r)
    (hok : m.heap.fetchField r index = .ok value) : (Mark.of s).Holds w m starts r := by
  rcases hr.kind with hnil | hkind | ⟨hnull, -⟩
  · exact (hs.fetchField_nil ⟨hr.known, hnil, fun _ h => nomatch h⟩ hok).elim
  · exact ⟨hr.known, hkind, fun _ h => nomatch h⟩
  · rw [Heap.eq_null_of_kind hnull] at hok
    exact (hs.fetchField_null hok).elim

theorem checkElement_nil (hs : Stage w marks m starts) (hr : Mark.nil.Holds w m starts r) {u : Unit}
    (hok : m.heap.checkElement r index = .ok u) : False := by
  obtain ⟨i, hi, rfl, -, hlen, -⟩ := hs.nil_view hr
  unfold Heap.checkElement at hok
  rw [hs.laidOut.length hi, hlen] at hok
  cases hok

theorem fetchElement (hs : Stage w marks m starts) (hr : (Mark.of s).Holds w m starts r)
    (hformat : s.1 = .array) (hok : m.heap.fetchElement r index = .ok value) :
    Mark.any.Holds w m starts value := by
  have hl := hs.laidOut
  obtain ⟨i, hi, rfl, hview⟩ := hl.of_kind hr.known hr.kind
  have hfmt : (m.heap.view i).format = .array := (congrArg Prod.fst hview).trans hformat
  have htail : (m.heap.view i).format.hasReferenceTail = true := by
    rw [hfmt]
    rfl
  obtain ⟨hindex, rfl⟩ := Heap.fetchElement_ok hl hi htail hok
  have hlive : (m.heap.view i).live = (m.heap.view i).len := by
    unfold View.live
    rw [hfmt]
  refine .any (hs.sound.shaped.traced i hi _ (.inr (.inr ⟨htail, by omega, ?_⟩)))
  rw [hlive]
  omega

/-! ## Objects -/

theorem newArray (hs : Stage w marks m starts) (len : Nat) :
    (m.newArray len).Meets (Gives w marks (.new .array)) fun _ => False :=
  .step rfl (hs.allocate_any (by decide) (by decide) (hs.kernelClass .array))

theorem newBytes (hs : Stage w marks m starts) (hcls : t.Holds w m starts cls)
    (bytes : List UInt8) :
    (m.newBytes cls bytes).Meets (Gives w marks (.new .text)) fun _ => False := by
  unfold Machine.newBytes
  refine .bind_of_never (hs.allocate_any (by decide) (by decide) hcls) ?_
  rintro r m₁ ⟨starts₁, hs₁, hr⟩
  refine .write fun h hok => ?_
  obtain ⟨hs₂, hcarries⟩ := hs₁.storeBytes (hs₁.writable_new hr) hok
  exact ⟨starts₁, hs₂, hcarries _ _ hr⟩

theorem newBytes_names (hs : Stage w marks m starts) (hcls : t.Holds w m starts cls)
    (bytes : List UInt8) :
    (m.newBytes cls bytes).Meets (fun r m' => SameNames m m' ∧ r ∉ m'.roots) fun _ => False := by
  unfold Machine.newBytes
  refine .bind_of_never (hs.allocate_names hcls) ?_
  rintro r m₁ ⟨hnames, hroot⟩
  refine .write fun h _ => ⟨hnames, ?_⟩
  rw [roots_eq] at hroot ⊢
  exact hroot

theorem newFloat (hs : Stage w marks m starts) (x : Binary64) :
    (m.newFloat x).Meets (Gives w marks .any) fun _ => False := by
  unfold Machine.newFloat
  refine .step rfl (.bind_of_never
    (hs.allocate_any (by decide) (by decide) (hs.kernelClass .float)) ?_)
  rintro r m₁ ⟨starts₁, hs₁, hr⟩
  refine .write fun h hok => ?_
  obtain ⟨hs₂, hcarries⟩ := hs₁.setFloatValue (hs₁.writable_new hr) hok
  exact ⟨starts₁, hs₂, (hcarries _ _ hr).toAny⟩

theorem newInteger (hs : Stage w marks m starts) (x : Int) :
    (m.newInteger x).Meets (Gives w marks .any) fun _ => False := by
  unfold Machine.newInteger
  cases hsmall : Ref.ofInt? x with
  | some r =>
    refine ⟨starts, hs, small ?_⟩
    unfold Ref.ofInt? at hsmall
    split at hsmall
    · cases hsmall
      exact Ref.isSmallInteger_ofPayload _
    · cases hsmall
  | none =>
    refine .step rfl (.bind_of_never
      (hs.allocate_any (by decide) (by decide) (hs.kernelClass .largeInteger)) ?_)
    rintro r m₁ ⟨starts₁, hs₁, hr⟩
    refine .write fun h hok => ?_
    obtain ⟨hs₂, hcarries⟩ := hs₁.setLargeInteger (hs₁.writable_new hr) hok
    exact ⟨starts₁, hs₂, (hcarries _ _ hr).toAny⟩

/-- Two stores to the fields of a new pair of which nothing is expected. -/
theorem newAssociation (hs : Stage w marks m starts) (hkey : Mark.any.Holds w m starts key)
    (hvalue : Mark.any.Holds w m starts value) :
    (m.newAssociation key value).Meets (Gives w marks (.new .association)) fun _ => False := by
  unfold Machine.newAssociation
  obtain ⟨hs₀, hcarries₀⟩ := hs.pinning hkey
  have hs₁ := hs₀.pin (hcarries₀ _ _ hvalue)
  refine .step rfl (.step rfl (.step rfl (.bind_of_never
    (hs₁.allocate_any (by decide) (by decide) (hs₁.kernelClass .association)) ?_)))
  rintro r m₂ ⟨starts₂, hs₂, hr₂⟩
  refine hs₂.bind_unpin fun value m₃ hs₃ hvalue₃ hcarries₃ => ?_
  refine hs₃.bind_unpin fun key m₄ hs₄ hkey₄ hcarries₄ => ?_
  have hr₄ := hcarries₄ _ _ (hcarries₃ _ _ hr₂)
  refine .write fun h hok => ?_
  obtain ⟨h₁, hok₁, hok₂⟩ := bind_eq_ok.mp hok
  obtain ⟨hs₅, hcarries₅⟩ := hs₄.storeField (hs₄.writable_new hr₄) (by decide) hkey₄.known
    (Kind.suits_of_expects rfl) (fun h => absurd h (by decide)) hok₁
  have hr₅ := hcarries₅ _ _ hr₄
  obtain ⟨hs₆, hcarries₆⟩ := hs₅.storeField (hs₅.writable_new hr₅) (by decide)
    (hcarries₄ _ _ hvalue₃).known (Kind.suits_of_expects rfl) (fun h => absurd h (by decide)) hok₂
  exact ⟨starts₂, hs₆, hcarries₆ _ _ hr₅⟩

theorem newMethodDictionary (hs : Stage w marks m starts) (capacity : Nat) :
    (m.newMethodDictionary capacity).Meets (Gives w marks (.new .dictionary)) fun _ => False := by
  unfold Machine.newMethodDictionary
  refine .lift fun _ _ => .bind_of_never (hs.newArray capacity) ?_
  rintro methods m₁ ⟨starts₁, hs₁, hmethods⟩
  have hs₂ := hs₁.pin hmethods
  refine .step rfl (.step rfl (.bind_of_never
    (hs₂.allocate_any (by decide) (by decide) (hs₂.kernelClass .methodDictionary)) ?_))
  rintro r m₃ ⟨starts₃, hs₃, hr₃⟩
  refine hs₃.bind_unpin fun methods m₄ hs₄ hmethods₄ hcarries₄ => ?_
  have hr₄ := hcarries₄ _ _ hr₃
  refine .write fun h hok => ?_
  obtain ⟨h₁, hok₁, hok₂⟩ := bind_eq_ok.mp hok
  obtain ⟨hs₅, hcarries₅⟩ := hs₄.storeField (hs₄.writable_new hr₄) (by decide)
    (small (w := w) (m := m₄) (by decide)).known (Kind.suits_of_expects rfl)
    (fun h => absurd h (by decide)) hok₁
  have hr₅ := hcarries₅ _ _ hr₄
  have hmethods₅ := hcarries₅ _ _ hmethods₄
  have hsuits : Kind.Suits (Heap.kind h₁ methods) .dictionary
      (headerWords + MethodDictionary.methodsField) := by
    intro expected he
    cases he
    rw [show Heap.kind h₁ methods = .object .array from hmethods₅.kind]
    exact Kind.fits_object _
  obtain ⟨hs₆, hcarries₆⟩ := hs₅.storeField (hs₅.writable_new hr₅) (by decide) hmethods₅.known
    hsuits (fun _ => hmethods₅.toWritable.tells) hok₂
  exact ⟨starts₃, hs₆, hcarries₆ _ _ hr₅⟩

/-! ## Names -/

theorem intern (hs : Stage w marks m starts) (name : String) :
    (m.intern name).Meets (Gives w marks (.symbol name)) fun _ => False := by
  unfold Machine.intern
  refine .step rfl ?_
  dsimp only
  cases hfound : m.symbol? name with
  | some r =>
    have hmem : r ∈ m.symbols.refs := NameTable.mem_of_find? hfound
    refine ⟨starts, hs, hs.sound.known (mem_roots.mpr (.inr (.inr (.inl hmem)))),
      hs.sound.symbols r hmem, fun tag htag => ?_⟩
    cases htag
    exact w.symbol hfound
  | none =>
    have hmade := (hs.newBytes (hs.kernelClass .symbol) (Text.utf8Bytes name)).and
      (hs.newBytes_names (hs.kernelClass .symbol) (Text.utf8Bytes name))
    refine .step rfl (.bind_of_never (hmade.mono (fun _ _ h => h) fun _ h => h.1) ?_)
    rintro r m₁ ⟨⟨starts₁, hs₁, hr⟩, hnames, hroot⟩
    refine .step rfl ?_
    have halike : AlikeBelow w.base m₁ { m₁ with symbols := m₁.symbols.add name r } := by
      refine ⟨rfl, rfl, rfl, fun _ _ => rfl, fun name' r' hr' => ?_⟩
      rw [NameTable.find?_add, hr']
      rfl
    have hnew : m₁.symbols.find? name = none := by
      rw [NameTable.find?_eq_none, hnames.1, ← NameTable.find?_eq_none]
      exact hfound
    have hkept := w.named hnew (fun hmem => hroot (mem_roots.mpr (.inr (.inr (.inl hmem)))))
      hs₁.kept
    refine ⟨starts₁, hs₁.withRefs ?_ halike hkept rfl, hr.known, hr.kind, fun tag htag => ?_⟩
    rotate_left
    · cases htag
      refine w.symbol ?_
      rw [NameTable.find?_add, hnew, if_pos rfl]
      rfl
    refine hs₁.sound.withRefs rfl rfl rfl ?_ (fun x hx hnew => absurd hx hnew) ?_
      fun x hx hnew => absurd hx hnew
    · intro x hx hnew
      rw [mem_roots] at hx hnew
      simp only [NameTable.refs_add, List.mem_append, List.mem_singleton] at hx
      have hxr : x = r := by tauto
      exact hxr ▸ hr.known
    · intro x hx hnew
      simp only [NameTable.refs_add, List.mem_append, List.mem_singleton] at hx
      have hxr : x = r := by tauto
      exact hxr ▸ hr.kind

theorem globalAssociation (hs : Stage w marks m starts) (name : String) :
    (m.globalAssociation name).Meets (Gives w marks (.of .association)) fun _ => False := by
  unfold Machine.globalAssociation
  refine .step rfl ?_
  dsimp only
  cases hfound : m.globals.find? name with
  | some r =>
    have hmem : r ∈ m.globals.refs := NameTable.mem_of_find? hfound
    exact ⟨starts, hs, hs.sound.known (mem_roots.mpr (.inr (.inr (.inr (.inl hmem))))),
      hs.sound.globals r hmem, fun _ h => nomatch h⟩
  | none =>
    refine .bind_of_never (hs.intern name) ?_
    rintro key m₁ ⟨starts₁, hs₁, hkey⟩
    refine .step rfl (.bind_of_never (hs₁.newAssociation hkey.toAny hs₁.nil.toAny) ?_)
    rintro r m₂ ⟨starts₂, hs₂, hr⟩
    refine .step rfl ?_
    have halike : AlikeBelow w.base m₂ { m₂ with globals := m₂.globals.add name r } :=
      ⟨rfl, rfl, rfl, fun _ _ => rfl, fun _ _ h => h⟩
    refine ⟨starts₂, hs₂.withRefs ?_ halike (w.congr halike rfl hs₂.kept) rfl,
      hr.toOf.congr halike⟩
    refine hs₂.sound.withRefs rfl rfl rfl ?_ (fun x hx hnew => absurd hx hnew)
      (fun x hx hnew => absurd hx hnew) ?_
    · intro x hx hnew
      rw [mem_roots] at hx hnew
      simp only [NameTable.refs_add, List.mem_append, List.mem_singleton] at hx
      have hxr : x = r := by tauto
      exact hxr ▸ hr.known
    · intro x hx hnew
      simp only [NameTable.refs_add, List.mem_append, List.mem_singleton] at hx
      have hxr : x = r := by tauto
      exact hxr ▸ hr.kind

theorem setGlobal (hs : Stage w marks m starts) (name : String) (hvalue : t.Holds w m starts value) :
    (m.setGlobal name value).Meets (fun _ => Keeps w marks) fun _ => False := by
  unfold Machine.setGlobal
  refine .step rfl (.bind_of_never ((hs.pin hvalue).globalAssociation name) ?_)
  rintro association m₁ ⟨starts₁, hs₁, hassociation⟩
  refine hs₁.bind_unpin fun value m₂ hs₂ hvalue₂ hcarries₂ => ?_
  refine .write_last fun h hok => ?_
  have hwritable := hs₂.writable_association (hcarries₂ _ _ hassociation)
  exact ⟨starts₁, (hs₂.storeField hwritable (by decide) hvalue₂.known
    (Kind.suits_of_expects rfl) (fun h => absurd h (by decide)) hok).1⟩

/-! ## Methods -/

section Dictionary

variable {dictionary selector : Ref}

/-- What has a slot for a selector is a dictionary. -/
theorem of_probe (hs : Stage w marks m starts)
    (hd : (Mark.fits .dictionary).Holds w m starts dictionary) {slot : Option Nat}
    (hok : MethodDictionary.probe m.heap dictionary selector = .ok slot) :
    (Mark.of .dictionary).Holds w m starts dictionary := by
  refine (hd.cases_fits (by decide)).resolve_left fun hnil => ?_
  obtain ⟨i, hi, rfl, -, hlen, -⟩ := hs.nil_view hnil
  unfold MethodDictionary.probe at hok
  obtain ⟨capacity, hcapacity, hok⟩ := bind_eq_ok.mp hok
  obtain ⟨_, hrequire, -⟩ := bind_eq_ok.mp hok
  unfold MethodDictionary.capacity at hcapacity
  rw [hs.laidOut.length hi, hlen] at hcapacity
  cases hcapacity
  cases require_ok hrequire

/-- What an object owns that may be written to. -/
theorem owned (hs : Stage w marks m starts) (hw : w.Closed)
    (hr : (Mark.of s).Holds w m starts r) (hwritable : w.Tells .writable m r)
    (howns : s.Owns (headerWords + index)) (hok : m.heap.fetchField r index = .ok value) :
    w.Tells .writable m value := by
  have hl := hs.laidOut
  obtain ⟨i, hi, rfl, hview⟩ := hl.of_kind hr.known hr.kind
  rw [← hview] at howns
  obtain ⟨-, rfl⟩ := Heap.fetchField_ok hl hi howns.allowsFields hok
  exact hw hs.sound hs.kept hi hwritable howns.isFixed howns

theorem storeMethod (hs : Stage w marks m starts) (hw : w.Closed)
    (hd : (Mark.of .dictionary).Holds w m starts dictionary)
    (hwritable : w.Tells .writable m dictionary) {methods : Ref}
    (hmethods : m.heap.fetchField dictionary MethodDictionary.methodsField = .ok methods)
    (hmethod : Known starts method) (hok : m.heap.storeElement methods index method = .ok h) :
    Stage w marks { m with heap := h } starts ∧ Carries w m starts { m with heap := h } starts := by
  have hfits := (hs.fetchField hd rfl hmethods).ofSuits .array rfl
  rcases hfits.cases_fits (by decide) with hnil | harray
  · obtain ⟨_, hindex, -⟩ := bind_eq_ok.mp hok
    obtain ⟨_, hcheck, -⟩ := bind_eq_ok.mp hindex
    exact (hs.checkElement_nil hnil hcheck).elim
  · have howned := hs.owned hw hd hwritable (by decide) hmethods
    exact hs.storeElement (hs.writable_of harray howned) rfl hmethod hok

theorem insert (hs : Stage w marks m starts) (hw : w.Closed)
    (hd : (Mark.writable .dictionary).Holds w m starts dictionary)
    (hselector : Known starts selector) (hmethod : Known starts method)
    (hok : MethodDictionary.insert m.heap dictionary selector method = .ok h) :
    Stage w marks { m with heap := h } starts ∧ Carries w m starts { m with heap := h } starts := by
  unfold MethodDictionary.insert at hok
  obtain ⟨slot, hprobe, hok⟩ := bind_eq_ok.mp hok
  have hd' := hs.of_probe hd.ofWritable hprobe
  cases slot with
  | none => cases hok
  | some slot =>
    obtain ⟨found, -, hok⟩ := bind_eq_ok.mp hok
    by_cases hpresent : found = selector
    · rw [if_pos (by simpa using hpresent)] at hok
      obtain ⟨_, hsame, hok⟩ := bind_eq_ok.mp hok
      cases hsame
      obtain ⟨methods, hmethods, hok⟩ := bind_eq_ok.mp hok
      exact hs.storeMethod hw hd' hd.tells hmethods hmethod hok
    · rw [if_neg (by simpa using hpresent)] at hok
      obtain ⟨h₁, hclaim, hok⟩ := bind_eq_ok.mp hok
      obtain ⟨methods, hmethods, hok⟩ := bind_eq_ok.mp hok
      unfold MethodDictionary.claim at hclaim
      obtain ⟨h₀, helement, hclaim⟩ := bind_eq_ok.mp hclaim
      obtain ⟨tally, -, hfield⟩ := bind_eq_ok.mp hclaim
      obtain ⟨hs₁, hcarries₁⟩ := hs.storeElement (hs.writable_of hd' hd.tells) rfl hselector
        helement
      obtain ⟨hs₂, hcarries₂⟩ := hs₁.storeField
        (hs₁.writable_of (hcarries₁ _ _ hd') (hcarries₁ _ _ hd).tells) (by decide)
        (small (w := w) (m := m) (Ref.isSmallInteger_ofPayload _)).known
        (Kind.suits_of_expects rfl) (fun h => absurd h (by decide)) hfield
      have hcarries := hcarries₁.trans hcarries₂
      obtain ⟨hs₃, hcarries₃⟩ := hs₂.storeMethod hw (hcarries _ _ hd') (hcarries _ _ hd).tells
        hmethods hmethod hok
      exact ⟨hs₃, hcarries.trans hcarries₃⟩

theorem insertAll (hs : Stage w marks m starts) (hw : w.Closed)
    (hd : (Mark.writable .dictionary).Holds w m starts dictionary) {entries : List (Ref × Ref)}
    (hentries : ∀ e ∈ entries, Known starts e.1 ∧ Known starts e.2)
    (hok : Machine.insertAll m.heap dictionary entries = .ok h) :
    Stage w marks { m with heap := h } starts ∧ Carries w m starts { m with heap := h } starts := by
  induction entries generalizing m with
  | nil =>
    cases hok
    exact ⟨hs, fun _ _ hr => hr⟩
  | cons entry rest ih =>
    obtain ⟨h₁, hinsert, hrest⟩ := bind_eq_ok.mp hok
    have hentry := hentries entry List.mem_cons_self
    obtain ⟨hs₁, hcarries₁⟩ := hs.insert hw hd hentry.1 hentry.2 hinsert
    obtain ⟨hs₂, hcarries₂⟩ := ih hs₁ (hcarries₁ _ _ hd)
      (fun e he => hentries e (List.mem_cons_of_mem _ he)) hrest
    exact ⟨hs₂, hcarries₁.trans hcarries₂⟩

theorem entriesAt (hs : Stage w marks m starts)
    (hd : (Mark.of .dictionary).Holds w m starts dictionary) {methods : Ref}
    (hmethods : (Mark.fits .array).Holds w m starts methods) {indices : List Nat}
    {entries : List (Ref × Ref)}
    (hok : MethodDictionary.entriesAt m.heap dictionary methods indices = .ok entries) :
    ∀ e ∈ entries, Known starts e.1 ∧ Known starts e.2 := by
  induction indices generalizing entries with
  | nil =>
    cases hok
    simp
  | cons index rest ih =>
    obtain ⟨key, hkey, hok⟩ := bind_eq_ok.mp hok
    by_cases hfree : key = m.heap.nil
    · rw [if_pos hfree] at hok
      exact ih hok
    · rw [if_neg hfree] at hok
      obtain ⟨method, hmethod, hok⟩ := bind_eq_ok.mp hok
      obtain ⟨others, hothers, hok⟩ := bind_eq_ok.mp hok
      cases hok
      intro e he
      rcases List.mem_cons.mp he with rfl | he
      · refine ⟨(hs.fetchElement hd rfl hkey).known, ?_⟩
        rcases hmethods.cases_fits (by decide) with hnil | harray
        · obtain ⟨_, hindex, -⟩ := bind_eq_ok.mp hmethod
          obtain ⟨_, hcheck, -⟩ := bind_eq_ok.mp hindex
          exact (hs.checkElement_nil hnil hcheck).elim
        · exact (hs.fetchElement harray rfl hmethod).known
      · exact ih hothers e he

end Dictionary

theorem growDictionary {position : Nat} (hs : Stage w marks m starts) (hw : w.Closed)
    (ht : marks[position]? = some (.writable .cls)) :
    (m.growDictionary (w.base + position)).Meets (fun _ => Keeps w marks) fun _ => False := by
  unfold Machine.growDictionary
  refine hs.bind_pinnedAt ht fun cls hcls => .read fun capacity _ => .lift fun _ _ => ?_
  refine .bind_of_never (hs.newMethodDictionary _) ?_
  rintro grown m₁ ⟨starts₁, hs₁, hgrown⟩
  refine hs₁.bind_pinnedAt ht fun cls hcls => .write_last fun h hok => ?_
  obtain ⟨dictionary, hdictionary, hok⟩ := bind_eq_ok.mp hok
  obtain ⟨entries, hentries, hok⟩ := bind_eq_ok.mp hok
  obtain ⟨h₂, hinsert, hfield⟩ := bind_eq_ok.mp hok
  have hof := hs₁.of_fetchField hcls.ofWritable hdictionary
  -- The old dictionary has a field, so it is not nil.
  obtain ⟨methods, hmethods, hentries⟩ := bind_eq_ok.mp hentries
  obtain ⟨_, -, hentries⟩ := bind_eq_ok.mp hentries
  have hfits := (hs₁.fetchField hof rfl hdictionary).ofSuits .dictionary rfl
  have hd := hs₁.of_fetchField hfits hmethods
  have hknown := hs₁.entriesAt hd ((hs₁.fetchField hd rfl hmethods).ofSuits .array rfl) hentries
  obtain ⟨hs₂, hcarries₂⟩ := hs₁.insertAll hw hgrown.toWritable hknown hinsert
  refine ⟨starts₁, (hs₂.storeField
    (hs₂.writable_of (hcarries₂ _ _ hof) (hcarries₂ _ _ hcls).tells) (by decide) hgrown.known ?_
    (fun _ => (hcarries₂ _ _ hgrown).toWritable.tells) hfield).1⟩
  intro expected he
  cases he
  rw [show Heap.kind h₂ grown = .object .dictionary from (hcarries₂ _ _ hgrown).kind]
  exact Kind.fits_object _

/-- Puts the method pinned above a class into its dictionary, under the selector pinned last. -/
theorem insertPinned {t' : Mark} (hs : Stage w (marks ++ [Mark.writable .cls] ++ [t'] ++ [t]) m starts)
    (hw : w.Closed) :
    (m.insertPinned (w.base + marks.length)).Meets (fun _ m' => Keeps w marks m' ∧ m'.cache.IsEmpty)
      fun _ => False := by
  unfold Machine.insertPinned
  have hat : ∀ k, (marks ++ [Mark.writable .cls] ++ [t'] ++ [t])[marks.length + k]? =
      [Mark.writable .cls, t', t][k]? := by
    intro k
    rw [List.append_assoc, List.append_assoc, List.getElem?_append_right (Nat.le_add_right _ _),
      Nat.add_sub_cancel_left]
    rfl
  refine hs.bind_pinnedAt (hat 0) fun cls (hcls : (Mark.writable .cls).Holds ..) => ?_
  refine hs.bind_pinnedAt (hat 1) fun method (hmethod : t'.Holds ..) => ?_
  refine hs.bind_pinnedAt (hat 2) fun selector (hselector : t.Holds ..) => ?_
  obtain ⟨hs₁, hcarries₁⟩ := hs.unpinning marks.length
  rw [List.append_assoc, List.append_assoc, List.take_left] at hs₁
  refine .step rfl (.write fun h hok => ?_)
  obtain ⟨dictionary, hdictionary, hok⟩ := bind_eq_ok.mp hok
  have hcls₁ := hcarries₁ _ _ hcls
  have hof := hs₁.of_fetchField hcls₁.ofWritable hdictionary
  have hfits := (hs₁.fetchField hof rfl hdictionary).ofSuits .dictionary rfl
  have howned := hs₁.owned hw hof hcls₁.tells (by decide) hdictionary
  have hs₂ := (hs₁.insert hw (hfits.withWritable howned) hselector.known hmethod.known hok).1
  exact ⟨⟨starts, hs₂.flushCache⟩, find?_flush _⟩

/-- There is room for another method in the dictionary of a class that may be written to. -/
theorem makeRoom (hs : Stage w marks m starts) (hw : w.Closed)
    (hcls : (Mark.writable .cls).Holds w m starts cls) (selector : String)
    (hmethod : t.Holds w m starts method) :
    (m.makeRoom cls selector method).Meets (fun base m' => base = w.base + marks.length ∧
      Keeps w (marks ++ [.writable .cls] ++ [t] ++ [.symbol selector]) m') fun _ => False := by
  unfold Machine.makeRoom
  obtain ⟨hs₀, hcarries₀⟩ := hs.pinning hcls
  have hs₁ := hs₀.pin (hcarries₀ _ _ hmethod)
  refine .step rfl (.step rfl (.step rfl (.bind_of_never (hs₁.intern selector) ?_)))
  rintro name m₂ ⟨starts₂, hs₂, hname⟩
  have hs₃ := hs₂.pin hname
  rw [hs.size_pinned]
  refine .step rfl (hs₃.bind_pinnedAt (t := .writable .cls) (by simp)
    fun cls₃ _ => .read fun full _ => ?_)
  cases full with
  | false => exact ⟨rfl, starts₂, hs₃⟩
  | true => exact .bind_of_never (hs₃.growDictionary hw (by simp)) fun _ _ hm => ⟨rfl, hm⟩

/-- Adding a method to a class that may be written to leaves a machine with an empty cache. -/
theorem installMethod (hs : Stage w marks m starts) (hw : w.Closed)
    (hcls : (Mark.writable .cls).Holds w m starts cls) (selector : String)
    (hmethod : t.Holds w m starts method) :
    (m.installMethod cls selector method).Meets
      (fun _ m' => Keeps w marks m' ∧ m'.cache.IsEmpty) fun _ => False := by
  rw [installMethod_eq]
  refine .bind_of_never (hs.makeRoom hw hcls selector hmethod) ?_
  rintro _ m₁ ⟨rfl, starts₁, hs₁⟩
  exact hs₁.insertPinned hw

/-! ## Classes -/

/-- The fields of a class are filled with what is expected there. -/
theorem fillClass {superclass dictionary name owner : Ref} {spec : InstanceSpec}
    (hs : Stage w marks m starts) (hcls : (Mark.new .cls).Holds w m starts cls)
    (hsuper : (Mark.fits .cls).Holds w m starts superclass)
    (hd : (Mark.new .dictionary).Holds w m starts dictionary) (hname : Known starts name)
    (howner : Known starts owner)
    (hok : Machine.fillClass m.heap cls superclass dictionary spec name owner = .ok h) :
    Stage w marks { m with heap := h } starts ∧ Carries w m starts { m with heap := h } starts := by
  unfold Machine.fillClass at hok
  obtain ⟨h₁, hok₁, hok⟩ := bind_eq_ok.mp hok
  obtain ⟨h₂, hok₂, hok⟩ := bind_eq_ok.mp hok
  obtain ⟨h₃, hok₃, hok⟩ := bind_eq_ok.mp hok
  obtain ⟨h₄, hok₄, hok₅⟩ := bind_eq_ok.mp hok
  obtain ⟨hs₁, hcarries₁⟩ := hs.storeField (hs.writable_new hcls) (by decide) hsuper.known
    (fun expected he => by cases he; exact hsuper.kind) (fun h => absurd h (by decide)) hok₁
  have hcls₁ := hcarries₁ _ _ hcls
  have hd₁ := (hcarries₁ _ _ hd).toWritable
  obtain ⟨hs₂, hcarries₂⟩ := hs₁.storeField (hs₁.writable_new hcls₁) (by decide) hd₁.known
    (fun expected he => by cases he; exact hd₁.kind) (fun _ => hd₁.tells) hok₂
  have hcls₂ := hcarries₂ _ _ hcls₁
  obtain ⟨hs₃, hcarries₃⟩ := hs₂.storeField (hs₂.writable_new hcls₂) (by decide)
    (small (w := w) (m := m) (Ref.isSmallInteger_ofPayload _)).known
    (Kind.suits_of_expects rfl) (fun h => absurd h (by decide)) hok₃
  have hcls₃ := hcarries₃ _ _ hcls₂
  obtain ⟨hs₄, hcarries₄⟩ := hs₃.storeField (hs₃.writable_new hcls₃) (by decide) hname
    (Kind.suits_of_expects rfl) (fun h => absurd h (by decide)) hok₄
  have hcls₄ := hcarries₄ _ _ hcls₃
  obtain ⟨hs₅, hcarries₅⟩ := hs₄.storeField (hs₄.writable_new hcls₄) (by decide) howner
    (Kind.suits_of_expects rfl) (fun h => absurd h (by decide)) hok₅
  exact ⟨hs₅, hcarries₁.trans (hcarries₂.trans (hcarries₃.trans (hcarries₄.trans hcarries₅)))⟩

/-- A class may inherit from nil or from another class. -/
def superclassMark : Mark := ⟨fun t => t = .nil ∨ t = .object .cls, none⟩

/-- The class of a class is expected to be one. -/
theorem classOf (hs : Stage w marks m starts) (hcls : (Mark.of .cls).Holds w m starts cls)
    (hok : m.heap.classOf cls = .ok r) : (Mark.fits .cls).Holds w m starts r := by
  have hl := hs.laidOut
  obtain ⟨i, hi, rfl, hview⟩ := hl.of_kind hcls.known hcls.kind
  rw [hl.classOf hi] at hok
  cases hok
  have hfixed : (m.heap.view i).IsFixed 1 := .inl rfl
  have hfollows := hs.sound.shaped.follows i hi 1 hfixed
  rw [hview] at hfollows
  exact ⟨hs.sound.shaped.traced i hi 1 hfixed.isTraced, hfollows _ rfl, fun _ h => nomatch h⟩

/-- A class and its metaclass are linked to each other and to those they inherit from. -/
theorem linkClass {metaclass superclass name dictionary metaDictionary : Ref}
    (spec : InstanceSpec) (hs : Stage w marks m starts) (hcls : (Mark.new .cls).Holds w m starts cls)
    (hmeta : (Mark.new .cls).Holds w m starts metaclass)
    (hsuper : superclassMark.Holds w m starts superclass) (hname : Known starts name)
    (hd : (Mark.new .dictionary).Holds w m starts dictionary)
    (hmd : (Mark.new .dictionary).Holds w m starts metaDictionary) :
    (m.linkClass cls metaclass superclass spec name dictionary metaDictionary).Meets
      (fun _ m' => Stage w marks m' starts ∧ Carries w m starts m' starts) fun _ => False := by
  unfold Machine.linkClass
  refine .step rfl ?_
  have hrest : ∀ metaSuperclass, (Mark.fits .cls).Holds w m starts metaSuperclass →
      (Action.write (fun h => do
        let h ← h.setClassOf cls metaclass
        let h ← Machine.fillClass h cls superclass dictionary spec name m.core.nil
        Machine.fillClass h metaclass metaSuperclass metaDictionary ⟨.plain, Class.fieldCount⟩
          m.core.nil cls) m).Meets
        (fun _ m' => Stage w marks m' starts ∧ Carries w m starts m' starts) fun _ => False := by
    intro metaSuperclass hmetaSuper
    refine .write_last fun h hok => ?_
    obtain ⟨h₁, hok₁, hok⟩ := bind_eq_ok.mp hok
    obtain ⟨h₂, hok₂, hok₃⟩ := bind_eq_ok.mp hok
    obtain ⟨hs₁, hcarries₁⟩ := hs.setClassOf (hs.writable_new hcls) (hcls.tag _ rfl)
      hmeta.toWritable.tells rfl hmeta.known
      (fun expected he => by cases he; exact hmeta.toOf.toFits.kind) hok₁
    have hsuper₁ := hcarries₁ _ _ hsuper
    have hfits : (Mark.fits .cls).Holds w _ starts superclass :=
      ⟨hsuper₁.known, hsuper₁.kind.imp_right .inl, fun _ h => nomatch h⟩
    obtain ⟨hs₂, hcarries₂⟩ := hs₁.fillClass (hcarries₁ _ _ hcls) hfits (hcarries₁ _ _ hd) hname
      hs.nil.known hok₂
    have hcarries := hcarries₁.trans hcarries₂
    obtain ⟨hs₃, hcarries₃⟩ := hs₂.fillClass (hcarries _ _ hmeta) (hcarries _ _ hmetaSuper)
      (hcarries _ _ hmd) hs.nil.known hcls.known hok₃
    exact ⟨hs₃, hcarries.trans hcarries₃⟩
  split
  · exact .step rfl (hrest _ (hs.kernelClass .theClass).toFits)
  · rename_i hne
    refine .read fun metaSuperclass hok => hrest _ (hs.classOf ⟨hsuper.known, ?_, fun _ h => nomatch h⟩ hok)
    refine hsuper.kind.resolve_left fun hkind => hne ?_
    exact (Heap.eq_nil_of_kind hkind).trans hs.sound.core.symm

/-- A class that is made is new when a global gets it. -/
theorem defineClass_binds {superclass : Ref} {Q : Ref → Machine → Prop} (hs : Stage w marks m starts)
    (name : String) (hsuper : superclassMark.Holds w m starts superclass) (spec : InstanceSpec)
    (hbind : ∀ m' starts' cls, Stage w marks m' starts' → (Mark.new .cls).Holds w m' starts' cls →
      (m'.setGlobal name cls).Meets (fun _ => Q cls) fun _ => False) :
    (m.defineClass name superclass spec).Meets Q fun _ => False := by
  unfold Machine.defineClass
  have hs₁ := hs.pin hsuper
  refine .step rfl (.bind_of_never (hs₁.intern name) ?_)
  rintro symbol m₂ ⟨starts₂, hs₂, hsymbol⟩
  have hs₃ := hs₂.pin hsymbol
  refine .step rfl (.bind_of_never (hs₃.newMethodDictionary _) ?_)
  rintro dictionary m₄ ⟨starts₄, hs₄, hd⟩
  have hs₅ := hs₄.pin hd
  refine .step rfl (.bind_of_never (hs₅.newMethodDictionary _) ?_)
  rintro metaDictionary m₆ ⟨starts₆, hs₆, hmd⟩
  have hs₇ := hs₆.pin hmd
  refine .step rfl (.step rfl (.bind_of_never (hs₇.allocate_cls (hs₇.kernelClass .metaclass)) ?_))
  rintro metaclass m₈ ⟨starts₈, hs₈, hmeta⟩
  obtain ⟨hs₉, hcarries₉⟩ := hs₈.pinning hmeta
  refine .step rfl (.bind_of_never (hs₉.allocate_cls (hcarries₉ _ _ hmeta.toOf)) ?_)
  rintro cls m₁₀ ⟨starts₁₀, hs₁₀, hcls⟩
  refine hs₁₀.bind_unpin fun metaclass m₁₁ hs₁₁ hmeta hc₁₁ => ?_
  refine hs₁₁.bind_unpin fun metaDictionary m₁₂ hs₁₂ hmd hc₁₂ => ?_
  refine hs₁₂.bind_unpin fun dictionary m₁₃ hs₁₃ hd hc₁₃ => ?_
  refine hs₁₃.bind_unpin fun symbol m₁₄ hs₁₄ hsymbol hc₁₄ => ?_
  refine hs₁₄.bind_unpin fun superclass m₁₅ hs₁₅ hsuper hc₁₅ => ?_
  have hlink := hs₁₅.linkClass spec
    ((hc₁₁.trans (hc₁₂.trans (hc₁₃.trans (hc₁₄.trans hc₁₅)))) _ _ hcls)
    ((hc₁₂.trans (hc₁₃.trans (hc₁₄.trans hc₁₅))) _ _ hmeta) hsuper
    (hc₁₅ _ _ hsymbol).known ((hc₁₄.trans hc₁₅) _ _ hd)
    ((hc₁₃.trans (hc₁₄.trans hc₁₅)) _ _ hmd)
  refine .bind_of_never hlink ?_
  rintro _ m₁₆ ⟨hs₁₆, hc₁₆⟩
  have hcls₁₆ := (hc₁₁.trans (hc₁₂.trans (hc₁₃.trans (hc₁₄.trans (hc₁₅.trans hc₁₆))))) _ _ hcls
  exact .bind_of_never (hbind m₁₆ _ _ hs₁₆ hcls₁₆) fun _ _ h => h

/-- Defining a class changes nothing that was there but associations. -/
theorem defineClass {superclass : Ref} (hs : Stage w marks m starts) (name : String)
    (hsuper : superclassMark.Holds w m starts superclass) (spec : InstanceSpec) :
    (m.defineClass name superclass spec).Meets (fun _ => Keeps w marks) fun _ => False :=
  hs.defineClass_binds name hsuper spec fun _ _ _ hs' hcls => hs'.setGlobal name hcls

end Machine.Stage

end ObjectMachine
