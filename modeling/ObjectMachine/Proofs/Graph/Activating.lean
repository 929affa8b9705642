import ObjectMachine.Proofs.Graph.Working

/-!
# Activations at work

While a program computes, objects are made, and memory is collected before that. Whatever is known of a
graph that neither changes goes on to hold, and contexts for new activations are found.

So it is with what is known of the activation of a method while it runs, and while it waits for an answer:
its context, the values on its stack, and the registers. A collection in between shows nowhere, since the
registers are written back to the context before it and read again behind it.

## Main results

* `Graph.World.Endures`: what neither collections nor new objects change.
* `Spec.Finishes.newInteger`, `Spec.Finishes.newContext`: an integer and a context are made.
* `Graph.World.Runs`: a method runs, with values on its stack.
* `Graph.World.Waits`: a method waits to go on.
* `Graph.World.Runs.endures`: a method that runs is not disturbed by collections.
-/

namespace ObjectMachine

namespace Graph

variable {g g' g'' : Graph} {w : World} {held busy : List Nat} {n : Nat}

/-- What is known of a graph endures collections, and whatever leaves the registers and the contexts alone
that are busy. -/
structure World.Endures (w : World) (held busy : List Nat) (I : Graph → Prop) : Prop where
  guides : ∀ {g}, I g → w.Guides g busy
  sub : held ⊆ busy
  collected : ∀ {g}, I g → ∃ g', g.collected = some g' ∧ I g' ∧ Works held g g' ∧ g'.registers = g.registers
  works : ∀ {g g'}, I g → Works busy g g' → g'.registers = g.registers → w.Guides g' busy → I g'
  withPinned : ∀ {g} (values : List Value), I g → I (g.withPinned values)

/-- Contexts were changed and objects were added, and the registers are the same. -/
structure Idles (held : List Nat) (g g' : Graph) : Prop extends Works held g g' where
  registers : g'.registers = g.registers

namespace Idles

theorem refl (held : List Nat) (g : Graph) : Idles held g g := ⟨.refl held g, rfl⟩

theorem trans (h : Idles held g g') (h' : Idles held g' g'') : Idles held g g'' :=
  ⟨h.toWorks.trans h'.toWorks, h'.registers.trans h.registers⟩

theorem withNew (o : Node) : Idles held g (g.withNew o) := ⟨.withNew o, rfl⟩

end Idles

theorem World.Guides.kernel (hg : w.Guides g busy) : g.Kernel := { hg.describes.settled.kernel with }

/-- A new object is not in the pool. -/
theorem Pooled.withNew (hp : g.Pooled busy) (o : Node) : (g.withNew o).Pooled (g.next :: busy) := by
  have h : Works busy g (g.withNew o) := .withNew o
  have hold := hp.works h rfl
  have hne : ∀ {n : Nat}, n < g.next → n ∉ busy → n ∉ g.next :: busy := fun hn hbusy =>
    List.not_mem_cons_of_ne_of_not_mem (Nat.ne_of_lt hn) hbusy
  refine ⟨fun n hn => ?_, fun v hv => ?_, fun v hv => ?_, hold.smallOnce, hold.largeOnce⟩
  · rcases List.mem_cons.mp hn with rfl | hn
    · exact Nat.lt_succ_self _
    · exact hold.busy_lt n hn
  · obtain ⟨n, rfl, hn, hbusy⟩ := hp.small v hv
    exact ⟨n, rfl, hn.works h, hne hn.lt hbusy⟩
  · obtain ⟨n, rfl, hn, hbusy⟩ := hp.large v hv
    exact ⟨n, rfl, hn.works h, hne hn.lt hbusy⟩

/-- A new object is no context that is busy. -/
theorem World.Guides.withNew (hg : w.Guides g busy) (o : Node) : w.Guides (g.withNew o) busy :=
  have h : Works busy g (g.withNew o) := .withNew o
  hg.works h rfl (hg.pooled.works h rfl)

theorem World.Endures.withNew {I : Graph → Prop} (hI : w.Endures held busy I) (hg : I g) (o : Node) :
    I (g.withNew o) :=
  hI.works hg (.withNew o) rfl ((hI.guides hg).withNew o)

/-- A graph at rest, whatever its registers are. -/
theorem World.endures_idle (w : World) : w.Endures [] [] fun g => g.Idle ∧ w.Guides g [] where
  guides h := h.2
  sub := List.Subset.refl _
  collected {g} h := by
    have hother : Works [] g { g with pool := ⟨[], []⟩ } := .other g g.registers g.memo ⟨[], []⟩
    exact ⟨_, h.1.collected, ⟨h.1, h.2.works hother rfl (.empty nofun rfl)⟩, hother, rfl⟩
  works h _ hregisters hguides := ⟨by unfold Idle; rw [hregisters]; exact h.1, hguides⟩
  withPinned values h := ⟨h.1, h.2.withPinned values⟩

/-! ## The pool -/

/-- A context that is taken out of the pool is free, and not in the pool any more. -/
theorem Pooled.take (hp : g.Pooled busy) {size : Nat} {v : Value} {pool : Pool}
    (htake : g.pool.take size = (some v, pool)) :
    ∃ n, v = .object n ∧ g.IsFree size n ∧ n ∉ busy ∧ ({ g with pool } : Graph).Pooled (n :: busy) := by
  have hother : ∀ {size n : Nat} (pool : Pool), g.IsFree size n → ({ g with pool } : Graph).IsFree size n :=
    fun _ hn => { hn with }
  have hapart : ∀ {n n' : Nat}, g.IsFree ContextPool.smallFrame n → g.IsFree ContextPool.largeFrame n' →
      n ≠ n' := by
    rintro n _ hn hn' rfl
    exact absurd (hn.len.symm.trans hn'.len) (by decide)
  have hlt : ∀ {size n : Nat}, g.IsFree size n → ∀ n' ∈ n :: busy, n' < g.next := by
    intro size n hn n' hn'
    rcases List.mem_cons.mp hn' with rfl | hn'
    · exact hn.lt
    · exact hp.busy_lt n' hn'
  unfold Pool.take at htake
  split at htake
  · rename_i hsize
    cases hsmall : g.pool.small with
    | nil => rw [hsmall] at htake; cases htake
    | cons context rest =>
      rw [hsmall] at htake
      cases htake
      have honce := hp.smallOnce
      rw [hsmall, List.nodup_cons] at honce
      obtain ⟨n, rfl, hn, hbusy⟩ := hp.small v (hsmall ▸ List.mem_cons_self)
      refine ⟨n, rfl, hsize ▸ hn, hbusy, ⟨hlt hn, fun u hu => ?_, fun u hu => ?_, honce.2, hp.largeOnce⟩⟩
      · obtain ⟨n', rfl, hn', hbusy'⟩ := hp.small u (hsmall ▸ List.mem_cons_of_mem _ hu)
        exact ⟨n', rfl, hother _ hn', List.not_mem_cons_of_ne_of_not_mem (fun heq => honce.1 (heq ▸ hu)) hbusy'⟩
      · obtain ⟨n', rfl, hn', hbusy'⟩ := hp.large u hu
        exact ⟨n', rfl, hother _ hn', List.not_mem_cons_of_ne_of_not_mem (hapart hn hn').symm hbusy'⟩
  · split at htake
    · rename_i hsize
      cases hlarge : g.pool.large with
      | nil => rw [hlarge] at htake; cases htake
      | cons context rest =>
        rw [hlarge] at htake
        cases htake
        have honce := hp.largeOnce
        rw [hlarge, List.nodup_cons] at honce
        obtain ⟨n, rfl, hn, hbusy⟩ := hp.large v (hlarge ▸ List.mem_cons_self)
        refine ⟨n, rfl, hsize ▸ hn, hbusy, ⟨hlt hn, fun u hu => ?_, fun u hu => ?_, hp.smallOnce, honce.2⟩⟩
        · obtain ⟨n', rfl, hn', hbusy'⟩ := hp.small u hu
          exact ⟨n', rfl, hother _ hn', List.not_mem_cons_of_ne_of_not_mem (hapart hn' hn) hbusy'⟩
        · obtain ⟨n', rfl, hn', hbusy'⟩ := hp.large u (hlarge ▸ List.mem_cons_of_mem _ hu)
          exact ⟨n', rfl, hother _ hn', List.not_mem_cons_of_ne_of_not_mem (fun heq => honce.1 (heq ▸ hu)) hbusy'⟩
    · cases htake

theorem Pool.take_eq_none' {pool pool' : Pool} {size : Nat} (h : pool.take size = (none, pool')) :
    pool' = pool := by
  unfold Pool.take at h
  split at h
  · split at h <;> cases h
    rfl
  · split at h
    · split at h <;> cases h
      rfl
    · cases h
      rfl

end Graph

/-! ## Objects -/

namespace Spec.Finishes

open ObjectMachine.Graph

variable {g : Graph} {w : World} {held busy : List Nat} {I : Graph → Prop} {E : Failure → Graph → Prop}
  {S : Fatal → Prop}

theorem mayCollect (hI : w.Endures held busy I) (hg : I g) :
    Spec.mayCollect.Finishes g (fun _ g' => I g' ∧ Idles held g g') E S := by
  obtain ⟨g', hcollected, hg', hworks, hregisters⟩ := hI.collected hg
  refine ⟨.either (.pure ⟨hg, .refl _ g⟩) ?_, Modest.mayCollect.finishes g⟩
  have hcollects : Spec.collectGarbage.Ends g (fun _ g' => I g' ∧ Idles held g g') E S := by
    refine .guard (hI.guides hg).kernel.rooted (.write hcollected ?_)
    rintro r ⟨bytes, -, rfl⟩
    exact ⟨hg', hworks, hregisters⟩
  exact hcollects.bind fun _ _ h => .pure h

/-- An object is made. -/
theorem allocate {cls : Value} {format : Format} {fields len : Nat} (hI : w.Endures held busy I) (hg : I g)
    (hmakes : cls.Makes format fields) (hS : S (.fault .overflow)) :
    (Spec.allocate cls format fields len).Finishes g (fun v g' => ∃ g₁ hash, I g₁ ∧ Idles held g g₁ ∧
      v = .object g₁.next ∧ g' = g₁.withNew (.fresh cls g₁.nil format fields len hash)) E S := by
  have hcount : ∀ g₁, (Spec.count (format.sizeInWords fields len)).Finishes g₁ (fun _ g₂ => g₂ = g₁) E S :=
    fun g₁ => ⟨.count fun _ => hS, (Modest.count _).finishes g₁⟩
  refine guard hmakes (bind (hcount g) ?_)
  rintro _ _ rfl
  refine bind (mayCollect hI hg) ?_
  rintro _ g₁ ⟨hg₁, h₁⟩
  refine bind (mayCollect hI hg₁) ?_
  rintro _ g₂ ⟨hg₂, h₂⟩
  refine bind (hcount g₂) ?_
  rintro _ _ rfl
  refine ⟨?_, (Modest.make ..).finishes _⟩
  rintro r ⟨-, hash, rfl⟩
  exact ⟨_, hash, hg₂, h₁.trans h₂, rfl, rfl⟩

/-- An integer is made. -/
theorem newInteger {value : Int} (hI : w.Endures held busy I) (hg : I g) (hS : S (.fault .overflow)) :
    (Spec.newInteger value).Finishes g (fun v g' => I g' ∧ Idles held g g' ∧ g'.IsInteger v value) E S := by
  unfold Spec.newInteger Graph.IsInteger
  cases hsmall : Ref.ofInt? value with
  | some r => exact pure ⟨hg, .refl _ g, rfl⟩
  | none =>
    refine ask ?_
    have hmakes : (g.core.cls .largeInteger).Makes .largeInteger 0 := by
      rw [(hI.guides hg).kernel.cls]
      exact Value.makes_object (.inl rfl) (Nat.zero_le _) nofun
    refine bind (allocate hI hg hmakes hS) ?_
    rintro _ _ ⟨g₁, hash, hg₁, h₁, rfl, rfl⟩
    have hcore := h₁.core
    have hstore : ∀ o : Node, o.format = .largeInteger →
        (g₁.withNew o).setLargeInteger (.object g₁.next) value =
          some (g₁.withNew { o with large? := some value }) := by
      intro o hformat
      have hself : (g₁.withNew o).nodes g₁.next = o := Function.update_self ..
      refine (if_pos (by rw [hself]; exact hformat)).trans ?_
      rw [hself, setNode_withNew]
    refine write (hstore _ rfl) (pure ⟨hI.withNew hg₁ _, h₁.trans (.withNew _), g₁.next, rfl, ?_⟩)
    simp [Graph.withNew, Node.fresh, hcore]

/-- A context is found for an activation that needs a number of slots. -/
theorem newContext (needed : Nat) (k : KernelClass) (hI : w.Endures held busy I) (hg : I g)
    (hS : S (.fault .overflow)) :
    (Spec.newContext needed (g.core.cls k)).Finishes g (fun v g' => ∃ n, v = .object n ∧ I g' ∧
      Idles held g g' ∧ w.Guides g' (n :: busy) ∧ n ∉ busy ∧
        g'.IsFree (ContextPool.frameSizeFor needed) n) E S := by
  have hguides := hI.guides hg
  let size := ContextPool.frameSizeFor needed
  let pool := (g.pool.take size).2
  have hother : Works busy g { g with pool } := .other g g.registers g.memo pool
  refine bind (R := fun taken g' => taken = (g.pool.take size).1 ∧ g' = { g with pool }) ?_ ?_
  · exact ⟨fun r hr => by cases hr; exact ⟨rfl, rfl⟩, fun h => nomatch h⟩
  rintro taken _ ⟨rfl, rfl⟩
  cases htaken : (g.pool.take size).1 with
  | some context =>
    obtain ⟨n, rfl, hfree, hbusy, hpooled⟩ := hguides.pooled.take (Prod.ext htaken rfl)
    let g₁ : Graph := ({ g with pool } : Graph).setNode n ((g.nodes n).withClass (g.core.cls k))
    have hnode : Works busy { g with pool } g₁ := .setNode ⟨rfl, rfl, rfl⟩ rfl hfree.format hbusy
    have hworks : Works busy g g₁ := hother.trans hnode
    have hpooled₁ : g₁.Pooled (n :: busy) := hpooled.works hnode rfl
    have hguides₁ : w.Guides g₁ (n :: busy) := hguides.works hworks rfl hpooled₁
    refine write (show _ = some g₁ from rfl) (pure ⟨n, rfl, ?_, ⟨hworks.mono hI.sub, rfl⟩, hguides₁, hbusy,
      hfree.works hworks⟩)
    exact hI.works hg hworks rfl (hguides₁.mono (List.subset_cons_self ..))
  | none =>
    have hpool : pool = g.pool := Pool.take_eq_none' (Prod.ext htaken rfl)
    have hsame : ({ g with pool } : Graph) = g := by rw [hpool]
    rw [hsame]
    have hmakes : (g.core.cls k).Makes .context contextFields := by
      rw [hguides.kernel.cls]
      exact Value.makes_object (.inr rfl) (by decide) fun _ => by decide
    refine (allocate hI hg hmakes hS).mono ?_ (fun _ _ h => h) fun _ h => h
    rintro _ _ ⟨g₁, hash, hg₁, h₁, rfl, rfl⟩
    have hguides₁ := hI.guides hg₁
    have hself := Function.update_self (β := fun _ => Node) g₁.next
      (.fresh (g.core.cls k) g₁.nil .context contextFields size hash) g₁.nodes
    refine ⟨g₁.next, rfl, hI.withNew hg₁ _, h₁.trans (.withNew _),
      hguides₁.works (show Works held _ _ from .withNew _) rfl (hguides₁.pooled.withNew _),
      fun hmem => Nat.lt_irrefl _ (hguides₁.pooled.busy_lt _ hmem), Nat.lt_succ_self _, ?_, ?_, ?_⟩
    · exact congrArg Node.format hself
    · exact congrArg Node.fields hself
    · exact congrArg Node.len hself

end Spec.Finishes

/-! ## Activations -/

namespace Graph

/-- A method, its literals and its bytes. -/
structure Compiled where
  method : Nat
  frame : Nat
  code : Nat
  draft : Draft
  cls : Value

/-- A method that runs on a receiver and for a sender. -/
structure Job extends Compiled where
  receiver : Value
  sender : Value

/-- A method is what a draft says, as far as it is looked at. -/
structure World.IsCompiled (w : World) (g : Graph) (k : Compiled) : Prop where
  method : w.Firm g k.method
  plain : (g.nodes k.method).format = .plain
  fields : (g.nodes k.method).fields = Method.fieldCount
  header : (g.nodes k.method).field Method.headerField = .immediate k.draft.header.toRef
  literals : (g.nodes k.method).field Method.literalsField = .object k.frame
  bytecode : (g.nodes k.method).field Method.codeField = .object k.code
  frame : w.Firm g k.frame
  array : (g.nodes k.frame).format = .array
  count : (g.nodes k.frame).len = k.draft.literals.length
  symbol : ∀ {i name}, k.draft.literals[i]? = some (.symbol name) →
    g.symbol? name = some ((g.nodes k.frame).element i)
  owner : ∀ {i}, k.draft.literals[i]? = some .methodClass → ∃ n, (g.nodes k.frame).element i = .object n ∧
    w.Firm g n ∧ (g.nodes n).format = .plain ∧ (g.nodes n).fields = Association.fieldCount ∧
    (g.nodes n).field Association.valueField = k.cls
  code : w.Firm g k.code
  byteArray : (g.nodes k.code).format = .byteArray
  bytes : g.bytes (.object k.code) = some k.draft.bytes

/-- A context is the activation of a method. -/
structure IsActivation (g : Graph) (c : Nat) (j : Job) : Prop where
  lt : c < g.next
  context : (g.nodes c).format = .context
  fields : (g.nodes c).fields = contextFields
  sender : (g.nodes c).field Context.senderField = j.sender
  method : (g.nodes c).field Context.methodField = .object j.method
  receiver : (g.nodes c).field Context.receiverField = j.receiver
  room : j.draft.header.frameSize ≤ (g.nodes c).len

/-- The registers of an activation. -/
def Registers.running (s : Registers) (c : Nat) (j : Job) (pc sp tempLimit : Nat) : Registers :=
  { s with
    active := .object c
    home := .object c
    method := .object j.method
    receiver := j.receiver
    literals := .object j.frame
    code := .object j.code
    pc, sp, tempLimit }

/-- The values on the stack of a context, its temporaries included. -/
def Stacked (g : Graph) (c : Nat) (stack : List Value) : Prop :=
  ∀ i v, stack[i]? = some v → (g.nodes c).element i = v

/-- A method in a context is at a position, with values on its stack. -/
structure World.IsAt (w : World) (g : Graph) (c : Nat) (j : Job) (pc : Nat) (stack : List Value) :
    Prop where
  isCompiled : w.IsCompiled g j.toCompiled
  isActivation : g.IsActivation c j
  values : g.Stacked c stack
  fits : stack.length ≤ j.draft.header.frameSize
  pc_lt : pc < Ref.addressLimit

/-- A method waits in its context to go on. -/
structure World.Waits (w : World) (g : Graph) (c : Nat) (j : Job) (pc : Nat) (stack : List Value) :
    Prop extends w.IsAt g c j pc stack where
  pc_eq : (g.nodes c).field Context.pcField = .immediate (.ofNat pc)
  sp_eq : (g.nodes c).field Context.spField = .immediate (.ofNat stack.length)

/-- A method runs. Contexts that are held are left alone. -/
structure World.Runs (w : World) (g : Graph) (held : List Nat) (c : Nat) (j : Job) (pc : Nat)
    (stack : List Value) : Prop extends w.IsAt g c j pc stack where
  guides : w.Guides g (c :: held)
  apart : c ∉ held
  registers : g.registers = g.registers.running c j pc stack.length
    (min j.draft.header.tempCount (g.nodes c).len)

variable {g g' : Graph} {w w' : World} {held : List Nat} {c n pc : Nat} {j : Job} {stack : List Value}
  {v : Value} {k : Compiled}

theorem World.Firm.works (hn : w.Firm g n) (h : Works held g g') : w.Firm g' n := by
  refine ⟨hn.1.trans_le h.next_le, fun hl => hn.2 ?_⟩
  unfold World.Loose at hl ⊢
  rwa [h.globals] at hl

namespace World.IsCompiled

/-- A method stays what it is where the objects that it is made of do. -/
theorem of_nodes (hk : w.IsCompiled g k) (hfirm : ∀ {n}, w.Firm g n → w'.Firm g' n)
    (hnodes : ∀ {n}, w.Firm g n → (g.nodes n).format ≠ .context → g'.nodes n = g.nodes n)
    (hsymbol : ∀ {name s}, g.symbol? name = some s → g'.symbol? name = some s) :
    w'.IsCompiled g' k := by
  have hmethod := hnodes hk.method (by rw [hk.plain]; nofun)
  have hframe := hnodes hk.frame (by rw [hk.array]; nofun)
  have hcode := hnodes hk.code (by rw [hk.byteArray]; nofun)
  exact
    { method := hfirm hk.method
      plain := hmethod ▸ hk.plain
      fields := hmethod ▸ hk.fields
      header := hmethod ▸ hk.header
      literals := hmethod ▸ hk.literals
      bytecode := hmethod ▸ hk.bytecode
      frame := hfirm hk.frame
      array := hframe ▸ hk.array
      count := hframe ▸ hk.count
      symbol := fun hi => by rw [hframe]; exact hsymbol (hk.symbol hi)
      owner := fun hi => by
        obtain ⟨n, hn, hlt, hplain, hrest⟩ := hk.owner hi
        have hsame := hnodes hlt (by rw [hplain]; nofun)
        exact ⟨n, hframe ▸ hn, hfirm hlt, hsame ▸ hplain, hsame ▸ hrest⟩
      code := hfirm hk.code
      byteArray := hcode ▸ hk.byteArray
      bytes := (bytes_congr hcode).trans hk.bytes }

theorem works (hk : w.IsCompiled g k) (h : Works held g g') : w.IsCompiled g' k :=
  hk.of_nodes (fun hn => hn.works h) (fun hn hformat => h.nodes_eq hn.1 hformat)
    fun hs => h.symbol?.trans hs

theorem advances (hk : w.IsCompiled g k) (h : w.Advances g w' g') : w'.IsCompiled g' k :=
  hk.of_nodes (fun hn => hn.advances h) (fun hn _ => hn.nodes_eq h) fun hs => symbol?_evolves hs h.evolves

theorem withPinned (hk : w.IsCompiled g k) (values : List Value) : w.IsCompiled (g.withPinned values) k :=
  hk.of_nodes id (fun _ _ => rfl) id

end World.IsCompiled

/-- A method that was built is one. -/
theorem World.IsBuilt.exists_compiled {draft : Draft} {cls : Value} (h : w.IsBuilt g draft cls v) :
    ∃ n frame code, v = .object n ∧ w.IsCompiled g ⟨n, frame, code, draft, cls⟩ := by
  obtain ⟨n, frame, code, rfl, hfirm, hplain, hfields, -, hheader, hliterals, hcode, hframe, hfirmCode,
    hbytes, hvalue⟩ := h.parts
  exact ⟨n, frame, code, rfl,
    { method := hfirm
      plain := hplain
      fields := hfields
      header := hheader
      literals := hliterals
      bytecode := hcode
      frame := hframe.firm
      array := hframe.format
      count := hframe.len
      symbol := fun hi => hframe.element hi
      owner := fun hi => hframe.element hi
      code := hfirmCode
      byteArray := hbytes
      bytes := hvalue }⟩

end Graph

theorem MethodHeader.ofRef_toRef (h : MethodHeader) : MethodHeader.ofRef h.toRef = h := by
  unfold ofRef toRef
  simp

theorem MethodHeader.frameSize_lt (h : MethodHeader) : h.frameSize < 320 := by
  have htemps : ((h.bits >>> 18) &&& 0x3F).toNat ≤ 0x3F := by
    rw [UInt32.toNat_and]
    exact Nat.and_le_right
  have hdepth : ((h.bits >>> 10) &&& 0xFF).toNat ≤ 0xFF := by
    rw [UInt32.toNat_and]
    exact Nat.and_le_right
  show ((h.bits >>> 18) &&& 0x3F).toNat + ((h.bits >>> 10) &&& 0xFF).toNat < 320
  omega

theorem Value.count_ofNat {n : Nat} (hn : n < Ref.addressLimit) :
    (Value.immediate (.ofNat n)).count = n :=
  (if_pos (Ref.isSmallInteger_ofNat hn)).trans (Ref.toCount_ofNat hn)

/-- The context with a position and a stack pointer. -/
def Node.suspended (o : Node) (pc sp : Nat) : Node :=
  (o.withField Context.pcField (.immediate (.ofNat pc))).withField Context.spField (.immediate (.ofNat sp))

theorem Node.live_suspended_le {o : Node} (hcontext : o.format = .context) (pc sp : Nat) :
    (o.suspended pc sp).live ≤ sp := by
  have hfield : (o.suspended pc sp).field contextStackPointer = .immediate (.ofNat sp) := by
    simp [suspended, contextStackPointer, Context.spField]
  have hformat : (o.suspended pc sp).format = .context := hcontext
  unfold Node.live
  rw [hformat]
  dsimp only
  rw [hfield]
  dsimp only
  split
  · exact (Nat.min_le_left ..).trans (Ref.toNat_toInt_ofNat_le sp)
  · exact Nat.zero_le _

theorem Node.field_suspended_eq (o : Node) (pc sp : Nat) :
    (o.suspended pc sp).field = Function.update (Function.update o.field Context.pcField
      (.immediate (.ofNat pc))) Context.spField (.immediate (.ofNat sp)) := rfl

theorem Node.pc_suspended (o : Node) (pc sp : Nat) :
    (o.suspended pc sp).field Context.pcField = .immediate (.ofNat pc) := by
  rw [field_suspended_eq, Function.update_of_ne (by decide), Function.update_self]

theorem Node.sp_suspended (o : Node) (pc sp : Nat) :
    (o.suspended pc sp).field Context.spField = .immediate (.ofNat sp) := by
  rw [field_suspended_eq, Function.update_self]

theorem Node.field_suspended (o : Node) (pc sp : Nat) {index : Nat} (hpc : index ≠ Context.pcField)
    (hsp : index ≠ Context.spField) : (o.suspended pc sp).field index = o.field index := by
  rw [field_suspended_eq, Function.update_of_ne hsp, Function.update_of_ne hpc]

namespace Graph

variable {g g' : Graph} {w w' : World} {held : List Nat} {c n pc pc' : Nat} {j : Job}
  {stack stack' : List Value} {v : Value} {k : Compiled}

theorem World.IsCompiled.header_eq (hk : w.IsCompiled g k) :
    g.header (.object k.method) = some k.draft.header := by
  unfold Graph.header
  rw [field_of_lt (by rw [hk.fields]; decide), hk.header]
  exact congrArg some (MethodHeader.ofRef_toRef _)

/-! ## Methods that wait -/

namespace World.IsAt

theorem sp_lt (h : w.IsAt g c j pc stack) : stack.length < Ref.addressLimit :=
  (h.fits.trans_lt j.draft.header.frameSize_lt).trans (by decide)

/-- A method is elsewhere once nothing but the position and the stack in its context have changed. -/
theorem moves (hat : w.IsAt g c j pc stack) (h : Works held g g')
    (hfield : ∀ index, index ≠ Context.pcField → index ≠ Context.spField →
      (g'.nodes c).field index = (g.nodes c).field index)
    (hvalues : g'.Stacked c stack') (hfits : stack'.length ≤ j.draft.header.frameSize)
    (hpc : pc' < Ref.addressLimit) : w.IsAt g' c j pc' stack' where
  isCompiled := hat.isCompiled.works h
  isActivation :=
    have hlayout := h.layout hat.isActivation.lt
    { lt := hat.isActivation.lt.trans_le h.next_le
      context := hlayout.format.trans hat.isActivation.context
      fields := hlayout.fields.trans hat.isActivation.fields
      sender := (hfield _ (by decide) (by decide)).trans hat.isActivation.sender
      method := (hfield _ (by decide) (by decide)).trans hat.isActivation.method
      receiver := (hfield _ (by decide) (by decide)).trans hat.isActivation.receiver
      room := hlayout.len ▸ hat.isActivation.room }
  values := hvalues
  fits := hfits
  pc_lt := hpc

/-- Nothing else has changed either. -/
theorem same (hat : w.IsAt g c j pc stack) (h : Works held g g') (hnode : g'.nodes c = g.nodes c) :
    w.IsAt g' c j pc stack :=
  hat.moves h (fun _ _ _ => by rw [hnode]) (fun i v hi => by rw [hnode]; exact hat.values i v hi) hat.fits
    hat.pc_lt

end World.IsAt

/-- A method that waits in a context that is held goes on to wait. -/
theorem World.Waits.works (hat : w.Waits g c j pc stack) (h : Works held g g') (hc : c ∈ held) :
    w.Waits g' c j pc stack where
  toIsAt := hat.same h (h.held_eq hat.isActivation.lt hc)
  pc_eq := by rw [h.held_eq hat.isActivation.lt hc]; exact hat.pc_eq
  sp_eq := by rw [h.held_eq hat.isActivation.lt hc]; exact hat.sp_eq

/-- The registers of an activation are read from its context. -/
theorem World.Waits.loaded (hat : w.Waits g c j pc stack) :
    g.loaded (.object c) = some (g.registers.running c j pc stack.length
      (min j.draft.header.tempCount (g.nodes c).len)) := by
  have hc := hat.isActivation
  have hj := hat.isCompiled
  have hfield : ∀ index < contextFields, g.field (.object c) index = some ((g.nodes c).field index) :=
    fun index hindex => field_of_lt (by rw [hc.fields]; exact hindex)
  have hmethod : ∀ index < Method.fieldCount,
      g.field (.object j.method) index = some ((g.nodes j.method).field index) :=
    fun index hindex => field_of_lt (by rw [hj.fields]; exact hindex)
  have hhome : g.homeOf (.object c) = some (.object c) := by
    unfold Graph.homeOf
    rw [hfield Context.argCountField (by decide), show (g.nodes c).field Context.argCountField = _ from
      hc.method]
    rfl
  have hnode : g.nodeOf (.object c) .context = some (g.nodes c) := by
    unfold Graph.nodeOf
    rw [node?_object]
    exact if_pos hc.context
  have hbytes : g.nodeOf (.object j.code) .byteArray = some (g.nodes j.code) := by
    unfold Graph.nodeOf
    rw [node?_object]
    exact if_pos hj.byteArray
  unfold Graph.loaded
  simp only [hhome, hfield Context.methodField (by decide), hfield Context.receiverField (by decide),
    hfield Context.pcField (by decide), hfield Context.spField (by decide), hc.method, hc.receiver, hat.pc_eq,
    hat.sp_eq, hmethod Method.literalsField (by decide), hmethod Method.codeField (by decide),
    hmethod Method.headerField (by decide), hj.header, hj.literals, hj.bytecode, hbytes, hnode,
    Option.bind_eq_bind, Option.bind_some, Value.bits?, Value.count_ofNat hat.pc_lt,
    Value.count_ofNat hat.sp_lt, MethodHeader.ofRef_toRef, if_pos (hat.fits.trans hc.room)]
  rfl

/-- A method that waits goes on when its context is made the active one. -/
theorem World.Waits.load (hat : w.Waits g c j pc stack) (hguides : w.Guides g (c :: held)) (hc : c ∉ held) :
    ∃ g', g.load (.object c) = some g' ∧ w.Runs g' held c j pc stack ∧ Works (c :: held) g g' ∧
      g'.pool = g.pool := by
  let limit := min j.draft.header.tempCount (g.nodes c).len
  let registers := g.registers.running c j pc stack.length limit
  have h : Works (c :: held) g { g with registers } := .other g registers g.memo g.pool
  refine ⟨{ g with registers }, ?_, ?_, h, rfl⟩
  · unfold Graph.load
    rw [hat.loaded]
    rfl
  · exact
      { toIsAt := hat.same h rfl
        guides := hguides.works h rfl (hguides.pooled.works h rfl)
        apart := hc
        registers := rfl }

/-! ## Methods that run -/

namespace World.Runs

theorem active (hr : w.Runs g held c j pc stack) : g.registers.active = .object c := by rw [hr.registers]; rfl

theorem home (hr : w.Runs g held c j pc stack) : g.registers.home = .object c := by rw [hr.registers]; rfl

theorem sp_eq (hr : w.Runs g held c j pc stack) : g.registers.sp = stack.length := by rw [hr.registers]; rfl

theorem pc_eq (hr : w.Runs g held c j pc stack) : g.registers.pc = pc := by rw [hr.registers]; rfl

theorem tempLimit (hr : w.Runs g held c j pc stack) :
    g.registers.tempLimit = min j.draft.header.tempCount (g.nodes c).len := by
  rw [hr.registers]
  rfl

theorem active? (hr : w.Runs g held c j pc stack) : g.active? = some c := active?_eq_some.mpr hr.active

theorem kernel (hr : w.Runs g held c j pc stack) : g.Kernel := hr.guides.kernel

/-- The registers are written back. -/
theorem flush (hr : w.Runs g held c j pc stack) :
    g.flush = some (g.setNode c ((g.nodes c).suspended pc stack.length)) := by
  have hfields := hr.isActivation.fields
  let o := (g.nodes c).withField Context.pcField (.immediate (.ofNat pc))
  have hfirst : g.storeField (.object c) Context.pcField (.immediate (.ofNat pc)) =
      some (g.setNode c o) := by
    refine if_pos ⟨by rw [hfields]; decide, ?_⟩
    rw [Node.live_withField fun _ => by decide]
    exact g.live_le_known c
  have hself : (g.setNode c o).nodes c = o := Function.update_self ..
  have hknown : g.registers.sp ≤ (g.setNode c o).known c := by
    have hactive : (g.setNode c o).registers.active = .object c := hr.active
    unfold Graph.known
    rw [if_pos hactive]
    exact Nat.le_max_right ..
  have hsecond : (g.setNode c o).storeField (.object c) Context.spField (.immediate (.ofNat stack.length)) =
      some ((g.setNode c o).setNode c
        (((g.setNode c o).nodes c).withField Context.spField (.immediate (.ofNat stack.length)))) := by
    refine if_pos ⟨?_, le_trans ?_ hknown⟩
    · rw [hself, Node.fields_withField, hfields]
      decide
    · rw [hself, hr.sp_eq]
      exact Node.live_suspended_le hr.isActivation.context pc _
  unfold Graph.flush
  rw [hr.active]
  dsimp only
  rw [hr.pc_eq, hr.sp_eq, hfirst]
  refine hsecond.trans ?_
  rw [setNode_setNode, hself]
  rfl

/-- Once the registers are written back, the method can wait. -/
theorem suspended (hr : w.Runs g held c j pc stack) :
    let g' := g.setNode c ((g.nodes c).suspended pc stack.length)
    w.Waits g' c j pc stack ∧ Works held g g' ∧ w.Guides g' (c :: held) := by
  let o := (g.nodes c).suspended pc stack.length
  have h : Works held g (g.setNode c o) := .setNode ⟨rfl, rfl, rfl⟩ rfl hr.isActivation.context hr.apart
  have hself : (g.setNode c o).nodes c = o := Function.update_self ..
  refine ⟨⟨hr.toIsAt.moves h (fun index hpc hsp => ?_) (fun i v hi => ?_) hr.fits hr.pc_lt, ?_, ?_⟩, h,
    hr.guides.works h rfl (hr.guides.pooled.works h rfl)⟩
  · rw [hself, Node.field_suspended _ _ _ hpc hsp]
  · rw [hself]
    exact hr.values i v hi
  · rw [hself]
    exact Node.pc_suspended ..
  · rw [hself]
    exact Node.sp_suspended ..

/-- A method that runs is not disturbed by collections. -/
theorem endures (w : World) (held : List Nat) (c : Nat) (j : Job) (pc : Nat) (stack : List Value) :
    w.Endures held (c :: held) fun g => w.Runs g held c j pc stack where
  guides hr := hr.guides
  sub := List.subset_cons_self ..
  collected {g} hr := by
    obtain ⟨hwaits, h, hguides⟩ := hr.suspended
    let g₁ := g.setNode c ((g.nodes c).suspended pc stack.length)
    have hother : Works (c :: held) g₁ { g₁ with pool := ⟨[], []⟩ } := .other g₁ g₁.registers g₁.memo _
    have hguides' := hguides.works hother rfl (.empty hguides.pooled.busy_lt rfl)
    obtain ⟨g₂, hload, hr₂, h₂, -⟩ := (hwaits.works hother List.mem_cons_self).load hguides' hr.apart
    refine ⟨g₂, ?_, hr₂, (h.trans (hother.mono (List.subset_cons_self ..))).trans
      (h₂.mono (List.subset_cons_self ..)), ?_⟩
    · unfold Graph.collected
      rw [hr.flush]
      show ({ g₁ with pool := ⟨[], []⟩ } : Graph).reload = _
      unfold reload
      rw [show ({ g₁ with pool := ⟨[], []⟩ } : Graph).registers.active = .object c from hr.active]
      exact hload
    · obtain ⟨registers, hloaded, rfl⟩ := Option.map_eq_some_iff.mp hload
      rw [(hwaits.works hother List.mem_cons_self).loaded] at hloaded
      cases hloaded
      have hlen : (({ g₁ with pool := ⟨[], []⟩ } : Graph).nodes c).len = (g.nodes c).len := by
        show (g₁.nodes c).len = _
        rw [show g₁.nodes c = _ from Function.update_self ..]
        rfl
      rw [hlen]
      exact hr.registers.symm
  works {g g'} hr h hregisters hguides :=
    { toIsAt := hr.toIsAt.same h (h.held_eq hr.isActivation.lt List.mem_cons_self)
      guides := hguides
      apart := hr.apart
      registers := by
        rw [h.held_eq hr.isActivation.lt List.mem_cons_self, hregisters]
        exact hr.registers }
  withPinned values hr :=
    { isCompiled := hr.isCompiled.withPinned values
      isActivation := { hr.isActivation with }
      values := hr.values
      fits := hr.fits
      pc_lt := hr.pc_lt
      guides := hr.guides.withPinned values
      apart := hr.apart
      registers := hr.registers }

end World.Runs

end Graph

end ObjectMachine
