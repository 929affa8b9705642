import ObjectMachine.Proofs.Machine.Permanence

/-!
# Symbols are unique

A symbol is made when its name is asked for first, and whoever asks for the name again gets the same object,
however often memory was collected in between. Its bytes are those of the name: no primitive writes into a
symbol, and what the machine writes by itself goes to other objects.

## Main results

* `Machine.symbols_last`: symbols stay what they are, whatever is done with a machine.
-/

namespace ObjectMachine

namespace Graph

/-- Symbols do not depend on the other objects that the machine knows. -/
theorem Lexicon.enduring : Enduring Lexicon where
  lasts hg h := h.lexicon hg
  core {g core} hg hcore :=
    { classes := by
        show Function.Injective core.cls
        rw [hcore]
        exact hg.classes
      symbol := fun hmem => by
        obtain ⟨n, rfl, hn, htext, hbytes⟩ := hg.symbol hmem
        refine ⟨n, rfl, hn, ⟨htext.format, htext.fields, ?_⟩, hbytes⟩
        show (g.nodes n).cls = core.cls .symbol
        rw [hcore]
        exact htext.cls
      distinct := hg.distinct }

/-- No symbol is known, and the classes of the kernel are there. -/
structure Wordless (g : Graph) : Prop where
  classes : Function.Injective g.core.cls
  symbols : g.symbols = []

theorem Wordless.lexicon {g : Graph} (hg : g.Wordless) : g.Lexicon where
  classes := hg.classes
  symbol hmem := by
    rw [hg.symbols] at hmem
    cases hmem
  distinct := by
    rw [hg.symbols]
    exact ⟨List.nodup_nil, List.nodup_nil⟩

theorem Bare.wordless {g : Graph} (hg : g.Bare KernelClass.count) : g.Wordless where
  classes k k' heq := by
    rw [(hg.cls k k.index.isLt).1, (hg.cls k' k'.index.isLt).1] at heq
    exact classNode_injective (Value.object.inj heq)
  symbols := hg.symbols

end Graph

namespace Spec

open ObjectMachine.Graph

theorem Gives.wordless_allocate (cls : Value) (format : Format) (fields len : Nat) :
    (Spec.allocate cls format fields len).Gives Wordless (fun _ => Wordless) fun _ => True := by
  have hcollect : Spec.mayCollect.Keeps Wordless := Keeps.mayCollect fun g g' hg h =>
    have hsame := Collected.of_collected h
    ⟨hsame.core ▸ hg.classes, hsame.symbols.trans hg.symbols⟩
  refine (Gives.fresh hcollect).mono ?_ fun _ _ => trivial
  rintro v _ ⟨g, hash, hg, -, rfl⟩
  exact ⟨hg.classes, hg.symbols⟩

/-- The truth values are made before any symbol. -/
theorem Gives.wordless_createConstants : Spec.createConstants.Gives (Graph.Bare · KernelClass.count)
    (fun _ => Lexicon) fun _ => True := by
  have hcore : ∀ {f : Core → Core}, (∀ core, (f core).cls = core.cls) →
      (Spec.modifyCore f).Gives Wordless (fun _ => Wordless) fun _ => True := by
    rintro f hf g hg _ rfl
    refine ⟨?_, hg.symbols⟩
    show Function.Injective (f g.core).cls
    rw [hf]
    exact hg.classes
  have hask : ∀ {α : Type} {φ : Graph → α}, (Spec.ask φ).Gives Wordless (fun _ => Wordless) fun _ => True :=
    of_keeps (Keeps.ask _) fun _ _ => trivial
  refine bind (P := fun _ => Wordless) ?_ fun core => bind (P := fun _ => Wordless) ?_ fun _ =>
    bind (wordless_allocate _ _ _ _) fun _ => bind (hcore fun _ => rfl) fun _ => bind hask fun _ =>
    bind (wordless_allocate _ _ _ _) fun _ => mono (hcore fun _ => rfl) (fun _ _ h => h.lexicon) fun _ h => h
  · rintro g hg _ rfl
    exact hg.wordless
  · refine of_keeps (.write fun g g' hg h => ?_) fun _ _ => trivial
    obtain ⟨n, -, rfl⟩ := of_storeClass h
    exact ⟨hg.classes, hg.symbols⟩

theorem performAll_append (before after : List Operation) : Spec.performAll (before ++ after) =
    Spec.performAll before >>= fun _ => Spec.performAll after := by
  induction before with
  | nil => exact (Spec.pure_bind () fun _ => Spec.performAll after).symm
  | cons operation rest ih =>
    show (Spec.perform operation >>= fun _ => Spec.performAll (rest ++ after)) =
      (Spec.perform operation >>= fun _ => Spec.performAll rest) >>= fun _ => Spec.performAll after
    rw [Spec.bind_assoc, ih]

end Spec

namespace Machine

open ObjectMachine.Graph

variable {m m₁ m₂ : Machine} {g : Graph} {p : Placement} {starts : List Nat} {config : MachineConfig}
  {before after : List Operation}

/-- Each symbol that a machine knows has the bytes of its name, no other name has it, and it is what
everyone gets who asks for the name. -/
structure SpellsNames (m : Machine) : Prop where
  spelled : ∀ {name r}, m.symbol? name = some r →
    m.isSymbol r = .ok true ∧ m.heap.bytes r = .ok (Text.utf8Bytes name)
  apart : ∀ {name name' r}, m.symbol? name = some r → m.symbol? name' = some r → name = name'
  answers : ∀ {name r}, m.symbol? name = some r → intern name m = .ok r m

/-- What is known under a name is known to the graph under the same name. -/
theorem Realizes.symbol? (hm : m.Realizes g p starts) {name : String} {r : Ref}
    (hr : m.symbol? name = some r) : ∃ v, g.symbol? name = some v ∧ p.Shows r v := by
  have hknown := hm.roots.symbols.named? name
  unfold Machine.symbol? at hr
  rw [hr] at hknown
  unfold Graph.symbol?
  generalize Graph.named? g.symbols name = known at hknown ⊢
  cases hknown with | some hshows => exact ⟨_, rfl, hshows⟩

theorem Realizes.spellsNames (hm : m.Realizes g p starts) (hg : g.Lexicon) : m.SpellsNames where
  spelled {name r} hr := by
    obtain ⟨v, hv, hshows⟩ := hm.symbol? hr
    obtain ⟨n, rfl, -, htext, hbytes⟩ := hg.symbol (mem_of_named? hv)
    obtain ⟨b, hsymbol, rfl⟩ := (Reads.isInstance hshows .symbol).ok hm rfl
    obtain ⟨bytes, hread, rfl⟩ := (Reads.bytes hshows).ok hm hbytes
    exact ⟨hsymbol.trans (congrArg Except.ok (decide_eq_true htext.cls)), hread⟩
  apart {name name' r} hr hr' := by
    obtain ⟨v, hv, hshows⟩ := hm.symbol? hr
    obtain ⟨v', hv', hshows'⟩ := hm.symbol? hr'
    obtain rfl := hshows.value_eq hshows'
    exact hg.distinct.name_unique (mem_of_named? hv) (mem_of_named? hv')
  answers {name r} hr := by
    have hasked : (Action.ask fun m => m.symbol? name) m = .ok (some r) m := congrArg (Outcome.ok · m) hr
    exact Action.bind_eq_ok.mpr ⟨some r, m, hasked, rfl⟩

/-- A symbol of one machine is the same object as a symbol of another one. -/
def SameSymbols (m₁ m₂ : Machine) (p₁ p₂ : Placement) : Prop :=
  ∀ name r, m₁.symbol? name = some r →
    ∃ r' v, m₂.symbol? name = some r' ∧ p₁.Shows r v ∧ p₂.Shows r' v

/-- Symbols are unique, and they last: whatever is done with a fresh machine that keeps its memory
well-formed, each symbol spells its name and no other name has it, and whatever is done then, a name that has
a symbol keeps it. -/
theorem symbols_last (hok : ofConfig config = .ok m) (hbytes : config.heap.maxBytes < countLimit)
    (hkeeps : m.KeepsHeap (before ++ after)) (hbefore : operate before m = .ok () m₁)
    (hafter : Operation.performAll after m₁ = .ok () m₂) :
    m₁.SpellsNames ∧ m₂.SpellsNames ∧ ∃ g₁ p₁ starts₁ g₂ p₂ starts₂, m₁.Realizes g₁ p₁ starts₁ ∧
      m₂.Realizes g₂ p₂ starts₂ ∧ Spec.performAll after g₁ (.ok () g₂) ∧ m₁.SameSymbols m₂ p₁ p₂ := by
  have hm := (legible_ofConfig hok hbytes).realizes
  unfold KeepsHeap at hkeeps
  rw [Spec.performAll_append, ← Spec.bind_assoc] at hkeeps
  obtain ⟨_, g₁, p₁, starts₁, hout₁, hm₁⟩ := hm.exists_outcome
    (Simulates.bootstrap.bind_steady fun _ _ _ _ _ => Simulates.operations before)
    (fun hwrong => hkeeps ⟨.wrong, hwrong, rfl⟩) hbefore
  obtain ⟨_, g₂, p₂, starts₂, hout₂, hm₂⟩ := hm₁.exists_outcome
    (Simulates.operations after) (fun hwrong => hkeeps ⟨.ok () g₁, hout₁, hwrong⟩) hafter
  have hlexicon : g₁.Lexicon := by
    have hgives := (Spec.Gives.bootstrap Lexicon.enduring Spec.Gives.wordless_createConstants).bind
      fun _ => Spec.Gives.of_keeps ((Spec.Preserves.operations before).endures Lexicon.enduring)
        (Q := fun _ => True) fun _ _ => trivial
    exact hgives _ (unborn_ofConfig hok) _ hout₁
  have hlasts : g₁.Lasts g₂ := (Spec.Preserves.operations after).begin g₁ g₁ rfl _ hout₂
  refine ⟨hm₁.spellsNames hlexicon, hm₂.spellsNames (hlasts.lexicon hlexicon), g₁, p₁, starts₁, g₂, p₂,
    starts₂, hm₁, hm₂, hout₂, fun name r hr => ?_⟩
  obtain ⟨v, hv, hshows⟩ := hm₁.symbol? hr
  have hv₂ : Graph.named? g₂.symbols name = some v := named?_mono hv hlasts.symbols
  have hknown := hm₂.roots.symbols.named? name
  rw [hv₂] at hknown
  unfold Machine.symbol?
  generalize m₂.symbols.find? name = found at hknown ⊢
  cases hknown with | some hshows' => exact ⟨_, v, rfl, hshows, hshows'⟩

/-- A name is asked for, memory is collected, and the name is asked for again. -/
theorem askTwice_keepsHeap (hok : ofConfig config = .ok m) :
    m.KeepsHeap ([.symbol "answer"] ++ [.collect, .symbol "answer"]) := by
  intro hwrong
  have hintern : ∀ {g : Graph}, g.Settled → (Spec.perform (.symbol "answer")).Ends g
      (fun _ g' => g'.Settled) (fun _ _ => True) fun _ => True := fun {g} hg => by
    have hspec : (Operation.symbol "answer").spec.Ends g (fun a g' => ∃ v, a = some v ∧ g'.Settled)
        (fun _ _ => False) fun _ => True :=
      Spec.Ends.bind (Spec.Ends.intern hg fun _ => trivial) fun v g₁ h => .pure ⟨v, rfl, h.settled⟩
    refine Spec.Ends.bind (Spec.Ends.attempt hspec) ?_
    rintro (failure | a) g₁ hknown
    · exact hknown.elim
    · obtain ⟨v, rfl, hsettled⟩ := hknown
      exact Spec.Ends.modify_last (hsettled.withPinned _)
  have hends : (do Spec.bootstrap; Spec.performAll ([.symbol "answer"] ++ [.collect, .symbol "answer"]) :
      Spec Unit).Ends (m.graph [] .null) (fun _ _ => True) (fun _ _ => True) fun _ => True := by
    refine Spec.Ends.bind (Spec.Ends.bootstrap (unborn_ofConfig hok) trivial) ?_
    rintro _ g ⟨w, hbooted⟩
    refine .bind (hintern hbooted.describes.settled) fun _ g₁ hg₁ => ?_
    refine .bind (ends_perform (Q := Settled) ?_) fun _ g₂ hg₂ =>
      .bind (hintern hg₂) fun _ g₃ _ => .pure trivial
    refine .bind (Spec.Ends.collectGarbage hg₁.idle hg₁.kernel.rooted) fun _ g' heq => .pure ⟨rfl, ?_⟩
    rw [heq]
    exact { hg₁ with kernel := { hg₁.kernel with } }
  exact hends _ hwrong

theorem askTwice_lasts : ∃ m, ofConfig {} = .ok m ∧ ({} : HeapConfig).maxBytes < countLimit ∧
    m.KeepsHeap ([.symbol "answer"] ++ [.collect, .symbol "answer"]) ∧
    ∀ m₁ m₂, operate [.symbol "answer"] m = .ok () m₁ →
      Operation.performAll [.collect, .symbol "answer"] m₁ = .ok () m₂ →
      m₁.SpellsNames ∧ m₂.SpellsNames ∧ ∃ g₁ p₁ starts₁ g₂ p₂ starts₂, m₁.Realizes g₁ p₁ starts₁ ∧
        m₂.Realizes g₂ p₂ starts₂ ∧ Spec.performAll [.collect, .symbol "answer"] g₁ (.ok () g₂) ∧
          m₁.SameSymbols m₂ p₁ p₂ := by
  obtain ⟨m, hok⟩ : ∃ m, ofConfig {} = .ok m := ⟨_, rfl⟩
  have hkeeps := askTwice_keepsHeap hok
  exact ⟨m, hok, by decide, hkeeps, fun m₁ m₂ hbefore hafter =>
    symbols_last hok (by decide) hkeeps hbefore hafter⟩

end Machine

end ObjectMachine
