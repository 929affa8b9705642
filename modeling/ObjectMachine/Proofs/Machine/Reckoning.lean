import ObjectMachine.Proofs.Class.Lineage
import ObjectMachine.Proofs.Graph.Asking
import ObjectMachine.Proofs.Machine.Permanence

/-!
# Machines that reckon

A machine is bootstrapped and used: classes are defined, methods are added, except for those that decide
what messages to integers are answered with, integers are made and held, and messages are sent to them.
Whatever was done, a message to an integer is answered with what it should be answered with, and fails if
there is no such thing.

An integer is a small one if it fits, and a large one otherwise. Objects that nothing leads to from the
roots have no names in a graph, but an integer that is held from outside may be given one.

## Main results

* `Machine.IsInteger`: a reference is an integer of a value.
* `Machine.Realizes.isInteger`, `Machine.Realizes.exists_integer`: integers of a machine are those of a graph.
* `Machine.Reckons`: machines in use.
* `Machine.Reckons.sendMessage_exact`: what messages to integers are answered with.
-/

namespace ObjectMachine

/-! ## Integers of a machine -/

namespace Machine

/-- A reference is the integer of a value: small if the value fits, and large otherwise. -/
def IsInteger (m : Machine) (r : Ref) (value : Int) : Prop :=
  if Ref.isSmall value = true then r = .ofInt value
  else m.heap.Holds r ∧ m.integerValue? r = .ok (some value)

/-- A reference is what a message is answered with. -/
def IsReply (m : Machine) (r : Ref) : Reply → Prop
  | .integer value => m.IsInteger r value
  | .truth value => r = m.core.boolean value

namespace Realizes

variable {m : Machine} {g : Graph} {p : Placement} {starts : List Nat} {r : Ref} {v : Value} {value : Int}

/-- What stands for an integer of a graph is one of the machine. -/
theorem isInteger (hm : m.Realizes g p starts) (hr : p.Shows r v) (hv : g.IsInteger v value) :
    m.IsInteger r value := by
  unfold IsInteger
  split
  · rename_i hsmall
    rw [hv.eq_immediate hsmall] at hr
    exact hr.1
  · rename_i hlarge
    obtain ⟨read, hread, hshows⟩ := (Reads.integerValue? hr).ok hm hv.integerValue?
    obtain ⟨n, rfl, -⟩ := hv.exists_object (Bool.eq_false_iff.mpr hlarge)
    cases hshows with
    | some heq =>
      cases heq
      exact ⟨hm.depicts.laidOut.holds_iff.mpr (hm.depicts.known_of_shows hr hr.isPointer_eq), hread⟩

theorem isReply {reply : Reply} (hm : m.Realizes g p starts) (hr : p.Shows r v) (hv : g.IsReply v reply) :
    m.IsReply r reply := by
  cases reply with
  | integer value => exact hm.isInteger hr hv
  | truth value =>
    rw [show v = g.core.boolean value from hv] at hr
    cases value with
    | true => exact hr.ref_eq hm.roots.core.trueObject
    | false => exact hr.ref_eq hm.roots.core.falseObject

/-- A large integer is an object with the format and the class of large integers. -/
theorem exists_large (hm : m.Realizes g p starts) (hr : m.IsInteger r value) (hlarge : Ref.isSmall value = false) :
    ∃ i ∈ starts, r = .ofWordIndex i ∧ (m.heap.view i).format = .largeInteger ∧
      (m.heap.view i).ref 1 = m.core.cls .largeInteger ∧ m.heap.largeValue? i = some value := by
  have hl := hm.depicts.laidOut
  obtain ⟨hholds, hvalue⟩ := (if_neg (by rw [hlarge]; exact Bool.false_ne_true)).mp hr
  obtain ⟨i, hi, rfl⟩ := hl.holds_iff.mp hholds
  have hpointer := hl.isPointer hi
  have hinstance : m.isInstance .largeInteger (.ofWordIndex i) =
      .ok (decide ((m.heap.view i).ref 1 = m.core.cls .largeInteger)) := by
    unfold isInstance
    rw [if_pos hpointer, hl.classOf hi]
  unfold integerValue? at hvalue
  rw [if_neg (by rw [Ref.not_isSmallInteger_of_isPointer hpointer]; exact Bool.false_ne_true), hinstance] at hvalue
  have hvalue : (if decide ((m.heap.view i).ref 1 = m.core.cls .largeInteger) = true then
      m.heap.largeInteger? (.ofWordIndex i) else .ok none) = .ok (some value) := hvalue
  split at hvalue
  · rename_i hcls
    by_cases hformat : (m.heap.view i).format = .largeInteger
    · rw [hl.largeInteger? hi hformat] at hvalue
      exact ⟨i, hi, rfl, hformat, of_decide_eq_true hcls, Except.ok.inj hvalue⟩
    · unfold Heap.largeInteger? Heap.checkFormat at hvalue
      rw [hl.format hi] at hvalue
      have hnot : decide ((m.heap.view i).format = .largeInteger) = false := decide_eq_false hformat
      simp [hnot, require, bind, Except.bind] at hvalue
  · cases hvalue

/-- The node of a large integer. -/
def largeNode (h : Heap) (i : Nat) (cls : Value) : Node where
  format := .largeInteger
  fields := (h.view i).fields
  len := (h.view i).len
  hash := (h.view i).header.identityHash
  captured := (h.view i).header.isCaptured
  cls := cls
  field _ := .immediate .null
  element _ := .immediate .null
  raw _ := 0
  large? := h.largeValue? i

theorem shownAt_largeNode {i : Nat} {cls : Value} (hm : m.Realizes g p starts) (hi : i ∈ starts)
    (hformat : (m.heap.view i).format = .largeInteger) (hcls : p.Shows ((m.heap.view i).ref 1) cls) :
    (largeNode m.heap i cls).ShownAt (largeNode m.heap i cls).live m.heap p i where
  format := hformat
  fields := rfl
  len := rfl
  hash := rfl
  captured := rfl
  cls := hcls
  field k hk := by
    have hallowed := hm.depicts.allowed i hi
    rw [hformat] at hallowed
    have hnone : (m.heap.view i).fields = 0 := hallowed.resolve_right (by decide)
    have hlt : k < (m.heap.view i).fields := hk
    omega
  live_le := Nat.le_refl _
  le_len := Nat.le_refl _
  element htail := by cases htail
  raw _ hnot := absurd rfl hnot
  large := rfl

/-- An object in memory that has no name is given one. -/
theorem withNew {i : Nat} {o : Node} (hm : m.Realizes g p starts) (hkernel : kernelObjects ≤ g.next) (hi : i ∈ starts)
    (hfresh : ∀ n, p.find? n ≠ some i) (hshown : o.ShownAt o.live m.heap p i) :
    ∃ p', (∀ r v, p.Shows r v → p'.Shows r v) ∧ p'.Shows (.ofWordIndex i) (.object g.next) ∧
      m.Realizes (g.withNew o) p' starts := by
  have hl := hm.depicts.laidOut
  have hnew : p.find? g.next = none := by
    cases hfind : p.find? g.next with
    | none => rfl
    | some i => exact absurd (hm.bounded hfind) (Nat.lt_irrefl _)
  let p' := p.extend g.next i hfresh ⟨hl.first_le hi, hl.lt_addressLimit hi⟩
  have hshows : ∀ r v, p.Shows r v → p'.Shows r v := fun r v hr => hr.extend hnew
  have hself : p'.find? g.next = some i := Placement.find?_extend_self
  have hother : ∀ {n}, n ≠ g.next → p'.find? n = p.find? n := Placement.find?_extend_of_ne
  have hfound : ∀ {n i}, p.find? n = some i → p'.find? n = some i := fun {n i} hi => by
    rw [hother (by rintro rfl; rw [hnew] at hi; cases hi)]
    exact hi
  have hnode : (g.withNew o).nodes g.next = o := Function.update_self ..
  have hkept : ∀ n < g.next, (g.withNew o).nodes n = g.nodes n := fun n hn =>
    Function.update_of_ne (Nat.ne_of_lt hn) ..
  have hactive : g.registers.active ≠ .object g.next := by
    intro hactive
    obtain ⟨i, hi, -⟩ := hactive ▸ hm.roots.registers.active
    rw [hnew] at hi
    cases hi
  have hknown : (g.withNew o).known = Function.update g.known g.next o.live := by
    funext n
    unfold Graph.known
    rw [Function.update_apply]
    by_cases hn : n = g.next
    · rw [if_pos hn, hn]
      show (if g.registers.active = _ then _ else (Function.update g.nodes g.next o g.next).live) = _
      rw [if_neg hactive, Function.update_self]
    · rw [if_neg hn]
      show (if g.registers.active = _ then max (Function.update g.nodes g.next o n).live _
        else (Function.update g.nodes g.next o n).live) = _
      rw [Function.update_of_ne hn]
      rfl
  have hcongr : ∀ {o : Node} {known j : Nat}, j ∈ starts → o.ShownAt known m.heap p j → o.ShownAt known m.heap p' j :=
    fun hj hs => hs.congr (fun _ _ => rfl) rfl ⟨.refl _, fun _ => .inl rfl⟩ (hm.depicts.allowed _ hj) rfl hshows
  have hroots := hm.roots.imp hshows
  refine ⟨p', hshows, ⟨i, hself, rfl⟩, ?_⟩
  refine
    { depicts :=
        { hm.depicts with
          placed := fun {n j} hn => ?placed
          shows := fun {n j} hn => ?shows }
      bounded := fun {n j} hn => ?bounded
      first := fun n hn _ => ?first
      packed := fun hle => ?packed
      nil := hshows _ _ hm.nil
      committed := hm.committed
      reserved := hm.reserved
      counted := hm.counted
      roots := ⟨hroots.registers, hroots.core, hroots.symbols, hroots.globals, hroots.pinned⟩
      small := hm.small.imp hshows
      large := hm.large.imp hshows
      cache := fun entry hentry hmethod => ?cache
      positions := fun c hc => ?positions }
  case placed =>
    by_cases heq : n = g.next
    · rw [heq, hself] at hn
      exact Option.some.inj hn ▸ hi
    · rw [hother heq] at hn
      exact hm.depicts.placed hn
  case shows =>
    rw [hknown]
    by_cases heq : n = g.next
    · rw [heq, hself] at hn
      rw [heq, ← Option.some.inj hn, Function.update_self, hnode]
      exact hcongr hi hshown
    · rw [hother heq] at hn
      rw [Function.update_of_ne heq, hkept n (hm.bounded hn)]
      exact hcongr (hm.depicts.placed hn) (hm.depicts.shows hn)
  case bounded =>
    show n < g.next + 1
    by_cases heq : n = g.next
    · omega
    · rw [hother heq] at hn
      exact Nat.lt_succ_of_lt (hm.bounded hn)
  case first =>
    have hlt := Nat.lt_of_lt_of_le hn hkernel
    rw [originOf_congr fun k hk => by rw [hkept k (hk.trans hlt)]]
    exact hfound (hm.first n hn hlt)
  case packed =>
    have hle : g.next + 1 ≤ kernelObjects := hle
    omega
  case cache =>
    obtain ⟨cls, selector, method, hcls, hselector, hmethod, hmemo⟩ := hm.cache entry hentry hmethod
    exact ⟨cls, selector, method, hshows _ _ hcls, hshows _ _ hselector, hshows _ _ hmethod, hmemo⟩
  case positions =>
    refine (hm.positions c hc).mono hfound (fun n j hn => ?_) rfl
    rw [hkept n (hm.bounded hn)]
    exact .refl _

/-- An integer of a machine is one of its graph, or is given a name. -/
theorem exists_integer (hm : m.Realizes g p starts) (hg : g.Kernel) (hr : m.IsInteger r value) :
    ∃ g' p' v, m.Realizes g' p' starts ∧ (∀ r v, p.Shows r v → p'.Shows r v) ∧ p'.Shows r v ∧
      g'.IsInteger v value ∧ g.Idles [] g' ∧ g.SameStock g' := by
  cases hsmall : Ref.isSmall value with
  | true =>
    obtain rfl : r = .ofInt value := (if_pos hsmall).mp hr
    exact ⟨g, p, .immediate (.ofInt value), hm, fun _ _ h => h, p.shows_ofInt value,
      .of_isSmall hsmall, .refl [] g, .refl g⟩
  | false =>
    obtain ⟨i, hi, rfl, hformat, hcls, hlarge⟩ := hm.exists_large hr hsmall
    have hcore : p.Shows ((m.heap.view i).ref 1) (g.core.cls .largeInteger) :=
      hcls ▸ hm.roots.core.cls .largeInteger
    by_cases hplaced : ∃ n, p.find? n = some i
    · obtain ⟨n, hn⟩ := hplaced
      have hs := hm.depicts.shows hn
      refine ⟨g, p, .object n, hm, fun _ _ h => h, ⟨i, hn, rfl⟩, ?_, .refl [] g, .refl g⟩
      unfold Graph.IsInteger
      rw [Ref.ofInt?_of_not hsmall]
      exact ⟨n, rfl, hm.bounded hn, hs.format.symm.trans hformat, hs.cls.value_eq hcore, hs.large.symm.trans hlarge⟩
    · have hfresh : ∀ n, p.find? n ≠ some i := fun n hn => hplaced ⟨n, hn⟩
      obtain ⟨p', hshows, hself, hm'⟩ :=
        hm.withNew hg.next hi hfresh (hm.shownAt_largeNode hi hformat hcore)
      refine ⟨_, p', .object g.next, hm', hshows, hself, ?_, .withNew _, ⟨rfl, rfl⟩⟩
      unfold Graph.IsInteger
      rw [Ref.ofInt?_of_not hsmall]
      have hnode : (g.withNew (largeNode m.heap i (g.core.cls .largeInteger))).nodes g.next =
          largeNode m.heap i (g.core.cls .largeInteger) := Function.update_self ..
      exact ⟨g.next, rfl, Nat.lt_succ_self _, by rw [hnode]; rfl, by rw [hnode]; rfl, by rw [hnode]; exact hlarge⟩

end Realizes

end Machine

/-! ## Machines in use -/

/-- No outcome is unknown, and there is one. -/
theorem Simulates.finishes {α β : Type} [Depicted α β] {p : Placement} {K : Placement → Prop}
    {x : Action α} {y : Spec β} (hx : Simulates p K x y) {m : Machine} {g : Graph}
    {starts : List Nat} (hm : m.Realizes g p starts) {Q : β → Graph → Prop}
    {E : Failure → Graph → Prop} {S : Fatal → Prop} (hy : y.Finishes g Q E S) :
    x m ≠ .unfinished := by
  intro hrun
  have hfits := hx m g starts hm hy.1.not_wrong
  rw [hrun] at hfits
  exact hy.2 hfits

/-- A command leaves alone what messages to integers are answered with. -/
def Directory.Spares (d : Directory) (command : Command) : Prop :=
  ∀ k name, d.Adds k name command → ¬ k.Guards name

namespace Graph

variable {d : Directory} {w w' : World} {g g' : Graph} {command : Command}

/-- A graph whose classes are known and in which integers are answered to. -/
structure Reckons (d : Directory) (w : World) (g : Graph) : Prop where
  charts : Charts d w g
  guides : w.Guides g []
  integers : w.Integers g

namespace Reckons

/-- The classes are the same. -/
theorem of_guides (h : Reckons d w g) (hidle : g'.Idle) (hg : w.Guides g' []) (hi : w.Integers g')
    (hpinned : g'.pinned = g.pinned) : Reckons d w g' where
  charts :=
    { h.charts with
      describes := hg.describes_idle hidle
      pinned := hpinned ▸ h.charts.pinned }
  guides := hg
  integers := hi

theorem idle (h : Reckons d w g) : g.Idle := h.charts.describes.settled.idle

/-- An object was named. -/
theorem idles (h : Reckons d w g) (hidles : g.Idles [] g') (hstock : g.SameStock g') : Reckons d w g' := by
  have hw := hidles.toWorks
  refine h.of_guides ?_ (h.guides.works hw hstock.memo (h.guides.pooled.works hw hstock.pool))
    (h.integers.works h.guides.describes hw) hw.pinned
  unfold Idle
  rw [hidles.registers]
  exact h.idle

/-- Other things are held. -/
theorem withPinned (h : Reckons d w g) {pinned : List (Option Nat)} {values : List Value}
    (hpinned : List.Forall₂ (fun entry v => ∀ i ∈ entry, ∃ c, w.seat? i = some c ∧ v = .object c)
      pinned values) : Reckons { d with pinned } w (g.withPinned values) :=
  ⟨h.charts.withPinned hpinned, h.guides.withPinned values, h.integers.withPinned values⟩

/-- Objects were added. -/
theorem adds (h : Reckons d w g) (hadds : g.Adds g') (hless : g.LessStock g') : Reckons d w g' := by
  have hw := h.charts.describes
  have hleads := World.Leads.adds hw hadds
  exact ⟨h.charts.leads hleads rfl rfl, h.guides.leads h.idle hleads hless List.suffix_rfl fun _ _ => rfl,
    h.integers.leads hw hleads List.suffix_rfl fun _ _ _ => rfl⟩

/-- A command was carried out that leaves alone what messages to integers are answered with. -/
theorem develops (h : Reckons d w g) (hd : Develops d command w g w' g') (hless : g.LessStock g')
    (hspares : d.Spares command) : Reckons (d.after command) w' g' where
  charts := hd.charts
  guides := by
    refine World.Guides.withPinned (g := g'.withPinned g.pinned) ?_ g'.pinned
    rcases hd.found with hlog | hforgotten
    · exact h.guides.leads h.idle hd.leads ⟨hless.memo, hless.pool⟩ hd.roster hlog
    · exact h.guides.of_leads hd.leads ⟨hless.memo, hless.pool⟩ fun hm => (hforgotten _ _ _ hm).elim
  integers := by
    refine World.Integers.withPinned (g := g'.withPinned g.pinned) ?_ g'.pinned
    refine h.integers.leads h.charts.describes hd.leads hd.roster fun k name hguards => hd.log k name fun hadds => ?_
    exact hspares k name hadds hguards

end Reckons

end Graph

namespace Machine

variable {d : Directory} {m m' : Machine} {r s t : Ref} {a b value : Int} {o : Operator} {fuel : Nat}
  {command : Command}

/-- Machines that are bootstrapped and used: by commands that leave alone what messages to integers are
answered with, and by making integers, holding them and sending messages to them. -/
inductive Reckons : Directory → Machine → Prop
  | bootstrapped {config : MachineConfig} {m m' : Machine} : ofConfig config = .ok m →
      config.heap.maxBytes < countLimit → m.bootstrap = .ok () m' → Reckons .kernel m'
  | ran {d : Directory} {m m' : Machine} {command : Command} : Reckons d m → d.admits command = true →
      d.Spares command → command.run m = .ok () m' → Reckons (d.after command) m'
  | made {d : Directory} {m m' : Machine} {value : Int} {r : Ref} : Reckons d m →
      newInteger value m = .ok r m' → Reckons d m'
  | held {d : Directory} {m m' : Machine} {r : Ref} {value : Int} : Reckons d m → m.IsInteger r value →
      pin r m = .ok () m' → Reckons { d with pinned := d.pinned ++ [none] } m'
  | answered {d : Directory} {m m' : Machine} {r s t : Ref} {a b : Int} {o : Operator} {fuel : Nat} :
      Reckons d m → m.IsInteger r a → m.IsInteger s b → o.isWide = true ∨ Ref.isSmall a = true → 8 ≤ fuel →
      sendMessage fuel r o.selector [s] m = .ok t m' → Reckons d m'
  | failed {d : Directory} {m m' : Machine} {r s : Ref} {a b : Int} {o : Operator} {fuel : Nat}
      {failure : Failure} :
      Reckons d m → m.IsInteger r a → m.IsInteger s b → o.isWide = true ∨ Ref.isSmall a = true → 8 ≤ fuel →
      sendMessage fuel r o.selector [s] m = .failed failure m' → Reckons d m'

/-- A machine is a graph in which integers are answered to. -/
def HasReckoner (m : Machine) (d : Directory) : Prop :=
  ∃ g p starts w, m.Realizes g p starts ∧ Graph.Reckons d w g

/-- A machine that was never used neither remembers methods nor keeps contexts. -/
theorem exists_fresh {config : MachineConfig} (hok : ofConfig config = .ok m)
    (hbytes : config.heap.maxBytes < countLimit) :
    ∃ g p, m.Realizes g p [] ∧ g.Unborn ∧ g.IsFresh := by
  have hrealizes := (legible_ofConfig hok hbytes).realizes
  have hunborn := unborn_ofConfig hok
  obtain ⟨heap, cache, -, hcache, rfl⟩ := eq_ofHeap hok
  -- What is read off the machine remembers that there is no method; nothing need be remembered.
  refine ⟨{ graph (ofHeap heap cache) [] .null with memo := fun _ _ _ => False }, _,
    { hrealizes with
      roots := { hrealizes.roots with }
      cache := fun entry hentry hmethod => ?_
      positions := fun c hc => (hrealizes.positions c hc).congr (fun _ => .refl _) rfl },
    { hunborn with }, ⟨fun _ _ _ => id, rfl⟩⟩
  obtain ⟨-, hcache⟩ := Option.ite_none_right_eq_some.mp hcache
  obtain rfl := Option.some.inj hcache
  have hnone : entry ∈ (Array.replicate config.cacheSize MethodCache.noEntry).toList := hentry
  rw [Array.toList_replicate] at hnone
  rw [List.eq_of_mem_replicate hnone] at hmethod
  cases hmethod

/-- A bootstrapped machine has the methods of integers. -/
theorem bootstrap_reckons {config : MachineConfig} (hok : ofConfig config = .ok m)
    (hbytes : config.heap.maxBytes < countLimit) :
    m.bootstrap.Concludes (fun _ m' => m'.HasReckoner .kernel) (fun _ _ => False) (· = .fault .overflow) := by
  obtain ⟨g, p, hm, hunborn, hfresh⟩ := exists_fresh hok hbytes
  refine (Simulates.bootstrap.concludes hm (Spec.Ends.bootstrapGuides (E := fun _ _ => False)
    (S := fun cause => cause = .fault .overflow) hunborn hfresh rfl)).mono ?_ ?_
  · rintro - m' ⟨-, g', p', starts', ⟨w, hbooted, hguides, hintegers⟩, -, -, hm'⟩
    exact ⟨g', p', starts', w, hm', hbooted.charts, hguides, hintegers⟩
  · rintro failure m' ⟨g', p', starts', ⟨hfalse, -⟩, -⟩
    exact hfalse

namespace HasReckoner

theorem run (h : m.HasReckoner d) (hadmits : d.admits command = true) (hspares : d.Spares command) :
    (command.run m).Concludes (fun _ m' => m'.HasReckoner (d.after command)) (fun _ _ => False)
      (fun cause => cause = .fault .overflow ∨ command.Stops cause) := by
  obtain ⟨g, p, starts, w, hm, hreckons⟩ := h
  refine (run_develops hm hreckons.charts hadmits).mono ?_ fun _ _ hfalse => hfalse
  rintro - m' ⟨w', g', p', starts', hm', hdevelops, hless⟩
  exact ⟨g', p', starts', w', hm', hreckons.develops hdevelops hless hspares⟩

/-- An integer is made. -/
theorem newInteger (h : m.HasReckoner d) (value : Int) :
    (Machine.newInteger value m).Concludes (fun r m' => m'.HasReckoner d ∧ m'.IsInteger r value) (fun _ _ => False)
      (· = .fault .overflow) := by
  obtain ⟨g, p, starts, w, hm, hreckons⟩ := h
  have hends := (Spec.Finishes.of_modest (x := Spec.newInteger value) (Spec.Ends.newInteger (E := fun _ _ => False)
    (S := fun cause => cause = .fault .overflow) hreckons.charts.describes.settled fun _ => rfl)
    (Spec.Modest.newInteger value)).1
  refine ((Simulates.newInteger value).concludes hm hends).mono ?_ ?_
  · rintro r m' ⟨v, g', p', starts', ⟨⟨hadds, hv⟩, hless⟩, -, hr, hm'⟩
    exact ⟨⟨g', p', starts', w, hm', hreckons.adds hadds hless⟩, hm'.isInteger hr hv⟩
  · rintro failure m' ⟨g', p', starts', ⟨hfalse, -⟩, -⟩
    exact hfalse

/-- An integer is given a name. -/
theorem exists_integer {g : Graph} {p : Placement} {starts : List Nat} {w : Graph.World}
    (hm : m.Realizes g p starts) (h : Graph.Reckons d w g) (hr : m.IsInteger r value) :
    ∃ g' p' v, m.Realizes g' p' starts ∧ Graph.Reckons d w g' ∧ (∀ r v, p.Shows r v → p'.Shows r v) ∧
      p'.Shows r v ∧ g'.IsInteger v value ∧ g.Idles [] g' := by
  obtain ⟨g', p', v, hm', hshows, hv, hinteger, hidles, hstock⟩ := hm.exists_integer h.guides.kernel hr
  exact ⟨g', p', v, hm', h.idles hidles hstock, hshows, hv, hinteger, hidles⟩

/-- An integer is held. -/
theorem pin (h : m.HasReckoner d) (hr : m.IsInteger r value) :
    (Machine.pin r m).Concludes (fun _ m' => m'.HasReckoner { d with pinned := d.pinned ++ [none] })
      (fun _ _ => False) fun _ => False := by
  obtain ⟨g, p, starts, w, hm, hreckons⟩ := h
  obtain ⟨g', p', v, hm', hreckons', -, hv, -⟩ := exists_integer hm hreckons hr
  refine ((Simulates.pin hv).concludes hm' (Spec.Ends.modify_last (E := fun _ _ => False)
    (R := fun _ g'' => Graph.Reckons { d with pinned := d.pinned ++ [none] } w g'') ?_)).mono ?_ ?_
  · exact hreckons'.withPinned (List.rel_append hreckons'.charts.pinned (.cons (fun i hi => by cases hi) .nil))
  · rintro - m'' ⟨-, g'', p'', starts'', hreckons'', -, -, hm''⟩
    exact ⟨g'', p'', starts'', w, hm'', hreckons''⟩
  · rintro failure m'' ⟨g'', p'', starts'', hfalse, -⟩
    exact hfalse

/-- A message is sent to an integer. -/
theorem sendMessage (h : m.HasReckoner d) (hr : m.IsInteger r a) (hs : m.IsInteger s b)
    (ho : o.isWide = true ∨ Ref.isSmall a = true) (hfuel : 8 ≤ fuel) :
    (Machine.sendMessage fuel r o.selector [s] m).Concludes
      (fun t m' => m'.HasReckoner d ∧ ∃ reply, o.answer? a b = some reply ∧ m'.IsReply t reply)
      (fun failure m' => m'.HasReckoner d ∧ o.answer? a b = none ∧ ∃ text, failure = .primitiveFailed text)
      (· = .fault .overflow) ∧ Machine.sendMessage fuel r o.selector [s] m ≠ .unfinished := by
  obtain ⟨g, p, starts, w, hm, hreckons⟩ := h
  obtain ⟨g₁, p₁, v, hm₁, hreckons₁, -, hv, ha, -⟩ := exists_integer hm hreckons hr
  obtain ⟨g₂, p₂, u, hm₂, hreckons₂, hshows, hu, hb, hidles⟩ := exists_integer hm₁ hreckons₁ hs
  have hx := Simulates.sendMessage fuel o.selector (hshows _ _ hv) (.cons hu .nil)
  have hy := Spec.Finishes.sendMessage (S := fun cause => cause = .fault .overflow) hreckons₂.idle hreckons₂.guides
    hreckons₂.integers (hidles.isInteger ha) hb ho hfuel rfl
  refine ⟨(hx.concludes hm₂ hy.1).mono ?_ ?_, hx.finishes hm₂ hy⟩
  · rintro t m' ⟨v', g', p', starts', ⟨hidle, hg, hi, hpinned, reply, hreply, hv'⟩, -, ht, hm'⟩
    exact ⟨⟨g', p', starts', w, hm', hreckons₂.of_guides hidle hg hi hpinned⟩, reply, hreply,
      hm'.isReply ht hv'⟩
  · rintro failure m' ⟨g', p', starts', ⟨hidle, hg, hi, hpinned, hanswer, htext⟩, -, hm'⟩
    exact ⟨⟨g', p', starts', w, hm', hreckons₂.of_guides hidle hg hi hpinned⟩, hanswer, htext⟩

end HasReckoner

/-- Whatever was done, integers are answered to. -/
theorem Reckons.hasReckoner (h : Reckons d m) : m.HasReckoner d := by
  induction h with
  | bootstrapped hok hbytes hrun =>
    have hafter := bootstrap_reckons hok hbytes
    rw [hrun] at hafter
    exact hafter
  | ran _ hadmits hspares hrun ih =>
    have hafter := ih.run hadmits hspares
    rw [hrun] at hafter
    exact hafter
  | @made d m m' value r _ hrun ih =>
    have hafter := ih.newInteger value
    rw [hrun] at hafter
    exact hafter.1
  | held _ hr hrun ih =>
    have hafter := ih.pin hr
    rw [hrun] at hafter
    exact hafter
  | answered _ hr hs ho hfuel hrun ih =>
    have hafter := (ih.sendMessage hr hs ho hfuel).1
    rw [hrun] at hafter
    exact hafter.1
  | failed _ hr hs ho hfuel hrun ih =>
    have hafter := (ih.sendMessage hr hs ho hfuel).1
    rw [hrun] at hafter
    exact hafter.1

/-- The integers that fit 62 bits are small, and no others. -/
theorem IsInteger.isSmallInteger_iff (hr : m.IsInteger r value) :
    r.isSmallInteger = true ↔ -2 ^ 61 ≤ value ∧ value ≤ 2 ^ 61 - 1 := by
  have hrange : (-2 ^ 61 ≤ value ∧ value ≤ 2 ^ 61 - 1) ↔ Ref.isSmall value = true := by
    rw [Ref.isSmall_iff_pow]
    omega
  rw [hrange]
  unfold IsInteger at hr
  split at hr
  · rename_i hsmall
    exact iff_of_true (hr ▸ Ref.isSmallInteger_ofPayload _) hsmall
  · rename_i hlarge
    refine iff_of_false (fun hsmall => hlarge ?_) hlarge
    have hvalue := hr.2
    unfold integerValue? at hvalue
    rw [if_pos hsmall] at hvalue
    cases hvalue
    exact r.isSmall_toInt

end Machine

end ObjectMachine
