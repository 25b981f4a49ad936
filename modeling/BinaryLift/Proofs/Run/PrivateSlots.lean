import BinaryLift.Proofs.Run.Orderly

/-!
# Private slots

Where the address of no slot is known to anything but loads and stores, all slots may be private, and
it makes no difference which others are. One function is matched by another if that one does with its
slots what the first did with its own.
-/

namespace BinaryLift

/-- Whether an instruction makes room for a slot. -/
def Func.isSlot (f : Func) (s : InstId) : Bool := (f.inst? s).any (·.kind.isAlloca)

namespace Activation

variable {act act' : Activation} {f : Func} {memory : Memory} {m : Machine}

/-- The slots of `f` are private. -/
def withSlots (act : Activation) (f : Func) : Activation := { act with own := f.isSlot }

/-- Indirect jumps leave, wherever they lead to. -/
def apart (act : Activation) : Activation := { act with linked := false }

theorem Leaves.withSlots {g : Func} (hl : act.Leaves f) : (act.withSlots g).Leaves f := hl

theorem leaves_apart (act : Activation) (f : Func) : act.apart.Leaves f :=
  act.apart.leaves_of_linked rfl f

/-- What is given is the same, as far as the code that control can reach is concerned. -/
structure SameFor (f : Func) (act act' : Activation) : Prop where
  args : act'.args = act.args
  answer : act'.answer = act.answer
  base : act'.base = act.base
  own : ∀ b id i s, f.Reachable b → id ∈ f.instsOf b → f.inst? id = some i → i.kind.isPhi = false →
    .inst s ∈ i.kind.operands → act'.own s = act.own s

namespace SameFor

theorem symm (h : SameFor f act act') : SameFor f act' act :=
  ⟨h.args.symm, h.answer.symm, h.base.symm,
    fun b id i s hb hid hi hk hs => (h.own b id i s hb hid hi hk hs).symm⟩

theorem eval (h : SameFor f act act') (m : Machine) : m.eval act' f = m.eval act f := by
  funext v
  cases v with
  | const c => rfl
  | arg n => simp only [Machine.eval, h.args]
  | inst j => rfl

theorem enter (h : SameFor f act act') (m : Machine) (prev : Option BlockId) (phis : List InstId) :
    m.enter act' f prev phis = m.enter act f prev phis := by
  have hword : m.phiWord act' f prev = m.phiWord act f prev := by
    funext id
    simp only [Machine.phiWord, h.eval]
  simp only [Machine.enter, hword]

theorem perform (h : SameFor f act act') (m : Machine) (id : InstId) (ty : Ty) (a : Action) :
    m.perform act' id ty a = m.perform act id ty a := by
  cases a with
  | call c => simp only [Machine.perform, h.answer]
  | _ => rfl

theorem exec (h : SameFor f act act') {b : BlockId} {id : InstId} (hb : f.Reachable b)
    (hid : id ∈ f.instsOf b) (hphi : f.isPhi id = false) (m : Machine) :
    m.exec act' f id = m.exec act f id := by
  cases hi : f.inst? id with
  | none => simp only [Machine.exec, hi]; rfl
  | some i =>
    rw [Func.isPhi_inst hi] at hphi
    have hplace : ∀ v ∈ i.kind.operands, ∀ a, act'.place v a = act.place v a := by
      intro v hv a
      cases v with
      | inst s => simp only [Activation.place, h.own b id i s hb hid hi hphi hv]
      | _ => rfl
    have haction : ∀ ws, Machine.action act' f id i.kind ws = Machine.action act f id i.kind ws := by
      intro ws
      have hkind : i.kind.mapOperands (fun v => v) = i.kind := i.kind.mapOperands_id
      have hsame : Machine.action act' f id (i.kind.mapOperands fun v => v) ws =
          Machine.action act f id i.kind ws :=
        Machine.action_rename h.base hplace (fun _ _ => rfl) rfl ws
      rwa [hkind] at hsame
    simp only [Machine.exec, hi, Option.bind_eq_bind, Option.bind_some, h.eval, haction, h.perform]

theorem next (h : SameFor f act act') (hl : act.Leaves f) (hl' : act'.Leaves f) {b : BlockId}
    {data : Block} (hdata : f.block? b = some data) {x : Next}
    (hx : m.next act f data.term = some x) : m.next act' f data.term = some x := by
  refine Machine.next_rename (ρ := fun v => v) hl hl' hdata hdata
    data.term.mapOperands_id.symm (fun v _ w hw => ?_) hx
  rw [h.eval]
  exact hw

theorem simulates (h : SameFor f act act') (hl : act.Leaves f) (hl' : act'.Leaves f) :
    f.Simulates act act' memory f (fun _ => true) (fun _ => []) fun _ _ m m' => m' = m where
  entry := rfl
  isPhi := fun _ _ _ _ _ => rfl
  plain := fun _ _ hid => absurd hid List.not_mem_nil
  block := by
    intro b data _ hdata
    refine ⟨data, hdata, ?_, ?_⟩
    · rw [List.nil_append, ← List.filter_append, ← f.instsOf_eq_phisOf_append, List.filter_true,
        f.instsOf_eq hdata]
    · rintro m m' x _ rfl hx
      exact h.next hl hl' hdata hx
  start := by
    intro e m _ henter
    refine ⟨m, ?_, rfl⟩
    rw [List.filter_true, h.enter, henter]
    rfl
  goto := by
    rintro q b data m m' m₁ _ _ _ _ _ rfl henter
    refine ⟨m₁, ?_, rfl⟩
    rw [List.filter_true, h.enter, henter]
    rfl
  exec := by
    rintro b pre id post m m' m₁ _ hb hsplit hphi rfl hexec
    refine ⟨m₁, ?_, rfl⟩
    rw [if_pos rfl, h.exec hb (Func.mem_of_split hsplit) hphi, hexec]

/-- The executions are the same. -/
theorem run (h : SameFor f act act') (hwf : f.WellFormed) (hl : act.Leaves f) (hl' : act'.Leaves f)
    {n : Nat} {r : Exit × Machine} (hrun : f.run act memory n = some r) :
    f.run act' memory n = some r := by
  obtain ⟨_, m', hrun', rfl⟩ := (h.simulates hl hl').run hwf hl hrun
  exact hrun'

end SameFor

end Activation

namespace Func

variable {f g : Func} {own : InstId → Bool} {s : InstId} {act : Activation} {memory : Memory}
  {region : Word → Prop}

theorem isSlot_inst {i : Inst} (hi : f.inst? s = some i) : f.isSlot s = i.kind.isAlloca := by
  rw [isSlot, hi]
  rfl

/-! ### Which slots are private -/

/-- Where all slots are own slots, they are the only ones of reachable code. -/
theorem Orderly.own_eq (ho : f.Orderly own) (hr : f.Regular own) {b : BlockId} (hb : f.Reachable b)
    (hs : s ∈ f.instsOf b) : own s = f.isSlot s := by
  obtain ⟨i, hi⟩ := ho.wellFormed.consistent.inst?_of_mem hs
  rw [isSlot_inst hi]
  cases halloca : i.kind.isAlloca with
  | true => exact hr.slots b s i hb hs hi halloca
  | false => exact ho.own_of_inst hs hi halloca

theorem Orderly.own_atHand (ho : f.Orderly own) (hr : f.Regular own) {b : BlockId}
    {pre : List InstId} (hb : f.Reachable b) (hpre : pre ⊆ f.instsOf b)
    (hs : f.AtHand b pre (.inst s)) : own s = f.isSlot s := by
  have hcon := ho.wellFormed.consistent
  obtain ⟨c, hsc, hc, _⟩ := hcon.home_of_available hb hpre hs
  exact ho.own_eq hr hc (hcon.mem_instsOf.2 hsc)

theorem Orderly.own_operand (ho : f.Orderly own) (hr : f.Regular own) {b : BlockId} {id : InstId}
    {i : Inst} (hb : f.Reachable b) (hid : id ∈ f.instsOf b) (hi : f.inst? id = some i)
    (hphi : i.kind.isPhi = false) (hs : .inst s ∈ i.kind.operands) : own s = f.isSlot s := by
  obtain ⟨before, after, hsplit⟩ := List.append_of_mem hid
  exact ho.own_atHand hr hb (prefix_of_split hsplit).subset
    (ho.wellFormed.use hb hsplit hi hphi hs)

theorem Orderly.isSlot (ho : f.Orderly own) (hr : f.Regular own) : f.Orderly f.isSlot where
  wellFormed := ho.wellFormed
  typed := ho.typed
  phi := by
    intro b id inc ty hb hid hi
    obtain ⟨hty, hinc⟩ := ho.phi b id inc ty hb hid hi
    refine ⟨hty, fun q v he hq => ⟨(hinc q v he hq).1, ?_⟩⟩
    rintro s rfl
    have hat := ho.wellFormed.phiUse hb hid hi he hq
    rw [← ho.own_atHand hr hq (List.Subset.refl _) hat]
    exact (hinc q _ he hq).2 s rfl
  slot := fun s hs _ i _ hi => (isSlot_inst hi).symm.trans hs
  spares := by
    intro s hs b id i hb hid hi hphi
    by_cases hop : .inst s ∈ i.kind.operands
    · rw [← ho.own_operand hr hb hid hi hphi hop] at hs
      exact ho.spares s hs b id i hb hid hi hphi
    · exact Kind.spares_of_notMem hop

theorem Regular.isSlot (hr : f.Regular own) (ho : f.Orderly own) : f.Regular f.isSlot where
  slots := fun _ _ _ _ _ hi halloca => (isSlot_inst hi).trans halloca
  words := hr.words
  terms := by
    intro s hs b data hb hdata hop
    have hat := ho.wellFormed.termUse hb hdata hop
    rw [← ho.own_atHand hr hb (List.Subset.refl _) hat] at hs
    exact hr.terms s hs b data hb hdata hop
  results := hr.results
  entry := hr.entry

/-- All slots of a function are private, its code is typed, and no indirect jump leads back to it. -/
structure Settled (f : Func) : Prop where
  orderly : f.Orderly f.isSlot
  regular : f.Regular f.isSlot
  leaves : ∀ act : Activation, act.Leaves f

theorem Settled.wellFormed (h : f.Settled) : f.WellFormed := h.orderly.wellFormed

theorem settled_of (ho : f.Orderly own) (hr : f.Regular own)
    (hl : ∀ act : Activation, act.Leaves f) : f.Settled :=
  ⟨ho.isSlot hr, hr.isSlot ho, hl⟩

/-- It makes no difference which own slots there are besides the slots of the function. -/
theorem run_withSlots (ho : f.Orderly act.own) (hr : f.Regular act.own)
    (hl : ∀ act : Activation, act.Leaves f) {n : Nat} {r : Exit × Machine}
    (hrun : f.run act memory n = some r) : f.run (act.withSlots f) memory n = some r := by
  have hsame : Activation.SameFor f act (act.withSlots f) :=
    ⟨rfl, rfl, rfl, fun b id i s hb hid hi hphi hs => (ho.own_operand hr hb hid hi hphi hs).symm⟩
  exact hsame.run ho.wellFormed (hl act) (hl _) hrun

/-- Where no jump leads back, it makes no difference whether one could. -/
theorem run_apart (hwf : f.WellFormed) (hl : act.Leaves f) {n : Nat} {r : Exit × Machine} :
    f.run act.apart memory n = some r ↔ f.run act memory n = some r := by
  have hsame : Activation.SameFor f act act.apart := ⟨rfl, rfl, rfl, fun _ _ _ _ _ _ _ _ _ => rfl⟩
  exact ⟨hsame.symm.run hwf (act.leaves_apart f) hl, hsame.run hwf hl (act.leaves_apart f)⟩

/-! ### Matching executions -/

/-- Whenever `f` ends without an undefined operation, `g` ends with the same exit and the same calls,
and memory is the same but in `region`; each function has its slots to itself. -/
def MatchedBy (act : Activation) (memory : Memory) (region : Word → Prop) (f g : Func) : Prop :=
  ∀ n e m, f.run (act.withSlots f) memory n = some (e, m) →
    ∃ k m', g.run (act.withSlots g) memory k = some (e, m') ∧ m'.calls = m.calls ∧
      ∀ a, ¬ region a → m'.memory a = m.memory a

theorem MatchedBy.refl (act : Activation) (memory : Memory) (region : Word → Prop) (f : Func) :
    f.MatchedBy act memory region f :=
  fun n _ m hrun => ⟨n, m, hrun, rfl, fun _ _ => rfl⟩

theorem MatchedBy.trans {h : Func} (hfg : f.MatchedBy act memory region g)
    (hgh : g.MatchedBy act memory region h) : f.MatchedBy act memory region h := by
  intro n e m hrun
  obtain ⟨k, m', hrun', hcalls, hmemory⟩ := hfg n e m hrun
  obtain ⟨l, m'', hrun'', hcalls', hmemory'⟩ := hgh k e m' hrun'
  exact ⟨l, m'', hrun'', hcalls'.trans hcalls, fun a ha => (hmemory' a ha).trans (hmemory a ha)⟩

/-- What keeps the function keeps its slots private. -/
theorem Keeps.settled (h : f.Keeps g) (hf : f.Settled) : g.Settled :=
  settled_of (h.orderly _ hf.orderly) (h.regular _ hf.orderly hf.regular)
    fun act => h.leaves act (hf.leaves act)

/-- What does the same with the slots of `f` does so with its own. -/
theorem Refines.matched (h : f.Refines (act.withSlots f) g) (ho : g.Orderly f.isSlot)
    (hr : g.Regular f.isSlot) (hl : ∀ act : Activation, act.Leaves g) (memory : Memory)
    (region : Word → Prop) : f.MatchedBy act memory region g := by
  intro n e m hrun
  obtain ⟨k, m', hrun', hcalls, hmemory, _⟩ := h memory n e m hrun
  have hown : g.run ((act.withSlots f).withSlots g) memory k = some (e, m') :=
    run_withSlots ho hr hl hrun'
  exact ⟨k, m', hown, hcalls, fun a _ => congrFun hmemory a⟩

theorem Keeps.matched (h : f.Keeps g) (hf : f.Settled) (act : Activation) (memory : Memory)
    (region : Word → Prop) : f.MatchedBy act memory region g :=
  Refines.matched (h.refines (act.withSlots f) (hf.leaves _) hf.orderly) (h.orderly _ hf.orderly)
    (h.regular _ hf.orderly hf.regular) (fun act => h.leaves act (hf.leaves act)) memory region

end Func

end BinaryLift
