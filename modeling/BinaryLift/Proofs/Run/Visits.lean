import BinaryLift.Proofs.Program.Checks
import BinaryLift.Proofs.Run.Availability
import BinaryLift.Proofs.Run.Values

/-!
# States of an execution

The states that an execution passes through, each with its place. What is established whenever an
instruction is executed, and depends only on values that are at hand with it, holds wherever its
result is at hand. So a pure instruction keeps the value that its operands give it.
-/

namespace BinaryLift

/-- Indirect jumps end the execution: none of them leads back to a block. -/
def Activation.Leaves (act : Activation) (f : Func) : Prop :=
  act.linked = true → ∀ b data v, f.block? b = some data → data.term = .indirect v →
    ∀ w, f.addressBlock w = none

theorem Activation.leaves_of_linked {act : Activation} (h : act.linked = false) (f : Func) :
    act.Leaves f := by
  intro hlinked
  rw [h] at hlinked
  cases hlinked

theorem Func.addressBlock_eq_none {f : Func} {w : Word} :
    f.addressBlock w = none ↔ ∀ b data, f.block? b = some data → data.address ≠ some w := by
  unfold Func.addressBlock
  rw [Option.map_eq_none_iff, List.find?_eq_none]
  simp only [Prod.forall, Func.mem_liveBlocks, beq_iff_eq, ne_eq]

/-- Addresses and indirect jumps that were there before make no new way. -/
theorem Activation.Leaves.of_subset {act : Activation} {f g : Func} (hl : act.Leaves f)
    (haddress : ∀ b data', g.block? b = some data' → ∀ w, data'.address = some w →
      ∃ c data, f.block? c = some data ∧ data.address = some w)
    (hterm : ∀ b data' v, g.block? b = some data' → data'.term = .indirect v →
      ∃ c data u, f.block? c = some data ∧ data.term = .indirect u) : act.Leaves g := by
  intro hlinked b data' v hdata' hv w
  obtain ⟨c, data, u, hdata, hu⟩ := hterm b data' v hdata' hv
  have hnone := hl hlinked c data u hdata hu w
  rw [Func.addressBlock_eq_none] at hnone ⊢
  intro b' data'' hdata'' haddr
  obtain ⟨c', d, hd, hw⟩ := haddress b' data'' hdata'' w haddr
  exact hnone c' d hd hw

namespace Kind

theorem isPhi_of_pure {k : Kind} (hpure : k.isPure = true) : k.isPhi = false := by
  cases k with
  | phi inc => cases hpure
  | _ => rfl

theorem isAlloca_of_pure {k : Kind} (hpure : k.isPure = true) : k.isAlloca = false := by
  cases k with
  | alloca n => cases hpure
  | _ => rfl

theorem hasSideEffects_of_pure {k : Kind} (hpure : k.isPure = true) :
    k.hasSideEffects = false := by
  cases k with
  | store p v => cases hpure
  | call g args => cases hpure
  | _ => rfl

end Kind

namespace Machine

variable {act : Activation} {f : Func} {m m₁ : Machine} {id j : InstId} {data : Block}
  {b c : BlockId}

theorem next_indirect (hl : act.Leaves f) (hdata : f.block? b = some data) {v : Value}
    (hterm : data.term = .indirect v) :
    m.next act f data.term = (m.eval act f v).map fun w => .leave (.indirect w) := by
  rw [hterm]
  show Option.map _ _ = _
  refine congrArg (Option.map · (m.eval act f v)) (funext fun w => ?_)
  cases hlinked : act.linked with
  | false => rfl
  | true => rw [hl hlinked b data v hdata hterm w]

/-- A terminator does what it did if what it reads is what it was. -/
theorem next_rename {act' : Activation} {g : Func} {m' : Machine} {data' : Block} {ρ : Value → Value}
    (hl : act.Leaves f) (hl' : act'.Leaves g) (hdata : f.block? b = some data)
    (hdata' : g.block? c = some data') (hterm' : data'.term = data.term.mapOperands ρ)
    (heval : ∀ v ∈ data.term.operands, ∀ w, m.eval act f v = some w →
      m'.eval act' g (ρ v) = some w) {x : Next} (hx : m.next act f data.term = some x) :
    m'.next act' g data'.term = some x := by
  cases hterm : data.term with
  | jump d =>
    rw [hterm] at hx hterm'
    rw [hterm']
    exact hx
  | branch v y z =>
    rw [hterm] at hx heval hterm'
    obtain ⟨w, hw, rfl⟩ := Option.map_eq_some_iff.1 hx
    rw [hterm']
    exact Option.map_eq_some_iff.2 ⟨w, heval v List.mem_cons_self w hw, rfl⟩
  | indirect v =>
    rw [next_indirect hl hdata hterm] at hx
    rw [hterm] at heval hterm'
    obtain ⟨w, hw, rfl⟩ := Option.map_eq_some_iff.1 hx
    rw [next_indirect hl' hdata' hterm', heval v List.mem_cons_self w hw]
    rfl
  | ret v =>
    rw [hterm] at hx heval hterm'
    rw [hterm']
    cases v with
    | none => exact hx
    | some v =>
      obtain ⟨w, hw, rfl⟩ := Option.map_eq_some_iff.1 hx
      exact Option.map_eq_some_iff.2 ⟨w, heval v List.mem_cons_self w hw, rfl⟩
  | unreachable =>
    rw [hterm] at hx hterm'
    rw [hterm']
    exact hx

theorem mem_successors_of_goto (hl : act.Leaves f) (hdata : f.block? b = some data)
    (h : m.next act f data.term = some (.goto c)) : c ∈ data.term.successors := by
  cases hterm : data.term with
  | indirect v =>
    rw [next_indirect hl hdata hterm] at h
    obtain ⟨w, _, hgoto⟩ := Option.map_eq_some_iff.1 h
    cases hgoto
  | jump d =>
    rw [hterm] at h
    cases h
    exact List.mem_singleton_self _
  | branch v x y =>
    rw [hterm] at h
    obtain ⟨w, _, hgoto⟩ := Option.map_eq_some_iff.1 h
    cases hgoto
    simp only [Terminator.successors]
    split <;> simp
  | ret v =>
    rw [hterm] at h
    cases v with
    | none => cases h
    | some v =>
      obtain ⟨w, _, hgoto⟩ := Option.map_eq_some_iff.1 h
      cases hgoto
  | unreachable =>
    rw [hterm] at h
    cases h

theorem env_write (m : Machine) (ty : Ty) (w : Word) (p : Place) : (m.write ty w p).env = m.env := by
  cases p <;> rfl

theorem env_exec (h : m.exec act f id = some m₁) (hj : j ≠ id) : m₁.env j = m.env j := by
  obtain ⟨i, ws, a, _, _, _, rfl⟩ := exec_eq_some.1 h
  cases a with
  | result w => exact if_neg hj
  | load p => exact if_neg hj
  | store p ty w =>
    show (m.write ty w p).env j = m.env j
    rw [env_write]
  | call c => exact if_neg hj

theorem exec_phi {inc : List (BlockId × Value)} {ty : Option Ty}
    (hi : f.inst? id = some ⟨.phi inc, ty⟩) : m.exec act f id = none := by
  rw [Option.eq_none_iff_forall_ne_some]
  intro m₁ hm₁
  obtain ⟨i, ws, a, hi', _, ha, _⟩ := exec_eq_some.1 hm₁
  rw [hi] at hi'
  cases hi'
  cases ha

theorem env_enter {prev : Option BlockId} {phis : List InstId} (h : m.enter act f prev phis = some m₁)
    (hj : j ∉ phis) : m₁.env j = m.env j := by
  obtain ⟨_, rfl⟩ := enter_eq_some.1 h
  exact if_neg hj

/-! ### Pure instructions -/

/-- What an instruction computes from the current values of its operands. -/
def compute (act : Activation) (f : Func) (m : Machine) (id : InstId) : Option Word := do
  let i ← f.inst? id
  let ws ← i.kind.operands.mapM (m.eval act f)
  match ← action act f id i.kind ws with
  | .result w => some (w &&& (f.wordTy (.inst id)).mask)
  | _ => none

theorem compute_congr {m' : Machine} {i : Inst} (hi : f.inst? id = some i)
    (h : ∀ j, .inst j ∈ i.kind.operands → m'.env j = m.env j) :
    m'.compute act f id = m.compute act f id := by
  have hops : i.kind.operands.mapM (m'.eval act f) = i.kind.operands.mapM (m.eval act f) := by
    refine mapM_congr fun v hv => ?_
    refine eval_congr fun j hj => h j ?_
    rwa [hj] at hv
  simp only [compute, hi, Option.bind_eq_bind, Option.bind_some, hops]

theorem call_of_action {k : Kind} {ws : List Word} {c : Call}
    (h : action act f id k ws = some (.call c)) : ∃ callee args, k = .call callee args := by
  cases k with
  | call callee args => exact ⟨callee, args, rfl⟩
  | phi inc => cases h
  | _ =>
    simp only [action] at h
    split at h <;> simp_all

theorem result_of_pure {k : Kind} (hpure : k.isPure = true) {ws : List Word} {a : Action}
    (h : action act f id k ws = some a) : ∃ w, a = .result w := by
  rcases action_cases h with hw | ⟨p, x, rfl, _⟩ | ⟨p, v, x, w, rfl, _⟩ | ⟨c, rfl⟩
  · exact hw
  · cases hpure
  · cases hpure
  · obtain ⟨callee, args, rfl⟩ := call_of_action h
    cases hpure

theorem exec_of_pure {i : Inst} (hi : f.inst? id = some i) (hpure : i.kind.isPure = true)
    (h : m.exec act f id = some m₁) :
    ∃ w, m.compute act f id = some w ∧ (f.wordTy (.inst id)).Fits w ∧
      m₁ = m.define id (f.wordTy (.inst id)) w := by
  obtain ⟨i', ws, a, hi', hws, ha, rfl⟩ := exec_eq_some.1 h
  rw [hi] at hi'
  cases hi'
  obtain ⟨w, rfl⟩ := result_of_pure hpure ha
  refine ⟨w &&& (f.wordTy (.inst id)).mask, ?_, Ty.fits_and_mask _ _, ?_⟩
  · simp only [compute, hi, Option.bind_eq_bind, Option.bind_some, hws, ha]
  · simp only [perform, define]
    rw [Ty.fits_and_mask]

end Machine

namespace Func

variable {f : Func} {act : Activation} {memory : Memory} {b : BlockId} {pre : List InstId}
  {m : Machine} {j : InstId}

/-- An execution comes to block `b` behind `pre` with the state `m`. -/
inductive Visits (f : Func) (act : Activation) (memory : Memory) :
    BlockId → List InstId → Machine → Prop
  | start {e : BlockId} {m : Machine} : f.entry = some e →
    (Machine.start memory).enter act f none (f.phisOf e) = some m → Visits f act memory e (f.phisOf e) m
  | exec {b : BlockId} {pre post : List InstId} {id : InstId} {m m₁ : Machine} :
    Visits f act memory b pre m → f.instsOf b = pre ++ id :: post → f.isPhi id = false →
    m.exec act f id = some m₁ → Visits f act memory b (pre ++ [id]) m₁
  | goto {q b : BlockId} {data : Block} {m m₁ : Machine} : Visits f act memory q (f.instsOf q) m →
    f.block? q = some data → m.next act f data.term = some (.goto b) →
    m.enter act f (some q) (f.phisOf b) = some m₁ → Visits f act memory b (f.phisOf b) m₁

namespace Visits

theorem pre_prefix (h : f.Visits act memory b pre m) : pre <+: f.instsOf b := by
  cases h with
  | start _ _ => exact f.phisOf_prefix _
  | @exec _ pre post id _ _ _ hsplit _ _ =>
    rw [hsplit, List.append_cons pre id post]
    exact List.prefix_append _ _
  | goto _ _ _ _ => exact f.phisOf_prefix _

theorem reachable (h : f.Visits act memory b pre m) (hwf : f.WellFormed) (hl : act.Leaves f) :
    f.Reachable b := by
  induction h with
  | start he _ => exact .entry he (hwf.entry _ he)
  | exec _ _ _ _ ih => exact ih
  | goto _ hdata hnext _ ih => exact ih.step (hwf.edge hdata (Machine.mem_successors_of_goto hl hdata hnext))

theorem tame (h : f.Visits act memory b pre m) : m.Tame f := by
  induction h with
  | start _ henter => exact (Machine.tame_start f memory).enter henter
  | exec _ _ _ hexec ih => exact ih.exec hexec
  | goto _ _ _ henter ih => exact ih.enter henter

/-- Behind an instruction that is no phi it has just been executed. -/
theorem of_snoc {id : InstId} {m₁ : Machine} (h : f.Visits act memory b (pre ++ [id]) m₁)
    (hphi : f.isPhi id = false) : ∃ m, f.Visits act memory b pre m ∧ m.exec act f id = some m₁ := by
  have hnot : ∀ c, pre ++ [id] ≠ f.phisOf c := by
    intro c heq
    have hmem : id ∈ f.phisOf c := heq ▸ List.mem_append_right _ (List.mem_singleton_self _)
    rw [of_mem_takeWhile hmem] at hphi
    cases hphi
  generalize heq : pre ++ [id] = p at h
  cases h with
  | start _ _ => exact absurd heq (hnot _)
  | exec hvisit _ _ hexec =>
    obtain ⟨rfl, hid⟩ := List.append_inj' heq rfl
    cases hid
    exact ⟨_, hvisit, hexec⟩
  | goto _ _ _ _ => exact absurd heq (hnot _)

/-- Behind the phis of a block it has just been entered. -/
theorem of_phis {m₁ : Machine} (h : f.Visits act memory b (f.phisOf b) m₁) :
    (f.entry = some b ∧ (Machine.start memory).enter act f none (f.phisOf b) = some m₁) ∨
      ∃ q data m, f.Visits act memory q (f.instsOf q) m ∧ f.block? q = some data ∧
        m.next act f data.term = some (.goto b) ∧
        m.enter act f (some q) (f.phisOf b) = some m₁ := by
  generalize heq : f.phisOf b = p at h ⊢
  cases h with
  | start he henter => exact .inl ⟨he, henter⟩
  | @exec _ pre post id _ _ _ _ hphi _ =>
    have hmem : id ∈ f.phisOf b := heq ▸ List.mem_append_right _ (List.mem_singleton_self _)
    rw [of_mem_takeWhile hmem] at hphi
    cases hphi
  | goto hvisit hdata hnext henter => exact .inr ⟨_, _, _, hvisit, hdata, hnext, henter⟩

/-- What holds when an instruction has been executed and depends only on values at hand with it holds
wherever it is at hand. -/
theorem established {C : Machine → Prop} {S : InstId → Prop} (hwf : f.WellFormed)
    (hl : act.Leaves f) (hstable : ∀ m m', (∀ o, S o → m'.env o = m.env o) → C m → C m')
    (hat : ∀ b pre, f.Reachable b → pre <+: f.instsOf b → f.Available b pre j →
      ∀ o, S o → f.Available b pre o)
    (hexec : ∀ b pre post m m₁, f.Visits act memory b pre m → f.Reachable b →
      f.instsOf b = pre ++ j :: post → m.exec act f j = some m₁ → C m₁)
    (hphi : ∀ q b m m₁, f.Visits act memory q (f.instsOf q) m → f.Reachable q → f.Edge q b →
      j ∈ f.phisOf b → m.enter act f (some q) (f.phisOf b) = some m₁ →
      (f.Available q (f.instsOf q) j → C m) → C m₁)
    (h : f.Visits act memory b pre m) : f.Available b pre j → C m := by
  induction h with
  | @start e m he henter =>
    intro hj
    rcases hj with hj | ⟨c, data, hdom, _, _⟩
    · -- nothing comes in at the entry
      rw [(Machine.enter_none henter).1] at hj
      cases hj
    · have hce := hdom.2 [e] (.entry he (hwf.entry e he))
      exact absurd (List.mem_singleton.1 hce) hdom.1
  | @exec b pre post id m m₁ hvisit hsplit _ hm₁ ih =>
    intro hj
    have hb := hvisit.reachable hwf hl
    by_cases hjid : j = id
    · subst hjid
      exact hexec b pre post m m₁ hvisit hb hsplit hm₁
    · have hav := available_snoc hj hjid
      refine hstable m m₁ (fun o ho => ?_) (ih hav)
      have hoav := hat b pre hb (prefix_of_split hsplit) hav o ho
      exact Machine.env_exec hm₁ (hwf.consistent.ne_of_available hsplit hoav)
  | @goto q b data m m₁ hvisit hdata hnext henter ih =>
    intro hj
    have hq := hvisit.reachable hwf hl
    have hedge := hwf.edge hdata (Machine.mem_successors_of_goto hl hdata hnext)
    rcases hj with hj | ⟨c, cdata, hdom, hcdata, hj⟩
    · exact hphi q b m m₁ hvisit hq hedge hj henter ih
    · have hjc : j ∈ f.instsOf c := by
        rw [instsOf_eq hcdata]
        exact hj
      refine hstable m m₁ (fun o ho => ?_) (ih (available_pred hedge hdom hjc))
      have hoav := hat b [] (hq.step hedge) List.nil_prefix (.inr ⟨c, cdata, hdom, hcdata, hj⟩) o ho
      refine Machine.env_enter henter fun hmem => ?_
      exact hwf.consistent.notMem_of_available hoav ((f.phisOf_prefix b).subset hmem)

/-- A value at hand before an instruction stays equal to the result if it is equal right behind it. -/
theorem equal {c : BlockId} {before after : List InstId} {v : Value}
    (h : f.Visits act memory b pre m) (hwf : f.WellFormed) (hl : act.Leaves f)
    (hsplit : f.instsOf c = before ++ j :: after) (hv : f.AtHand c before v)
    (hexec : ∀ m m₁, f.Visits act memory c before m → m.exec act f j = some m₁ →
      ∀ w, m₁.env j = some w → m₁.eval act f v = some w)
    (hphi : ∀ q m m₁, f.Visits act memory q (f.instsOf q) m → f.Reachable q → f.Edge q c →
      j ∈ f.phisOf c → m.enter act f (some q) (f.phisOf c) = some m₁ →
      ∀ w, m₁.env j = some w → m₁.eval act f v = some w)
    (hj : f.Available b pre j) : ∀ w, m.env j = some w → m.eval act f v = some w := by
  refine h.established (C := fun m => ∀ w, m.env j = some w → m.eval act f v = some w)
    (S := fun o => o = j ∨ v = .inst o) hwf hl ?_ ?_ ?_ ?_ hj
  · intro m m' henv hm w hw
    rw [henv j (.inl rfl)] at hw
    rw [Machine.eval_congr fun o ho => henv o (.inr ho), hm w hw]
  · intro b pre hb hpre hav o ho
    rcases ho with rfl | rfl
    · exact hav
    · exact hwf.consistent.atHand_of_available (v := .inst o) hsplit hv hb hpre hav
  · intro b pre post m m₁ hvisit _ hsplit' hm₁
    obtain ⟨rfl, rfl⟩ := hwf.consistent.split_unique hsplit' hsplit
    exact hexec m m₁ hvisit hm₁
  · intro q b m m₁ hvisit hq hedge hmem henter _
    have hbc := hwf.consistent.same_block ((f.phisOf_prefix b).subset hmem) (mem_of_split hsplit)
    subst hbc
    exact hphi q m m₁ hvisit hq hedge hmem henter

/-- The value of a pure instruction is what its operands give now. -/
theorem settled (h : f.Visits act memory b pre m) (hwf : f.WellFormed) (hl : act.Leaves f) {i : Inst}
    (hi : f.inst? j = some i) (hpure : i.kind.isPure = true) (hj : f.Available b pre j) :
    ∃ w, m.env j = some w ∧ m.compute act f j = some w := by
  have hkind := Kind.isPhi_of_pure hpure
  refine h.established (C := fun m => ∃ w, m.env j = some w ∧ m.compute act f j = some w)
    (S := fun o => o = j ∨ .inst o ∈ i.kind.operands) hwf hl ?_ ?_ ?_ ?_ hj
  · rintro m m' henv ⟨w, hw, hcompute⟩
    refine ⟨w, by rw [henv j (.inl rfl), hw], ?_⟩
    rw [Machine.compute_congr hi fun o ho => henv o (.inr ho), hcompute]
  · intro b pre hb hpre hav o ho
    rcases ho with rfl | ho
    · exact hav
    · exact hwf.operand_atHand (v := .inst o) hb hpre hav hi hkind ho
  · intro b pre post m m₁ _ hb hsplit hexec
    obtain ⟨w, hw, hfits, hm₁⟩ := Machine.exec_of_pure hi hpure hexec
    have hsame : m₁.compute act f j = m.compute act f j := by
      refine Machine.compute_congr hi fun o ho => ?_
      have hoav := hwf.use (v := .inst o) hb hsplit hi hkind ho
      exact Machine.env_exec hexec (hwf.consistent.ne_of_available hsplit hoav)
    refine ⟨w, ?_, hsame.trans hw⟩
    rw [hm₁]
    simp only [Machine.define, if_true]
    rw [hfits]
  · intro q b m m₁ _ _ _ hmem _ _
    have hphi := of_mem_takeWhile hmem
    rw [isPhi_inst hi, hkind] at hphi
    cases hphi

/-- A pointer a constant behind another one is so all along. -/
theorem env_ptrAdd (h : f.Visits act memory b pre m) (hwf : f.WellFormed) (hl : act.Leaves f)
    {u : Value} {c : Constant} {p : Word}
    (hi : f.inst? j = some ⟨.ptrAdd u (.const c), some .ptr⟩) (hj : f.Available b pre j)
    (hu : m.eval act f u = some p) : m.env j = some (p + c.bits) := by
  obtain ⟨w, hw, hcompute⟩ := h.settled hwf hl hi rfl hj
  have hops : [u, .const c].mapM (m.eval act f) = some [p, c.bits] := by
    simp only [List.mapM_cons, List.mapM_nil, hu]
    rfl
  have hmask : ∀ x : Word, x &&& (f.wordTy (.inst j)).mask = x := by
    intro x
    rw [wordTy_inst hi]
    exact Ty.fits_of_bits_eq rfl x
  simp only [Machine.compute, hi, Kind.operands, Option.bind_eq_bind, Option.bind_some, hops,
    Machine.action, hmask] at hcompute
  rw [hw, ← hcompute]

end Visits

end Func

end BinaryLift
