import BinaryLift.Proofs.Program.Checks
import BinaryLift.Proofs.Run.Orderly
import BinaryLift.Proofs.Transform.Insertion

/-!
# An instruction on the side

A new instruction without side effects that nobody reads yet. Where what comes behind it can be
executed it can be executed as well; then every execution ends as it did. The execution with the new
instruction knows all that the other one does, and one value more.
-/

namespace BinaryLift.Func

variable {f g : Func} {act : Activation} {b c : BlockId} {pre post : List InstId} {i : Inst}
  {id j : InstId} {v : Value} {m m' m₁ : Machine}

namespace Inserted

/-! ### Types -/

theorem typeOf (h : f.Inserted b pre post i g) (hv : v ≠ .inst f.fresh) :
    g.typeOf v = f.typeOf v := by
  cases v with
  | const c => rfl
  | arg n => simp only [Func.typeOf, h.params]
  | inst j =>
    have hj : j ≠ f.fresh := fun heq => hv (congrArg Value.inst heq)
    simp only [Func.typeOf, h.inst?_of_ne hj]

theorem wordTy (h : f.Inserted b pre post i g) (hv : v ≠ .inst f.fresh) :
    g.wordTy v = f.wordTy v := by
  rw [Func.wordTy, h.typeOf hv, Func.wordTy]

/-- A value that has a type is not the new one, and keeps it. -/
theorem typeOf_of_isSome (h : f.Inserted b pre post i g) (hv : (f.typeOf v).isSome = true) :
    g.typeOf v = f.typeOf v := by
  refine h.typeOf ?_
  rintro rfl
  simp only [Func.typeOf, f.inst?_fresh_eq_none, Option.bind_none] at hv
  cases hv

theorem typed (h : f.Inserted b pre post i g) {k : Kind} {ty : Option Ty} (hk : k.Typed f ty) :
    k.Typed g ty := by
  rw [← Kind.mapOperands_id k]
  exact Kind.typed_mapOperands (fun v hv => h.typeOf_of_isSome (hk.operand hv)) hk

theorem wellTyped (h : f.Inserted b pre post i g) (hty : f.WellTyped)
    (hi : i.kind.Typed f i.ty) : g.WellTyped := by
  rw [wellTyped_iff] at hty ⊢
  intro id k hlive hk
  by_cases hid : id = f.fresh
  · subst hid
    rw [h.inst?_fresh] at hk
    cases hk
    exact h.typed hi
  · rw [isLive, h.instBlock id, if_neg hid] at hlive
    rw [h.inst?_of_ne hid] at hk
    exact h.typed (hty id k hlive hk)

/-! ### Private slots -/

/-- Typed code stays typed with an instruction more, if that is no slot and names none. -/
theorem orderly (h : f.Inserted b pre post i g) {own : InstId → Bool} (ho : f.Orderly own)
    (hg : g.WellFormed) (hi : i.kind.Typed f i.ty) (hfresh : own f.fresh = false)
    (hspares : ∀ s, own s = true → i.kind.Spares s) : g.Orderly own where
  wellFormed := hg
  typed := by
    intro c id k hc hid hk hphi
    rcases h.inst_cases hid hk with ⟨rfl, rfl⟩ | ⟨hold, hk⟩
    · exact h.typed hi
    · exact h.typed (ho.typed c id k (h.sameGraph.reachable.1 hc) hold hk hphi)
  phi := by
    intro c id inc ty hc hid hk
    obtain ⟨hold, hk⟩ := h.inst_of_phi hid hk
    obtain ⟨hty, hinc⟩ := ho.phi c id inc ty (h.sameGraph.reachable.1 hc) hold hk
    refine ⟨hty, fun q v he hq => ?_⟩
    obtain ⟨hv, hslot⟩ := hinc q v he (h.sameGraph.reachable.1 hq)
    exact ⟨(h.typeOf_of_isSome (by rwa [hv])).trans hv, hslot⟩
  slot := by
    intro s hs c k hid hk
    rcases h.inst_cases hid hk with ⟨rfl, _⟩ | ⟨hold, hk⟩
    · rw [hfresh] at hs
      cases hs
    · exact ho.slot s hs c k hold hk
  spares := by
    intro s hs c id k hc hid hk hphi
    rcases h.inst_cases hid hk with ⟨_, rfl⟩ | ⟨hold, hk⟩
    · exact hspares s hs
    · exact ho.spares s hs c id k (h.sameGraph.reachable.1 hc) hold hk hphi

theorem regular (h : f.Inserted b pre post i g) {own : InstId → Bool} (ho : f.Orderly own)
    (hr : f.Regular own) (halloca : i.kind.isAlloca = false) (hwords : i.kind.WholeWords g i.ty) :
    g.Regular own where
  slots := by
    intro c id k hc hid hk hslot
    rcases h.inst_cases hid hk with ⟨_, rfl⟩ | ⟨hold, hk⟩
    · rw [halloca] at hslot
      cases hslot
    · exact hr.slots c id k (h.sameGraph.reachable.1 hc) hold hk hslot
  words := by
    intro c id k hc hid hk
    have hcf := h.sameGraph.reachable.1 hc
    rcases h.inst_cases hid hk with ⟨_, rfl⟩ | ⟨hold, hk⟩
    · exact hwords
    cases hphi : k.kind.isPhi with
    | true => exact Kind.wholeWords_of_isPhi hphi
    | false =>
      have htyped := ho.typed c id k hcf hold hk hphi
      rw [← Kind.mapOperands_id k.kind]
      exact (hr.words c id k hcf hold hk).mapOperands fun v hv =>
        h.typeOf_of_isSome (htyped.operand hv)
  terms := by
    intro s hs c data' hc hdata' hop
    obtain ⟨data, hdata, _, hterm⟩ := h.term_old hdata'
    exact hr.terms s hs c data (h.sameGraph.reachable.1 hc) hdata (hterm ▸ hop)
  results := by
    intro c data' v hc hdata' hv
    obtain ⟨data, hdata, _, hterm⟩ := h.term_old hdata'
    have hsome := hr.results c data v (h.sameGraph.reachable.1 hc) hdata (hterm ▸ hv)
    rwa [h.typeOf_of_isSome hsome]
  entry := by
    intro e id he hid
    cases hphi : g.isPhi id with
    | false => rfl
    | true =>
      obtain ⟨inc, ty, hk⟩ := isPhi_eq_true hphi
      obtain ⟨hold, hk⟩ := h.inst_of_phi hid hk
      rw [← hr.entry e id (h.entry ▸ he) hold, isPhi_inst hk]
      rfl

/-! ### Indirect jumps -/

theorem leaves (h : f.Inserted b pre post i g) (hl : act.Leaves f) : act.Leaves g := by
  refine hl.of_subset (fun c data' hdata' w hw => ?_) fun c data' v hdata' hv => ?_
  · obtain ⟨data, hdata, haddress, _⟩ := h.term_old hdata'
    exact ⟨c, data, hdata, haddress ▸ hw⟩
  · obtain ⟨data, hdata, _, hterm⟩ := h.term_old hdata'
    exact ⟨c, data, v, hdata, hterm ▸ hv⟩

/-! ### What stands behind the phis -/

theorem body_eq (h : f.Inserted b pre post i g) (hwf : f.WellFormed) :
    ∃ rest, (f.instsOf b).dropWhile f.isPhi = rest ++ post ∧
      (g.instsOf b).dropWhile g.isPhi = rest ++ f.fresh :: post := by
  obtain ⟨rest, hrest⟩ := h.phis
  refine ⟨rest, ?_, ?_⟩
  · refine List.append_cancel_left (?_ : f.phisOf b ++ _ = f.phisOf b ++ _)
    rw [← f.instsOf_eq_phisOf_append b, ← List.append_assoc, hrest, h.split]
  · refine List.append_cancel_left (?_ : g.phisOf b ++ _ = g.phisOf b ++ _)
    rw [← g.instsOf_eq_phisOf_append b, (h.phisOf_eq hwf b).1, ← List.append_assoc, hrest,
      h.instsOf_self]

theorem body_of_ne (h : f.Inserted b pre post i g) (hwf : f.WellFormed) (hc : c ≠ b) :
    (g.instsOf c).dropWhile g.isPhi = (f.instsOf c).dropWhile f.isPhi := by
  refine List.append_cancel_left (?_ : g.phisOf c ++ _ = g.phisOf c ++ _)
  rw [← g.instsOf_eq_phisOf_append c, (h.phisOf_eq hwf c).1, ← f.instsOf_eq_phisOf_append c,
    h.instsOf c, if_neg hc]

theorem eval (h : f.Inserted b pre post i g) (m : Machine) (v : Value) :
    m.eval act g v = m.eval act f v := by
  cases v with
  | const c => rfl
  | arg n =>
    have hty : g.wordTy (.arg n) = f.wordTy (.arg n) := h.wordTy (by rintro ⟨⟩)
    simp only [Machine.eval, hty]
  | inst j => rfl

end Inserted

/-! ### The same execution with a value more -/

/-- Outside the states look the same, and the second one has every value that the first one has. The
first one has no value of the instruction that is yet to be made. -/
structure Beside (f : Func) (m m' : Machine) : Prop where
  alike : m.Alike m'
  env : ∀ j w, m.env j = some w → m'.env j = some w
  fresh : m.env f.fresh = none

theorem beside_start (f : Func) (memory : Memory) :
    f.Beside (.start memory) (.start memory) where
  alike := ⟨rfl, rfl, rfl⟩
  env := fun _ _ hw => hw
  fresh := rfl

namespace Beside

variable (h : f.Beside m m') (hins : f.Inserted b pre post i g)

include h

/-- What has a value is not the new instruction. -/
theorem ne_fresh {w : Word} (hw : m.env j = some w) : j ≠ f.fresh := by
  rintro rfl
  rw [h.fresh] at hw
  cases hw

theorem env_perform {ty : Ty} {a : Action} : ∀ j w,
    (m.perform act id ty a).env j = some w → (m'.perform act id ty a).env j = some w := by
  intro j w hw
  cases a with
  | store p t x =>
    simp only [Machine.perform, Machine.env_write] at hw ⊢
    exact h.env j w hw
  | _ =>
    simp only [Machine.perform, Machine.define, h.alike.read, h.alike.calls, h.alike.memory] at hw ⊢
    by_cases hj : j = id
    · rwa [if_pos hj] at hw ⊢
    · rw [if_neg hj] at hw ⊢
      exact h.env j w hw

include hins

theorem eval {w : Word} (hw : m.eval act f v = some w) : m'.eval act g v = some w := by
  rw [hins.eval]
  cases v with
  | const c => exact hw
  | arg n => exact hw
  | inst j => exact h.env j w hw

theorem exec (hm₁ : m.exec act f id = some m₁) :
    ∃ m₁', m'.exec act g id = some m₁' ∧ f.Beside m₁ m₁' := by
  obtain ⟨k, ws, a, hi, hws, ha, rfl⟩ := Machine.exec_eq_some.1 hm₁
  have hne := ne_fresh_of_inst? hi
  have hwordTy := hins.wordTy fun heq => hne (Value.inst.inj heq)
  have hvalue : ∀ v ∈ k.kind.operands, ∃ w, m.eval act f v = some w := fun v hv =>
    Option.isSome_iff_exists.1 (isSome_of_mapM_eq_some hws v hv)
  have hsame : k.kind.mapOperands (fun v => v) = k.kind := k.kind.mapOperands_id
  have hops : k.kind.operands.mapM (m'.eval act g) = some ws := by
    rw [← hsame, Kind.operands_mapOperands]
    exact Machine.mapM_rename _ (fun v _ w hw => h.eval hins hw) ws hws
  have haction : Machine.action act g id (k.kind.mapOperands fun v => v) ws = some a := by
    refine (Machine.action_rename rfl (fun _ _ _ => rfl) (fun v hv => ?_) hwordTy ws).trans ha
    obtain ⟨w, hw⟩ := hvalue v hv
    refine hins.wordTy ?_
    rintro rfl
    exact h.ne_fresh hw rfl
  rw [hsame] at haction
  refine ⟨_, Machine.exec_eq_some.2 ⟨k, ws, a, hins.inst?_old hi, hops, haction, rfl⟩, ?_⟩
  rw [hwordTy]
  exact ⟨h.alike.perform, h.env_perform, (Machine.env_exec hm₁ hne.symm).trans h.fresh⟩

/-- The new instruction is executed, and nobody sees it. -/
theorem exec_fresh (hidle : i.kind.hasSideEffects = false) (hm₁ : m.exec act g f.fresh = some m₁) :
    ∃ m₁', m'.exec act g f.fresh = some m₁' ∧ f.Beside m m₁' := by
  obtain ⟨k, ws, a, hi, hws, ha, _⟩ := Machine.exec_eq_some.1 hm₁
  have hops : k.kind.operands.mapM (m'.eval act g) = some ws := by
    have hmap : (k.kind.operands.map fun v => v).mapM (m'.eval act g) = some ws :=
      Machine.mapM_rename _ (fun v _ w hw => h.eval hins ((hins.eval m v).symm.trans hw)) ws hws
    rwa [List.map_id'] at hmap
  have hexec := Machine.exec_eq_some.2 ⟨k, ws, a, hi, hops, ha, rfl⟩
  refine ⟨_, hexec, h.alike.trans (Machine.alike_of_idle hins.inst?_fresh hidle hexec),
    fun j w hw => ?_, h.fresh⟩
  rw [Machine.env_exec hexec (h.ne_fresh hw)]
  exact h.env j w hw

theorem enter {prev : Option BlockId} {phis : List InstId}
    (hm₁ : m.enter act f prev phis = some m₁) :
    ∃ m₁', m'.enter act g prev phis = some m₁' ∧ f.Beside m₁ m₁' := by
  obtain ⟨hall, hm₁eq⟩ := Machine.enter_eq_some.1 hm₁
  have hphi : ∀ id ∈ phis, ∃ inc o, f.inst? id = some ⟨.phi inc, o⟩ := by
    intro id hid
    obtain ⟨w, hw⟩ := hall id hid
    exact Machine.phi_of_phiWord hw
  have hnew : f.fresh ∉ phis := by
    intro hmem
    obtain ⟨_, _, hi⟩ := hphi _ hmem
    exact ne_fresh_of_inst? hi rfl
  have hword : ∀ id ∈ phis, ∀ w, m.phiWord act f prev id = some w →
      m'.phiWord act g prev id = some w := by
    intro id hid w hw
    obtain ⟨inc, o, hi⟩ := hphi id hid
    have hi' : g.inst? id = some ⟨.phi (inc.map fun e => (e.1, e.2)), o⟩ := by
      rw [hins.inst?_old hi, List.map_id']
    exact Machine.phiWord_rename (ρ := fun v => v) hi hi' (fun e _ _ u hu => h.eval hins hu) hw
  have hty : ∀ id ∈ phis, g.wordTy (.inst id) = f.wordTy (.inst id) := by
    intro id hid
    refine hins.wordTy ?_
    rintro ⟨⟩
    exact hnew hid
  obtain ⟨env, henter, hphis, hothers⟩ :=
    Machine.enter_rename (List.Subset.refl phis) hword hty hm₁
  refine ⟨_, henter, ?_, fun j w hw => ?_, (Machine.env_enter hm₁ hnew).trans h.fresh⟩
  · rw [hm₁eq]
    exact ⟨h.alike.calls, h.alike.memory, h.alike.slots⟩
  · by_cases hj : j ∈ phis
    · exact (hphis j hj).trans hw
    · rw [Machine.env_enter hm₁ hj] at hw
      exact (hothers j hj).trans (h.env j w hw)

theorem next (hl : act.Leaves f) {data : Block} (hdata : f.block? c = some data) {x : Next}
    (hx : m.next act f data.term = some x) :
    ∃ data', g.block? c = some data' ∧ m'.next act g data'.term = some x := by
  have hdata' := hins.block c
  rw [hdata, Option.map_some] at hdata'
  refine ⟨_, hdata', ?_⟩
  refine Machine.next_rename (ρ := fun v => v) hl (hins.leaves hl) hdata hdata' ?_
    (fun v _ w hw => h.eval hins hw) hx
  rw [show data.term.mapOperands (fun v => v) = data.term from data.term.mapOperands_id]
  split <;> rfl

end Beside

namespace Inserted

/-- Where what comes behind the new instruction can be executed, it can be executed as well. -/
def Follows (act : Activation) (f g : Func) (post : List InstId) : Prop :=
  ∀ m m₁, post.foldlM (Machine.exec act f) m = some m₁ → ∃ m₂, m.exec act g f.fresh = some m₂

theorem foldlM_exec (h : f.Inserted b pre post i g) (ids : List InstId) :
    ∀ {m m' m₁}, f.Beside m m' → ids.foldlM (Machine.exec act f) m = some m₁ →
      ∃ m₁', ids.foldlM (Machine.exec act g) m' = some m₁' ∧ f.Beside m₁ m₁' := by
  induction ids with
  | nil =>
    intro m m' m₁ hB hm₁
    cases hm₁
    exact ⟨m', rfl, hB⟩
  | cons id ids ih =>
    intro m m' m₁ hB hm₁
    rw [List.foldlM_cons, Option.bind_eq_bind, Option.bind_eq_some_iff] at hm₁
    obtain ⟨m₂, hm₂, hrest⟩ := hm₁
    obtain ⟨m₂', hm₂', hB₂⟩ := hB.exec h hm₂
    obtain ⟨m₁', hm₁', hB₁⟩ := ih hB₂ hrest
    refine ⟨m₁', ?_, hB₁⟩
    rw [List.foldlM_cons, hm₂']
    exact hm₁'

theorem runBody (h : f.Inserted b pre post i g) (hwf : f.WellFormed)
    (hidle : i.kind.hasSideEffects = false) (hfollows : Follows act f g post) (c : BlockId)
    (hB : f.Beside m m')
    (hm₁ : ((f.instsOf c).dropWhile f.isPhi).foldlM (Machine.exec act f) m = some m₁) :
    ∃ m₁', ((g.instsOf c).dropWhile g.isPhi).foldlM (Machine.exec act g) m' = some m₁' ∧
      f.Beside m₁ m₁' := by
  by_cases hcb : c = b
  · subst hcb
    obtain ⟨rest, hold, hnew⟩ := h.body_eq hwf
    rw [hold, List.foldlM_append, Option.bind_eq_bind, Option.bind_eq_some_iff] at hm₁
    obtain ⟨m₂, hm₂, hm₁⟩ := hm₁
    obtain ⟨m₂', hm₂', hB₂⟩ := h.foldlM_exec rest hB hm₂
    obtain ⟨_, hfresh⟩ := hfollows m₂ m₁ hm₁
    obtain ⟨m₃', hm₃', hB₃⟩ := hB₂.exec_fresh h hidle hfresh
    obtain ⟨m₁', hm₁', hB₁⟩ := h.foldlM_exec post hB₃ hm₁
    refine ⟨m₁', ?_, hB₁⟩
    rw [hnew, List.foldlM_append, hm₂']
    show (f.fresh :: post).foldlM (Machine.exec act g) m₂' = some m₁'
    rw [List.foldlM_cons, hm₃']
    exact hm₁'
  · rw [h.body_of_ne hwf hcb]
    exact h.foldlM_exec _ hB hm₁

theorem runBlock (h : f.Inserted b pre post i g) (hwf : f.WellFormed)
    (hidle : i.kind.hasSideEffects = false) (hfollows : Follows act f g post) (c : BlockId)
    {prev : Option BlockId} (hB : f.Beside m m')
    (hm₁ : f.runBlock act prev (f.instsOf c) m = some m₁) :
    ∃ m₁', g.runBlock act prev (g.instsOf c) m' = some m₁' ∧ f.Beside m₁ m₁' := by
  unfold Func.runBlock at hm₁
  rw [Option.bind_eq_bind, Option.bind_eq_some_iff] at hm₁
  obtain ⟨m₂, henter, hbody⟩ := hm₁
  obtain ⟨m₂', henter', hB₂⟩ := hB.enter h henter
  obtain ⟨m₁', hbody', hB₁⟩ := h.runBody hwf hidle hfollows c hB₂ hbody
  refine ⟨m₁', ?_, hB₁⟩
  have hphis : (g.instsOf c).takeWhile g.isPhi = (f.instsOf c).takeWhile f.isPhi :=
    (h.phisOf_eq hwf c).1
  unfold Func.runBlock
  rw [hphis, henter']
  exact hbody'

theorem runFrom (h : f.Inserted b pre post i g) (hwf : f.WellFormed) (hl : act.Leaves f)
    (hidle : i.kind.hasSideEffects = false) (hfollows : Follows act f g post) (n : Nat) :
    ∀ {prev c m m' e m₁}, f.Beside m m' → f.runFrom act n prev c m = some (e, m₁) →
      ∃ m₁', g.runFrom act n prev c m' = some (e, m₁') ∧ f.Beside m₁ m₁' := by
  induction n with
  | zero =>
    intro prev c m m' e m₁ _ hrun
    cases hrun
  | succ n ih =>
    intro prev c m m' e m₁ hB hrun
    obtain ⟨_, data, m₂, x, ⟨⟩, hdata, hblock, hnext, hrun⟩ := runFrom_eq_some.1 hrun
    rw [← instsOf_eq hdata] at hblock
    obtain ⟨m₂', hblock', hB₂⟩ := h.runBlock hwf hidle hfollows c hB hblock
    obtain ⟨data', hdata', hnext'⟩ := hB₂.next h hl hdata hnext
    rw [instsOf_eq hdata'] at hblock'
    cases x with
    | leave e' =>
      cases hrun
      exact ⟨m₂', runFrom_eq_some.2 ⟨n, data', m₂', _, rfl, hdata', hblock', hnext', rfl⟩, hB₂⟩
    | goto d =>
      obtain ⟨m₁', hrun', hB₁⟩ := ih hB₂ hrun
      exact ⟨m₁', runFrom_eq_some.2 ⟨n, data', m₂', _, rfl, hdata', hblock', hnext', hrun'⟩, hB₁⟩

/-- Every execution ends as it did before the new instruction. -/
theorem refines (h : f.Inserted b pre post i g) (hwf : f.WellFormed) (hl : act.Leaves f)
    (hidle : i.kind.hasSideEffects = false) (hfollows : Follows act f g post) :
    f.Refines act g := by
  intro memory n e m hrun
  unfold run at hrun
  rw [Option.bind_eq_bind, Option.bind_eq_some_iff] at hrun
  obtain ⟨c, hc, hrun⟩ := hrun
  obtain ⟨m', hrun', hB⟩ := h.runFrom hwf hl hidle hfollows n (beside_start f memory) hrun
  refine ⟨n, m', ?_, hB.alike.calls, hB.alike.memory, hB.alike.slots⟩
  unfold run
  rw [h.entry, hc]
  exact hrun'

end Inserted

end BinaryLift.Func
