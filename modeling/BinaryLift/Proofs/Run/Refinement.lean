import BinaryLift.Proofs.Run.Visits

/-!
# Refinement

One function refines another if it ends in the same way, with the same calls and the same memory,
whenever the other one ends. A function with the same blocks simulates another: it may lack
instructions or have more of its own at the head of a block, and a relation between the two states is
kept by every instruction and every edge. The two run in lockstep if the states always look the same.
-/

namespace BinaryLift

/-- The states look the same from outside. -/
structure Machine.Alike (m m' : Machine) : Prop where
  calls : m'.calls = m.calls
  memory : m'.memory = m.memory
  slots : m'.slots = m.slots

namespace Machine

variable {act : Activation} {f : Func} {m m' m'' m₁ : Machine} {id : InstId} {ty : Ty} {a : Action}

theorem Alike.symm (h : m.Alike m') : m'.Alike m := ⟨h.calls.symm, h.memory.symm, h.slots.symm⟩

theorem Alike.trans (h : m.Alike m') (h' : m'.Alike m'') : m.Alike m'' :=
  ⟨h'.calls.trans h.calls, h'.memory.trans h.memory, h'.slots.trans h.slots⟩

theorem Alike.read (h : m.Alike m') (p : Place) : m'.read ty p = m.read ty p := by
  cases p with
  | slot s => simp only [Machine.read, h.slots]
  | guest x => simp only [Machine.read, h.memory]

theorem Alike.perform (h : m.Alike m') : (m.perform act id ty a).Alike (m'.perform act id ty a) := by
  obtain ⟨hcalls, hmemory, hslots⟩ := h
  cases a with
  | result w => exact ⟨hcalls, hmemory, hslots⟩
  | load p => exact ⟨hcalls, hmemory, hslots⟩
  | store p t w =>
    cases p with
    | slot s => exact ⟨hcalls, hmemory, by simp only [Machine.perform, Machine.write, hslots]⟩
    | guest x => exact ⟨hcalls, by simp only [Machine.perform, Machine.write, hmemory], hslots⟩
  | call c =>
    refine ⟨?_, ?_, hslots⟩ <;> simp only [Machine.perform, Machine.define, hcalls, hmemory]

theorem Alike.env_perform (h : m.Alike m') {w : Word} (hstore : ∀ p t x, a = .store p t x → m.env id = none)
    (hw : (m.perform act id ty a).env id = some w) : (m'.perform act id ty a).env id = some w := by
  cases a with
  | result u =>
    simp only [Machine.perform, Machine.define, if_true] at hw ⊢
    exact hw
  | load p =>
    simp only [Machine.perform, Machine.define, if_true, h.read] at hw ⊢
    exact hw
  | store p t x =>
    simp only [Machine.perform, env_write, hstore p t x rfl] at hw
    cases hw
  | call c =>
    simp only [Machine.perform, Machine.define, if_true, h.calls, h.memory] at hw ⊢
    exact hw

theorem eval_of_typeOf {g : Func} (hty : ∀ v, g.typeOf v = f.typeOf v) :
    m.eval act g = m.eval act f := by
  funext v
  cases v with
  | const c => rfl
  | arg n => simp only [eval, Func.wordTy, hty]
  | inst j => rfl

/-- An instruction does the same in every function in which it is the same. -/
theorem exec_of_inst? {g : Func} (hty : ∀ v, g.typeOf v = f.typeOf v)
    (hi : g.inst? id = f.inst? id) : m.exec act g id = m.exec act f id := by
  have haction : ∀ k ws, action act g id k ws = action act f id k ws := by
    intro k ws
    have hid : k.mapOperands (fun v => v) = k := k.mapOperands_id
    have hmap : action act g id (k.mapOperands fun v => v) ws = action act f id k ws := by
      refine action_rename rfl (fun _ _ _ => rfl) (fun v _ => ?_) ?_ ws
      · simp only [Func.wordTy, hty]
      · simp only [Func.wordTy, hty]
    rwa [hid] at hmap
  simp only [exec, hi, eval_of_typeOf hty, haction, Func.wordTy, hty]

/-- A terminator does the same in every function in which it is the same. -/
theorem next_of_typeOf {g : Func} {b b' : BlockId} {data data' : Block}
    (hty : ∀ v, g.typeOf v = f.typeOf v) (hl : act.Leaves f) (hl' : act.Leaves g)
    (hdata : f.block? b = some data) (hdata' : g.block? b' = some data')
    (hterm : data'.term = data.term) : m.next act g data'.term = m.next act f data.term := by
  have heval : ∀ v, m.eval act g v = m.eval act f v := congrFun (eval_of_typeOf hty)
  cases ht : data.term with
  | jump c => rw [hterm, ht]; rfl
  | branch c x y => rw [hterm, ht]; simp only [next, heval]
  | indirect v =>
    rw [← ht, next_indirect hl hdata ht, next_indirect hl' hdata' (hterm.trans ht), heval]
  | ret v =>
    rw [hterm, ht]
    cases v with
    | none => rfl
    | some v => simp only [next, heval]
  | unreachable => rw [hterm, ht]; rfl

theorem enter_nil (prev : Option BlockId) : m.enter act f prev [] = some m := by
  simp [enter]

theorem enter_congr {g : Func} {prev prev' : Option BlockId} {phis : List InstId}
    (hty : ∀ v, g.typeOf v = f.typeOf v)
    (hword : ∀ id ∈ phis, m.phiWord act g prev' id = m.phiWord act f prev id) :
    m.enter act g prev' phis = m.enter act f prev phis := by
  have henv : (fun id => if id ∈ phis then
      (m.phiWord act g prev' id).map (· &&& (g.wordTy (.inst id)).mask) else m.env id) =
      fun id => if id ∈ phis then
        (m.phiWord act f prev id).map (· &&& (f.wordTy (.inst id)).mask) else m.env id := by
    funext id
    by_cases hid : id ∈ phis
    · simp only [hid, if_true, hword id hid, Func.wordTy, hty]
    · simp only [hid, if_false]
  have hall : (phis.all fun id => (m.phiWord act g prev' id).isSome) =
      phis.all fun id => (m.phiWord act f prev id).isSome := by
    rw [Bool.eq_iff_iff, List.all_eq_true, List.all_eq_true]
    exact forall_congr' fun id => forall_congr' fun hid => by rw [hword id hid]
  unfold enter
  rw [hall, henv]

/-- An instruction without side effects changes nothing that can be seen from outside. -/
theorem alike_of_idle {i : Inst} (hi : f.inst? id = some i) (hidle : i.kind.hasSideEffects = false)
    (h : m.exec act f id = some m₁) : m.Alike m₁ := by
  obtain ⟨i', ws, a, hi', _, ha, rfl⟩ := exec_eq_some.1 h
  rw [hi] at hi'
  cases hi'
  cases a with
  | result w => exact ⟨rfl, rfl, rfl⟩
  | load p => exact ⟨rfl, rfl, rfl⟩
  | store p t w =>
    rcases action_cases ha with ⟨_, h⟩ | ⟨_, _, _, _, h⟩ | ⟨_, _, _, _, hk, _⟩ | ⟨_, h⟩
    · cases h
    · cases h
    · rw [hk] at hidle
      cases hidle
    · cases h
  | call c =>
    obtain ⟨callee, args, hk⟩ := call_of_action ha
    rw [hk] at hidle
    cases hidle

end Machine

namespace Func

theorem runFrom_eq_some {act : Activation} {f : Func} {n : Nat} {prev : Option BlockId} {b : BlockId}
    {m : Machine} {r : Exit × Machine} : f.runFrom act n prev b m = some r ↔
      ∃ k data m₁ x, n = k + 1 ∧ f.block? b = some data ∧
        f.runBlock act prev data.insts m = some m₁ ∧ m₁.next act f data.term = some x ∧
        (match x with
          | .leave e => r = (e, m₁)
          | .goto c => f.runFrom act k (some b) c m₁ = some r) := by
  cases n with
  | zero => simp [runFrom]
  | succ n =>
    constructor
    · intro h
      rw [runFrom] at h
      simp only [Option.bind_eq_bind, Option.bind_eq_some_iff] at h
      obtain ⟨data, hdata, m₁, hm₁, x, hx, h⟩ := h
      refine ⟨n, data, m₁, x, rfl, hdata, hm₁, hx, ?_⟩
      cases x with
      | leave e =>
        cases h
        rfl
      | goto c => exact h
    · rintro ⟨k, data, m₁, x, hk, hdata, hm₁, hx, h⟩
      cases hk
      rw [runFrom]
      simp only [Option.bind_eq_bind, Option.bind_eq_some_iff]
      refine ⟨data, hdata, m₁, hm₁, x, hx, ?_⟩
      cases x with
      | leave e =>
        cases h
        rfl
      | goto c => exact h

/-- Every execution of `f` that comes to an end is matched by one of `g`: same exit, same calls, same
memory. -/
def Refines (act : Activation) (f g : Func) : Prop :=
  ∀ memory n e m, f.run act memory n = some (e, m) →
    ∃ k m', g.run act memory k = some (e, m') ∧ m'.calls = m.calls ∧ m'.memory = m.memory ∧
      m'.slots = m.slots

theorem Refines.refl (act : Activation) (f : Func) : f.Refines act f :=
  fun _ n _ m hrun => ⟨n, m, hrun, rfl, rfl, rfl⟩

theorem Refines.trans {act : Activation} {f g h : Func} (hfg : f.Refines act g)
    (hgh : g.Refines act h) : f.Refines act h := by
  intro memory n e m hrun
  obtain ⟨k, m', hrun', hcalls, hmemory, hslots⟩ := hfg memory n e m hrun
  obtain ⟨l, m'', hrun'', hcalls', hmemory', hslots'⟩ := hgh memory k e m' hrun'
  exact ⟨l, m'', hrun'', hcalls'.trans hcalls, hmemory'.trans hmemory, hslots'.trans hslots⟩

/-- The function `g` has those instructions of `f` that `keep` holds of, and behind the phis of a block
those of its own that `lead` names. What it is given may be something else. `R` relates the states of
both at every place. -/
structure Simulates (act act' : Activation) (memory : Memory) (f g : Func) (keep : InstId → Bool)
    (lead : BlockId → List InstId) (R : BlockId → List InstId → Machine → Machine → Prop) :
    Prop where
  entry : g.entry = f.entry
  isPhi : ∀ b id, f.Reachable b → id ∈ f.instsOf b → keep id = true → g.isPhi id = f.isPhi id
  plain : ∀ b id, id ∈ lead b → g.isPhi id = false
  block : ∀ b data, f.Reachable b → f.block? b = some data → ∃ data', g.block? b = some data' ∧
    data'.insts = (f.phisOf b).filter keep ++
      (lead b ++ ((f.instsOf b).dropWhile f.isPhi).filter keep) ∧
    ∀ m m' x, f.Visits act memory b (f.instsOf b) m → R b (f.instsOf b) m m' →
      m.next act f data.term = some x → m'.next act' g data'.term = some x
  start : ∀ e m, f.entry = some e → (Machine.start memory).enter act f none (f.phisOf e) = some m →
    ∃ m', ((Machine.start memory).enter act' g none ((f.phisOf e).filter keep)).bind
      ((lead e).foldlM (Machine.exec act' g)) = some m' ∧ R e (f.phisOf e) m m'
  goto : ∀ q b data m m' m₁, f.Visits act memory q (f.instsOf q) m → f.Reachable q → f.Edge q b →
    f.block? q = some data → m.next act f data.term = some (.goto b) → R q (f.instsOf q) m m' →
    m.enter act f (some q) (f.phisOf b) = some m₁ →
    ∃ m₁', (m'.enter act' g (some q) ((f.phisOf b).filter keep)).bind
      ((lead b).foldlM (Machine.exec act' g)) = some m₁' ∧ R b (f.phisOf b) m₁ m₁'
  exec : ∀ b pre id post m m' m₁, f.Visits act memory b pre m → f.Reachable b →
    f.instsOf b = pre ++ id :: post → f.isPhi id = false → R b pre m m' →
    m.exec act f id = some m₁ →
    ∃ m₁', (if keep id then m'.exec act' g id else some m') = some m₁' ∧ R b (pre ++ [id]) m₁ m₁'

variable {act act' : Activation} {memory : Memory} {f g : Func} {keep : InstId → Bool}
  {lead : BlockId → List InstId} {R : BlockId → List InstId → Machine → Machine → Prop} {b : BlockId}

namespace Simulates

theorem body (h : f.Simulates act act' memory g keep lead R) (hwf : f.WellFormed)
    (hb : f.Reachable b) (ids : List InstId) :
    ∀ {pre m m' m₁}, f.Visits act memory b pre m → R b pre m m' → f.phisOf b <+: pre →
      f.instsOf b = pre ++ ids → ids.foldlM (Machine.exec act f) m = some m₁ →
      f.Visits act memory b (f.instsOf b) m₁ ∧ ∃ m₁',
        (ids.filter keep).foldlM (Machine.exec act' g) m' = some m₁' ∧ R b (f.instsOf b) m₁ m₁' := by
  induction ids with
  | nil =>
    intro pre m m' m₁ hvisit hR _ hinsts hfold
    cases hfold
    rw [List.append_nil] at hinsts
    rw [hinsts]
    exact ⟨hvisit, m', rfl, hR⟩
  | cons id ids ih =>
    intro pre m m' m₁ hvisit hR hphis hinsts hfold
    rw [List.foldlM_cons, Option.bind_eq_bind, Option.bind_eq_some_iff] at hfold
    obtain ⟨m₂, hexec, hfold⟩ := hfold
    have hphi := hwf.isPhi_of_split hphis hinsts
    obtain ⟨m₂', hexec', hR₂⟩ := h.exec b pre id ids m m' m₂ hvisit hb hinsts hphi hR hexec
    have hrest : f.instsOf b = pre ++ [id] ++ ids := by rw [hinsts, List.append_cons]
    obtain ⟨hvisit₁, m₁', hfold', hR₁⟩ := ih (hvisit.exec hinsts hphi hexec) hR₂
      (hphis.trans (List.prefix_append _ _)) hrest hfold
    refine ⟨hvisit₁, m₁', ?_, hR₁⟩
    cases hkeep : keep id with
    | false =>
      rw [hkeep] at hexec'
      cases hexec'
      rw [List.filter_cons_of_neg (by simp [hkeep])]
      exact hfold'
    | true =>
      rw [hkeep] at hexec'
      rw [List.filter_cons_of_pos hkeep, List.foldlM_cons,
        show m'.exec act' g id = some m₂' from hexec']
      exact hfold'

/-- The phis that are kept stand at the head again. -/
theorem runBlock_eq (h : f.Simulates act act' memory g keep lead R) (hwf : f.WellFormed)
    (hb : f.Reachable b) (prev : Option BlockId) (m' : Machine) :
    g.runBlock act' prev ((f.phisOf b).filter keep ++
        (lead b ++ ((f.instsOf b).dropWhile f.isPhi).filter keep)) m' =
      ((m'.enter act' g prev ((f.phisOf b).filter keep)).bind
        ((lead b).foldlM (Machine.exec act' g))).bind
        ((((f.instsOf b).dropWhile f.isPhi).filter keep).foldlM (Machine.exec act' g)) := by
  have hphis : ∀ id ∈ (f.phisOf b).filter keep, g.isPhi id = true := by
    intro id hid
    obtain ⟨hmem, hkeep⟩ := List.mem_filter.1 hid
    rw [h.isPhi b id hb ((f.phisOf_prefix b).subset hmem) hkeep]
    exact of_mem_takeWhile hmem
  have hrest : ∀ id, (lead b ++ ((f.instsOf b).dropWhile f.isPhi).filter keep).head? = some id →
      g.isPhi id = false := by
    intro id hid
    rcases List.mem_append.1 (List.mem_of_head? hid) with hlead | hid
    · exact h.plain b id hlead
    · obtain ⟨hmem, hkeep⟩ := List.mem_filter.1 hid
      have hmem' : id ∈ f.instsOf b := (List.dropWhile_suffix f.isPhi).subset hmem
      rw [h.isPhi b id hb hmem' hkeep]
      exact hwf.isPhi_behind hmem
  unfold runBlock
  rw [takeWhile_append_of_all hphis hrest, dropWhile_append_of_all hphis hrest, Option.bind_assoc]
  simp only [List.foldlM_append]
  rfl

/-- Control has come to `b` in both executions. -/
def Arrives (act : Activation) (memory : Memory) (f : Func)
    (R : BlockId → List InstId → Machine → Machine → Prop) (b : BlockId) (m m' : Machine) :
    Option BlockId → Prop
  | none => f.entry = some b ∧ m = .start memory ∧ m' = .start memory
  | some q => f.Visits act memory q (f.instsOf q) m ∧ R q (f.instsOf q) m m' ∧
    ∃ data, f.block? q = some data ∧ m.next act f data.term = some (.goto b)

theorem runBlock (h : f.Simulates act act' memory g keep lead R) (hwf : f.WellFormed)
    (hl : act.Leaves f) {prev : Option BlockId} {m m' m₁ : Machine}
    (ha : Arrives act memory f R b m m' prev)
    (hrun : f.runBlock act prev (f.instsOf b) m = some m₁) :
    f.Reachable b ∧ f.Visits act memory b (f.instsOf b) m₁ ∧ ∃ m₁',
      g.runBlock act' prev ((f.phisOf b).filter keep ++
        (lead b ++ ((f.instsOf b).dropWhile f.isPhi).filter keep)) m' = some m₁' ∧
      R b (f.instsOf b) m₁ m₁' := by
  unfold Func.runBlock at hrun
  simp only [Option.bind_eq_bind, Option.bind_eq_some_iff] at hrun
  obtain ⟨m₂, henter, hbody⟩ := hrun
  have hstart : f.Reachable b ∧ f.Visits act memory b (f.phisOf b) m₂ ∧ ∃ m₂',
      (m'.enter act' g prev ((f.phisOf b).filter keep)).bind
        ((lead b).foldlM (Machine.exec act' g)) = some m₂' ∧ R b (f.phisOf b) m₂ m₂' := by
    cases prev with
    | none =>
      obtain ⟨he, rfl, rfl⟩ := ha
      exact ⟨.entry he (hwf.entry b he), .start he henter, h.start b m₂ he henter⟩
    | some q =>
      obtain ⟨hvisit, hR, data, hdata, hnext⟩ := ha
      have hq := hvisit.reachable hwf hl
      have hedge := hwf.edge hdata (Machine.mem_successors_of_goto hl hdata hnext)
      exact ⟨hq.step hedge, .goto hvisit hdata hnext henter,
        h.goto q b data m m' m₂ hvisit hq hedge hdata hnext hR henter⟩
  obtain ⟨hb, hvisit, m₂', henter', hR⟩ := hstart
  have hsplit := f.instsOf_eq_phisOf_append b
  obtain ⟨hvisit₁, m₁', hbody', hR₁⟩ :=
    h.body hwf hb _ hvisit hR (List.prefix_refl _) hsplit hbody
  refine ⟨hb, hvisit₁, m₁', ?_, hR₁⟩
  rw [h.runBlock_eq hwf hb, henter']
  exact hbody'

theorem runFrom (h : f.Simulates act act' memory g keep lead R) (hwf : f.WellFormed)
    (hl : act.Leaves f) (n : Nat) :
    ∀ {prev b m m'}, Arrives act memory f R b m m' prev → ∀ {e m₁},
      f.runFrom act n prev b m = some (e, m₁) →
      ∃ c m₁', g.runFrom act' n prev b m' = some (e, m₁') ∧ R c (f.instsOf c) m₁ m₁' := by
  induction n with
  | zero =>
    intro prev b m m' _ e m₁ hrun
    cases hrun
  | succ n ih =>
    intro prev b m m' ha e m₁ hrun
    obtain ⟨_, data, m₂, x, ⟨⟩, hdata, hblock, hnext, hrun⟩ := runFrom_eq_some.1 hrun
    rw [← instsOf_eq hdata] at hblock
    obtain ⟨hb, hvisit, m₂', hblock', hR⟩ := h.runBlock hwf hl ha hblock
    obtain ⟨data', hdata', hinsts, hterm⟩ := h.block b data hb hdata
    have hnext' : m₂'.next act' g data'.term = some x := hterm m₂ m₂' x hvisit hR hnext
    rw [← hinsts] at hblock'
    cases x with
    | leave e' =>
      cases hrun
      have hrun' : g.runFrom act' (n + 1) prev b m' = some (e, m₂') :=
        runFrom_eq_some.2 ⟨n, data', m₂', _, rfl, hdata', hblock', hnext', rfl⟩
      exact ⟨b, m₂', hrun', hR⟩
    | goto c =>
      have harrives : Arrives act memory f R c m₂ m₂' (some b) := ⟨hvisit, hR, data, hdata, hnext⟩
      obtain ⟨d, m₁', hrun', hR'⟩ := ih harrives hrun
      exact ⟨d, m₁', runFrom_eq_some.2 ⟨n, data', m₂', _, rfl, hdata', hblock', hnext', hrun'⟩, hR'⟩

theorem run (h : f.Simulates act act' memory g keep lead R) (hwf : f.WellFormed)
    (hl : act.Leaves f) {n : Nat} {e : Exit} {m : Machine} (hrun : f.run act memory n = some (e, m)) :
    ∃ c m', g.run act' memory n = some (e, m') ∧ R c (f.instsOf c) m m' := by
  unfold Func.run at hrun
  simp only [Option.bind_eq_bind, Option.bind_eq_some_iff] at hrun
  obtain ⟨b, hb, hrun⟩ := hrun
  have harrives : Arrives act memory f R b (.start memory) (.start memory) none := ⟨hb, rfl, rfl⟩
  obtain ⟨c, m', hrun', hR⟩ := h.runFrom hwf hl n harrives hrun
  refine ⟨c, m', ?_, hR⟩
  unfold Func.run
  rw [h.entry, hb]
  exact hrun'

end Simulates

/-- The function `g` has those instructions of `f` that `keep` holds of, and `R` relates the states of
both, which look the same from outside. -/
structure Lockstep (act : Activation) (memory : Memory) (f g : Func) (keep : InstId → Bool)
    (R : BlockId → List InstId → Machine → Machine → Prop) : Prop where
  entry : g.entry = f.entry
  isPhi : ∀ b id, f.Reachable b → id ∈ f.instsOf b → keep id = true → g.isPhi id = f.isPhi id
  block : ∀ b data, f.Reachable b → f.block? b = some data → ∃ data', g.block? b = some data' ∧
    data'.insts = data.insts.filter keep ∧
    ∀ m m' x, f.Visits act memory b data.insts m → R b data.insts m m' →
      m.next act f data.term = some x → m'.next act g data'.term = some x
  start : ∀ e m, f.entry = some e → (Machine.start memory).enter act f none (f.phisOf e) = some m →
    ∃ m', (Machine.start memory).enter act g none ((f.phisOf e).filter keep) = some m' ∧
      R e (f.phisOf e) m m'
  goto : ∀ q b data m m' m₁, f.Visits act memory q (f.instsOf q) m → f.Reachable q → f.Edge q b →
    f.block? q = some data → m.next act f data.term = some (.goto b) → R q (f.instsOf q) m m' →
    m.enter act f (some q) (f.phisOf b) = some m₁ →
    ∃ m₁', m'.enter act g (some q) ((f.phisOf b).filter keep) = some m₁' ∧ R b (f.phisOf b) m₁ m₁'
  exec : ∀ b pre id post m m' m₁, f.Visits act memory b pre m → f.Reachable b →
    f.instsOf b = pre ++ id :: post → f.isPhi id = false → R b pre m m' →
    m.exec act f id = some m₁ →
    ∃ m₁', (if keep id then m'.exec act g id else some m') = some m₁' ∧ R b (pre ++ [id]) m₁ m₁'
  alike : ∀ b pre m m', R b pre m m' → m.Alike m'

theorem Lockstep.simulates (h : f.Lockstep act memory g keep R) :
    f.Simulates act act memory g keep (fun _ => []) R where
  entry := h.entry
  isPhi := h.isPhi
  plain := fun _ _ hid => absurd hid List.not_mem_nil
  block := by
    intro b data hb hdata
    obtain ⟨data', hdata', hinsts, hterm⟩ := h.block b data hb hdata
    refine ⟨data', hdata', ?_, ?_⟩
    · rw [hinsts, List.nil_append, ← List.filter_append, phisOf, List.takeWhile_append_dropWhile,
        instsOf_eq hdata]
    · rw [instsOf_eq hdata]
      exact hterm
  start := by
    intro e m he henter
    obtain ⟨m', henter', hR⟩ := h.start e m he henter
    exact ⟨m', by rw [henter']; rfl, hR⟩
  goto := by
    intro q b data m m' m₁ hvisit hq hedge hdata hnext hR henter
    obtain ⟨m₁', henter', hR₁⟩ := h.goto q b data m m' m₁ hvisit hq hedge hdata hnext hR henter
    exact ⟨m₁', by rw [henter']; rfl, hR₁⟩
  exec := h.exec

/-- The function `g` has the instructions of `f` and comes to the same states. -/
structure Abreast (act : Activation) (memory : Memory) (f g : Func) : Prop where
  entry : g.entry = f.entry
  typeOf : ∀ v, g.typeOf v = f.typeOf v
  isPhi : ∀ b id, f.Reachable b → id ∈ f.instsOf b → g.isPhi id = f.isPhi id
  block : ∀ b data, f.Reachable b → f.block? b = some data → ∃ data', g.block? b = some data' ∧
    data'.insts = data.insts ∧
    ∀ (m : Machine) x, m.next act f data.term = some x → m.next act g data'.term = some x
  phiWord : ∀ q b data (m : Machine), f.Reachable q → f.block? q = some data →
    m.next act f data.term = some (.goto b) → ∀ id ∈ f.phisOf b,
      m.phiWord act g (some q) id = m.phiWord act f (some q) id
  exec : ∀ b pre id post m m₁, f.Visits act memory b pre m → f.Reachable b →
    f.instsOf b = pre ++ id :: post → f.isPhi id = false → m.exec act f id = some m₁ →
    m.exec act g id = some m₁

theorem Abreast.lockstep (h : f.Abreast act memory g) :
    f.Lockstep act memory g (fun _ => true) fun _ _ m m' => m = m' where
  entry := h.entry
  isPhi := fun b id hb hid _ => h.isPhi b id hb hid
  block := by
    intro b data hb hdata
    obtain ⟨data', hdata', hinsts, hnext⟩ := h.block b data hb hdata
    refine ⟨data', hdata', by rw [hinsts, List.filter_true], ?_⟩
    rintro m _ x _ rfl hx
    exact hnext m x hx
  start := by
    intro e m he henter
    refine ⟨m, ?_, rfl⟩
    rw [List.filter_true, Machine.enter_congr h.typeOf fun id _ => by
      rw [Machine.phiWord_entry, Machine.phiWord_entry]]
    exact henter
  goto := by
    rintro q b data m _ m₁ _ hq _ hdata hnext rfl henter
    refine ⟨m₁, ?_, rfl⟩
    rw [List.filter_true, Machine.enter_congr h.typeOf (h.phiWord q b data m hq hdata hnext)]
    exact henter
  exec := by
    rintro b pre id post m _ m₁ hvisit hb hsplit hphi rfl hexec
    refine ⟨m₁, ?_, rfl⟩
    rw [if_pos rfl]
    exact h.exec b pre id post m m₁ hvisit hb hsplit hphi hexec
  alike := by
    rintro b pre m _ rfl
    exact ⟨rfl, rfl, rfl⟩

theorem refines_of_lockstep (hwf : f.WellFormed) (hl : act.Leaves f)
    (h : ∀ memory, ∃ keep R, f.Lockstep act memory g keep R) : f.Refines act g := by
  intro memory n e m hrun
  obtain ⟨keep, R, hstep⟩ := h memory
  obtain ⟨c, m', hrun', hR⟩ := hstep.simulates.run hwf hl hrun
  obtain ⟨hcalls, hmemory, hslots⟩ := hstep.alike c _ m m' hR
  exact ⟨n, m', hrun', hcalls, hmemory, hslots⟩

end Func

end BinaryLift
