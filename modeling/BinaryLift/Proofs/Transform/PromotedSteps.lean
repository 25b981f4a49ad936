import BinaryLift.Proofs.Run.Values
import BinaryLift.Proofs.Transform.PromotedValues

/-!
# Instructions of the promoted function

Two executions match at a place if they agree on calls, memory and all slots that are still there, if
every renamed value is what the old one was, and if the current value of a promoted slot is what is
in the slot. One instruction keeps the match; where the promoted function has none, it waits.
-/

namespace BinaryLift.Promotion

open Func Machine

variable {f : Func} {P : Promotion f} {g : Func} {ρ : Value → Value} {act : Activation}
  {b : BlockId} {pre post : List InstId} {id : InstId} {v : Value} {m m' m₁ : Machine}

/-- The executions of `f` and of the promoted `g`, both in block `b` behind `pre`. -/
structure Matches (P : Promotion f) (g : Func) (ρ : Value → Value) (act : Activation) (b : BlockId)
    (pre : List InstId) (m m' : Machine) : Prop where
  calls : m'.calls = m.calls
  memory : m'.memory = m.memory
  slots : ∀ s, s ∉ P.slots.map (·.1) → m'.slots s = m.slots s
  env : ∀ j w, f.Available b pre j → j ∉ P.slots.map (·.1) → m.env j = some w →
    m'.eval act g (ρ (.inst j)) = some w
  cur : ∀ (n : Nat) s ty, P.slots[n]? = some (s, ty) →
    m'.eval act g (ρ (valueOf (P.current b pre) n)) = some ((m.slots s).read 0 ty)

/-! ### Operands -/

theorem Matches.eval (hm : P.Matches g ρ act b pre m m') (hp : P.Promoted g ρ) {w : Word}
    (hv : ∀ j, v = .inst j → f.Available b pre j ∧ j ∉ P.slots.map (·.1))
    (hw : m.eval act f v = some w) : m'.eval act g (ρ v) = some w := by
  cases v with
  | const c =>
    rw [hp.rename_const]
    exact hw
  | arg k =>
    rw [hp.rename_arg]
    simpa only [Machine.eval, wordTy, typeOf, hp.params] using hw
  | inst j =>
    obtain ⟨hj, hslot⟩ := hv j rfl
    exact hm.env j w hj hslot hw

/-! ### Instructions that stay -/

theorem isAccess_of_drops (h : P.drops id = false) : P.isAccess id = false ∧ id ∉ P.slots.map (·.1) := by
  simpa only [drops, Bool.or_eq_false_iff, decide_eq_false_iff_not] using h

theorem track_of_isAccess {cur : List Value} (h : P.isAccess id = false) : P.track cur id = cur := by
  refine track_eq_self fun p v o hi => ?_
  simpa [isAccess, hi] using h

/-- Both executions do the same to everything but the promoted slots. -/
theorem Matches.advance (hm : P.Matches g ρ act b pre m m') (h : P.Sound) (hp : P.Promoted g ρ)
    (hb : f.Reachable b) (hsplit : f.instsOf b = pre ++ id :: post) (hkeep : P.drops id = false)
    {m₁' : Machine} (hcalls : m₁'.calls = m₁.calls) (hmemory : m₁'.memory = m₁.memory)
    (hslots : ∀ s, s ∉ P.slots.map (·.1) → m₁'.slots s = m₁.slots s)
    (hpromoted : ∀ s, s ∈ P.slots.map (·.1) → m₁.slots s = m.slots s)
    (henv : ∀ j, j ≠ id → m₁.env j = m.env j) (henv' : ∀ j, j ≠ id → m₁'.env j = m'.env j)
    (hid : ∀ w, m₁.env id = some w → m₁'.env id = some w) :
    P.Matches g ρ act b (pre ++ [id]) m₁ m₁' := by
  have hpre := prefix_of_split hsplit
  -- earlier values are not touched
  have hframe : ∀ v, P.Earlier b pre v → m₁'.eval act g (ρ v) = m'.eval act g (ρ v) := by
    intro v hv
    refine eval_congr fun j hj => henv' j ?_
    rintro rfl
    exact (hp.earlier h hb hpre hv).ne_inst h hsplit hj
  refine ⟨hcalls, hmemory, hslots, ?_, ?_⟩
  · intro j w hj hslot hw
    by_cases hjid : j = id
    · subst hjid
      rw [hp.rename_of_keep h hkeep]
      exact hid w hw
    · have hav := available_snoc hj hjid
      rw [hframe (.inst j) (.inl hav)]
      rw [henv j hjid] at hw
      exact hm.env j w hav hslot hw
  · intro n s ty hs
    have hsmem : s ∈ P.slots.map (·.1) := mem_slots.2 ⟨n, ty, hs⟩
    rw [current_snoc, track_of_isAccess (isAccess_of_drops hkeep).1,
      hframe _ (h.earlier_of_source hb (h.source_current hs hb hpre)), hpromoted s hsmem]
    exact hm.cur n s ty hs

theorem Matches.define (hm : P.Matches g ρ act b pre m m') (h : P.Sound) (hp : P.Promoted g ρ)
    (hb : f.Reachable b) (hsplit : f.instsOf b = pre ++ id :: post) (hkeep : P.drops id = false)
    (ty : Ty) (w : Word) {memory memory' : Memory} (hmemory : memory' = memory)
    {calls calls' : List Call} (hcalls : calls' = calls) :
    P.Matches g ρ act b (pre ++ [id])
      ({ m with memory := memory, calls := calls }.define id ty w)
      ({ m' with memory := memory', calls := calls' }.define id ty w) := by
  refine hm.advance h hp hb hsplit hkeep hcalls hmemory hm.slots (fun _ _ => rfl) ?_ ?_ ?_
  · exact fun j hj => if_neg hj
  · exact fun j hj => if_neg hj
  · intro u hu
    rw [← hu]
    simp only [Machine.define, if_true]

theorem Matches.write (hm : P.Matches g ρ act b pre m m') (h : P.Sound) (hp : P.Promoted g ρ)
    (hb : f.Reachable b) (hsplit : f.instsOf b = pre ++ id :: post) (hkeep : P.drops id = false)
    {ty : Ty} {w : Word} {q : Place} (hq : ∀ s, q = .slot s → s ∉ P.slots.map (·.1))
    (hnone : (m.write ty w q).env id = none) :
    P.Matches g ρ act b (pre ++ [id]) (m.write ty w q) (m'.write ty w q) := by
  have hid : ∀ u, (m.write ty w q).env id = some u → (m'.write ty w q).env id = some u := by
    intro u hu
    rw [hnone] at hu
    cases hu
  cases q with
  | guest x =>
    refine hm.advance h hp hb hsplit hkeep hm.calls ?_ hm.slots (fun _ _ => rfl)
      (fun _ _ => rfl) (fun _ _ => rfl) hid
    simp only [Machine.write, hm.memory]
  | slot s =>
    have hs := hq s rfl
    refine hm.advance h hp hb hsplit hkeep hm.calls hm.memory ?_ ?_ (fun _ _ => rfl)
      (fun _ _ => rfl) hid
    · intro t ht
      simp only [Machine.write, hm.slots s hs, hm.slots t ht]
    · intro t ht
      refine if_neg ?_
      rintro rfl
      exact hs ht

theorem Sound.operand_notMem (h : P.Sound) (hmem : id ∈ f.instsOf b) (hkeep : P.drops id = false)
    {i : Inst} (hi : f.inst? id = some i) {j : InstId} (hj : .inst j ∈ i.kind.operands) :
    j ∉ P.slots.map (·.1) := by
  intro hslot
  obtain ⟨n, ty, hs⟩ := mem_slots.1 hslot
  have hnumber := h.slotNumber?_inst hs
  obtain ⟨_, hacc⟩ := h.users hmem hi hs hj
  have haccess : P.isAccess id = true := by
    cases hacc with
    | load => simp [isAccess, hi, hnumber]
    | store _ _ => simp [isAccess, hi, hnumber]
  rw [(isAccess_of_drops hkeep).1] at haccess
  cases haccess

theorem Sound.operand_available (h : P.Sound) (hb : f.Reachable b)
    (hsplit : f.instsOf b = pre ++ id :: post) {i : Inst} (hi : f.inst? id = some i)
    (hphi : i.kind.isPhi = false) {j : InstId} (hj : .inst j ∈ i.kind.operands) :
    f.Available b pre j := by
  obtain ⟨data, hdata, hinsts⟩ := exists_block_of_insts hsplit
  exact h.wellFormed.uses b data pre id post i hb hdata hinsts hi hphi j hj

theorem Matches.exec_keep (hm : P.Matches g ρ act b pre m m') (h : P.Sound) (hp : P.Promoted g ρ)
    (hown : P.Owned act.own) (hb : f.Reachable b)
    (hsplit : f.instsOf b = pre ++ id :: post) (hkeep : P.drops id = false)
    (hphi : f.isPhi id = false) (htame : m₁.Tame f) (hexec : m.exec act f id = some m₁) :
    ∃ m₁', m'.exec act g id = some m₁' ∧ P.Matches g ρ act b (pre ++ [id]) m₁ m₁' := by
  obtain ⟨i, ws, a, hi, hws, ha, rfl⟩ := exec_eq_some.1 hexec
  have hmem := mem_of_split hsplit
  have hkind : i.kind.isPhi = false := by
    rw [isPhi, hi] at hphi
    exact hphi
  have hops : ∀ j, .inst j ∈ i.kind.operands → f.Available b pre j ∧ j ∉ P.slots.map (·.1) :=
    fun j hj => ⟨h.operand_available hb hsplit hi hkind hj, h.operand_notMem hmem hkeep hi hj⟩
  have hid := hp.wordTy_inst hi
  have hexec' : m'.exec act g id = some (m'.perform act id (f.wordTy (.inst id)) a) := by
    refine exec_eq_some.2 ⟨_, ws, a, hp.inst b id i hmem hkeep hi, ?_, ?_, by rw [hid]⟩
    · rw [Kind.operands_mapOperands]
      refine mapM_rename i.kind.operands (fun v hv w hw => ?_) ws hws
      refine hm.eval hp (fun j hj => hops j ?_) hw
      rwa [hj] at hv
    · refine (action_rename rfl (fun v _ => place_of_own fun s hs => hp.rename_own h hown hs)
        (fun v hv => ?_) hid ws).trans ha
      refine hp.wordTy_rename h fun j hj => ?_
      rw [hj] at hv
      exact available_exists h (prefix_of_split hsplit).subset (hops j hv).1
  refine ⟨_, hexec', ?_⟩
  rcases action_cases ha with ⟨w, rfl⟩ | ⟨p, x, hload, _, rfl⟩ | ⟨p, v, x, w, hstore, _, rfl⟩ | ⟨c, rfl⟩
  · exact hm.define h hp hb hsplit hkeep (f.wordTy (.inst id)) w hm.memory hm.calls
  · have hread : m'.read (f.wordTy (.inst id)) (act.place p x) =
        m.read (f.wordTy (.inst id)) (act.place p x) := by
      cases hplace : act.place p x with
      | guest x' => simp only [Machine.read, hm.memory]
      | slot s =>
        have hs := (slot_of_place hplace).1
        have hop : .inst s ∈ i.kind.operands := by
          rw [hload, hs]
          exact List.mem_singleton_self _
        simp only [Machine.read, hm.slots s (hops s hop).2]
    simp only [perform, hread]
    exact hm.define h hp hb hsplit hkeep (f.wordTy (.inst id)) _ hm.memory hm.calls
  · obtain ⟨kind, o⟩ := i
    have hstored : f.inst? id = some ⟨.store p v, o⟩ := by
      rw [hi]
      exact congrArg (fun k => some (Inst.mk k o)) hstore
    refine hm.write h hp hb hsplit hkeep (fun s hs => ?_) (htame.store id p v o hstored)
    have hop : .inst s ∈ kind.operands := by
      have hkind' : kind = .store p v := hstore
      rw [hkind', (slot_of_place hs).1]
      exact List.mem_cons_self
    exact (hops s hop).2
  · simp only [perform, hm.memory, hm.calls]
    exact hm.define h hp hb hsplit hkeep (f.wordTy (.inst id)) _ rfl rfl

/-! ### Instructions that go -/

theorem Matches.wait (hm : P.Matches g ρ act b pre m m') (hcalls : m₁.calls = m.calls)
    (hmemory : m₁.memory = m.memory)
    (hslots : ∀ s, s ∉ P.slots.map (·.1) → m₁.slots s = m.slots s)
    (henv : ∀ j, j ≠ id → m₁.env j = m.env j)
    (hid : id ∉ P.slots.map (·.1) → ∀ w, m₁.env id = some w → m'.eval act g (ρ (.inst id)) = some w)
    (hcur : ∀ (n : Nat) s ty, P.slots[n]? = some (s, ty) →
      m'.eval act g (ρ (valueOf (P.current b (pre ++ [id])) n)) = some ((m₁.slots s).read 0 ty)) :
    P.Matches g ρ act b (pre ++ [id]) m₁ m' := by
  refine ⟨hm.calls.trans hcalls.symm, hm.memory.trans hmemory.symm, ?_, ?_, hcur⟩
  · intro s hs
    rw [hm.slots s hs, hslots s hs]
  · intro j w hj hslot hw
    by_cases hjid : j = id
    · subst hjid
      exact hid hslot w hw
    · rw [henv j hjid] at hw
      exact hm.env j w (available_snoc hj hjid) hslot hw

theorem Owned.place (hown : P.Owned act.own) {n : Nat} {s : InstId} {ty : Ty}
    (hs : P.slots[n]? = some (s, ty)) (x : Word) : act.place (.inst s) x = .slot s := by
  simp [Activation.place, hown.promoted s (mem_slots.2 ⟨n, ty, hs⟩)]

theorem Matches.drop_alloca (hm : P.Matches g ρ act b pre m m') (h : P.Sound)
    (hdrop : id ∈ P.slots.map (·.1)) (hexec : m.exec act f id = some m₁) :
    P.Matches g ρ act b (pre ++ [id]) m₁ m' := by
  obtain ⟨size, o, hi⟩ := h.alloca_of_mem hdrop
  obtain ⟨i, ws, a, hi', _, ha, rfl⟩ := exec_eq_some.1 hexec
  rw [hi] at hi'
  cases hi'
  have hresult : ∃ w, a = .result w := by
    rcases action_cases ha with hw | ⟨p, x, hk, _⟩ | ⟨p, v, x, w, hk, _⟩ | ⟨c, rfl⟩
    · exact hw
    · cases hk
    · cases hk
    · match ws, ha with
      | [], ha => cases ha
      | _ :: _, ha => cases ha
  obtain ⟨w, rfl⟩ := hresult
  refine hm.wait rfl rfl (fun _ _ => rfl) (fun j hj => if_neg hj) (fun hnot => absurd hdrop hnot) ?_
  intro n s ty hs
  rw [current_snoc, track_eq_self fun p v o' hstore => by rw [hi] at hstore; cases hstore]
  exact hm.cur n s ty hs

theorem Matches.drop_load (hm : P.Matches g ρ act b pre m m') (h : P.Sound) (hp : P.Promoted g ρ)
    (hown : P.Owned act.own) (hb : f.Reachable b) (hsplit : f.instsOf b = pre ++ id :: post)
    {s : InstId} {o : Option Ty} (hi : f.inst? id = some ⟨.load (.inst s), o⟩) {n : Nat} {ty : Ty}
    (hs : P.slots[n]? = some (s, ty)) (hexec : m.exec act f id = some m₁) :
    P.Matches g ρ act b (pre ++ [id]) m₁ m' := by
  have hmem := mem_of_split hsplit
  have ho : o = some ty := by
    obtain ⟨_, hacc⟩ := h.users (mem_of_split hsplit) hi hs (List.mem_singleton_self _)
    cases hacc
    rfl
  subst ho
  obtain ⟨x, _, rfl⟩ := (exec_load hi).1 hexec
  have hty : f.wordTy (.inst id) = ty := by rw [Func.wordTy_inst hi]; rfl
  have hloads : P.Loads id (valueOf (P.current b pre) n) :=
    ⟨b, pre, post, s, some ty, n, ty, hb, hsplit, hi, hs, rfl⟩
  rw [hown.place hs, hty]
  refine hm.wait rfl rfl (fun _ _ => rfl) (fun j hj => if_neg hj) ?_ ?_
  · intro _ w hw
    rw [hp.loads id _ hloads, hm.cur n s ty hs, ← hw]
    simp only [Machine.define, if_true, Machine.read]
    rw [(m.slots s).read_fits 0 ty]
  · intro k s' ty' hs'
    rw [current_snoc, track_eq_self fun p v o' hstore => by rw [hi] at hstore; cases hstore]
    exact hm.cur k s' ty' hs'

/-- A store is the current value from now on. -/
theorem Matches.drop_store (hm : P.Matches g ρ act b pre m m') (h : P.Sound) (hp : P.Promoted g ρ)
    (hown : P.Owned act.own) (hb : f.Reachable b) (hsplit : f.instsOf b = pre ++ id :: post)
    (htame : m.Tame f) {s : InstId} {v : Value} {o : Option Ty}
    (hi : f.inst? id = some ⟨.store (.inst s) v, o⟩) {n : Nat} {ty : Ty}
    (hs : P.slots[n]? = some (s, ty)) (hexec : m.exec act f id = some m₁) :
    P.Matches g ρ act b (pre ++ [id]) m₁ m' := by
  have hmem := mem_of_split hsplit
  obtain ⟨hne, hvty⟩ : v ≠ .inst s ∧ f.typeOf v = some ty := by
    cases (h.users hmem hi hs List.mem_cons_self).2 with
    | store hne hv => exact ⟨hne, hv⟩
  have hty : f.wordTy v = ty := by rw [wordTy, hvty]; rfl
  obtain ⟨x, w, _, hw, rfl⟩ := (exec_store hi).1 hexec
  -- the stored value is no promoted slot
  have hv : ∀ j, v = .inst j → f.Available b pre j ∧ j ∉ P.slots.map (·.1) := by
    rintro j rfl
    have hop : Value.inst j ∈ (Kind.store (.inst s) (.inst j)).operands := by simp [Kind.operands]
    refine ⟨h.operand_available hb hsplit hi rfl hop, fun hslot => ?_⟩
    obtain ⟨k, ty', hs'⟩ := mem_slots.1 hslot
    cases (h.users hmem hi hs' hop).2 with
    | store hne' _ => exact hne' rfl
  have hfits : ty.Fits w := hty ▸ htame.eval hw
  rw [hown.place hs, hty]
  refine hm.wait rfl rfl ?_ (fun _ _ => rfl) ?_ ?_
  · intro t ht
    refine if_neg ?_
    rintro rfl
    exact ht (mem_slots.2 ⟨n, ty, hs⟩)
  · intro _ u hu
    have hnone := htame.store id _ v o hi
    rw [show (m.write ty w (.slot s)).env id = m.env id from rfl, hnone] at hu
    cases hu
  · intro k s' ty' hs'
    have hlt : n < (P.current b pre).length := by
      rw [length_current]
      exact (List.getElem?_eq_some_iff.1 hs).1
    rw [current_snoc, track_store hi (h.slotNumber?_inst hs), valueOf_set hlt]
    by_cases hk : n = k
    · subst hk
      rw [hs] at hs'
      cases hs'
      rw [if_pos rfl, hm.eval hp hv hw]
      simp only [Machine.write, if_true, Memory.read_write _ _ hfits]
    · have hss : s' ≠ s := by
        rintro rfl
        exact hk (h.slot_inj hs hs')
      rw [if_neg hk, hm.cur k s' ty' hs']
      simp only [Machine.write, if_neg hss]

theorem Matches.exec (hm : P.Matches g ρ act b pre m m') (h : P.Sound) (hp : P.Promoted g ρ)
    (hown : P.Owned act.own) (hb : f.Reachable b) (hsplit : f.instsOf b = pre ++ id :: post)
    (hphi : f.isPhi id = false) (htame : m.Tame f) (hexec : m.exec act f id = some m₁) :
    ∃ m₁', (if P.drops id then some m' else m'.exec act g id) = some m₁' ∧
      P.Matches g ρ act b (pre ++ [id]) m₁ m₁' := by
  cases hdrop : P.drops id with
  | false => exact hm.exec_keep h hp hown hb hsplit hdrop hphi (htame.exec hexec) hexec
  | true =>
    refine ⟨m', rfl, ?_⟩
    rw [drops, Bool.or_eq_true, decide_eq_true_eq] at hdrop
    rcases hdrop with hacc | hslot
    · obtain ⟨n, s, ty, o, hs, hi | ⟨v, hi⟩⟩ := h.isAccess_cases hacc
      · exact hm.drop_load h hp hown hb hsplit hi hs hexec
      · exact hm.drop_store h hp hown hb hsplit htame hi hs hexec
    · exact hm.drop_alloca h hslot hexec

theorem Matches.body (h : P.Sound) (hp : P.Promoted g ρ) (hown : P.Owned act.own)
    (hb : f.Reachable b) (ids : List InstId) :
    ∀ {pre post m m'}, P.Matches g ρ act b pre m m' → m.Tame f →
      f.instsOf b = pre ++ ids ++ post → (∀ id ∈ ids, f.isPhi id = false) →
      ∀ m₁, ids.foldlM (Machine.exec act f) m = some m₁ →
      m₁.Tame f ∧ ∃ m₁', (ids.filter fun id => !P.drops id).foldlM (Machine.exec act g) m' = some m₁' ∧
        P.Matches g ρ act b (pre ++ ids) m₁ m₁' := by
  induction ids with
  | nil =>
    intro pre post m m' hm htame _ _ m₁ hfold
    cases hfold
    exact ⟨htame, m', rfl, by rwa [List.append_nil]⟩
  | cons id ids ih =>
    intro pre post m m' hm htame hsplit hphi m₁ hfold
    have hfirst : f.instsOf b = pre ++ id :: (ids ++ post) := by
      rw [hsplit, List.append_assoc, List.cons_append]
    have hrest : f.instsOf b = pre ++ [id] ++ ids ++ post := by
      rw [hsplit, List.append_cons]
    rw [List.foldlM_cons, Option.bind_eq_bind, Option.bind_eq_some_iff] at hfold
    obtain ⟨m₂, hexec, hfold⟩ := hfold
    obtain ⟨m₂', hexec', hm₂⟩ := hm.exec h hp hown hb hfirst (hphi id List.mem_cons_self) htame hexec
    obtain ⟨htame₁, m₁', hfold', hm₁⟩ := ih hm₂ (htame.exec hexec) hrest
      (fun j hj => hphi j (List.mem_cons_of_mem _ hj)) m₁ hfold
    rw [← List.append_cons] at hm₁
    refine ⟨htame₁, m₁', ?_, hm₁⟩
    cases hdrop : P.drops id with
    | true =>
      rw [hdrop] at hexec'
      cases hexec'
      rw [List.filter_cons_of_neg (by simp [hdrop])]
      exact hfold'
    | false =>
      rw [hdrop] at hexec'
      rw [List.filter_cons_of_pos (by simp [hdrop]), List.foldlM_cons,
        show m'.exec act g id = some m₂' from hexec']
      exact hfold'

end BinaryLift.Promotion
