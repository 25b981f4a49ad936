import BinaryLift.Proofs.Transform.Promoted

/-!
# Renamed operands

A renamed operand has the type of the old one, is there wherever the old one is, and names a slot of
the function's own only if it has not changed.
-/

namespace BinaryLift.Promotion

open Func

variable {f : Func} {P : Promotion f} {g : Func} {ρ : Value → Value} {b c : BlockId}
  {pre post : List InstId} {id j : InstId} {n : Nat} {v : Value}

/-- Along chains: a value that is not replaced, and a load whose current value is known. -/
theorem Promoted.rename_induction (hp : P.Promoted g ρ) (h : P.Sound) {C : InstId → Value → Prop}
    (self : ∀ j, (∀ u, ¬ P.Loads j u) → C j (.inst j))
    (load : ∀ j c before after s o n ty v, f.Reachable c → f.instsOf c = before ++ j :: after →
      f.inst? j = some ⟨.load (.inst s), o⟩ → P.slots[n]? = some (s, ty) →
      P.Source c before n v → (∀ k, v = .inst k → C k (ρ v)) → C j (ρ v)) (j : InstId) :
    C j (ρ (.inst j)) := by
  induction hk : P.order.idxOf j using Nat.strongRecOn generalizing j with
  | ind k ih =>
    subst hk
    by_cases hl : ∃ v, P.Loads j v
    · obtain ⟨v, hl⟩ := hl
      rw [hp.loads j v hl]
      obtain ⟨c, before, after, s, o, n, ty, hc, hsplit, hi, hs, hv⟩ := hl
      have hpre : before <+: f.instsOf c := by
        rw [hsplit]
        exact List.prefix_append _ _
      have hsource := h.source_current hs hc hpre
      rw [← hv] at hsource
      refine load j c before after s o n ty v hc hsplit hi hs hsource fun i hi' => ?_
      by_cases hli : ∃ u, P.Loads i u
      · obtain ⟨u, hu⟩ := hli
        have hlj : P.Loads j (.inst i) := by
          rw [← hi']
          exact ⟨c, before, after, s, o, n, ty, hc, hsplit, hi, hs, hv⟩
        rw [hi']
        exact ih _ (h.order_lt_of_loads hlj hu) i rfl
      · have hnot : ∀ u, ¬ P.Loads i u := fun u hu => hli ⟨u, hu⟩
        rw [hi', hp.others (.inst i) fun _ u heq => by cases heq; exact hnot u]
        exact self i hnot
    · have hnot : ∀ u, ¬ P.Loads j u := fun u hu => hl ⟨u, hu⟩
      rw [hp.others (.inst j) fun _ u heq => by cases heq; exact hnot u]
      exact self j hnot

theorem Promoted.rename_eq (hp : P.Promoted g ρ) (h : ∀ u, ¬ P.Loads j u) :
    ρ (.inst j) = .inst j := by
  refine hp.others (.inst j) fun i u heq => ?_
  cases heq
  exact h u

theorem Promoted.rename_of_keep (hp : P.Promoted g ρ) (h : P.Sound) (hj : P.drops j = false) :
    ρ (.inst j) = .inst j := by
  refine hp.rename_eq fun u hl => ?_
  rw [drops, isAccess_of_loads h hl] at hj
  cases hj

theorem Promoted.rename_const (hp : P.Promoted g ρ) (k : Constant) : ρ (.const k) = .const k :=
  hp.others (.const k) fun _ _ heq => nomatch heq

theorem Promoted.rename_arg (hp : P.Promoted g ρ) (k : Nat) : ρ (.arg k) = .arg k :=
  hp.others (.arg k) fun _ _ heq => nomatch heq

/-! ### Types -/

theorem Promoted.typeOf_self (hp : P.Promoted g ρ) {i : Inst} (hi : f.inst? j = some i) :
    g.typeOf (.inst j) = i.ty := by
  obtain ⟨k, hk⟩ := hp.ty j i hi
  rw [typeOf_inst hk]

/-- Where a value comes from fixes its type. -/
theorem Promoted.typeOf_of_source (hp : P.Promoted g ρ) (h : P.Sound) {s : InstId} {ty : Ty}
    (hs : P.slots[n]? = some (s, ty)) (hsource : P.Source b pre n v)
    (hinst : ∀ k i, v = .inst k → f.inst? k = some i → g.typeOf (ρ v) = i.ty) :
    g.typeOf (ρ v) = some ty := by
  cases hsource with
  | zero hs' =>
    rw [hs] at hs'
    cases hs'
    rw [Value.int, hp.rename_const]
    rfl
  | phi hphi _ =>
    obtain ⟨_, ty', inc, hs', hi, _⟩ := hp.phi _ _ _ hphi
    rw [hs] at hs'
    cases hs'
    rw [hp.rename_of_keep h (h.drops_phi hphi), Func.typeOf_inst hi]
  | @store c before after id s' v o ty' hsplit hi hs' _ =>
    rw [hs] at hs'
    cases hs'
    obtain ⟨_, hacc⟩ := h.users (mem_of_split hsplit) hi hs List.mem_cons_self
    cases hacc with
    | store _ hv =>
      cases v with
      | const k =>
        rw [hp.rename_const]
        exact hv
      | arg k =>
        rw [hp.rename_arg, typeOf, hp.params]
        exact hv
      | inst k =>
        cases hk : f.inst? k with
        | none =>
          rw [typeOf, hk] at hv
          cases hv
        | some i =>
          rw [hinst k i rfl hk]
          rwa [Func.typeOf_inst hk] at hv

theorem Promoted.typeOf_inst (hp : P.Promoted g ρ) (h : P.Sound) :
    ∀ i, f.inst? j = some i → g.typeOf (ρ (.inst j)) = i.ty := by
  refine hp.rename_induction h (C := fun j u => ∀ i, f.inst? j = some i → g.typeOf u = i.ty) ?_ ?_ j
  · intro j _ i hi
    exact hp.typeOf_self hi
  · intro j c before after s o n ty v hc hsplit hj hs hsource ih i hi
    rw [hj] at hi
    cases hi
    -- the access fixes the type of the load
    have hload : o = some ty := by
      obtain ⟨_, hacc⟩ := h.users (mem_of_split hsplit) hj hs (List.mem_singleton_self _)
      cases hacc
      rfl
    rw [hload]
    exact hp.typeOf_of_source h hs hsource fun k i hv hi => ih k hv i hi

/-- A renamed operand has the type of the old one. -/
theorem Promoted.typeOf_rename (hp : P.Promoted g ρ) (h : P.Sound)
    (hv : ∀ j, v = .inst j → ∃ i, f.inst? j = some i) : g.typeOf (ρ v) = f.typeOf v := by
  cases v with
  | const k =>
    rw [hp.rename_const]
    rfl
  | arg k => rw [hp.rename_arg, typeOf, typeOf, hp.params]
  | inst j =>
    obtain ⟨i, hi⟩ := hv j rfl
    rw [hp.typeOf_inst h i hi, Func.typeOf_inst hi]

theorem Promoted.wordTy_rename (hp : P.Promoted g ρ) (h : P.Sound)
    (hv : ∀ j, v = .inst j → ∃ i, f.inst? j = some i) : g.wordTy (ρ v) = f.wordTy v := by
  rw [wordTy, wordTy, hp.typeOf_rename h hv]

theorem Promoted.wordTy_inst (hp : P.Promoted g ρ) {i : Inst} (hi : f.inst? id = some i) :
    g.wordTy (.inst id) = f.wordTy (.inst id) := by
  rw [wordTy, hp.typeOf_self hi, Func.wordTy_inst hi]

/-! ### Where renamed values are there -/

theorem available_exists (h : P.Sound) (hpre : pre ⊆ f.instsOf b) (hj : f.Available b pre j) :
    ∃ i, f.inst? j = some i := by
  rcases hj with hj | ⟨c, data, _, hdata, hj⟩
  · exact h.wellFormed.consistent.inst?_of_mem (hpre hj)
  · rw [← instsOf_eq hdata] at hj
    exact h.wellFormed.consistent.inst?_of_mem hj

theorem Promoted.earlier_of_inst (hp : P.Promoted g ρ) (h : P.Sound) (hv : P.Earlier b pre v)
    (hinst : ∀ k, v = .inst k → f.Available b pre k → P.Earlier b pre (ρ v)) :
    P.Earlier b pre (ρ v) := by
  cases v with
  | const k =>
    rw [hp.rename_const]
    trivial
  | arg k =>
    rw [hp.rename_arg]
    trivial
  | inst k =>
    rcases hv with hk | ⟨a, m, hphi, hdom⟩
    · exact hinst k rfl hk
    · rw [hp.rename_of_keep h (h.drops_phi hphi)]
      exact .inr ⟨a, m, hphi, hdom⟩

theorem Promoted.earlier_inst (hp : P.Promoted g ρ) (h : P.Sound) :
    ∀ b pre, f.Reachable b → pre <+: f.instsOf b → f.Available b pre j →
      P.Earlier b pre (ρ (.inst j)) := by
  refine hp.rename_induction h (C := fun j u => ∀ b pre, f.Reachable b → pre <+: f.instsOf b →
    f.Available b pre j → P.Earlier b pre u) ?_ ?_ j
  · intro j _ b pre _ _ hj
    exact .inl hj
  · intro j c before after s o n ty v hc hsplit _ hs hsource ih b pre hb hpre hj
    obtain ⟨data, hdata, hinsts⟩ := exists_block_of_insts hsplit
    have hbefore : before <+: f.instsOf c := by
      rw [hsplit]
      exact List.prefix_append _ _
    have hmem := mem_of_split hsplit
    have hat : P.Earlier c before (ρ v) := hp.earlier_of_inst h (h.earlier_of_source hc hsource)
      fun k hk hav => ih k hk c before hc hbefore hav
    rcases hj with hj | ⟨a, adata, hdom, hadata, hj⟩
    · have hbc := h.wellFormed.consistent.same_block hmem (hpre.subset hj)
      subst hbc
      exact hat.mono (h.wellFormed.consistent.prefix_of_mem hsplit hpre hj).subset
    · rw [← instsOf_eq hadata] at hj
      have hca := h.wellFormed.consistent.same_block hmem hj
      subst hca
      refine hat.down hdata ?_ hb hdom
      rw [← instsOf_eq hdata]
      exact hbefore.subset

theorem Promoted.earlier (hp : P.Promoted g ρ) (h : P.Sound) (hb : f.Reachable b)
    (hpre : pre <+: f.instsOf b) (hv : P.Earlier b pre v) : P.Earlier b pre (ρ v) := by
  refine hp.earlier_of_inst h hv fun k hk hav => ?_
  rw [hk]
  exact hp.earlier_inst h b pre hb hpre hav

theorem Earlier.ne_inst (hv : P.Earlier b pre v) (h : P.Sound)
    (hsplit : f.instsOf b = pre ++ id :: post) : v ≠ .inst id := by
  rintro rfl
  have hid := mem_of_split hsplit
  rcases hv with (hmem | ⟨c, data, hdom, hdata, hmem⟩) | ⟨c, m, hphi, _⟩
  · exact (h.wellFormed.consistent.notMem_of_split hsplit).1 hmem
  · rw [← instsOf_eq hdata] at hmem
    exact hdom.1 (h.wellFormed.consistent.same_block hmem hid)
  · obtain ⟨i, hi⟩ := h.wellFormed.consistent.inst?_of_mem hid
    rw [h.inst?_phi hphi] at hi
    cases hi

/-- What is there at the end of a strict dominator is no phi of the block. -/
theorem Earlier.ne_phi (hv : P.Earlier c (f.instsOf c) v) (h : P.Sound) (hb : f.Reachable b)
    (hcb : f.StrictlyDominates c b) :
    (∀ i ∈ f.instsOf b, v ≠ .inst i) ∧ ∀ x ∈ P.phis.ofBlock b, v ≠ .inst x.2 := by
  cases v with
  | const k => simp
  | arg k => simp
  | inst j =>
    rcases hv with hj | ⟨a, m, hphi, hdom⟩
    · obtain ⟨a, hne, hja⟩ : ∃ a, a ≠ b ∧ j ∈ f.instsOf a := by
        rcases hj with hj | ⟨a, data, hac, hdata, hj⟩
        · exact ⟨c, hcb.1, hj⟩
        · rw [← instsOf_eq hdata] at hj
          exact ⟨a, (hac.trans_dominates hb hcb.2).1, hj⟩
      refine ⟨?_, ?_⟩
      · rintro i hi heq
        cases heq
        exact hne (h.wellFormed.consistent.same_block hja hi)
      · rintro ⟨m, p⟩ hx heq
        cases heq
        obtain ⟨i, hi⟩ := h.wellFormed.consistent.inst?_of_mem hja
        rw [h.inst?_phi hx] at hi
        cases hi
    · have hab := hdom.trans_strictly hb hcb
      refine ⟨?_, ?_⟩
      · rintro i hi heq
        cases heq
        obtain ⟨k, hk⟩ := h.wellFormed.consistent.inst?_of_mem hi
        rw [h.inst?_phi hphi] at hk
        cases hk
      · rintro ⟨m', p⟩ hx heq
        cases heq
        exact hab.1 (h.phi_unique hphi hx).1

/-! ### Own slots -/

theorem Promoted.not_own (hp : P.Promoted g ρ) (h : P.Sound) {own : InstId → Bool}
    (hown : P.Owned own) : ∀ w, P.Loads j w → ∀ s, ρ (.inst j) = .inst s → own s = false := by
  refine hp.rename_induction h (C := fun j u => ∀ w, P.Loads j w → ∀ s, u = .inst s →
    own s = false) ?_ ?_ j
  · intro j hnot w hl
    exact absurd hl (hnot w)
  · intro j c before after s o n ty v hc _ _ _ hsource ih w _ s' hs'
    cases v with
    | const k =>
      rw [hp.rename_const] at hs'
      cases hs'
    | arg k =>
      rw [hp.rename_arg] at hs'
      cases hs'
    | inst k =>
      by_cases hl : ∃ u, P.Loads k u
      · obtain ⟨u, hu⟩ := hl
        exact ih k rfl u hu s' hs'
      · rw [hp.rename_eq fun u hu => hl ⟨u, hu⟩] at hs'
        cases hs'
        exact hown.not_source h hc hsource

/-- A renamed value is an own slot only if it was. -/
theorem Promoted.rename_own (hp : P.Promoted g ρ) (h : P.Sound) {own : InstId → Bool}
    (hown : P.Owned own) {s : InstId} (hs : own s = true) : ρ v = .inst s ↔ v = .inst s := by
  have hkept : ∀ u, ¬ P.Loads s u := by
    intro u hl
    obtain ⟨size, o, hi⟩ := hown.alloca s hs
    obtain ⟨_, _, _, s', o', _, _, _, _, hload, _⟩ := hl
    rw [hi] at hload
    cases hload
  constructor
  · intro hv
    cases v with
    | const k =>
      rw [hp.rename_const] at hv
      cases hv
    | arg k =>
      rw [hp.rename_arg] at hv
      cases hv
    | inst j =>
      by_cases hl : ∃ u, P.Loads j u
      · obtain ⟨u, hu⟩ := hl
        rw [hp.not_own h hown u hu s hv] at hs
        cases hs
      · rwa [hp.rename_eq fun u hu => hl ⟨u, hu⟩] at hv
  · rintro rfl
    exact hp.rename_eq hkept

end BinaryLift.Promotion
