import BinaryLift.Proofs.Program.Checks
import BinaryLift.Proofs.Transform.Promotion
import BinaryLift.Proofs.Transform.StackSteps

/-!
# Stack promotion preserves executions

In `promote-pseudo-stack` the slots behind the stack parameter become local slots and these are promoted.
Where the function runs to an exit, the new one runs to the same exit with the same calls, and memory
outside the reserved region is the same.
-/

namespace BinaryLift

theorem Activation.adopt_nil (act : Activation) : act.adopt [] = act := by
  simp [adopt]

variable {f g g₁ : Func} {stack : Value} {e b : BlockId} {slots : StackSlots}
  {made : List (InstId × StackSlot)} {id s : InstId} {i : Inst} {v : Value}
  {act : Activation} {memory : Memory} {region : Word → Prop} {p : Word} {m : Machine}

namespace Func

/-! ### Nobody else knows the local slots -/

/-- Instructions load from the slot and store to it and do nothing else with it, and no jump or return
that control can come to names it. -/
structure OnlyAccessed (f : Func) (s : InstId) : Prop where
  insts : ∀ b id i, id ∈ f.instsOf b → f.inst? id = some i → i.kind.Spares s
  terms : ∀ b data, f.Reachable b → f.block? b = some data → .inst s ∉ data.term.operands

namespace Localized

/-- An address is not stored. -/
theorem stored_notMem (h : f.Localized stack e slots made g₁ g) {q : Value} {o : Option Ty}
    (hid : id ∈ f.instsOf b) (hi : f.inst? id = some ⟨.store q v, o⟩) :
    ∀ a, v = .inst a → a ∉ (homes made).keys := by
  rintro a rfl ha
  obtain ⟨_, _, _, _, _, hacc, _⟩ :=
    h.access ha hid hi (List.mem_cons_of_mem _ List.mem_cons_self)
  cases hacc with
  | store hne _ => exact hne rfl

theorem mem_cases (h : f.Localized stack e slots made g₁ g) (hid : id ∈ g.instsOf b) :
    id ∈ made.map (·.1) ∨ id ∈ f.instsOf b := by
  rw [h.substituted.instsOf b] at hid
  exact ((h.allotted.mem_instsOf h.live).1 (List.mem_filter.1 hid).1).imp_left And.right

theorem spares (h : f.Localized stack e slots made g₁ g) (hty : f.WellTyped)
    (hs : s ∈ made.map (·.1)) (hid : id ∈ f.instsOf b) (hi : f.inst? id = some i) :
    (i.kind.mapOperands (toLocal (homes made))).Spares s := by
  have hnew : .inst s ∉ i.kind.operands := by
    intro hop
    obtain ⟨k, hk⟩ := hty.exists_operand h.wellFormed.consistent hid hi hop
    exact h.index_ne (index_lt_of_inst? hk) hs
  by_cases hops : ∃ a ∈ (homes made).keys, .inst a ∈ i.kind.operands
  · obtain ⟨a, ha, hop⟩ := hops
    obtain ⟨_, _, _, _, ty, hacc, _⟩ := h.access ha hid hi hop
    cases hacc with
    | load => trivial
    | store _ _ =>
      intro hv
      rw [toLocal_of_ne (h.stored_notMem hid hi)] at hv
      exact hnew (hv ▸ List.mem_cons_of_mem _ List.mem_cons_self)
  · refine Kind.spares_of_notMem fun hmem => ?_
    rw [Kind.operands_mapOperands] at hmem
    obtain ⟨v, hv, heq⟩ := List.mem_map.1 hmem
    rw [toLocal_of_ne fun a hva ha => hops ⟨a, ha, hva ▸ hv⟩] at heq
    exact hnew (heq ▸ hv)

theorem onlyAccessed (h : f.Localized stack e slots made g₁ g) (hty : f.WellTyped)
    (hs : s ∈ made.map (·.1)) : g.OnlyAccessed s where
  insts := by
    intro b id i hid hi
    rcases h.mem_cases hid with hmade | hmem
    · obtain ⟨size, o, hi'⟩ := h.allocas hmade
      rw [hi] at hi'
      cases hi'
      exact List.not_mem_nil
    · obtain ⟨j, hj⟩ := h.wellFormed.consistent.inst?_of_mem hmem
      rw [h.inst_old hmem hj] at hi
      cases hi
      exact h.spares hty hs hmem hj
  terms := by
    intro b data' hb hdata' hmem
    have hb' := (h.allotted.sameGraph.trans h.substituted.sameGraph).reachable.1 hb
    obtain ⟨data, hdata⟩ := containsBlock_iff.1 hb'.live
    obtain ⟨_, hlocal, _, hterm⟩ := h.block_local hdata
    rw [hdata'] at hlocal
    cases hlocal
    rw [hterm, Terminator.operands_mapOperands] at hmem
    obtain ⟨v, hv, heq⟩ := List.mem_map.1 hmem
    rw [toLocal_of_ne fun a hva ha => h.notMem_term ha hdata (hva ▸ hv)] at heq
    subst heq
    have hat := h.wellFormed.termUse hb' hdata hv
    exact h.index_ne (index_lt_of_available h.wellFormed hb' (List.prefix_refl _) hat) hs

end Localized

end Func

namespace Promotion

open Func

/-- Own slots that are not promoted stay unknown. -/
theorem Promoted.onlyAccessed {P : Promotion f} {ρ : Value → Value} (hp : P.Promoted g ρ)
    (h : P.Sound) {own : InstId → Bool} (hown : P.Owned own) (hs : own s = true)
    (hacc : f.OnlyAccessed s) : g.OnlyAccessed s where
  insts := by
    intro b id i hid hi
    rcases hp.mem_cases hid with ⟨n, hphi⟩ | hold
    · obtain ⟨s', ty, inc, hs', hi', _, hinc⟩ := hp.phi b n id hphi
      rw [hi] at hi'
      cases hi'
      intro hmem
      obtain ⟨⟨q, v⟩, he, hv⟩ := List.mem_map.1 hmem
      obtain ⟨hq, _, hvalue⟩ := (hinc q v).1 he
      have hout : valueOf (P.out q) n = .inst s :=
        (hp.rename_own h hown hs).1 (hvalue.symm.trans hv)
      have hsource := h.source_current hs' hq (List.prefix_refl (f.instsOf q))
      rw [show valueOf (P.current q (f.instsOf q)) n = .inst s from hout] at hsource
      rw [hown.not_source h hq hsource] at hs
      cases hs
    · obtain ⟨j, hj⟩ := h.wellFormed.consistent.inst?_of_mem hold
      rw [hp.inst b id j hold (hp.keep_of_mem h hid) hj] at hi
      cases hi
      exact Kind.spares_mapOperands (fun v _ => (hp.rename_own h hown hs).1)
        (hacc.insts b id j hold hj)
  terms := by
    intro b data' hb hdata' hmem
    rw [hp.block b] at hdata'
    obtain ⟨data, hdata, rfl⟩ := Option.map_eq_some_iff.1 hdata'
    rw [Terminator.operands_mapOperands] at hmem
    obtain ⟨v, hv, heq⟩ := List.mem_map.1 hmem
    rw [(hp.rename_own h hown hs).1 heq] at hv
    exact hacc.terms b data (hp.sameGraph.reachable.1 hb) hdata hv

end Promotion

namespace Func

/-! ### Local slots may be promoted -/

/-- The local slots may be own slots, besides those that were. -/
theorem Localized.owned (h : f.Localized stack e slots made g₁ g) (hty : f.WellTyped)
    (hown : ∀ s, act.own s = true → f.confines s = true) {P : Promotion g}
    (hsub : P.slots.map (·.1) ⊆ made.map (·.1)) : P.Owned (act.adopt (made.map (·.1))).own := by
  have hcases : ∀ s, (act.adopt (made.map (·.1))).own s = true →
      f.confines s = true ∨ s ∈ made.map (·.1) := by
    intro s hs
    simp only [Activation.adopt, Bool.or_eq_true, decide_eq_true_eq] at hs
    exact hs.imp_left (hown s)
  have hold : ∀ {s}, f.confines s = true → ∃ size o b, s ∈ f.instsOf b ∧
      f.inst? s = some ⟨.alloca size, o⟩ := by
    intro s hs
    simp only [confines, Bool.and_eq_true, isLive, Option.isSome_iff_exists] at hs
    obtain ⟨⟨⟨b, hb⟩, halloca⟩, _⟩ := hs
    obtain ⟨⟨kind, o⟩, hi, halloca⟩ := (Option.any_eq_true _ _).1 halloca
    cases kind with
    | alloca size => exact ⟨size, o, b, h.wellFormed.consistent.mem_instsOf.2 hb, hi⟩
    | _ => cases halloca
  refine ⟨fun s hs => ?_, fun s hs => ?_, fun s hs b id q o _ hid hi => ?_⟩
  · simp [Activation.adopt, hsub hs]
  · rcases hcases s hs with hconf | hmade
    · obtain ⟨size, o, b, hmem, hi⟩ := hold hconf
      exact ⟨size, o, h.inst_old hmem hi⟩
    · exact h.allocas hmade
  · rcases h.mem_cases hid with hmade | hmem
    · obtain ⟨size, o', hi'⟩ := h.allocas hmade
      rw [hi] at hi'
      cases hi'
    obtain ⟨⟨kind, o'⟩, hi'⟩ := h.wellFormed.consistent.inst?_of_mem hmem
    rw [h.inst_old hmem hi'] at hi
    cases kind with
    | store q' v =>
      simp only [Kind.mapOperands, Option.some.injEq, Inst.mk.injEq, Kind.store.injEq] at hi
      obtain ⟨⟨_, hv⟩, _⟩ := hi
      have hop : v ∈ (Kind.store q' v).operands := List.mem_cons_of_mem _ List.mem_cons_self
      rw [toLocal_of_ne (h.stored_notMem hmem hi')] at hv
      subst hv
      rcases hcases s hs with hconf | hmade
      · exact spares_of_confines hconf hmem hi' rfl
      · obtain ⟨k, hk⟩ := hty.exists_operand h.wellFormed.consistent hmem hi' hop
        exact h.index_ne (index_lt_of_inst? hk) hmade
    | _ => cases hi

theorem Backed.run (h : f.Backed act memory region p stack e slots made g₁ g) {n : Nat} {x : Exit}
    (hrun : f.run act memory n = some (x, m)) :
    ∃ m', g.run (act.adopt (made.map (·.1))) memory n = some (x, m') ∧ m'.calls = m.calls ∧
      (∀ a, ¬ region a → m'.memory a = m.memory a) ∧
      ∀ s, s ∉ made.map (·.1) → m'.slots s = m.slots s := by
  obtain ⟨c, m', hrun', hm⟩ := h.simulates.run h.wellFormed h.leaves hrun
  exact ⟨m', hrun', hm.calls, hm.memory, hm.others⟩

/-! ### Stack promotion as a whole -/

/-- All constants that are added to the stack parameter are as wide as a pointer. -/
def WideOffsets (f : Func) (stack : Value) : Prop :=
  ∀ b a c o, a ∈ f.instsOf b → f.inst? a = some ⟨.ptrAdd stack (.const c), o⟩ → c.ty = .i64

/-- If it is reported that nothing has changed, nothing has. -/
theorem promoteStack_unchanged (h : f.promoteStack stack = .ok (g, false)) : g = f := by
  unfold promoteStack at h
  split at h
  · cases h
    rfl
  · obtain ⟨o, _, h⟩ := bind_eq_ok.1 h
    split at h
    · cases h
      rfl
    · cases h
      rfl
    · obtain ⟨r, _, h⟩ := bind_eq_ok.1 h
      obtain ⟨g', _, h⟩ := bind_eq_ok.1 h
      obtain ⟨r', _, h⟩ := bind_eq_ok.1 h
      cases h

/-- A function whose stack slots are turned into values does what it did, with some new slots besides.
Those that are left are accessed and nothing else. -/
theorem promoteStack_refines {f : Func} (hwf : f.WellFormed) (hty : f.WellTyped) {n : Nat}
    (hwide : f.WideOffsets (.arg n)) :
    ∃ g changed ids, f.promoteStack (.arg n) = .ok (g, changed) ∧
      (∀ s ∈ ids, f.arena.size ≤ s.index ∧ g.OnlyAccessed s) ∧
      ∀ (act : Activation) memory region, act.linked = false →
        (∀ s, act.own s = true → f.confines s = true) → f.Reserves act memory (.arg n) region →
        ∀ k x m, f.run act memory k = some (x, m) →
          ∃ m', g.run (act.adopt ids) memory k = some (x, m') ∧ m'.calls = m.calls ∧
            (∀ a, ¬ region a → m'.memory a = m.memory a) ∧
            ∀ s, s ∉ ids → m'.slots s = m.slots s := by
  obtain ⟨o, hslots⟩ := stackSlots_returns (hty.readsMade hwf.consistent) (.arg n)
  rcases promoteStack_of_slots hwf hslots with hsame | ⟨e, slots, made, g₁, g₂, g, k, h, hk, hg⟩
  · refine ⟨f, false, [], hsame, fun s hs => absurd hs List.not_mem_nil, ?_⟩
    intro act memory region _ _ _ k x m hrun
    rw [act.adopt_nil]
    exact ⟨m, hrun, rfl, fun _ _ => rfl, fun _ _ => rfl⟩
  -- where the pass goes through, the local slots are in place before some of them are promoted
  have hbacked : ∀ act memory region, act.linked = false →
      (∀ s, act.own s = true → f.confines s = true) → f.Reserves act memory (.arg n) region →
      f.Backed act memory region (act.args n &&& (f.wordTy (.arg n)).mask) (.arg n) e slots made g₁ g₂ :=
    fun act memory region hlinked hown hres =>
      ⟨h, hty, hwide, act.leaves_of_linked hlinked f, fun _ => rfl,
        fun s _ hs => alloca_of_confines (hown s hs), hres⟩
  have hnew : ∀ s ∈ made.map (·.1), f.arena.size ≤ s.index := by
    intro s hs
    obtain ⟨x, hx, rfl⟩ := List.mem_map.1 hs
    exact (h.allotted.new x hx).1
  refine ⟨g, true, made.map (·.1), hg, ?_⟩
  obtain ⟨g', k', hk', hcases⟩ := promoteAllocas_cases h.wellFormed_local h.allotted.nodup
    fun s hs => h.allocas hs
  rw [hk] at hk'
  cases hk'
  rcases hcases with rfl | ⟨P, ρ, hP, hp, hsub⟩
  · refine ⟨fun s hs => ⟨hnew s hs, h.onlyAccessed hty hs⟩, ?_⟩
    intro act memory region hlinked hown hres k x m hrun
    exact (hbacked act memory region hlinked hown hres).run hrun
  · refine ⟨fun s hs => ⟨hnew s hs, ?_⟩, ?_⟩
    · have hnone : ∀ s, (Activation.plain 0).own s = true → f.confines s = true :=
        fun _ hown => absurd hown Bool.false_ne_true
      refine hp.onlyAccessed hP (h.owned hty hnone hsub) ?_ (h.onlyAccessed hty hs)
      simp [Activation.adopt, hs]
    · intro act memory region hlinked hown hres k x m hrun
      have hback := hbacked act memory region hlinked hown hres
      obtain ⟨m₁, hrun₁, hcalls₁, hmemory₁, hslots₁⟩ := hback.run hrun
      obtain ⟨m₂, hrun₂, hcalls₂, hmemory₂, hslots₂⟩ := hp.run hP (h.owned hty hown hsub) hlinked hrun₁
      refine ⟨m₂, hrun₂, hcalls₂.trans hcalls₁, fun a ha => ?_, fun s hs => ?_⟩
      · rw [hmemory₂]
        exact hmemory₁ a ha
      · exact (hslots₂ s fun hmem => hs (hsub hmem)).trans (hslots₁ s hs)

end Func

end BinaryLift
