import BinaryLift.Proofs.Run.Surveys
import BinaryLift.Proofs.Transform.PromotedRun
import Mathlib

/-!
# Promotion preserves executions

The pass `mem2reg` succeeds on every well-formed, well-typed function. Where the function runs to an exit,
the promoted one runs to the same exit with the same calls and the same memory.
-/

namespace BinaryLift.Func

variable {f : Func}

/-! ### The slots that are offered -/

theorem Consistent.allocas (hc : f.Consistent) :
    ∃ allocas, f.liveInsts.filterM (fun id => return (← f.kind id).isAlloca) = Except.ok allocas ∧
      allocas.Nodup ∧ ∀ s ∈ allocas, ∃ size o, f.inst? s = some ⟨.alloca size, o⟩ := by
  refine ⟨_, filterM_eq_ok (q := fun id => (f.inst? id).any (·.kind.isAlloca)) _ fun id hid => ?_,
    hc.nodup_liveInsts.filter _, fun s hs => ?_⟩
  · obtain ⟨x, hx, hid⟩ := List.mem_flatMap.1 hid
    obtain ⟨i, hi⟩ := hc.inst? (mem_liveBlocks.1 hx) hid
    rw [kind_of_inst? hi, hi]
    rfl
  · have halloca := (List.mem_filter.1 hs).2
    cases hi : f.inst? s with
    | none =>
      rw [hi] at halloca
      cases halloca
    | some i =>
      rw [hi] at halloca
      obtain ⟨kind, o⟩ := i
      cases kind with
      | alloca size => exact ⟨size, o, rfl⟩
      | _ => cases halloca

/-! ### Promotion as a whole -/

theorem exists_promotion (hwf : f.WellFormed) {e : BlockId} {d : DomTree}
    (hd : d.Correct f e) (hpreds : ∀ q, f.Reachable q → ¬ f.Edge q e) {slots : List (InstId × Ty)}
    (hslots : ∀ x ∈ slots, f.IsSlot x.1 x.2) (hnodup : (slots.map (·.1)).Nodup)
    (halloca : ∀ x ∈ slots, ∃ size o, f.inst? x.1 = some ⟨.alloca size, o⟩) :
    ∃ P : Promotion f, P.Sound ∧ P.entry = e ∧ P.dom = d ∧ P.slots = slots ∧
      f.placePhis d slots = .ok (P.placed, P.phis) := by
  choose front hfront hfnodup hjoins hclosed using fun s => d.iteratedFrontier_spec (f.storeBlocks s)
  have hlive : ∀ s, ∀ b ∈ front s, f.containsBlock b = true := by
    intro s b hb
    exact ((hd.ordered.mem_iff b).1 (hjoins s b hb).1).live
  obtain ⟨placed, phis, hplace, hplaced⟩ :=
    placePhis_spec hwf.consistent hfront hfnodup hlive slots
  refine ⟨⟨e, d, slots, front, placed, phis⟩, ?_, rfl, rfl, rfl, hplace⟩
  refine ⟨hwf, hd, hpreds, fun n s ty hs => hslots _ (List.mem_of_getElem? hs),
    fun n s ty hs => halloca _ (List.mem_of_getElem? hs), hnodup, hclosed, ?_, hplaced⟩
  exact fun s b hb => (hjoins s b hb).2

/-- Either nothing changes or some of the slots are promoted. -/
theorem promoteAllocas_cases (hwf : f.WellFormed) {allocas : List InstId}
    (hnodup : allocas.Nodup)
    (halloca : ∀ s ∈ allocas, ∃ size o, f.inst? s = some ⟨.alloca size, o⟩) :
    ∃ g k, f.promoteAllocas allocas = .ok (g, k) ∧
      (g = f ∨ ∃ (P : Promotion f) (ρ : Value → Value), P.Sound ∧ P.Promoted g ρ ∧
        P.slots.map (·.1) ⊆ allocas) := by
  unfold promoteAllocas
  by_cases hempty : allocas.isEmpty = true
  · rw [if_pos hempty]
    exact ⟨f, 0, rfl, .inl rfl⟩
  rw [if_neg hempty]
  cases he : f.entry with
  | none =>
    obtain ⟨d, hcompute, hdentry⟩ := compute_of_no_entry he
    refine ⟨f, 0, ?_, .inl rfl⟩
    simp only [hcompute, hdentry, bind, Except.bind]
    rfl
  | some e =>
    obtain ⟨d, hcompute, hd⟩ := DomTree.compute_correct he (hwf.entry e he)
    have hdentry : d.entry = some e := hd.ordered.head
    simp only [hcompute, hdentry, bind, Except.bind]
    by_cases hback : (!(d.preds e).isEmpty) = true
    · rw [if_pos hback]
      exact ⟨f, 0, rfl, .inl rfl⟩
    rw [if_neg hback]
    have hnil : d.preds e = [] := by simpa using hback
    have hpreds : ∀ q, f.Reachable q → ¬ f.Edge q e := by
      intro q hq hedge
      have hmem := (hd.mem_preds e hedge.live_right q).2 ⟨hq, hedge⟩
      rw [hnil] at hmem
      cases hmem
    obtain ⟨slots, hslots, hisSlot, hsub⟩ := promotable_spec hd hwf.consistent
      (grounded_of_wellFormed hwf) allocas
    rw [hslots]
    show ∃ g k, (if slots.isEmpty then _ else _ : Checked _) = _ ∧ _
    by_cases hnone : slots.isEmpty = true
    · rw [if_pos hnone]
      exact ⟨f, 0, rfl, .inl rfl⟩
    rw [if_neg hnone]
    obtain ⟨P, h, rfl, rfl, rfl, hplace⟩ := exists_promotion hwf hd hpreds hisSlot
      (hsub.nodup hnodup) fun x hx => halloca x.1 (hsub.subset (List.mem_map.2 ⟨x, hx, rfl⟩))
    obtain ⟨done, g, t, hrename, hr, hdone⟩ := h.rename
    obtain ⟨g', hremove, hp⟩ := hr.promoted h hdone
    refine ⟨g'.applyReplacements t, P.slots.length, ?_, .inr ⟨P, t.chase, h, hp, hsub.subset⟩⟩
    simp only [hplace]
    rw [show renameFrom P.dom P.slots P.phis P.dom.rpo.length P.placed []
      [(P.entry, P.slots.map fun s => Value.int 0 s.2)] = .ok (g, t) from hrename]
    simp only [hremove]
    rfl

theorem promoteAllocas_spec (hwf : f.WellFormed) {allocas : List InstId}
    (hnodup : allocas.Nodup)
    (halloca : ∀ s ∈ allocas, ∃ size o, f.inst? s = some ⟨.alloca size, o⟩) :
    ∃ g k, f.promoteAllocas allocas = .ok (g, k) ∧
      (g = f ∨ ∃ (P : Promotion f) (ρ : Value → Value), P.Sound ∧ P.Promoted g ρ) := by
  obtain ⟨g, k, hg, hcases⟩ := promoteAllocas_cases hwf hnodup halloca
  refine ⟨g, k, hg, hcases.imp_right ?_⟩
  rintro ⟨P, ρ, h, hp, _⟩
  exact ⟨P, ρ, h, hp⟩

end BinaryLift.Func

namespace BinaryLift

/-- Own slots start at zero, and every execution that ends does so after promotion, in the same way. -/
theorem Promotion.Promoted.run {f g : Func} {P : Promotion f} {ρ : Value → Value} {act : Activation}
    (hp : P.Promoted g ρ) (h : P.Sound) (hown : P.Owned act.own) (hlinked : act.linked = false)
    {memory : Memory} {n : Nat} {e : Exit} {m : Machine} (hrun : f.run act memory n = some (e, m)) :
    ∃ m', g.run act memory n = some (e, m') ∧ m'.calls = m.calls ∧ m'.memory = m.memory ∧
      ∀ s, s ∉ P.slots.map (·.1) → m'.slots s = m.slots s := by
  unfold Func.run at hrun
  rw [h.correct.entry] at hrun
  have harrives : P.Arrives g ρ act P.entry (.start memory) (.start memory) none :=
    ⟨rfl, memory, rfl, rfl⟩
  obtain ⟨m', hrun', hsame⟩ := Promotion.Arrives.runFrom h hp hown hlinked n harrives
    (Machine.tame_start f memory) hrun
  refine ⟨m', ?_, hsame⟩
  unfold Func.run
  rw [hp.entry, h.correct.entry]
  exact hrun'

namespace Func

/-- Indirect jumps leave the function, own slots start at zero. Then every execution that ends
without an undefined operation ends in the same way after promotion. -/
theorem promoteSlots_preserves {f : Func} (hwf : f.WellFormed) (hty : f.WellTyped) :
    ∃ g changed, f.promoteSlots = .ok (g, changed) ∧
      ∀ (act : Activation) (memory : Memory), act.own = f.confines → act.linked = false →
        ∀ n e m, f.run act memory n = some (e, m) →
          ∃ k m', g.run act memory k = some (e, m') ∧ m'.calls = m.calls ∧ m'.memory = m.memory ∧
            ∀ s, g.isLive s = true → m'.slots s = m.slots s := by
  obtain ⟨allocas, hfilter, hnodup, halloca⟩ := hwf.consistent.allocas
  obtain ⟨g, k, hpromote, hcases⟩ := promoteAllocas_spec hwf hnodup halloca
  refine ⟨g, decide (k > 0), ?_, ?_⟩
  · unfold promoteSlots
    rw [hfilter]
    simp only [bind, Except.bind, hpromote]
    rfl
  intro act memory hown hlinked n e m hrun
  rcases hcases with rfl | ⟨P, ρ, h, hp⟩
  · exact ⟨n, m, hrun, rfl, rfl, fun _ _ => rfl⟩
  · obtain ⟨m', hrun', hcalls, hmemory, hslots⟩ := hp.run h (hown ▸ h.owned) hlinked hrun
    exact ⟨n, m', hrun', hcalls, hmemory, fun s hs => hslots s (hp.live hs)⟩

/-- An activation of the sample function with all arguments zero. -/
def flagClear : Activation where
  args := fun _ => 0
  answer := fun _ _ memory => (0, memory)
  base := fun _ => 0
  own := storeThenJump.confines
  linked := false

/-- The slot that nobody has written is read as zero, before and after. -/
theorem storeThenJump_promoted :
    ∃ g changed, storeThenJump.promoteSlots = .ok (g, changed) ∧
      ∃ k m, g.run flagClear (fun _ => 0) k = some (.ret (some 0), m) ∧ m.calls = [] := by
  obtain ⟨g, changed, hpromote, hruns⟩ :=
    promoteSlots_preserves storeThenJump_wellFormed storeThenJump_wellTyped
  have hexit : (storeThenJump.run flagClear (fun _ => 0) 3).map (fun r => (r.1, r.2.calls.length)) =
      some (.ret (some 0), 0) := by cbv
  obtain ⟨⟨e, m⟩, hrun, heq⟩ := Option.map_eq_some_iff.1 hexit
  rw [Prod.mk.injEq] at heq
  obtain ⟨rfl, hlen⟩ := heq
  obtain ⟨k, m', hrun', hcalls, _⟩ := hruns flagClear _ rfl rfl 3 _ m hrun
  exact ⟨g, changed, hpromote, k, m', hrun', hcalls.trans (List.length_eq_zero_iff.1 hlen)⟩

end Func

end BinaryLift
