import BinaryLift.Proofs.Transform.PromotedSlots
import BinaryLift.Proofs.Transform.StackPromotion

/-!
# Local slots among private slots

Where all slots are private, the local slots that stand in for the addresses of stack slots are
private too. They can be promoted like all others, so the pass as a whole does what the function did,
outside the reserved region.
-/

namespace BinaryLift.Func

variable {f g g₁ : Func} {stack : Value} {e b : BlockId} {slots : StackSlots}
  {made : List (InstId × StackSlot)} {id s : InstId} {i : Inst} {v : Value}
  {act : Activation} {memory : Memory} {region : Word → Prop} {p : Word}

theorem exists_alloca_of_isSlot (hs : f.isSlot s = true) :
    ∃ i, f.inst? s = some i ∧ i.kind.isAlloca = true :=
  (Option.any_eq_true _ _).1 hs

theorem index_lt_of_typeOf (hv : (f.typeOf v).isSome = true) :
    ∀ j, v = .inst j → j.index < f.arena.size := by
  rintro j rfl
  obtain ⟨i, hi⟩ := exists_inst_of_typeOf hv
  exact index_lt_of_inst? hi

namespace Localized

/-- The slots that there are now: those that were, and the local ones. -/
theorem own_cases (hs : ((act.withSlots f).adopt (made.map (·.1))).own s = true) :
    f.isSlot s = true ∨ s ∈ made.map (·.1) := by
  simpa only [Activation.adopt, Activation.withSlots, Bool.or_eq_true, decide_eq_true_eq] using hs

theorem own_made (hs : s ∈ made.map (·.1)) :
    ((act.withSlots f).adopt (made.map (·.1))).own s = true := by
  simp [Activation.adopt, hs]

theorem own_old (hs : f.isSlot s = true) :
    ((act.withSlots f).adopt (made.map (·.1))).own s = true := by
  simp [Activation.adopt, Activation.withSlots, hs]

variable (h : f.Localized stack e slots made g₁ g)

include h

/-- An instruction is a local slot or an old one that reads local slots for addresses. -/
theorem inst_cases (hid : id ∈ g.instsOf b) (hi : g.inst? id = some i) :
    (id ∈ made.map (·.1) ∧ ∃ size, i = ⟨.alloca size, some .ptr⟩) ∨
      ∃ k, id ∈ f.instsOf b ∧ f.inst? id = some k ∧
        i = ⟨k.kind.mapOperands (toLocal (homes made)), k.ty⟩ := by
  rcases h.mem_cases hid with hmade | hold
  · obtain ⟨x, hx, rfl⟩ := List.mem_map.1 hmade
    rw [h.inst?_made hx] at hi
    cases hi
    exact .inl ⟨hmade, _, rfl⟩
  · obtain ⟨k, hk⟩ := h.wellFormed.consistent.inst?_of_mem hold
    rw [h.inst_old hold hk] at hi
    cases hi
    exact .inr ⟨k, hold, hk, rfl⟩

theorem reachable (hb : g.Reachable b) : f.Reachable b :=
  (h.allotted.sameGraph.trans h.substituted.sameGraph).reachable.1 hb

/-- A local slot is a pointer like the address that it stands in for. -/
theorem typeOf_toLocal (hty : f.WellTyped) (hv : (f.typeOf v).isSome = true) :
    g.typeOf (toLocal (homes made) v) = f.typeOf v := by
  by_cases hkey : ∃ a, v = .inst a ∧ a ∈ (homes made).keys
  · obtain ⟨a, rfl, ha⟩ := hkey
    obtain ⟨x, hx, hax, hlocal⟩ := home ha
    obtain ⟨offset, haddr⟩ := h.isAddress hx hax
    obtain ⟨c, o, hi, _⟩ := haddr.offset
    obtain ⟨d, hd⟩ := haddr.live
    have hptr : o = some .ptr := (hty.kind (h.wellFormed.consistent.isLive_of_mem hd) hi).2.2
    rw [hlocal, typeOf_inst (h.inst?_made hx), typeOf_inst hi, hptr]
  · rw [toLocal_of_ne fun a hva ha => hkey ⟨a, hva, ha⟩]
    exact h.typeOf_old (index_lt_of_typeOf hv)

theorem typeOf_operand (hty : f.WellTyped) (hid : id ∈ f.instsOf b) (hi : f.inst? id = some i)
    (hv : v ∈ i.kind.operands) : g.typeOf (toLocal (homes made) v) = f.typeOf v :=
  h.typeOf_toLocal hty ((hty.kind (h.wellFormed.consistent.isLive_of_mem hid) hi).operand hv)

/-- No address becomes a slot that was there before. -/
theorem eq_of_toLocal (hs : f.isSlot s = true) (hv : toLocal (homes made) v = .inst s) :
    v = .inst s := by
  by_cases hkey : ∃ a, v = .inst a ∧ a ∈ (homes made).keys
  · obtain ⟨a, rfl, ha⟩ := hkey
    obtain ⟨x, hx, _, hlocal⟩ := home ha
    rw [hlocal] at hv
    cases hv
    obtain ⟨i, hi, _⟩ := exists_alloca_of_isSlot hs
    exact absurd (List.mem_map.2 ⟨x, hx, rfl⟩) (h.index_ne (index_lt_of_inst? hi))
  · rwa [toLocal_of_ne fun a hva ha => hkey ⟨a, hva, ha⟩] at hv

/-- Phis read no addresses. -/
theorem incoming_notMem (hid : id ∈ f.instsOf b) {inc : List (BlockId × Value)} {o : Option Ty}
    (hi : f.inst? id = some ⟨.phi inc, o⟩) {q : BlockId} (he : (q, v) ∈ inc) :
    ∀ a, v = .inst a → a ∉ (homes made).keys := by
  rintro a rfl ha
  obtain ⟨_, _, _, _, _, hacc, _⟩ := h.access ha hid hi (List.mem_map.2 ⟨_, he, rfl⟩)
  cases hacc

/-- Jumps and returns read what they read before. -/
theorem term_old {data' : Block} (hdata' : g.block? b = some data') :
    ∃ data, f.block? b = some data ∧ data'.term.operands = data.term.operands := by
  have hlive := (h.allotted.sameGraph.trans h.substituted.sameGraph).containsBlock b
  obtain ⟨data, hdata⟩ := containsBlock_iff.1 (hlive.symm.trans (containsBlock_iff.2 ⟨_, hdata'⟩))
  obtain ⟨_, hlocal, _, hterm⟩ := h.block_local hdata
  rw [hdata'] at hlocal
  cases hlocal
  refine ⟨data, hdata, ?_⟩
  rw [hterm, Terminator.operands_mapOperands]
  refine (List.map_congr_left fun v hv => ?_).trans (List.map_id _)
  exact toLocal_of_ne fun a hva ha => h.notMem_term ha hdata (hva ▸ hv)

theorem typed_phi (hf : f.Settled) (hb : f.Reachable b) (hid : id ∈ g.instsOf b)
    {inc : List (BlockId × Value)} {ty : Option Ty} (hi : g.inst? id = some ⟨.phi inc, ty⟩) :
    ty.isSome ∧ ∀ q v, (q, v) ∈ inc → g.Reachable q → g.typeOf v = ty ∧
      ∀ s, v = .inst s → ((act.withSlots f).adopt (made.map (·.1))).own s = false := by
  rcases h.inst_cases hid hi with ⟨_, _, heq⟩ | ⟨⟨kind, o⟩, hold, hk, heq⟩
  · cases heq
  · cases kind with
    | phi inc' =>
      cases heq
      obtain ⟨hsome, hinc⟩ := hf.orderly.phi b id inc' o hb hold hk
      refine ⟨hsome, fun q v he hq => ?_⟩
      obtain ⟨⟨q', u⟩, he', heq⟩ := List.mem_map.1 he
      cases heq
      obtain ⟨hu, hslot⟩ := hinc q' u he' (h.reachable hq)
      rw [toLocal_of_ne (h.incoming_notMem hold hk he')]
      have hlt := index_lt_of_typeOf (f := f) (v := u) (by rw [hu]; exact hsome)
      refine ⟨(h.typeOf_old hlt).trans hu, fun s hs => ?_⟩
      cases hown : ((act.withSlots f).adopt (made.map (·.1))).own s with
      | false => rfl
      | true =>
        rcases own_cases hown with hs' | hmade
        · rw [hslot s hs] at hs'
          cases hs'
        · exact absurd hmade (h.index_ne (hlt s hs))
    | _ => cases heq

theorem orderly (act : Activation) (hf : f.Settled) (hty : f.WellTyped) :
    g.Orderly ((act.withSlots f).adopt (made.map (·.1))).own where
  wellFormed := h.wellFormed_local
  typed := by
    intro b id i _ hid hi _
    rcases h.inst_cases hid hi with ⟨_, size, rfl⟩ | ⟨k, hold, hk, rfl⟩
    · exact rfl
    · exact Kind.typed_mapOperands (fun v hv => h.typeOf_operand hty hold hk hv)
        (hty.kind (h.wellFormed.consistent.isLive_of_mem hold) hk)
  phi := fun _ _ _ _ hb hid hi => h.typed_phi hf (h.reachable hb) hid hi
  slot := by
    intro s hs b i hid hi
    rcases h.inst_cases hid hi with ⟨_, size, rfl⟩ | ⟨k, hold, hk, rfl⟩
    · rfl
    · rw [Kind.isAlloca_mapOperands]
      rcases own_cases hs with hslot | hmade
      · rwa [isSlot_inst hk] at hslot
      · exact absurd hmade (h.index_ne (index_lt_of_inst? hk))
  spares := by
    intro s hs b id i hb hid hi hphi
    rcases h.inst_cases hid hi with ⟨_, size, rfl⟩ | ⟨k, hold, hk, rfl⟩
    · exact List.not_mem_nil
    · rw [Kind.isPhi_mapOperands] at hphi
      rcases own_cases hs with hslot | hmade
      · exact Kind.spares_mapOperands (fun v _ => h.eq_of_toLocal hslot)
          (hf.orderly.spares s hslot b id k (h.reachable hb) hold hk hphi)
      · exact h.spares hty hmade hold hk

theorem regular (act : Activation) (hf : f.Settled) (hty : f.WellTyped) :
    g.Regular ((act.withSlots f).adopt (made.map (·.1))).own where
  slots := by
    intro b id i hb hid hi halloca
    rcases h.inst_cases hid hi with ⟨hmade, _⟩ | ⟨k, hold, hk, rfl⟩
    · exact own_made hmade
    · rw [Kind.isAlloca_mapOperands] at halloca
      exact own_old (hf.regular.slots b id k (h.reachable hb) hold hk halloca)
  words := by
    intro b id i hb hid hi
    rcases h.inst_cases hid hi with ⟨_, size, rfl⟩ | ⟨k, hold, hk, rfl⟩
    · trivial
    · exact (hf.regular.words b id k (h.reachable hb) hold hk).mapOperands
        fun v hv => h.typeOf_operand hty hold hk hv
  terms := by
    intro s hs b data' hb hdata' hmem
    obtain ⟨data, hdata, hops⟩ := h.term_old hdata'
    rcases own_cases hs with hslot | hmade
    · rw [hops] at hmem
      exact hf.regular.terms s hslot b data (h.reachable hb) hdata hmem
    · exact (h.onlyAccessed hty hmade).terms b data' hb hdata' hmem
  results := by
    intro b data' v hb hdata' hv
    obtain ⟨data, hdata, hops⟩ := h.term_old hdata'
    rw [hops] at hv
    have hsome := hf.regular.results b data v (h.reachable hb) hdata hv
    rwa [h.typeOf_old (index_lt_of_typeOf hsome)]
  entry := by
    intro e' id he hid
    rw [(h.substituted.entry.trans h.allotted.entry : g.entry = f.entry)] at he
    rcases h.mem_cases hid with hmade | hold
    · obtain ⟨size, o, hi⟩ := h.allocas hmade
      rw [isPhi_inst hi]
      rfl
    · rw [h.isPhi_old hold]
      exact hf.regular.entry e' id he hold

theorem settled (hf : f.Settled) (hty : f.WellTyped) : g.Settled :=
  settled_of (h.orderly (.plain 0) hf hty) (h.regular (.plain 0) hf hty)
    fun act => h.leaves (hf.leaves act)

end Localized

/-- With local slots for the region the function does what it did outside of it. -/
theorem Localized.matched {n : Nat} (h : f.Localized (.arg n) e slots made g₁ g) (hf : f.Settled)
    (hty : f.WellTyped) (hwide : f.WideOffsets (.arg n))
    (hres : f.Reserves (act.withSlots f) memory (.arg n) region) :
    f.MatchedBy act memory region g := by
  intro k x m hrun
  have hbacked : f.Backed (act.withSlots f) memory region
      (act.args n &&& (f.wordTy (.arg n)).mask) (.arg n) e slots made g₁ g := by
    refine ⟨h, hty, hwide, hf.leaves _, fun _ => rfl, fun s i hs hi => ?_, hres⟩
    exact (isSlot_inst hi).symm.trans hs
  obtain ⟨m', hrun', hcalls, hmemory, _⟩ := hbacked.run hrun
  have hslots := run_withSlots (h.orderly act hf hty) (h.regular act hf hty)
    (fun act => h.leaves (hf.leaves act)) hrun'
  exact ⟨k, m', hslots, hcalls, hmemory⟩

/-- The pass that turns stack slots into values keeps all slots private. Outside the reserved region
the function does what it did. -/
theorem promoteStack_matched (hf : f.Settled) (hty : f.WellTyped) {n : Nat}
    (hwide : f.WideOffsets (.arg n)) :
    ∃ g changed, f.promoteStack (.arg n) = .ok (g, changed) ∧ g.Settled ∧ f.SameGraph g ∧
      ∀ act memory region, f.Reserves (act.withSlots f) memory (.arg n) region →
        f.MatchedBy act memory region g := by
  obtain ⟨o, hslots⟩ := stackSlots_returns (hty.readsMade hf.wellFormed.consistent) (.arg n)
  rcases promoteStack_of_slots hf.wellFormed hslots with
    hsame | ⟨e, slots, made, g₁, g₂, g, k, h, hpromote, hg⟩
  · exact ⟨f, false, hsame, hf, .refl f, fun act memory region _ => .refl act memory region f⟩
  · have hsettled := h.settled hf hty
    obtain ⟨g', k', hpromote', hg', hgraph, hmatched⟩ :=
      promoteAllocas_matched hsettled h.allotted.nodup fun s hs => h.allocas hs
    rw [hpromote] at hpromote'
    cases hpromote'
    refine ⟨g, true, hg, hg', (h.allotted.sameGraph.trans h.substituted.sameGraph).trans hgraph, ?_⟩
    exact fun act memory region hres =>
      (h.matched hf hty hwide hres).trans (hmatched act memory region)

end BinaryLift.Func
