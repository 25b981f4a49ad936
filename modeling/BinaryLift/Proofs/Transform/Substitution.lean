import BinaryLift.Proofs.Run.Reads
import BinaryLift.Proofs.Transform.Chains

/-!
# Substitution of results

Instructions whose results are replaced by other values are taken out. If whatever is still read is
at hand where it is read, the function stays well formed; this is so if the value that stands in for
a result is at hand wherever the result was, and also if nobody reads the result.
-/

namespace BinaryLift.Func

variable {f g : Func} {drop : InstId → Bool} {ρ : Value → Value} {b q : BlockId}
  {pre : List InstId} {id j : InstId} {v : Value} {data : Block}

/-- The function `g` is `f` without the instructions that `drop` holds of, and with its operands
renamed by `ρ`. -/
structure Substituted (f : Func) (drop : InstId → Bool) (ρ : Value → Value) (g : Func) : Prop where
  params : g.params = f.params
  entry : g.entry = f.entry
  block : ∀ b, g.block? b = (f.block? b).map fun data => { data with
    insts := data.insts.filter (!drop ·), term := data.term.mapOperands ρ }
  instBlock : ∀ id, g.instBlock id = if drop id then none else f.instBlock id
  ty : ∀ id, (g.inst? id).map (·.ty) = (f.inst? id).map (·.ty)
  inst : ∀ b id i, id ∈ f.instsOf b → f.inst? id = some i →
    g.inst? id = some ⟨i.kind.mapOperands ρ, i.ty⟩

/-- What stands in for a result is at hand wherever the result is, and stays. -/
structure Replaceable (f : Func) (drop : InstId → Bool) (ρ : Value → Value) : Prop where
  others : ∀ v, (∀ id, v = .inst id → drop id = false) → ρ v = v
  atHand : ∀ b pre id, f.Reachable b → pre <+: f.instsOf b → f.Available b pre id →
    drop id = true → f.AtHand b pre (ρ (.inst id)) ∧ ∀ j, ρ (.inst id) = .inst j → drop j = false

/-- What kept code reads after the renaming is at hand there, and stays. -/
def Supplied (f : Func) (drop : InstId → Bool) (ρ : Value → Value) : Prop :=
  ∀ b pre v, f.Reads drop b pre v → f.AtHand b pre (ρ v) ∧ ∀ j, ρ v = .inst j → drop j = false

/-! ### How it comes about -/

theorem Housed.mapOperands (h : f.Housed) (ρ : Value → Value) : (f.mapOperands ρ).Housed where
  live := by
    intro id b hb
    rw [instBlock_mapOperands] at hb
    obtain ⟨data, hdata⟩ := containsBlock_iff.1 (h.live id b hb)
    rw [containsBlock, block?_mapOperands, hdata]
    rfl
  mem := by
    intro b data hdata id hid
    rw [block?_mapOperands] at hdata
    obtain ⟨data₀, hdata₀, rfl⟩ := Option.map_eq_some_iff.1 hdata
    rw [instBlock_mapOperands]
    exact h.mem b data₀ hdata₀ id hid

theorem ty_mapOperands (f : Func) (ρ : Value → Value) (id : InstId) :
    ((f.mapOperands ρ).inst? id).map (·.ty) = (f.inst? id).map (·.ty) := by
  cases hi : f.inst? id with
  | none =>
    have hnone : (f.mapOperands ρ).inst? id = none := by
      simp only [inst?, Option.map_eq_none_iff] at hi
      simp only [mapOperands, inst?, Array.getElem?_map, hi, Option.map_none]
    rw [hnone]
  | some i =>
    rw [inst?_mapOperands ρ hi]
    rfl

theorem substituted_of_without (hc : f.Consistent) {ids : List InstId}
    (h : (f.mapOperands ρ).Without ids g) : f.Substituted (fun id => decide (id ∈ ids)) ρ g where
  params := h.params
  entry := h.entry
  block := by
    intro b
    rw [h.block? b, block?_mapOperands, Option.map_map]
    cases f.block? b with
    | none => rfl
    | some data => simp
  instBlock := by
    intro id
    rw [h.instBlock id, instBlock_mapOperands]
    simp only [decide_eq_true_eq]
  ty := fun id => by rw [h.inst? id, ty_mapOperands]
  inst := by
    intro b id i hid hi
    have hlive : f.isLive id = true := hc.isLive_of_mem hid
    rw [h.inst? id, inst?_mapOperands ρ hi, if_pos hlive]

/-! ### The graph stays -/

namespace Substituted

theorem sameGraph (h : f.Substituted drop ρ g) : f.SameGraph g where
  entry := h.entry
  block := by
    intro b
    rw [h.block b, Option.map_map]
    simp only [Function.comp_def, Terminator.successors_mapOperands]

theorem containsBlock (h : f.Substituted drop ρ g) (b : BlockId) :
    g.containsBlock b = f.containsBlock b := h.sameGraph.containsBlock b

theorem edge (h : f.Substituted drop ρ g) {a : BlockId} : g.Edge a b ↔ f.Edge a b :=
  h.sameGraph.edge

theorem subgraph (h : f.Substituted drop ρ g) : f.Subgraph g := h.sameGraph.subgraph

theorem reachable (h : f.Substituted drop ρ g) : g.Reachable b ↔ f.Reachable b :=
  h.sameGraph.reachable

theorem instsOf (h : f.Substituted drop ρ g) (b : BlockId) :
    g.instsOf b = (f.instsOf b).filter (!drop ·) := by
  unfold Func.instsOf
  rw [h.block b]
  cases f.block? b <;> rfl

theorem isPhi (h : f.Substituted drop ρ g) (hc : f.Consistent) (hid : id ∈ f.instsOf b) :
    g.isPhi id = f.isPhi id := by
  obtain ⟨i, hi⟩ := hc.inst?_of_mem hid
  rw [isPhi_inst hi, isPhi_inst (h.inst b id i hid hi)]
  cases i.kind <;> rfl

theorem typeOf (h : f.Substituted drop ρ g) (v : Value) : g.typeOf v = f.typeOf v :=
  typeOf_congr h.params h.ty v

theorem available (h : f.Substituted drop ρ g) (hj : f.Available b pre j) (hkeep : drop j = false) :
    g.Available b (pre.filter (!drop ·)) j := by
  have hkeep' : (!drop j) = true := by rw [hkeep]; rfl
  rcases hj with hj | ⟨c, data, hdom, hdata, hj⟩
  · exact .inl (List.mem_filter.2 ⟨hj, hkeep'⟩)
  · refine .inr ⟨c, _, h.subgraph.strictly hdom, by rw [h.block c, hdata, Option.map_some], ?_⟩
    exact List.mem_filter.2 ⟨hj, hkeep'⟩

end Substituted

namespace Substituted

theorem inst_of_mem (h : f.Substituted drop ρ g) (hc : f.Consistent) (hid : id ∈ g.instsOf b)
    {k : Inst} (hk : g.inst? id = some k) :
    id ∈ f.instsOf b ∧ drop id = false ∧
      ∃ i, f.inst? id = some i ∧ k = ⟨i.kind.mapOperands ρ, i.ty⟩ := by
  rw [h.instsOf b] at hid
  obtain ⟨hmem, hkeep⟩ := List.mem_filter.1 hid
  obtain ⟨i, hi⟩ := hc.inst?_of_mem hmem
  rw [h.inst b id i hmem hi] at hk
  exact ⟨hmem, by simpa using hkeep, i, hi, (Option.some.inj hk).symm⟩

theorem phi_of_mem (h : f.Substituted drop ρ g) (hc : f.Consistent) (hid : id ∈ g.instsOf b)
    {inc' : List (BlockId × Value)} {ty : Option Ty} (hk : g.inst? id = some ⟨.phi inc', ty⟩) :
    id ∈ f.instsOf b ∧ drop id = false ∧
      ∃ inc, f.inst? id = some ⟨.phi inc, ty⟩ ∧ inc' = inc.map fun e => (e.1, ρ e.2) := by
  obtain ⟨hmem, hkeep, ⟨kind, o⟩, hi, heq⟩ := h.inst_of_mem hc hid hk
  cases kind with
  | phi inc =>
    cases heq
    exact ⟨hmem, hkeep, inc, hi, rfl⟩
  | _ => cases heq

/-- What stands before an instruction is what is kept of what stood before it. -/
theorem split_old (h : f.Substituted drop ρ g) {before after : List InstId}
    (hsplit : g.instsOf b = before ++ id :: after) :
    ∃ pre post, f.instsOf b = pre ++ id :: post ∧ before = pre.filter (!drop ·) := by
  rw [h.instsOf b, List.filter_eq_append_iff] at hsplit
  obtain ⟨l, r, hlr, rfl, hr⟩ := hsplit
  obtain ⟨l', r', rfl, hl', _⟩ := List.filter_eq_cons_iff.1 hr
  refine ⟨l ++ l', r', by rw [hlr, List.append_assoc], ?_⟩
  rw [List.filter_append, List.filter_eq_nil_iff.2 hl', List.append_nil]

/-- What the new function reads is read, under its old name, by what is kept of the old one. -/
theorem reads_of (h : f.Substituted drop ρ g) (hc : f.Consistent) {w : Value}
    (hread : g.Reads (fun _ => false) b pre w) :
    ∃ pre' v, f.Reads drop b pre' v ∧ ρ v = w ∧ pre = pre'.filter (!drop ·) := by
  cases hread with
  | inst hb hsplit _ hk hphi hw =>
    obtain ⟨_, hkeep, i, hi, rfl⟩ := h.inst_of_mem hc (mem_of_split hsplit) hk
    obtain ⟨l, r, hlr, hbefore⟩ := h.split_old hsplit
    rw [Kind.operands_mapOperands] at hw
    obtain ⟨v, hv, rfl⟩ := List.mem_map.1 hw
    rw [Kind.isPhi_mapOperands] at hphi
    exact ⟨l, v, .inst (h.reachable.1 hb) hlr hkeep hi hphi hv, rfl, hbefore⟩
  | phi hb hid _ hk he hq =>
    obtain ⟨hold, hkeep, inc, hi, rfl⟩ := h.phi_of_mem hc hid hk
    obtain ⟨⟨q, v⟩, he', heq⟩ := List.mem_map.1 he
    rw [Prod.mk.injEq] at heq
    obtain ⟨rfl, rfl⟩ := heq
    exact ⟨_, v, .phi (h.reachable.1 hb) hold hkeep hi he' (h.reachable.1 hq), rfl, h.instsOf q⟩
  | term hb hdata hw =>
    rw [h.block _] at hdata
    obtain ⟨data₀, hdata₀, rfl⟩ := Option.map_eq_some_iff.1 hdata
    rw [Terminator.operands_mapOperands] at hw
    obtain ⟨v, hv, rfl⟩ := List.mem_map.1 hw
    exact ⟨_, v, .term (h.reachable.1 hb) hdata₀ hv, rfl, h.instsOf b⟩

end Substituted

/-! ### Well-formedness -/

theorem Replaceable.rename (hr : f.Replaceable drop ρ) (hb : f.Reachable b)
    (hpre : pre <+: f.instsOf b) (hv : f.AtHand b pre v) :
    f.AtHand b pre (ρ v) ∧ ∀ j, ρ v = .inst j → drop j = false := by
  by_cases hdrop : ∃ id, v = .inst id ∧ drop id = true
  · obtain ⟨id, rfl, hid⟩ := hdrop
    exact hr.atHand b pre id hb hpre hv hid
  · have hkeep : ∀ id, v = .inst id → drop id = false := by
      intro id hid
      cases hd : drop id with
      | false => rfl
      | true => exact absurd ⟨id, hid, hd⟩ hdrop
    rw [hr.others v hkeep]
    exact ⟨hv, hkeep⟩

theorem Replaceable.supplied (hr : f.Replaceable drop ρ) (hwf : f.WellFormed) : f.Supplied drop ρ :=
  fun _ _ _ hread => hr.rename hread.reachable hread.pre_prefix (hread.atHand hwf)

/-- A renamed value that is an instruction is there at the same place of the new function. -/
theorem Substituted.available_rename (h : f.Substituted drop ρ g) (hs : f.Supplied drop ρ)
    (hread : f.Reads drop b pre v) (hj : ρ v = .inst j) :
    g.Available b (pre.filter (!drop ·)) j := by
  obtain ⟨hat, hkeep⟩ := hs b pre v hread
  rw [hj] at hat
  exact h.available hat (hkeep j hj)

theorem Substituted.consistent (h : f.Substituted drop ρ g) (hc : f.Consistent) :
    g.Consistent := by
  refine ⟨fun b data' hdata' id => ?_, fun id b hb => ?_, fun b data' hdata' => ?_⟩
  · rw [h.block b] at hdata'
    obtain ⟨data, hdata, rfl⟩ := Option.map_eq_some_iff.1 hdata'
    rw [List.mem_filter, hc.mem_iff b data hdata id, h.instBlock id]
    cases drop id <;> simp
  · rw [h.instBlock id] at hb
    split at hb
    · cases hb
    · rw [h.containsBlock b]
      exact hc.live id b hb
  · rw [h.block b] at hdata'
    obtain ⟨data, hdata, rfl⟩ := Option.map_eq_some_iff.1 hdata'
    exact (hc.nodup b data hdata).filter _

theorem Substituted.heads (h : f.Substituted drop ρ g) (hwf : f.WellFormed)
    (hid : id ∈ (g.instsOf b).dropWhile g.isPhi) : g.isPhi id = false := by
  have hphis : ∀ j ∈ (f.phisOf b).filter (!drop ·), g.isPhi j = true := by
    intro j hj
    have hj' := (List.mem_filter.1 hj).1
    rw [h.isPhi hwf.consistent ((f.phisOf_prefix b).subset hj')]
    exact of_mem_takeWhile hj'
  have hrest : ∀ j ∈ ((f.instsOf b).dropWhile f.isPhi).filter (!drop ·), g.isPhi j = false := by
    intro j hj
    have hj' := (List.mem_filter.1 hj).1
    rw [h.isPhi hwf.consistent ((List.dropWhile_suffix f.isPhi).subset hj')]
    exact hwf.isPhi_behind hj'
  rw [h.instsOf b, f.instsOf_eq_phisOf_append b, List.filter_append, dropWhile_append_of_all hphis
    fun j hj => hrest j (List.mem_of_head? hj)] at hid
  exact hrest id hid

theorem Substituted.wellFormed (h : f.Substituted drop ρ g) (hs : f.Supplied drop ρ)
    (hwf : f.WellFormed) : g.WellFormed := by
  refine h.sameGraph.wellFormed hwf (h.consistent hwf.consistent) (fun _ _ => h.heads hwf) ?_ ?_
  · intro b id inc' ty hid hi'
    obtain ⟨hold, _, inc, hi, rfl⟩ := h.phi_of_mem hwf.consistent hid hi'
    rw [List.map_map]
    exact hwf.hears hold hi
  · intro b pre j hread
    obtain ⟨pre', v, hold, hj, rfl⟩ := h.reads_of hwf.consistent hread
    exact h.available_rename hs hold hj

end BinaryLift.Func
