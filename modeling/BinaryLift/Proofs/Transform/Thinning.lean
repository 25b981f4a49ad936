import BinaryLift.Proofs.Run.Reads

/-!
# Fewer edges

Edges that no execution takes go, with the blocks that cannot be reached; phis forget what would have
come in on them. With fewer ways to a block more is at hand there, so nothing else has to change.
-/

namespace BinaryLift

/-- The terminator `t'` goes where `t` goes, and has no arm that `t` never takes. -/
inductive Terminator.Narrows : Terminator → Terminator → Prop
  | same (t : Terminator) : Narrows t t
  | const (c : Constant) (t e : BlockId) :
    Narrows (.branch (.const c) t e) (.jump (if c.isZero then e else t))
  | equal (v : Value) (b : BlockId) : Narrows (.branch v b b) (.jump b)

namespace Terminator.Narrows

variable {t t' : Terminator}

theorem successors (h : t.Narrows t') : t'.successors ⊆ t.successors := by
  cases h with
  | same => exact List.Subset.refl _
  | const c x y =>
    intro s hs
    rw [List.mem_singleton.1 hs]
    split <;> simp [Terminator.successors]
  | equal v b =>
    intro s hs
    rw [List.mem_singleton.1 hs]
    exact List.mem_cons_self

theorem operands (h : t.Narrows t') : t'.operands ⊆ t.operands := by
  cases h with
  | same => exact List.Subset.refl _
  | const c x y => exact List.nil_subset _
  | equal v b => exact List.nil_subset _

theorem indirect {v : Value} (h : t.Narrows (.indirect v)) : t = .indirect v := by
  cases h with
  | same => rfl

end Terminator.Narrows

namespace Func

variable {f g : Func} {act : Activation} {a b q : BlockId} {pre : List InstId} {id j : InstId}

open Classical in
/-- The function `g` is `f` without some edges and without some blocks that cannot be reached. -/
structure Thinned (f g : Func) : Prop where
  params : g.params = f.params
  entry : g.entry = f.entry
  block : ∀ b data', g.block? b = some data' → ∃ data, f.block? b = some data ∧
    data'.insts = data.insts ∧ data'.address = data.address ∧ data.term.Narrows data'.term
  live : ∀ b, f.Reachable b → g.containsBlock b = true
  targets : ∀ b data', g.block? b = some data' → ∀ s ∈ data'.term.successors,
    g.containsBlock s = true
  instBlock : ∀ id b, g.instBlock id = some b ↔ f.instBlock id = some b ∧ g.containsBlock b = true
  ty : ∀ id, (g.inst? id).map (·.ty) = (f.inst? id).map (·.ty)
  inst : ∀ b id i, id ∈ g.instsOf b → f.inst? id = some i → g.inst? id =
    some ⟨i.kind.mapIncoming (·.filter fun e => decide (g.Edge e.1 b)), i.ty⟩

namespace Thinned

theorem typeOf (h : f.Thinned g) (v : Value) : g.typeOf v = f.typeOf v :=
  typeOf_congr h.params h.ty v

theorem subgraph (h : f.Thinned g) : f.Subgraph g where
  entry := h.entry
  live := by
    intro b hb
    obtain ⟨data', hdata'⟩ := containsBlock_iff.1 hb
    obtain ⟨data, hdata, _⟩ := h.block b data' hdata'
    exact containsBlock_iff.2 ⟨data, hdata⟩
  edge := by
    rintro a b ⟨data', hdata', hs, hlive⟩
    obtain ⟨data, hdata, _, _, hterm⟩ := h.block a data' hdata'
    obtain ⟨bdata', hbdata'⟩ := containsBlock_iff.1 hlive
    obtain ⟨bdata, hbdata, _⟩ := h.block b bdata' hbdata'
    exact ⟨data, hdata, hterm.successors hs, containsBlock_iff.2 ⟨bdata, hbdata⟩⟩

theorem instsOf (h : f.Thinned g) (hb : g.containsBlock b = true) : g.instsOf b = f.instsOf b := by
  obtain ⟨data', hdata'⟩ := containsBlock_iff.1 hb
  obtain ⟨data, hdata, hinsts, _⟩ := h.block b data' hdata'
  rw [instsOf_eq hdata', instsOf_eq hdata, hinsts]

theorem mem_instsOf (h : f.Thinned g) (hid : id ∈ g.instsOf b) : id ∈ f.instsOf b := by
  obtain ⟨data', hdata', _⟩ := exists_block_of_mem hid
  rwa [h.instsOf (containsBlock_iff.2 ⟨data', hdata'⟩)] at hid

theorem inst_of_mem (h : f.Thinned g) (hc : f.Consistent) (hid : id ∈ g.instsOf b) {k : Inst}
    (hk : g.inst? id = some k) (hphi : k.kind.isPhi = false) : f.inst? id = some k := by
  obtain ⟨⟨kind, o⟩, hi⟩ := hc.inst?_of_mem (h.mem_instsOf hid)
  rw [h.inst b id _ hid hi] at hk
  cases hk
  cases kind with
  | phi inc => cases hphi
  | _ => exact hi

open Classical in
theorem phi_of_mem (h : f.Thinned g) (hc : f.Consistent) (hid : id ∈ g.instsOf b)
    {inc' : List (BlockId × Value)} {ty : Option Ty} (hk : g.inst? id = some ⟨.phi inc', ty⟩) :
    ∃ inc, f.inst? id = some ⟨.phi inc, ty⟩ ∧
      inc' = inc.filter fun e => decide (g.Edge e.1 b) := by
  obtain ⟨⟨kind, o⟩, hi⟩ := hc.inst?_of_mem (h.mem_instsOf hid)
  rw [h.inst b id _ hid hi] at hk
  cases kind with
  | phi inc =>
    cases hk
    exact ⟨inc, hi, rfl⟩
  | _ => cases hk

theorem isPhi (h : f.Thinned g) (hc : f.Consistent) (hid : id ∈ g.instsOf b) :
    g.isPhi id = f.isPhi id := by
  obtain ⟨i, hi⟩ := hc.inst?_of_mem (h.mem_instsOf hid)
  rw [isPhi_inst hi, isPhi_inst (h.inst b id i hid hi)]
  cases i.kind <;> rfl

theorem available (h : f.Thinned g) (hb : f.Reachable b) (hj : f.Available b pre j) :
    g.Available b pre j := by
  rcases hj with hj | ⟨c, data, hdom, hdata, hj⟩
  · exact .inl hj
  · have hlive := h.live c (hdom.2.reachable hb)
    obtain ⟨data', hdata'⟩ := containsBlock_iff.1 hlive
    refine .inr ⟨c, data', h.subgraph.strictly hdom, hdata', ?_⟩
    rw [← instsOf_eq hdata', h.instsOf hlive, instsOf_eq hdata]
    exact hj

theorem leaves (h : f.Thinned g) (hl : act.Leaves f) : act.Leaves g := by
  refine hl.of_subset ?_ ?_
  · intro b data' hdata' w hw
    obtain ⟨data, hdata, _, haddress, _⟩ := h.block b data' hdata'
    exact ⟨b, data, hdata, haddress ▸ hw⟩
  · intro b data' v hdata' hv
    obtain ⟨data, hdata, _, _, hterm⟩ := h.block b data' hdata'
    rw [hv] at hterm
    exact ⟨b, data, v, hdata, hterm.indirect⟩

theorem consistent (h : f.Thinned g) (hc : f.Consistent) : g.Consistent := by
  have hlive : ∀ {b data'}, g.block? b = some data' → g.containsBlock b = true :=
    fun hdata' => containsBlock_iff.2 ⟨_, hdata'⟩
  refine ⟨fun b data' hdata' id => ?_, fun id b hb => ((h.instBlock id b).1 hb).2,
    fun b data' hdata' => ?_⟩
  · rw [h.instBlock id b, and_iff_left (hlive hdata'), ← hc.mem_instsOf,
      ← h.instsOf (hlive hdata'), instsOf_eq hdata']
  · rw [← instsOf_eq hdata', h.instsOf (hlive hdata')]
    exact hc.nodup_instsOf b

theorem heads (h : f.Thinned g) (hwf : f.WellFormed) (hid : id ∈ (g.instsOf b).dropWhile g.isPhi) :
    g.isPhi id = false := by
  have hmem := (List.dropWhile_suffix g.isPhi).subset hid
  obtain ⟨_, hdata', _⟩ := exists_block_of_mem hmem
  rw [dropWhile_congr fun j hj => h.isPhi hwf.consistent hj,
    h.instsOf (containsBlock_iff.2 ⟨_, hdata'⟩)] at hid
  rw [h.isPhi hwf.consistent hmem]
  exact hwf.isPhi_behind hid

open Classical in
theorem hears (h : f.Thinned g) (hwf : f.WellFormed) (hid : id ∈ g.instsOf b)
    {inc' : List (BlockId × Value)} {ty : Option Ty} (hi' : g.inst? id = some ⟨.phi inc', ty⟩) :
    g.Hears b (inc'.map (·.1)) := by
  obtain ⟨inc, hi, rfl⟩ := h.phi_of_mem hwf.consistent hid hi'
  have hmap : (inc.filter fun e => decide (g.Edge e.1 b)).map (·.1) =
      (inc.map (·.1)).filter fun p => decide (g.Edge p b) := by
    rw [List.filter_map]
    rfl
  rw [hmap]
  refine ⟨fun q hq hedge => ?_, fun q hq => of_decide_eq_true (List.mem_filter.1 hq).2⟩
  rw [List.count_filter (by simpa using hedge)]
  exact (hwf.hears (h.mem_instsOf hid) hi).once q (h.subgraph.reachable hq)
    (h.subgraph.edge _ _ hedge)

open Classical in
/-- What is read was read where it is read. -/
theorem reads (h : f.Thinned g) (hc : f.Consistent) {drop : InstId → Bool} {v : Value}
    (hread : g.Reads drop b pre v) : f.Reads drop b pre v := by
  have hinsts : ∀ {c}, g.Reachable c → g.instsOf c = f.instsOf c := fun hb => h.instsOf hb.live
  cases hread with
  | inst hb hsplit hkeep hk hphi hv =>
    have hi := h.inst_of_mem hc (mem_of_split hsplit) hk hphi
    rw [hinsts hb] at hsplit
    exact .inst (h.subgraph.reachable hb) hsplit hkeep hi hphi hv
  | phi hb hid hkeep hk he hq =>
    obtain ⟨inc, hi, rfl⟩ := h.phi_of_mem hc hid hk
    rw [hinsts hq]
    exact .phi (h.subgraph.reachable hb) (h.mem_instsOf hid) hkeep hi (List.mem_filter.1 he).1
      (h.subgraph.reachable hq)
  | term hb hdata' hv =>
    obtain ⟨data, hdata, _, _, hterm⟩ := h.block b _ hdata'
    rw [hinsts hb]
    exact .term (h.subgraph.reachable hb) hdata (hterm.operands hv)

theorem wellFormed (h : f.Thinned g) (hwf : f.WellFormed) : g.WellFormed := by
  refine wellFormed_of_reads (h.consistent hwf.consistent) (fun e he => ?_) h.targets
    (fun b id => h.heads hwf) (fun b id inc ty hid => h.hears hwf hid) fun b pre j hread => ?_
  · rw [h.entry] at he
    exact h.live e (.entry he (hwf.entry e he))
  · have hold := h.reads hwf.consistent hread
    exact h.available hold.reachable (hold.atHand hwf)

theorem orderly (h : f.Thinned g) {own : InstId → Bool} (ho : f.Orderly own) : g.Orderly own := by
  have hc := ho.wellFormed.consistent
  refine ⟨h.wellFormed ho.wellFormed, ?_, ?_, ?_, ?_⟩
  · intro b id k hb hid hk hphi
    have hi := h.inst_of_mem hc hid hk hphi
    have hid' : k.kind.mapOperands (fun v => v) = k.kind := k.kind.mapOperands_id
    rw [← hid']
    exact Kind.typed_mapOperands (fun v _ => h.typeOf v)
      (ho.typed b id k (h.subgraph.reachable hb) (h.mem_instsOf hid) hi hphi)
  · intro b id inc' ty hb hid hk
    obtain ⟨inc, hi, rfl⟩ := h.phi_of_mem hc hid hk
    obtain ⟨hsome, hinc⟩ := ho.phi b id inc ty (h.subgraph.reachable hb) (h.mem_instsOf hid) hi
    refine ⟨hsome, fun q v he hq => ?_⟩
    rw [h.typeOf]
    exact hinc q v (List.mem_filter.1 he).1 (h.subgraph.reachable hq)
  · intro s hs b k hid hk
    obtain ⟨⟨kind, o⟩, hi⟩ := hc.inst?_of_mem (h.mem_instsOf hid)
    have halloca := ho.slot s hs b _ (h.mem_instsOf hid) hi
    rw [h.inst b s _ hid hi] at hk
    cases hk
    cases kind with
    | alloca n => rfl
    | _ => cases halloca
  · intro s hs b id k hb hid hk hphi
    exact ho.spares s hs b id k (h.subgraph.reachable hb) (h.mem_instsOf hid)
      (h.inst_of_mem hc hid hk hphi) hphi

theorem regular (h : f.Thinned g) {own : InstId → Bool} (hc : f.Consistent) (hr : f.Regular own) :
    g.Regular own := by
  refine hr.of_home ?_ ?_ ?_
  · intro b id k hb hid hk
    have hmem := h.mem_instsOf hid
    obtain ⟨i, hi⟩ := hc.inst?_of_mem hmem
    rw [h.inst b id i hid hi] at hk
    cases hk
    exact ⟨b, i, h.subgraph.reachable hb, hmem, hi, Kind.isAlloca_mapIncoming _ _,
      .mapIncoming _ h.typeOf⟩
  · intro b data' v hb hdata' hv
    obtain ⟨data, hdata, _, _, hterm⟩ := h.block b data' hdata'
    exact ⟨b, data, v, h.subgraph.reachable hb, hdata, hterm.operands hv, fun _ _ heq => heq,
      h.typeOf v⟩
  · intro e id he hid
    rw [h.isPhi hc hid]
    exact hr.entry e id (h.entry ▸ he) (h.mem_instsOf hid)

/-! ### The same execution -/

theorem next (h : f.Thinned g) (hl : act.Leaves f) {data data' : Block} (hdata : f.block? b = some data)
    (hdata' : g.block? b = some data') (hterm : data.term.Narrows data'.term) {m : Machine} {x : Next}
    (hx : m.next act f data.term = some x) : m.next act g data'.term = some x := by
  generalize hd : data.term = t at hterm hx
  generalize hd' : data'.term = t' at hterm ⊢
  cases hterm with
  | same =>
    rw [← hd', Machine.next_of_typeOf h.typeOf hl (h.leaves hl) hdata hdata' (hd'.trans hd.symm), hd]
    exact hx
  | const c x y =>
    simp only [Machine.next, Machine.eval, Option.map_some] at hx ⊢
    rw [← hx]
    simp [Constant.isZero]
  | equal v b =>
    obtain ⟨w, _, rfl⟩ := Option.map_eq_some_iff.1 hx
    simp only [Machine.next, ite_self]

theorem phiWord (h : f.Thinned g) (hedge : g.Edge q b) (hid : id ∈ g.instsOf b) {m : Machine}
    {inc : List (BlockId × Value)} {o : Option Ty} (hi : f.inst? id = some ⟨.phi inc, o⟩) :
    m.phiWord act g (some q) id = m.phiWord act f (some q) id := by
  classical
  have hi' : g.inst? id = some ⟨.phi (inc.filter fun e => decide (g.Edge e.1 b)), o⟩ :=
    h.inst b id _ hid hi
  have hfind : ((inc.filter fun e => decide (g.Edge e.1 b)).find? fun e => some e.1 = some q) =
      inc.find? fun e => some e.1 = some q := by
    rw [List.find?_filter]
    congr 1
    funext e
    by_cases heq : e.1 = q
    · simp [heq, hedge]
    · simp [heq]
  simp only [Machine.phiWord, hi, hi', hfind, Machine.eval_of_typeOf h.typeOf]

theorem abreast (h : f.Thinned g) (hwf : f.WellFormed) (hl : act.Leaves f) (memory : Memory) :
    f.Abreast act memory g where
  entry := h.entry
  typeOf := h.typeOf
  isPhi := by
    intro b id hb hid
    refine h.isPhi hwf.consistent (b := b) ?_
    rwa [h.instsOf (h.live b hb)]
  block := by
    intro b data hb hdata
    obtain ⟨data', hdata'⟩ := containsBlock_iff.1 (h.live b hb)
    obtain ⟨d, hd, hinsts, _, hterm⟩ := h.block b data' hdata'
    rw [hdata] at hd
    cases hd
    exact ⟨data', hdata', hinsts, fun m x hx => h.next hl hdata hdata' hterm hx⟩
  phiWord := by
    intro q b data m hq hdata hnext id hid
    obtain ⟨data', hdata'⟩ := containsBlock_iff.1 (h.live q hq)
    obtain ⟨d, hd, _, _, hterm⟩ := h.block q data' hdata'
    rw [hdata] at hd
    cases hd
    -- the edge that is taken is still there
    have hedge : g.Edge q b := by
      have hnext' := h.next hl hdata hdata' hterm hnext
      have hs := Machine.mem_successors_of_goto (h.leaves hl) hdata' hnext'
      exact ⟨data', hdata', hs, h.targets q data' hdata' b hs⟩
    obtain ⟨inc, o, hi⟩ := isPhi_eq_true (of_mem_takeWhile hid)
    refine h.phiWord hedge ?_ hi
    rw [h.instsOf hedge.live_right]
    exact (f.phisOf_prefix b).subset hid
  exec := by
    intro b pre id post m m₁ _ hb hsplit hphi hexec
    have hid := mem_of_split hsplit
    obtain ⟨i, hi⟩ := hwf.consistent.inst?_of_mem hid
    have hid' : id ∈ g.instsOf b := by rwa [h.instsOf (h.live b hb)]
    have hsame : g.inst? id = f.inst? id := by
      rw [isPhi_inst hi] at hphi
      rw [h.inst b id i hid' hi, hi]
      obtain ⟨kind, o⟩ := i
      cases kind with
      | phi inc => cases hphi
      | _ => rfl
    rw [Machine.exec_of_inst? h.typeOf hsame]
    exact hexec

theorem keeps (h : f.Thinned g) (hwf : f.WellFormed) : f.Keeps g where
  wellFormed := h.wellFormed hwf
  orderly := fun _ ho => h.orderly ho
  regular := fun _ _ hr => h.regular hwf.consistent hr
  leaves := fun _ hl => h.leaves hl
  refines := fun _ hl _ => refines_of_lockstep hwf hl fun memory =>
    ⟨_, _, (h.abreast hwf hl memory).lockstep⟩

end Thinned

end Func

end BinaryLift
