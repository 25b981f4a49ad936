import BinaryLift.Proofs.Run.Visits
import BinaryLift.Proofs.Transform.PromotedSteps

/-!
# Executions of the promoted function

On an edge the placed phis take over the current values; where a slot has no phi, its value has not
changed since the immediate dominator. So matching executions stay together from block to block and
leave in the same way.
-/

namespace BinaryLift.Promotion

open Func Machine

variable {f : Func} {P : Promotion f} {g : Func} {ρ : Value → Value} {act : Activation}
  {b q : BlockId} {m m' m₁ : Machine}

/-! ### Slots that a block leaves alone -/

theorem mem_storeBlocks (h : P.Sound) {id s : InstId} {v : Value} {o : Option Ty}
    (hid : id ∈ f.instsOf b) (hi : f.inst? id = some ⟨.store (.inst s) v, o⟩) :
    b ∈ f.storeBlocks s := by
  obtain ⟨data, hdata, hmem⟩ := exists_block_of_mem hid
  refine List.mem_filterMap.2 ⟨.inst id, mem_usersOf.2 ⟨b, data, hdata, .inl
    ⟨id, _, hmem, hi, List.mem_cons_self, rfl⟩⟩, ?_⟩
  simp only [hi]
  exact h.wellFormed.consistent.mem_instsOf.1 hid

theorem valueOf_scan (h : P.Sound) {n : Nat} {s : InstId} {ty : Ty} (hs : P.slots[n]? = some (s, ty))
    (ids : List InstId) (hids : ∀ id ∈ ids, ∀ v o, f.inst? id ≠ some ⟨.store (.inst s) v, o⟩) :
    ∀ cur, cur.length = P.slots.length → valueOf (P.scan cur ids) n = valueOf cur n := by
  induction ids with
  | nil => exact fun _ _ => rfl
  | cons id ids ih =>
    intro cur hlen
    have hrest := ih (fun j hj => hids j (List.mem_cons_of_mem _ hj)) (P.track cur id)
      ((length_track cur id).trans hlen)
    refine hrest.trans ?_
    rcases h.track_cases cur id with hsame | ⟨s', v, o, k, ty', hi, hs', hset⟩
    · rw [hsame]
    · have hlt : k < cur.length := by
        rw [hlen]
        exact (List.getElem?_eq_some_iff.1 hs').1
      rw [hset, valueOf_set hlt, if_neg]
      rintro rfl
      rw [hs] at hs'
      cases hs'
      exact hids id List.mem_cons_self v o hi

theorem Sound.out_eq_out (h : P.Sound) {n : Nat} {s : InstId} {ty : Ty}
    (hs : P.slots[n]? = some (s, ty)) {x x' : BlockId} (hx : P.dom.idom x = some x')
    (hstore : x ∉ f.storeBlocks s) (hfront : x ∉ P.front s) :
    valueOf (P.out x) n = valueOf (P.out x') n := by
  have hnone : ∀ p, (n, p) ∉ P.phis.ofBlock x := by
    intro p hp
    obtain ⟨y, hy, hmem⟩ := (h.placed.mem_iff n x).1 ⟨p, hp⟩
    rw [hs] at hy
    cases hy
    exact hfront hmem
  rw [out, current, valueOf_scan h hs _ (fun id hid v o hi => hstore (mem_storeBlocks h hid hi)) _
    (length_entered_head x), valueOf_entered_of_not hnone, h.head_of_idom hx]

/-- Where a slot has no phi, its value on an edge is the one at the immediate dominator. -/
theorem Sound.out_on_edge (h : P.Sound) {n : Nat} {s : InstId} {ty : Ty}
    (hs : P.slots[n]? = some (s, ty)) {p : BlockId} (hp : P.dom.idom b = some p)
    (hnone : ∀ x, (n, x) ∉ P.phis.ofBlock b) (hq : f.Reachable q) (hedge : f.Edge q b) :
    valueOf (P.out q) n = valueOf (P.out p) n := by
  have hfront : b ∉ P.front s := by
    intro hmem
    obtain ⟨x, hx⟩ := (h.placed.mem_iff n b).2 ⟨(s, ty), hs, hmem⟩
    exact hnone x hx
  exact h.correct.constant_on_edge (h.closed s) (C := fun x => valueOf (P.out x) n)
    (fun x x' hx hstore hout => h.out_eq_out hs hx hstore hout) hfront hp hq hedge

/-! ### Phis -/

theorem Matches.phiWord_old (hm : P.Matches g ρ act q (f.instsOf q) m m') (h : P.Sound)
    (hp : P.Promoted g ρ) (hq : f.Reachable q) (hedge : f.Edge q b) {id : InstId}
    (hid : id ∈ f.instsOf b) (hphi : f.isPhi id = true) {w : Word}
    (hw : m.phiWord act f (some q) id = some w) : m'.phiWord act g (some q) id = some w := by
  obtain ⟨inc, o, hi⟩ := isPhi_eq_true hphi
  have hkeep := h.drops_isPhi hphi
  have hi' := hp.inst b id _ hid hkeep hi
  refine phiWord_rename hi hi' (fun e he hqe u hu => ?_) hw
  obtain ⟨q', v⟩ := e
  cases hqe
  obtain ⟨data, hdata⟩ := containsBlock_iff.1 hedge.live_left
  obtain ⟨bdata, hbdata⟩ := containsBlock_iff.1 hedge.live_right
  refine hm.eval hp (fun j hj => ⟨?_, ?_⟩) hu
  · cases hj
    rw [instsOf_eq hbdata] at hid
    rw [instsOf_eq hdata]
    exact h.wellFormed.phiUses b bdata id inc o (hq.step hedge) hbdata hid hi q' j he hq data hdata
  · exact h.operand_notMem hid hkeep hi (List.mem_map.2 ⟨(q', v), he, hj⟩)

theorem Matches.phiWord_new (hm : P.Matches g ρ act q (f.instsOf q) m m')
    (hp : P.Promoted g ρ) (hq : f.Reachable q) (hedge : f.Edge q b) {n : Nat} {p : InstId}
    (hphi : (n, p) ∈ P.phis.ofBlock b) :
    ∃ s ty, P.slots[n]? = some (s, ty) ∧ g.wordTy (.inst p) = ty ∧
      m'.phiWord act g (some q) p = some ((m.slots s).read 0 ty) := by
  obtain ⟨s, ty, inc, hs, hi, _, hinc⟩ := hp.phi b n p hphi
  refine ⟨s, ty, hs, ?_, ?_⟩
  · rw [Func.wordTy_inst hi]
    rfl
  · simp only [phiWord, hi]
    rw [find?_of_unique ((hinc q _).2 ⟨hq, hedge, rfl⟩) fun w hw => ((hinc q w).1 hw).2.2]
    exact hm.cur n s ty hs

theorem Promoted.eval_enter (hp : P.Promoted g ρ) (h : P.Sound) (hb : f.Reachable b)
    {c : BlockId} (hcb : f.StrictlyDominates c b) {v : Value} (hv : P.Earlier c (f.instsOf c) v)
    {phis : List InstId} (hphis : phis ⊆ f.instsOf b) {env : InstId → Option Word}
    (henv : ∀ j, j ∉ phis ++ (P.phis.ofBlock b).map (·.2) → env j = m'.env j) :
    { m' with env := env }.eval act g (ρ v) = m'.eval act g (ρ v) := by
  obtain ⟨hold, hnew⟩ := (hp.earlier h (hcb.2.reachable hb) (List.prefix_refl _) hv).ne_phi h hb hcb
  refine eval_congr fun j hj => henv j fun hmem => ?_
  rcases List.mem_append.1 hmem with hmem | hmem
  · exact hold j (hphis hmem) hj
  · obtain ⟨x, hx, rfl⟩ := List.mem_map.1 hmem
    exact hnew x hx hj

theorem Matches.enter (hm : P.Matches g ρ act q (f.instsOf q) m m') (h : P.Sound)
    (hp : P.Promoted g ρ) (hq : f.Reachable q) (hedge : f.Edge q b)
    (henter : m.enter act f (some q) ((f.instsOf b).takeWhile f.isPhi) = some m₁) :
    ∃ m₁', m'.enter act g (some q)
        ((f.instsOf b).takeWhile f.isPhi ++ (P.phis.ofBlock b).map (·.2)) = some m₁' ∧
      P.Matches g ρ act b ((f.instsOf b).takeWhile f.isPhi) m₁ m₁' := by
  have hb := hq.step hedge
  obtain ⟨hwords, rfl⟩ := enter_eq_some.1 henter
  have hsub : (f.instsOf b).takeWhile f.isPhi ⊆ f.instsOf b := (List.takeWhile_prefix _).subset
  have hold : ∀ id ∈ (f.instsOf b).takeWhile f.isPhi, ∀ w, m.phiWord act f (some q) id = some w →
      m'.phiWord act g (some q) id = some w := fun id hid w hw =>
    hm.phiWord_old h hp hq hedge (hsub hid) (of_mem_takeWhile hid) hw
  have hframe : ∀ j, j ∉ (f.instsOf b).takeWhile f.isPhi ++ (P.phis.ofBlock b).map (·.2) →
      (if j ∈ (f.instsOf b).takeWhile f.isPhi ++ (P.phis.ofBlock b).map (·.2) then
        (m'.phiWord act g (some q) j).map (· &&& (g.wordTy (.inst j)).mask) else m'.env j) =
      m'.env j := fun j hj => if_neg hj
  refine ⟨_, enter_eq_some.2 ⟨?_, rfl⟩, hm.calls, hm.memory, hm.slots, ?_, ?_⟩
  · intro id hid
    rcases List.mem_append.1 hid with hid | hid
    · obtain ⟨w, hw⟩ := hwords id hid
      exact ⟨w, hold id hid w hw⟩
    · obtain ⟨⟨n, p⟩, hphi, rfl⟩ := List.mem_map.1 hid
      obtain ⟨s, ty, _, _, hword⟩ := hm.phiWord_new hp hq hedge hphi
      exact ⟨_, hword⟩
  · intro j w hj hslot hw
    by_cases hjphi : j ∈ (f.instsOf b).takeWhile f.isPhi
    · obtain ⟨u, hu⟩ := hwords j hjphi
      obtain ⟨i, hi⟩ := h.wellFormed.consistent.inst?_of_mem (hsub hjphi)
      rw [hp.rename_of_keep h (h.drops_isPhi (of_mem_takeWhile hjphi))]
      simp only [if_pos hjphi, hu] at hw
      simp only [Machine.eval, if_pos (List.mem_append_left _ hjphi), hold j hjphi u hu,
        hp.wordTy_inst hi]
      exact hw
    · obtain ⟨c, data, hcb, hdata, hjc⟩ := hj.resolve_left hjphi
      have hearlier : P.Earlier c (f.instsOf c) (.inst j) := by
        rw [instsOf_eq hdata]
        exact .inl (.inl hjc)
      simp only [if_neg hjphi] at hw
      rw [hp.eval_enter h hb hcb hearlier hsub hframe]
      exact hm.env j w (available_pred hedge hcb (instsOf_eq hdata ▸ hjc)) hslot hw
  · intro n s ty hs
    rw [current, scan_phis fun id hid => of_mem_takeWhile hid]
    by_cases hphi : ∃ p, (n, p) ∈ P.phis.ofBlock b
    · obtain ⟨p, hphi⟩ := hphi
      have hmem : p ∈ (f.instsOf b).takeWhile f.isPhi ++ (P.phis.ofBlock b).map (·.2) :=
        List.mem_append_right _ (List.mem_map.2 ⟨(n, p), hphi, rfl⟩)
      obtain ⟨s', ty', hs', hty, hword⟩ := hm.phiWord_new hp hq hedge hphi
      rw [hs] at hs'
      cases hs'
      rw [h.valueOf_entered hphi, hp.rename_of_keep h (h.drops_phi hphi)]
      simp only [Machine.eval, if_pos hmem, hword, hty, Option.map_some]
      rw [(m.slots s).read_fits 0 ty]
    · -- nothing has changed since the immediate dominator
      have hnone : ∀ p, (n, p) ∉ P.phis.ofBlock b := fun p hx => hphi ⟨p, hx⟩
      have hbe : b ≠ P.entry := by
        rintro rfl
        exact h.fresh_entry q hq hedge
      obtain ⟨p, hidom⟩ := h.correct.idom b hb hbe
      have hpb := h.correct.idom_strictly hidom
      have hreach := hpb.2.reachable hb
      have hearlier : P.Earlier p (f.instsOf p) (valueOf (P.out p) n) :=
        h.earlier_of_source hreach (h.source_current hs hreach (List.prefix_refl _))
      rw [valueOf_entered_of_not hnone, h.head_of_idom hidom,
        hp.eval_enter h hb hpb hearlier hsub hframe, ← h.out_on_edge hs hidom hnone hq hedge]
      exact hm.cur n s ty hs

/-- Nothing joins at the entry. -/
theorem Sound.placed_entry (h : P.Sound) (n : Nat) (p : InstId) : (n, p) ∉ P.phis.ofBlock P.entry := by
  intro hphi
  obtain ⟨x, _, hfront⟩ := (h.placed.mem_iff n P.entry).1 ⟨p, hphi⟩
  have hsome := h.joins x.1 P.entry hfront
  rw [h.correct.idom_entry] at hsome
  cases hsome

/-- At the entry nothing has been computed, and all slots are zero. -/
theorem Sound.enter_entry (h : P.Sound) (hp : P.Promoted g ρ) {memory : Memory}
    (henter : (Machine.start memory).enter act f none ((f.instsOf P.entry).takeWhile f.isPhi) = some m₁) :
    ∃ m₁', (Machine.start memory).enter act g none
        ((f.instsOf P.entry).takeWhile f.isPhi ++ (P.phis.ofBlock P.entry).map (·.2)) = some m₁' ∧
      P.Matches g ρ act P.entry ((f.instsOf P.entry).takeWhile f.isPhi) m₁ m₁' := by
  obtain ⟨hnophi, rfl⟩ := enter_none henter
  have hplaced := h.placed_entry
  have hnew : P.phis.ofBlock P.entry = [] := by
    rw [List.eq_nil_iff_forall_not_mem]
    exact fun x => hplaced x.1 x.2
  rw [hnophi, hnew]
  refine ⟨_, enter_eq_some.2 ⟨fun id hid => absurd hid List.not_mem_nil, rfl⟩, rfl, rfl,
    fun _ _ => rfl, ?_, ?_⟩
  · intro j w _ _ hw
    simp [Machine.start] at hw
  · intro n s ty hs
    have hzero : valueOf P.start n = .int 0 ty := by
      rw [valueOf, Promotion.start, List.getElem?_map, hs]
      rfl
    rw [current, scan, List.foldl_nil, valueOf_entered_of_not (hplaced n), h.head_entry, hzero,
      Value.int, hp.rename_const]
    simp only [Machine.eval, Machine.start, Constant.ofWord, Memory.read_start]
    rw [ty.fits_zero]

/-! ### Terminators -/

theorem Matches.next (hm : P.Matches g ρ act b (f.instsOf b) m m') (h : P.Sound)
    (hp : P.Promoted g ρ) (hlinked : act.linked = false) (hb : f.Reachable b) {data : Block}
    (hdata : f.block? b = some data) {x : Next} (hx : m.next act f data.term = some x) :
    m'.next act g (data.term.mapOperands ρ) = some x := by
  have heval : ∀ v w, v ∈ data.term.operands → m.eval act f v = some w →
      m'.eval act g (ρ v) = some w := by
    intro v w hv hw
    refine hm.eval hp (fun j hj => ?_) hw
    subst hj
    refine ⟨?_, fun hslot => ?_⟩
    · rw [instsOf_eq hdata]
      exact h.wellFormed.termUses b data hb hdata j hv
    · obtain ⟨n, ty, hs⟩ := mem_slots.1 hslot
      exact (h.slot n j ty hs).terms b data hdata hv
  have hdata' := hp.block b
  rw [hdata] at hdata'
  exact next_rename (act.leaves_of_linked hlinked f) (act.leaves_of_linked hlinked g) hdata hdata' rfl
    (fun v hv w => heval v w hv) hx

/-! ### Runs -/

theorem Promoted.isPhi_keep (hp : P.Promoted g ρ) (h : P.Sound) {id : InstId}
    (hid : id ∈ f.instsOf b) (hkeep : P.drops id = false) : g.isPhi id = f.isPhi id := by
  obtain ⟨i, hi⟩ := h.wellFormed.consistent.inst?_of_mem hid
  rw [isPhi, isPhi, hp.inst b id i hid hkeep hi, hi]
  obtain ⟨kind, o⟩ := i
  cases kind <;> rfl

theorem Promoted.isPhi_new (hp : P.Promoted g ρ) {n : Nat} {p : InstId}
    (hphi : (n, p) ∈ P.phis.ofBlock b) : g.isPhi p = true := by
  obtain ⟨_, _, inc, _, hi, _⟩ := hp.phi b n p hphi
  rw [isPhi_inst hi]
  rfl

/-- The head of a block is made of phis, the old ones and the new ones. -/
theorem Promoted.isPhi_head (hp : P.Promoted g ρ) (h : P.Sound) {id : InstId}
    (hid : id ∈ f.phisOf b ++ (P.phis.ofBlock b).map (·.2)) : g.isPhi id = true := by
  rcases List.mem_append.1 hid with hid | hid
  · have hphi := of_mem_takeWhile hid
    rw [hp.isPhi_keep h ((f.phisOf_prefix b).subset hid) (h.drops_isPhi hphi)]
    exact hphi
  · obtain ⟨⟨n, p⟩, hphi, rfl⟩ := List.mem_map.1 hid
    exact hp.isPhi_new hphi

theorem Promoted.isPhi_behind (hp : P.Promoted g ρ) (h : P.Sound) {id : InstId}
    (hid : id ∈ ((f.instsOf b).dropWhile f.isPhi).filter fun id => !P.drops id) :
    g.isPhi id = false := by
  obtain ⟨hmem, hkeep⟩ := List.mem_filter.1 hid
  rw [hp.isPhi_keep h ((List.dropWhile_suffix f.isPhi).subset hmem) (by simpa using hkeep)]
  exact h.wellFormed.isPhi_behind hmem

theorem Promoted.runBlock_eq (hp : P.Promoted g ρ) (h : P.Sound) {data : Block}
    (hdata : f.block? b = some data) (prev : Option BlockId) (m' : Machine) :
    g.runBlock act prev (data.insts.takeWhile f.isPhi ++ (P.phis.ofBlock b).map (·.2) ++
      (data.insts.dropWhile f.isPhi).filter fun id => !P.drops id) m' =
    (m'.enter act g prev (data.insts.takeWhile f.isPhi ++ (P.phis.ofBlock b).map (·.2))).bind
      (((data.insts.dropWhile f.isPhi).filter fun id => !P.drops id).foldlM (Machine.exec act g)) := by
  rw [← instsOf_eq hdata]
  have hphis : ∀ id ∈ (f.instsOf b).takeWhile f.isPhi ++ (P.phis.ofBlock b).map (·.2),
      g.isPhi id = true := fun _ => hp.isPhi_head h
  have hrest : ∀ id, (((f.instsOf b).dropWhile f.isPhi).filter fun id => !P.drops id).head? =
      some id → g.isPhi id = false := fun _ hid => hp.isPhi_behind h (List.mem_of_head? hid)
  unfold runBlock
  rw [takeWhile_append_of_all hphis hrest, dropWhile_append_of_all hphis hrest]
  rfl

/-- Control has come to `b` in both executions. -/
def Arrives (P : Promotion f) (g : Func) (ρ : Value → Value) (act : Activation) (b : BlockId)
    (m m' : Machine) : Option BlockId → Prop
  | none => b = P.entry ∧ ∃ memory, m = .start memory ∧ m' = .start memory
  | some q => f.Reachable q ∧ f.Edge q b ∧ P.Matches g ρ act q (f.instsOf q) m m'

variable {prev : Option BlockId}

theorem Arrives.reachable (ha : P.Arrives g ρ act b m m' prev) (h : P.Sound) : f.Reachable b := by
  cases prev with
  | none =>
    rw [ha.1]
    exact .entry h.correct.entry (h.wellFormed.entry _ h.correct.entry)
  | some q => exact ha.1.step ha.2.1

theorem Arrives.runBlock (ha : P.Arrives g ρ act b m m' prev) (h : P.Sound) (hp : P.Promoted g ρ)
    (hown : P.Owned act.own) (htame : m.Tame f) {data : Block}
    (hdata : f.block? b = some data) (hrun : f.runBlock act prev data.insts m = some m₁) :
    m₁.Tame f ∧ ∃ m₁', g.runBlock act prev (data.insts.takeWhile f.isPhi ++
        (P.phis.ofBlock b).map (·.2) ++
        (data.insts.dropWhile f.isPhi).filter fun id => !P.drops id) m' = some m₁' ∧
      P.Matches g ρ act b (f.instsOf b) m₁ m₁' := by
  have hb := ha.reachable h
  have hinsts := instsOf_eq hdata
  have hsplit : data.insts.takeWhile f.isPhi ++ data.insts.dropWhile f.isPhi = data.insts :=
    List.takeWhile_append_dropWhile
  unfold Func.runBlock at hrun
  simp only [Option.bind_eq_bind, Option.bind_eq_some_iff] at hrun
  obtain ⟨m₂, henter, hbody⟩ := hrun
  have hstart : ∃ m₂', m'.enter act g prev (data.insts.takeWhile f.isPhi ++
      (P.phis.ofBlock b).map (·.2)) = some m₂' ∧
      P.Matches g ρ act b (data.insts.takeWhile f.isPhi) m₂ m₂' := by
    rw [← hinsts] at henter ⊢
    cases prev with
    | none =>
      obtain ⟨rfl, memory, rfl, rfl⟩ := ha
      exact h.enter_entry hp henter
    | some q =>
      obtain ⟨hq, hedge, hm⟩ := ha
      exact hm.enter h hp hq hedge henter
  obtain ⟨m₂', henter', hm₂⟩ := hstart
  have hwhole : f.instsOf b =
      data.insts.takeWhile f.isPhi ++ data.insts.dropWhile f.isPhi ++ [] := by
    rw [hinsts, List.append_nil, hsplit]
  obtain ⟨htame₁, m₁', hbody', hm₁⟩ := Matches.body h hp hown hb _ hm₂ (htame.enter henter) hwhole
    (h.wellFormed.heads b data hdata) m₁ hbody
  rw [hsplit, ← hinsts] at hm₁
  refine ⟨htame₁, m₁', ?_, hm₁⟩
  rw [hp.runBlock_eq h hdata, henter']
  exact hbody'

theorem Arrives.runFrom (h : P.Sound) (hp : P.Promoted g ρ) (hown : P.Owned act.own)
    (hlinked : act.linked = false) (n : Nat) :
    ∀ {prev b m m'}, P.Arrives g ρ act b m m' prev → m.Tame f →
      ∀ {e m₁}, f.runFrom act n prev b m = some (e, m₁) →
      ∃ m₁', g.runFrom act n prev b m' = some (e, m₁') ∧ m₁'.calls = m₁.calls ∧
        m₁'.memory = m₁.memory ∧ ∀ s, s ∉ P.slots.map (·.1) → m₁'.slots s = m₁.slots s := by
  induction n with
  | zero =>
    intro prev b m m' _ _ e m₁ hrun
    cases hrun
  | succ n ih =>
    intro prev b m m' ha htame e m₁ hrun
    unfold Func.runFrom at hrun
    simp only [Option.bind_eq_bind, Option.bind_eq_some_iff] at hrun
    obtain ⟨data, hdata, m₂, hblock, x, hnext, hrun⟩ := hrun
    have hb := ha.reachable h
    obtain ⟨htame₂, m₂', hblock', hm₂⟩ := ha.runBlock h hp hown htame hdata hblock
    have hnext' := hm₂.next h hp hlinked hb hdata hnext
    have hstep : g.runFrom act (n + 1) prev b m' = (match x with
        | .leave e => some (e, m₂')
        | .goto c => g.runFrom act n (some b) c m₂') := by
      rw [Func.runFrom, hp.block b, hdata]
      simp only [Option.map_some, Option.bind_eq_bind, Option.bind_some, hblock', hnext']
      cases x <;> rfl
    rw [hstep]
    cases x with
    | leave e' =>
      cases hrun
      exact ⟨m₂', rfl, hm₂.calls, hm₂.memory, hm₂.slots⟩
    | goto c =>
      have hsucc := mem_successors_of_goto (act.leaves_of_linked hlinked f) hdata hnext
      have hedge : f.Edge b c := ⟨data, hdata, hsucc, h.wellFormed.targets b data hdata c hsucc⟩
      have harrives : P.Arrives g ρ act c m₂ m₂' (some b) := ⟨hb, hedge, hm₂⟩
      exact ih harrives htame₂ hrun

end BinaryLift.Promotion
