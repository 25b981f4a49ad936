import BinaryLift.Proofs.Transform.PromotedRun
import BinaryLift.Proofs.Transform.Promotion
import BinaryLift.Proofs.Transform.Substitution

/-!
# SSA form after promotion

Every renamed operand is at hand where the old one was, and it stays if reachable code reads no
store: a store has no result, and it goes with its slot.
-/

namespace BinaryLift

namespace Func

/-- Code that control can reach reads results only, and a store has none. -/
def ReadsResults (f : Func) : Prop :=
  ∀ b pre j, f.Reads (fun _ => false) b pre (.inst j) →
    ∀ p v ty, f.inst? j ≠ some ⟨.store p v, ty⟩

theorem Reads.mono {f : Func} {drop keep : InstId → Bool} {b : BlockId} {pre : List InstId}
    {v : Value} (h : f.Reads drop b pre v) (hkeep : ∀ id, keep id = true → drop id = true) :
    f.Reads keep b pre v := by
  have hfalse : ∀ id, drop id = false → keep id = false := by
    intro id hid
    cases hk : keep id with
    | false => rfl
    | true =>
      rw [hkeep id hk] at hid
      cases hid
  cases h with
  | inst hb hsplit hd hi hphi hv => exact .inst hb hsplit (hfalse _ hd) hi hphi hv
  | phi hb hid hd hi he hq => exact .phi hb hid (hfalse _ hd) hi he hq
  | term hb hdata hv => exact .term hb hdata hv

end Func

namespace Promotion

open Func

variable {f g : Func} {P : Promotion f} {ρ : Value → Value} {b c q : BlockId}
  {pre post : List InstId} {id j : InstId} {n : Nat} {v : Value}

/-! ### Renamed operands stay -/

/-- No slot and no store: either an instruction that control can reach or a phi to be placed. -/
def Lasting (P : Promotion f) : Value → Prop
  | .inst j => f.inst? j = none ∨ ((∃ b, f.Reachable b ∧ j ∈ f.instsOf b) ∧
      j ∉ P.slots.map (·.1) ∧ ∀ p v ty, f.inst? j ≠ some ⟨.store p v, ty⟩)
  | _ => True

theorem Sound.lasting_of_reads (h : P.Sound) (hres : f.ReadsResults)
    (hread : f.Reads (fun _ => false) b pre v) (hslot : ∀ j, v = .inst j → j ∉ P.slots.map (·.1)) :
    P.Lasting v := by
  cases v with
  | const k => trivial
  | arg k => trivial
  | inst j =>
    obtain ⟨c, hjc, hc, _⟩ := h.wellFormed.consistent.home_of_available hread.reachable
      hread.pre_prefix.subset (hread.atHand h.wellFormed)
    exact .inr ⟨⟨c, hc, h.wellFormed.consistent.mem_instsOf.2 hjc⟩, hslot j rfl,
      hres b pre j hread⟩

/-- What is stored to a slot is no slot. -/
theorem Sound.stored_notMem (h : P.Sound) {s : InstId} {o : Option Ty} {ty : Ty}
    (hid : id ∈ f.instsOf b) (hi : f.inst? id = some ⟨.store (.inst s) (.inst j), o⟩)
    (hs : P.slots[n]? = some (s, ty)) : j ∉ P.slots.map (·.1) := by
  intro hslot
  obtain ⟨k, ty', hj⟩ := mem_slots.1 hslot
  have hop : Value.inst j ∈ (Kind.store (.inst s) (.inst j)).operands := by simp [Kind.operands]
  cases (h.users hid hi hj hop).2 with
  | store hne _ => exact hne rfl

theorem Sound.lasting_of_source (h : P.Sound) (hres : f.ReadsResults) (hb : f.Reachable b)
    (hs : P.Source b pre n v) : P.Lasting v := by
  cases hs with
  | zero _ => trivial
  | phi hp _ => exact .inl (h.inst?_phi hp)
  | @store c before after id s v o ty hsplit hi hslot hwhere =>
    have hc : f.Reachable c := by
      rcases hwhere with ⟨rfl, _⟩ | hdom
      · exact hb
      · exact hdom.2.reachable hb
    have hread : f.Reads (fun _ => false) c before v :=
      .inst hc hsplit rfl hi rfl (by simp [Kind.operands])
    refine h.lasting_of_reads hres hread ?_
    rintro j rfl
    exact h.stored_notMem (mem_of_split hsplit) hi hslot

theorem Sound.keep_of_lasting (h : P.Sound) (hj : P.Lasting (.inst j)) (hl : ∀ u, ¬ P.Loads j u) :
    P.drops j = false := by
  rcases hj with hnone | ⟨⟨b, hb, hjb⟩, hslot, hstore⟩
  · have hslot : j ∉ P.slots.map (·.1) := by
      intro hmem
      obtain ⟨_, _, hi⟩ := h.alloca_of_mem hmem
      rw [hnone] at hi
      cases hi
    simp only [drops, isAccess, hnone, hslot, decide_false, Bool.or_self]
  · cases hacc : P.isAccess j with
    | false => simp only [drops, hacc, hslot, decide_false, Bool.or_self]
    | true =>
      obtain ⟨n, s, ty, o, hs, hi | ⟨v, hi⟩⟩ := h.isAccess_cases hacc
      · obtain ⟨before, after, hsplit⟩ := List.append_of_mem hjb
        exact absurd ⟨b, before, after, s, o, n, ty, hb, hsplit, hi, hs, rfl⟩ (hl _)
      · exact absurd hi (hstore _ v o)

theorem Promoted.keep_inst (hp : P.Promoted g ρ) (h : P.Sound) (hres : f.ReadsResults) :
    P.Lasting (.inst j) → ∀ k, ρ (.inst j) = .inst k → P.drops k = false := by
  refine hp.rename_induction h (C := fun j u => P.Lasting (.inst j) → ∀ k, u = .inst k →
    P.drops k = false) ?_ ?_ j
  · rintro j hl hj k heq
    cases heq
    exact h.keep_of_lasting hj hl
  · intro j c before after s o n ty v hc _ _ _ hsource ih _ k heq
    have hv := h.lasting_of_source hres hc hsource
    cases v with
    | const a =>
      rw [hp.rename_const] at heq
      cases heq
    | arg a =>
      rw [hp.rename_arg] at heq
      cases heq
    | inst i => exact ih i rfl hv k heq

theorem Promoted.keep_rename (hp : P.Promoted g ρ) (h : P.Sound) (hres : f.ReadsResults)
    (hv : P.Lasting v) {k : InstId} (heq : ρ v = .inst k) : P.drops k = false := by
  cases v with
  | const a =>
    rw [hp.rename_const] at heq
    cases heq
  | arg a =>
    rw [hp.rename_arg] at heq
    cases heq
  | inst j => exact hp.keep_inst h hres hv k heq

/-! ### The blocks of the promoted function -/

theorem Sound.consistent_placed (h : P.Sound) : P.placed.Consistent where
  mem_iff := by
    intro b data' hdata' id
    refine ⟨h.housed_placed.mem b data' hdata' id, fun hid => ?_⟩
    rw [h.placed.block b] at hdata'
    obtain ⟨data, hdata, rfl⟩ := Option.map_eq_some_iff.1 hdata'
    by_cases hold : id.index < f.arena.size
    · rw [h.instBlock_old hold, ← h.wellFormed.consistent.mem_iff b data hdata id] at hid
      rw [← List.takeWhile_append_dropWhile (p := f.isPhi) (l := data.insts)] at hid
      rcases List.mem_append.1 hid with hid | hid
      · exact List.mem_append_left _ (List.mem_append_left _ hid)
      · exact List.mem_append_right _ hid
    · have hlt : id.index < P.placed.arena.size := by
        by_contra hge
        rw [instBlock, Array.getElem?_eq_none (Nat.le_of_not_lt hge)] at hid
        cases hid
      obtain ⟨c, n, hp⟩ := h.placed.fresh id (Nat.le_of_not_lt hold) hlt
      rw [h.instBlock_phi hp] at hid
      cases hid
      exact List.mem_append_left _ (List.mem_append_right _ (List.mem_map.2 ⟨(n, id), hp, rfl⟩))
  live := h.housed_placed.live
  nodup := by
    intro b data' hdata'
    rw [h.placed.block b] at hdata'
    obtain ⟨data, hdata, rfl⟩ := Option.map_eq_some_iff.1 hdata'
    have hperm : (data.insts.takeWhile f.isPhi ++ (P.phis.ofBlock b).map (·.2) ++
        data.insts.dropWhile f.isPhi).Perm (data.insts ++ (P.phis.ofBlock b).map (·.2)) := by
      conv_rhs => rw [← List.takeWhile_append_dropWhile (p := f.isPhi) (l := data.insts)]
      rw [List.append_assoc, List.append_assoc]
      exact List.perm_append_comm.append_left _
    rw [hperm.nodup_iff, List.nodup_append]
    refine ⟨h.wellFormed.consistent.nodup b data hdata, h.placed.phis b, ?_⟩
    rintro id hid id' hnew rfl
    obtain ⟨⟨n, p⟩, hp, rfl⟩ := List.mem_map.1 hnew
    have hlt := h.wellFormed.consistent.index_lt hdata hid
    exact absurd (h.placed.new b n p hp).1 (Nat.not_le.2 hlt)

/-- What stands in a block of the promoted function is what has been placed and stays. -/
theorem Promoted.block_placed (hp : P.Promoted g ρ) (h : P.Sound) (b : BlockId) :
    g.block? b = (P.placed.block? b).map fun data => { data with
      insts := data.insts.filter (!P.drops ·), term := data.term.mapOperands ρ } := by
  rw [hp.block b, h.placed.block b, Option.map_map]
  congr 1
  funext data
  have hphis : ∀ id ∈ data.insts.takeWhile f.isPhi, (!P.drops id) = true := by
    intro id hid
    rw [h.drops_isPhi (of_mem_takeWhile hid)]
    rfl
  have hnew : ∀ id ∈ (P.phis.ofBlock b).map (·.2), (!P.drops id) = true := by
    intro id hid
    obtain ⟨⟨n, p⟩, hphi, rfl⟩ := List.mem_map.1 hid
    rw [h.drops_phi hphi]
    rfl
  simp only [Function.comp, List.filter_append, List.filter_eq_self.2 hphis,
    List.filter_eq_self.2 hnew]

theorem Promoted.consistent (hp : P.Promoted g ρ) (h : P.Sound) : g.Consistent where
  mem_iff := by
    intro b data' hdata' id
    rw [hp.block_placed h b] at hdata'
    obtain ⟨data, hdata, rfl⟩ := Option.map_eq_some_iff.1 hdata'
    rw [List.mem_filter, h.consistent_placed.mem_iff b data hdata id, hp.instBlock id]
    cases P.drops id <;> simp
  live := by
    intro id b hb
    rw [hp.instBlock id] at hb
    split at hb
    · cases hb
    · obtain ⟨data, hdata⟩ := containsBlock_iff.1 (h.consistent_placed.live id b hb)
      rw [containsBlock, hp.block_placed h b, hdata]
      rfl
  nodup := by
    intro b data' hdata'
    rw [hp.block_placed h b] at hdata'
    obtain ⟨data, hdata, rfl⟩ := Option.map_eq_some_iff.1 hdata'
    exact (h.consistent_placed.nodup b data hdata).filter _

theorem Promoted.sameGraph (hp : P.Promoted g ρ) : f.SameGraph g where
  entry := hp.entry
  block := by
    intro b
    rw [hp.block b, Option.map_map]
    simp only [Function.comp_def, Terminator.successors_mapOperands]

/-- The instructions of a block up to a place behind its phis. -/
def upTo (P : Promotion f) (b : BlockId) (pre : List InstId) : List InstId :=
  f.phisOf b ++ (P.phis.ofBlock b).map (·.2) ++
    (pre.dropWhile f.isPhi).filter fun id => !P.drops id

theorem Promoted.instsOf (hp : P.Promoted g ρ) (hb : f.containsBlock b = true) :
    g.instsOf b = P.upTo b (f.instsOf b) := by
  obtain ⟨data, hdata⟩ := containsBlock_iff.1 hb
  rw [upTo, phisOf, Func.instsOf_eq hdata, Func.instsOf, hp.block b, hdata]
  rfl

theorem Promoted.mem_instsOf (hp : P.Promoted g ρ) (hj : j ∈ f.instsOf b) (hkeep : P.drops j = false) :
    j ∈ g.instsOf b := by
  obtain ⟨data, hdata, _⟩ := exists_block_of_mem hj
  rw [hp.instsOf (containsBlock_iff.2 ⟨data, hdata⟩), upTo, phisOf]
  rw [← List.takeWhile_append_dropWhile (p := f.isPhi) (l := f.instsOf b)] at hj
  rcases List.mem_append.1 hj with hj | hj
  · exact List.mem_append_left _ (List.mem_append_left _ hj)
  · exact List.mem_append_right _ (List.mem_filter.2 ⟨hj, by rw [hkeep]; rfl⟩)

theorem Promoted.phi_mem (hp : P.Promoted g ρ) (h : P.Sound) {p : InstId}
    (hphi : (n, p) ∈ P.phis.ofBlock b) : p ∈ g.instsOf b := by
  have hlive : P.placed.containsBlock b = true :=
    h.consistent_placed.live p b (h.instBlock_phi hphi)
  obtain ⟨data', hdata'⟩ := containsBlock_iff.1 hlive
  rw [h.placed.block b] at hdata'
  obtain ⟨data, hdata, _⟩ := Option.map_eq_some_iff.1 hdata'
  rw [hp.instsOf (containsBlock_iff.2 ⟨data, hdata⟩), upTo]
  exact List.mem_append_left _ (List.mem_append_right _ (List.mem_map.2 ⟨(n, p), hphi, rfl⟩))

/-- What is there at a place and stays is available at the same place of the promoted function. -/
theorem Promoted.available (hp : P.Promoted g ρ) (h : P.Sound) (hv : P.Earlier b pre (.inst j))
    (hkeep : P.drops j = false) (hpre : pre <+: f.instsOf b) :
    g.Available b (P.upTo b pre) j := by
  have hdown : ∀ {c}, f.StrictlyDominates c b → j ∈ g.instsOf c → g.Available b (P.upTo b pre) j := by
    intro c hcb hj
    obtain ⟨data, hdata, hmem⟩ := exists_block_of_mem hj
    exact .inr ⟨c, data, hp.sameGraph.strictly.2 hcb, hdata, hmem⟩
  rcases hv with (hj | ⟨c, data, hcb, hdata, hj⟩) | ⟨c, n, hphi, hcb⟩
  · refine .inl ?_
    rw [← List.takeWhile_append_dropWhile (p := f.isPhi) (l := pre)] at hj
    rcases List.mem_append.1 hj with hphi | hrest
    · have hmem := hpre.subset ((List.takeWhile_prefix f.isPhi).subset hphi)
      have hhead := h.wellFormed.mem_phisOf hmem (of_mem_takeWhile hphi)
      exact List.mem_append_left _ (List.mem_append_left _ hhead)
    · exact List.mem_append_right _ (List.mem_filter.2 ⟨hrest, by rw [hkeep]; rfl⟩)
  · rw [← instsOf_eq hdata] at hj
    exact hdown hcb (hp.mem_instsOf hj hkeep)
  · by_cases hcb' : c = b
    · subst hcb'
      refine .inl (List.mem_append_left _ (List.mem_append_right _ ?_))
      exact List.mem_map.2 ⟨(n, j), hphi, rfl⟩
    · exact hdown ⟨hcb', hcb⟩ (hp.phi_mem h hphi)

/-! ### Kinds -/

/-- An instruction of the promoted function is one that was placed or one that has stayed. -/
theorem Promoted.mem_cases (hp : P.Promoted g ρ) (hid : id ∈ g.instsOf b) :
    (∃ n, (n, id) ∈ P.phis.ofBlock b) ∨ id ∈ f.instsOf b := by
  obtain ⟨data', hdata', hmem⟩ := exists_block_of_mem hid
  rw [hp.block b] at hdata'
  obtain ⟨data, hdata, rfl⟩ := Option.map_eq_some_iff.1 hdata'
  rw [instsOf_eq hdata]
  rcases List.mem_append.1 hmem with hmem | hmem
  · rcases List.mem_append.1 hmem with hmem | hmem
    · exact .inr ((List.takeWhile_prefix f.isPhi).subset hmem)
    · obtain ⟨⟨n, p⟩, hphi, rfl⟩ := List.mem_map.1 hmem
      exact .inl ⟨n, hphi⟩
  · exact .inr ((List.dropWhile_suffix f.isPhi).subset (List.mem_filter.1 hmem).1)

theorem Promoted.keep_of_mem (hp : P.Promoted g ρ) (h : P.Sound) (hid : id ∈ g.instsOf b) :
    P.drops id = false := by
  rw [(hp.consistent h).mem_instsOf, hp.instBlock id] at hid
  cases hdrop : P.drops id with
  | false => rfl
  | true =>
    rw [if_pos hdrop] at hid
    cases hid

/-- A phi of the promoted function knows the old values of an old phi or the slot's current ones. -/
theorem Promoted.phi_cases (hp : P.Promoted g ρ) (h : P.Sound) (hid : id ∈ g.instsOf b)
    {inc' : List (BlockId × Value)} {ty : Option Ty} (hi' : g.inst? id = some ⟨.phi inc', ty⟩) :
    (∃ n s t, (n, id) ∈ P.phis.ofBlock b ∧ P.slots[n]? = some (s, t) ∧ (inc'.map (·.1)).Nodup ∧
      ∀ q v, (q, v) ∈ inc' ↔ f.Reachable q ∧ f.Edge q b ∧ v = ρ (valueOf (P.out q) n)) ∨
    ∃ inc, id ∈ f.instsOf b ∧ f.inst? id = some ⟨.phi inc, ty⟩ ∧
      inc' = inc.map fun e => (e.1, ρ e.2) := by
  rcases hp.mem_cases hid with ⟨n, hphi⟩ | hold
  · obtain ⟨s, t, inc, hs, hi, hnodup, hinc⟩ := hp.phi b n id hphi
    rw [hi] at hi'
    cases hi'
    exact .inl ⟨n, s, t, hphi, hs, hnodup, hinc⟩
  · obtain ⟨⟨kind, o⟩, hi⟩ := h.wellFormed.consistent.inst?_of_mem hold
    rw [hp.inst b id _ hold (hp.keep_of_mem h hid) hi] at hi'
    cases kind with
    | phi inc =>
      cases hi'
      exact .inr ⟨inc, hold, hi, rfl⟩
    | _ => cases hi'

/-! ### Well-formedness -/

theorem Promoted.heads (hp : P.Promoted g ρ) (h : P.Sound)
    (hid : id ∈ (g.instsOf b).dropWhile g.isPhi) : g.isPhi id = false := by
  obtain ⟨_, hdata', _⟩ := exists_block_of_mem ((List.dropWhile_suffix g.isPhi).subset hid)
  rw [hp.instsOf (hp.sameGraph.containsBlock b ▸ containsBlock_iff.2 ⟨_, hdata'⟩), upTo,
    dropWhile_append_of_all (fun _ => hp.isPhi_head h)
      fun _ hi => hp.isPhi_behind h (List.mem_of_head? hi)] at hid
  exact hp.isPhi_behind h hid

theorem Promoted.hears (hp : P.Promoted g ρ) (h : P.Sound) (hid : id ∈ g.instsOf b)
    {inc' : List (BlockId × Value)} {ty : Option Ty} (hi' : g.inst? id = some ⟨.phi inc', ty⟩) :
    f.Hears b (inc'.map (·.1)) := by
  rcases hp.phi_cases h hid hi' with ⟨n, s, t, _, _, hnodup, hinc⟩ | ⟨inc, hold, hi, rfl⟩
  · refine ⟨fun q hq hedge => List.count_eq_one_of_mem hnodup ?_, fun q hq => ?_⟩
    · exact List.mem_map.2 ⟨(q, _), (hinc q _).2 ⟨hq, hedge, rfl⟩, rfl⟩
    · obtain ⟨e, he, rfl⟩ := List.mem_map.1 hq
      exact ((hinc e.1 e.2).1 he).2.1
  · rw [List.map_map]
    exact h.wellFormed.hears hold hi

/-- A renamed operand is available in the promoted function. -/
theorem Promoted.available_rename (hp : P.Promoted g ρ) (h : P.Sound) (hres : f.ReadsResults)
    (hb : f.Reachable b) (hpre : pre <+: f.instsOf b) (hv : P.Earlier b pre v)
    (hlast : P.Lasting v) (hj : ρ v = .inst j) : g.Available b (P.upTo b pre) j := by
  have hearlier := hp.earlier h hb hpre hv
  rw [hj] at hearlier
  exact hp.available h hearlier (hp.keep_rename h hres hlast hj) hpre

theorem Promoted.available_read (hp : P.Promoted g ρ) (h : P.Sound) (hres : f.ReadsResults)
    (hread : f.Reads (fun _ => false) b pre v) (hslot : ∀ j, v = .inst j → j ∉ P.slots.map (·.1))
    (hj : ρ v = .inst j) : g.Available b (P.upTo b pre) j := by
  refine hp.available_rename h hres hread.reachable hread.pre_prefix ?_
    (h.lasting_of_reads hres hread hslot) hj
  have hat := hread.atHand h.wellFormed
  cases v with
  | const k => trivial
  | arg k => trivial
  | inst i => exact .inl hat

/-- A split of a block of the promoted function at an instruction that is no phi is one of the old
block. -/
theorem Promoted.split_old (hp : P.Promoted g ρ) (h : P.Sound) (hid : id ∈ f.instsOf b)
    (hnot : f.isPhi id = false) {before after : List InstId}
    (hsplit : g.instsOf b = before ++ id :: after) :
    ∃ pre post, f.instsOf b = pre ++ id :: post ∧ before = P.upTo b pre := by
  obtain ⟨pre, post, hold⟩ := List.append_of_mem hid
  refine ⟨pre, post, hold, ?_⟩
  obtain ⟨data, hdata, _⟩ := exists_block_of_mem hid
  have hkeep := hp.keep_of_mem h (mem_of_split hsplit)
  have hkeep' : (!P.drops id) = true := by
    rw [hkeep]
    rfl
  have hdrop : (f.instsOf b).dropWhile f.isPhi = pre.dropWhile f.isPhi ++ id :: post := by
    rw [hold, List.dropWhile_append, List.dropWhile_cons_of_neg (by simp [hnot])]
    split
    · rename_i hempty
      rw [List.isEmpty_iff.1 hempty, List.nil_append]
    · rfl
  have hnew : g.instsOf b = P.upTo b pre ++ id :: post.filter fun i => !P.drops i := by
    have hcons := List.filter_cons_of_pos (p := fun i => !P.drops i) (l := post) hkeep'
    rw [hp.instsOf (containsBlock_iff.2 ⟨data, hdata⟩), upTo, upTo, hdrop, List.filter_append, hcons,
      List.append_assoc, List.append_assoc, List.append_assoc]
  exact ((hp.consistent h).split_unique hsplit hnew).2

/-- What the promoted function reads is what a new phi hears or, renamed, what was read before. -/
theorem Promoted.reads_cases (hp : P.Promoted g ρ) (h : P.Sound) {pre' : List InstId} {w : Value}
    (hread : g.Reads (fun _ => false) b pre' w) :
    ∃ pre v, pre <+: f.instsOf b ∧ pre' = P.upTo b pre ∧ w = ρ v ∧
      ((∃ n s t, P.slots[n]? = some (s, t) ∧ pre = f.instsOf b ∧ v = valueOf (P.out b) n) ∨
        f.Reads (fun _ => false) b pre v ∧ ∀ j, v = .inst j → j ∉ P.slots.map (·.1)) := by
  have hb := hp.sameGraph.reachable.1 hread.reachable
  cases hread with
  | @inst _ _ post id k _ _ hsplit _ hk hkphi hw =>
    have hid := mem_of_split hsplit
    have hkeep := hp.keep_of_mem h hid
    rcases hp.mem_cases hid with ⟨n, hphi⟩ | hold
    · have hnew := hp.isPhi_new hphi
      rw [isPhi_inst hk, hkphi] at hnew
      cases hnew
    · obtain ⟨i, hi⟩ := h.wellFormed.consistent.inst?_of_mem hold
      rw [hp.inst b id i hold hkeep hi] at hk
      cases hk
      rw [Kind.isPhi_mapOperands] at hkphi
      rw [Kind.operands_mapOperands] at hw
      obtain ⟨v, hv, rfl⟩ := List.mem_map.1 hw
      obtain ⟨pre, post, hsplit', rfl⟩ := hp.split_old h hold ((isPhi_inst hi).trans hkphi) hsplit
      refine ⟨pre, v, prefix_of_split hsplit', rfl, rfl,
        .inr ⟨.inst hb hsplit' rfl hi hkphi hv, ?_⟩⟩
      rintro i' rfl
      exact h.operand_notMem hold hkeep hi hv
  | phi hc hid _ hi' he _ =>
    refine ⟨f.instsOf b, ?_⟩
    rw [hp.instsOf hb.live]
    rcases hp.phi_cases h hid hi' with ⟨n, s, t, _, hs, _, hinc⟩ | ⟨inc, hold, hi, rfl⟩
    · obtain ⟨_, _, rfl⟩ := (hinc b _).1 he
      exact ⟨_, List.prefix_refl _, rfl, rfl, .inl ⟨n, s, t, hs, rfl, rfl⟩⟩
    · obtain ⟨⟨q, v⟩, he', heq⟩ := List.mem_map.1 he
      rw [Prod.mk.injEq] at heq
      obtain ⟨rfl, rfl⟩ := heq
      refine ⟨v, List.prefix_refl _, rfl, rfl,
        .inr ⟨.phi (hp.sameGraph.reachable.1 hc) hold rfl hi he' hb, ?_⟩⟩
      rintro i rfl
      exact h.operand_notMem hold (hp.keep_of_mem h hid) hi (List.mem_map.2 ⟨_, he', rfl⟩)
  | term _ hdata' hw =>
    rw [hp.instsOf hb.live]
    rw [hp.block b] at hdata'
    obtain ⟨data, hdata, rfl⟩ := Option.map_eq_some_iff.1 hdata'
    rw [Terminator.operands_mapOperands] at hw
    obtain ⟨v, hv, rfl⟩ := List.mem_map.1 hw
    refine ⟨_, v, List.prefix_refl _, rfl, rfl, .inr ⟨.term hb hdata hv, ?_⟩⟩
    rintro i rfl hslot
    obtain ⟨n, ty, hs⟩ := mem_slots.1 hslot
    exact (h.slot n i ty hs).terms b data hdata hv

/-- If reachable code reads no store, promotion keeps SSA form. -/
theorem Promoted.wellFormed (hp : P.Promoted g ρ) (h : P.Sound) (hres : f.ReadsResults) :
    g.WellFormed := by
  refine hp.sameGraph.wellFormed h.wellFormed (hp.consistent h) (fun b id => hp.heads h)
    (fun b id inc ty hid => hp.hears h hid) fun b pre' j hread => ?_
  have hb := hp.sameGraph.reachable.1 hread.reachable
  obtain ⟨pre, v, hpre, rfl, hj, ⟨n, s, t, hs, rfl, rfl⟩ | ⟨hold, hslot⟩⟩ := hp.reads_cases h hread
  · have hsource := h.source_current hs hb hpre
    exact hp.available_rename h hres hb hpre (h.earlier_of_source hb hsource)
      (h.lasting_of_source hres hb hsource) hj.symm
  · exact hp.available_read h hres hold hslot hj.symm

end Promotion

namespace Func

variable {f : Func}

theorem promoteAllocas_wellFormed (hwf : f.WellFormed) (hres : f.ReadsResults)
    {allocas : List InstId} (hnodup : allocas.Nodup)
    (halloca : ∀ s ∈ allocas, ∃ size o, f.inst? s = some ⟨.alloca size, o⟩) :
    ∃ g k, f.promoteAllocas allocas = .ok (g, k) ∧ g.WellFormed := by
  obtain ⟨g, k, hpromote, hcases⟩ := promoteAllocas_spec hwf hnodup halloca
  refine ⟨g, k, hpromote, ?_⟩
  rcases hcases with rfl | ⟨P, ρ, h, hp⟩
  · exact hwf
  · exact hp.wellFormed h hres

theorem promoteSlots_wellFormed (hwf : f.WellFormed) (hres : f.ReadsResults) :
    ∃ g changed, f.promoteSlots = .ok (g, changed) ∧ g.WellFormed := by
  obtain ⟨allocas, hfilter, hnodup, halloca⟩ := hwf.consistent.allocas
  obtain ⟨g, k, hpromote, hg⟩ := promoteAllocas_wellFormed hwf hres hnodup halloca
  refine ⟨g, decide (k > 0), ?_, hg⟩
  unfold promoteSlots
  rw [hfilter]
  simp only [bind, Except.bind, hpromote]
  rfl

end Func

end BinaryLift
