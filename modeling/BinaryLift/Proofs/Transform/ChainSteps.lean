import BinaryLift.Proofs.Transform.GraphSteps

/-!
# The steps that shorten chains

A block joins its only predecessor: its phis, which receive one value, go first, then its instructions
move. And a block that only jumps on is led past by all its predecessors.
-/

namespace BinaryLift.Func

variable {f g : Func} {b q target pred : BlockId} {data : Block} {id : InstId}

namespace Joins

theorem strictly (h : f.Joins pred b) : f.StrictlyDominates pred b :=
  strictly_of_sole h.ne h.ne_entry h.sole

theorem edge (h : f.Joins pred b) : f.Edge pred b := by
  obtain ⟨data, hdata, hterm⟩ := h.jumps
  exact ⟨data, hdata, by rw [hterm]; exact List.mem_singleton_self _, h.live⟩

/-- What is at hand at the end of the predecessor is there when the block is entered. -/
theorem atHand (h : f.Joins pred b) (hb : f.Reachable b) {v : Value}
    (hv : f.AtHand pred (f.instsOf pred) v) : f.AtHand b [] v := by
  cases v with
  | const c => trivial
  | arg n => trivial
  | inst j =>
    rcases hv with hj | ⟨a, data, hdom, hdata, hj⟩
    · obtain ⟨data, hdata, hmem⟩ := exists_block_of_mem hj
      exact .inr ⟨pred, data, h.strictly, hdata, hmem⟩
    · exact .inr ⟨a, data, hdom.trans_dominates hb h.strictly.2, hdata, hj⟩

/-- A phi of the block receives one value. -/
theorem incoming (h : f.Joins pred b) (hwf : f.WellFormed) (hid : id ∈ f.instsOf b)
    {inc : List (BlockId × Value)} {ty : Option Ty} (hi : f.inst? id = some ⟨.phi inc, ty⟩)
    (hpred : f.Reachable pred) : ∃ v, inc = [(pred, v)] := by
  obtain ⟨data, hdata, hmem⟩ := exists_block_of_mem hid
  obtain ⟨hcount, hedges⟩ := hwf.incoming b data id inc ty hdata hmem hi
  have hone := hcount pred hpred h.edge
  have hall : ∀ q ∈ inc.map (·.1), pred = q := by
    intro q hq
    obtain ⟨e, he, rfl⟩ := List.mem_map.1 hq
    exact (h.sole e.1 (hedges e he)).symm
  rw [List.count_eq_length.2 hall, List.length_map, List.length_eq_one_iff] at hone
  obtain ⟨⟨q, v⟩, rfl⟩ := hone
  have hq := hall q (by simp)
  rw [hq]
  exact ⟨v, rfl⟩

theorem passesOn (h : f.Joins pred b) (hwf : f.WellFormed) (hid : id ∈ f.instsOf b)
    {inc : List (BlockId × Value)} {ty : Option Ty} (hi : f.inst? id = some ⟨.phi inc, ty⟩)
    {v : Value} (hv : ∀ e ∈ inc.head?, e.2 = v) : f.PassesOn b id inc ty v where
  mem := hid
  inst := hi
  atHand := by
    intro hb
    have hpred := h.strictly.2.reachable hb
    obtain ⟨u, rfl⟩ := h.incoming hwf hid hi hpred
    have heq : u = v := hv (pred, u) rfl
    subst heq
    exact h.atHand hb (hwf.phiUse hb hid hi List.mem_cons_self hpred)
  sources := by
    intro q u he hq
    obtain ⟨data, hdata, hmem⟩ := exists_block_of_mem hid
    have hqp := h.sole q ((hwf.incoming b data id inc ty hdata hmem hi).2 (q, u) he)
    rw [hqp] at hq
    obtain ⟨w, rfl⟩ := h.incoming hwf hid hi hq
    have heq : w = v := hv (pred, w) rfl
    rw [List.mem_singleton, Prod.mk.injEq] at he
    exact .inl (he.2.trans heq)
  source := by
    intro hb
    have hpred := h.strictly.2.reachable hb
    obtain ⟨u, rfl⟩ := h.incoming hwf hid hi hpred
    rw [← hv (pred, u) rfl]
    exact ⟨pred, hpred, List.mem_cons_self⟩

end Joins

/-! ### Phis go first -/

theorem dissolvePhi_spec (hwf : f.WellFormed) (hj : f.Joins pred b) (hid : id ∈ f.instsOf b)
    (hphi : f.isPhi id = true) :
    ∃ g ρ, f.dissolvePhi id = .ok g ∧ f.Substituted (fun j => decide (j = id)) ρ g ∧ f.Keeps g := by
  obtain ⟨inc, ty, hi⟩ := isPhi_eq_true hphi
  obtain ⟨v, hv⟩ : ∃ v, v = (inc.head?.map (·.2)).getD (.inst id) := ⟨_, rfl⟩
  obtain ⟨g, hg, hsub⟩ := replace_spec hwf.consistent id v
  have hhead : ∀ e ∈ inc.head?, e.2 = v := by
    intro e he
    rw [hv, Option.mem_def.1 he]
    rfl
  have hpass := hj.passesOn hwf hid hi hhead
  exact ⟨g, replaceResult id v, by rw [dissolvePhi_eq hi, ← hv, hg], hsub, hpass.keeps hwf hsub⟩

theorem phisOf_substituted {ρ : Value → Value} (hwf : f.WellFormed) {ids : List InstId}
    (hphis : f.phisOf b = id :: ids) (hsub : f.Substituted (fun j => decide (j = id)) ρ g) :
    g.phisOf b = ids := by
  have hsplit : f.instsOf b = id :: (ids ++ (f.instsOf b).dropWhile f.isPhi) := by
    rw [← List.cons_append, ← hphis, phisOf, List.takeWhile_append_dropWhile]
  have hnodup := hwf.consistent.nodup_instsOf b
  rw [hsplit, List.nodup_cons] at hnodup
  have hinsts : g.instsOf b = ids ++ (f.instsOf b).dropWhile f.isPhi := by
    rw [hsub.instsOf b, hsplit, List.filter_cons_of_neg (by simp)]
    rw [← hsplit]
    refine List.filter_eq_self.2 fun j hj => ?_
    simp only [Bool.not_eq_eq_eq_not, Bool.not_true, decide_eq_false_iff_not]
    rintro rfl
    exact hnodup.1 hj
  have hmem : ∀ j ∈ ids ++ (f.instsOf b).dropWhile f.isPhi, j ∈ f.instsOf b := by
    intro j hj
    rw [hsplit]
    exact List.mem_cons_of_mem _ hj
  rw [phisOf, hinsts]
  refine takeWhile_append_of_all (fun j hj => ?_) fun j hj => ?_
  · rw [hsub.isPhi hwf.consistent (hmem j (List.mem_append_left _ hj))]
    refine of_mem_takeWhile (l := f.instsOf b) ?_
    show j ∈ f.phisOf b
    rw [hphis]
    exact List.mem_cons_of_mem _ hj
  · rw [hsub.isPhi hwf.consistent (hmem j (List.mem_append_right _ (List.mem_of_head? hj)))]
    exact head_dropWhile hj

theorem dissolvePhis_spec (ids : List InstId) :
    ∀ {f : Func}, f.WellFormed → f.Joins pred b → f.phisOf b = ids →
      ∃ g, ids.foldlM dissolvePhi f = .ok g ∧ f.Keeps g ∧ g.Joins pred b ∧ g.phisOf b = [] ∧
        (∀ x, g.containsBlock x = f.containsBlock x) ∧ ∀ x, g.load x = f.load x := by
  induction ids with
  | nil =>
    intro f hwf hj hphis
    exact ⟨f, rfl, .refl hwf, hj, hphis, fun _ => rfl, fun _ => rfl⟩
  | cons id ids ih =>
    intro f hwf hj hphis
    have hmem : id ∈ f.phisOf b := by
      rw [hphis]
      exact List.mem_cons_self
    obtain ⟨h, ρ, hh, hsub, hkeeps⟩ := dissolvePhi_spec hwf hj ((f.phisOf_prefix b).subset hmem)
      (of_mem_takeWhile hmem)
    obtain ⟨g, hg, hkeeps', hj', hphis', hlive, hload⟩ := ih hkeeps.wellFormed (hsub.sameGraph.joins hj)
      (phisOf_substituted hwf hphis hsub)
    refine ⟨g, by rw [List.foldlM_cons, hh]; exact hg, hkeeps.trans hkeeps', hj', hphis',
      fun x => ?_, fun x => ?_⟩
    · rw [hlive, hsub.containsBlock]
    · rw [hload, hsub.sameGraph.load]

/-! ### Then the block -/

theorem movedTo_movedTo (hne : pred ≠ b) (x : BlockId) :
    movedTo pred b (movedTo pred b x) = movedTo pred b x := by
  by_cases hx : x = b
  · simp [movedTo, hx, hne]
  · simp [movedTo, hx]

/-- The phis of several blocks receive from `pred` what they received from `b`. -/
theorem foldlM_renamePhiPred (hne : pred ≠ b) (ss : List BlockId) :
    ∀ {f : Func}, (∀ s ∈ ss, f.containsBlock s = true ∧ f.Headed s) →
      ∃ g κ, ss.foldlM (fun f s => f.renamePhiPred s b pred) f = .ok g ∧ f.Relabeled g κ ∧
        ∀ s inc, κ s inc =
          if s ∈ ss then inc.map fun e => (movedTo pred b e.1, e.2) else inc := by
  induction ss with
  | nil =>
    intro f _
    exact ⟨f, _, rfl, .refl f, fun s inc => by simp⟩
  | cons x ss ih =>
    intro f hss
    obtain ⟨hlive, hheaded⟩ := hss x List.mem_cons_self
    obtain ⟨h, hh, hrel⟩ := renamePhiPred_spec hheaded hlive b pred
    obtain ⟨g, κ, hg, hrel', hκ⟩ := ih (f := h) fun s hs => by
      obtain ⟨hslive, hsheaded⟩ := hss s (List.mem_cons_of_mem _ hs)
      exact ⟨by rw [hrel.containsBlock]; exact hslive, hrel.headed hsheaded⟩
    refine ⟨g, _, by rw [List.foldlM_cons, hh]; exact hg, hrel.trans hrel', fun s inc => ?_⟩
    rw [hκ s]
    by_cases hsx : s = x
    · subst hsx
      have hfirst : onBlock s (fun inc : Incomings =>
          inc.map fun e => (if e.1 = b then pred else e.1, e.2)) s inc =
          inc.map fun e => (movedTo pred b e.1, e.2) := by
        rw [onBlock, if_pos rfl]
        rfl
      rw [hfirst, if_pos List.mem_cons_self]
      split
      · rw [List.map_map]
        refine List.map_congr_left fun e _ => ?_
        simp only [Function.comp_def, movedTo_movedTo hne]
      · rfl
    · have hfirst : onBlock x (fun inc : Incomings =>
          inc.map fun e => (if e.1 = b then pred else e.1, e.2)) s inc = inc := by
        rw [onBlock, if_neg hsx]
      rw [hfirst]
      by_cases hs : s ∈ ss <;> simp [hs, hsx]

/-- The block `b` is gone, and its instructions stand in the arena as ones of `pred`. -/
structure Vacated (f g : Func) (pred b : BlockId) : Prop where
  params : g.params = f.params
  entry : g.entry = f.entry
  block : ∀ x, g.block? x = if x = b then none else f.block? x
  inst : ∀ id, g.inst? id = f.inst? id
  home : ∀ id, g.instBlock id = (f.instBlock id).map (movedTo pred b)

theorem vacated_of_place (hc : f.Consistent) {data : Block} (hdata : f.block? b = some data)
    (pred : BlockId) :
    f.Vacated (data.insts.foldl (fun f id => f.place id (some pred)) (f.putBlock b none)) pred b := by
  obtain ⟨hparams, hentry, hblocks, hinst, hinstBlock⟩ :=
    foldl_place data.insts (some pred) (f.putBlock b none)
  refine ⟨hparams, hentry, fun x => ?_, hinst, fun id => ?_⟩
  · rw [← block?_putBlock f b x none (index_lt_of_block? hdata), block?, block?, hblocks]
  rw [hinstBlock id]
  by_cases hid : id ∈ data.insts
  · obtain ⟨i, hi⟩ := hc.inst? hdata hid
    have hi' : ((f.putBlock b none).inst? id).isSome = true := by
      rw [show (f.putBlock b none).inst? id = f.inst? id from rfl, hi]
      rfl
    rw [if_pos ⟨hid, hi'⟩, (hc.mem_iff b data hdata id).1 hid]
    exact congrArg some (if_pos rfl).symm
  · rw [if_neg fun h => hid h.1]
    show f.instBlock id = (f.instBlock id).map (movedTo pred b)
    cases hx : f.instBlock id with
    | none => rfl
    | some x =>
      have hxb : x ≠ b := by
        rintro rfl
        exact hid ((hc.mem_iff _ data hdata id).2 hx)
      exact congrArg some (if_neg hxb).symm

namespace Vacated

variable (h : f.Vacated g pred b) {x : BlockId}

include h

theorem isPhi (id : InstId) : g.isPhi id = f.isPhi id := by
  rw [Func.isPhi, Func.isPhi, h.inst id]

theorem containsBlock : g.containsBlock x = true ↔ x ≠ b ∧ f.containsBlock x = true := by
  rw [Func.containsBlock, Func.containsBlock, h.block x]
  by_cases hx : x = b <;> simp [hx]

theorem phisOf (hx : x ≠ b) : g.phisOf x = f.phisOf x := by
  rw [Func.phisOf, Func.phisOf, funext h.isPhi, instsOf, instsOf, h.block x, if_neg hx]

/-- The blocks that are left begin with their phis as before, where the one that is gone had none. -/
theorem headed (hwf : f.WellFormed) (hnone : ∀ id ∈ f.instsOf b, f.isPhi id = false) (hx : x ≠ b) :
    g.Headed x := by
  have hf := hwf.headed x
  refine ⟨h.phisOf hx ▸ hf.nodup, fun id hid => ?_, fun id hid hphi => ?_⟩
  · rw [h.phisOf hx] at hid
    rw [h.home id, hf.mem id hid]
    exact congrArg some (if_neg hx)
  · rw [h.home id] at hid
    rw [h.isPhi] at hphi
    rw [h.phisOf hx]
    obtain ⟨y, hy, hyx⟩ := Option.map_eq_some_iff.1 hid
    have hyb : y ≠ b := by
      rintro rfl
      rw [hnone id (hwf.consistent.mem_instsOf.2 hy)] at hphi
      cases hphi
    rw [movedTo, if_neg hyb] at hyx
    exact hf.phi id (hyx ▸ hy) hphi

end Vacated

theorem isPhi_of_no_phis (hwf : f.WellFormed) (hphis : f.phisOf b = []) (hid : id ∈ f.instsOf b) :
    f.isPhi id = false := by
  cases hphi : f.isPhi id with
  | false => rfl
  | true =>
    have hmem := hwf.mem_phisOf hid hphi
    rw [hphis] at hmem
    cases hmem

/-- All phis have followed: from the block that has gone nothing comes to those in other blocks than
its terminator leads to. -/
theorem incoming_followed {κ : BlockId → Incomings → Incomings} {bdata : Block} {x : BlockId}
    {inc : Incomings} {o : Option Ty} {live : BlockId → Bool} (hwf : f.WellFormed)
    (hbdata : f.block? b = some bdata)
    (hid : id ∈ f.instsOf x) (hi : f.inst? id = some ⟨.phi inc, o⟩)
    (hlive : f.containsBlock x = true → live x = true)
    (hκ : ∀ s inc, κ s inc = if s ∈ bdata.term.successors.filter live then
      inc.map fun e => (movedTo pred b e.1, e.2) else inc) :
    κ x inc = inc.map fun e => (movedTo pred b e.1, e.2) := by
  obtain ⟨xdata, hxdata, hmem⟩ := exists_block_of_mem hid
  have hedges := (hwf.incoming x xdata id inc o hxdata hmem hi).2
  rw [hκ]
  split
  · rfl
  · rename_i hnot
    refine (List.map_id _).symm.trans (List.map_congr_left fun e he => ?_)
    have heb : e.1 ≠ b := by
      intro heq
      obtain ⟨data', hdata', hsucc, hxlive⟩ := hedges e he
      rw [heq, hbdata] at hdata'
      cases hdata'
      exact hnot (List.mem_filter.2 ⟨hsucc, hlive hxlive⟩)
    rw [movedTo, if_neg heb]
    rfl

theorem mergeBlocks_spec (hwf : f.WellFormed) (hj : f.Joins pred b) (hphis : f.phisOf b = []) :
    ∃ g pdata bdata, f.mergeBlocks pred b = .ok g ∧ f.Merged g pred b pdata bdata := by
  have hc := hwf.consistent
  obtain ⟨pdata, hpdata, hjumps⟩ := hj.jumps
  obtain ⟨bdata, hbdata⟩ := containsBlock_iff.1 hj.live
  have hnone : ∀ id ∈ f.instsOf b, f.isPhi id = false := fun _ hid => isPhi_of_no_phis hwf hphis hid
  -- first the instructions move in the arena
  obtain ⟨moved, hmoved⟩ : ∃ moved, moved =
      bdata.insts.foldl (fun f id => f.place id (some pred)) (f.putBlock b none) := ⟨_, rfl⟩
  have hv : f.Vacated moved pred b := hmoved ▸ vacated_of_place hc hbdata pred
  -- then the phis of the successors follow
  obtain ⟨renamed, κ, hrenamed, hrel, hκ⟩ := foldlM_renamePhiPred hj.ne
    (bdata.term.successors.filter moved.containsBlock) (f := moved) fun s hs =>
      ⟨(List.mem_filter.1 hs).2, hv.headed hwf hnone (hv.containsBlock.1 (List.mem_filter.1 hs).2).1⟩
  have hpdata' : renamed.block? pred = some pdata := by
    rw [hrel.block?, hv.block pred, if_neg hj.ne, hpdata]
  obtain ⟨g, hg⟩ : ∃ g, g = renamed.putBlock pred
      (some { pdata with insts := pdata.insts ++ bdata.insts, term := bdata.term }) := ⟨_, rfl⟩
  have hinst : ∀ id, g.inst? id = renamed.inst? id := by
    intro id
    rw [hg]
    rfl
  refine ⟨g, pdata, bdata, ?_, ?_⟩
  · unfold mergeBlocks
    rw [if_neg (by simp [hj.ne, hj.ne_entry]), hbdata]
    simp only [← hmoved, bind, Except.bind, hrenamed]
    exact modifyBlock_eq_ok.2 ⟨pdata, hpdata', hg⟩
  · refine ⟨?_, ?_, ?_, hj.ne, hj.ne_entry, hpdata, hjumps, hbdata, hj.sole,
      fun id hid => hnone id (instsOf_eq hbdata ▸ hid), ?_, ?_, ?_⟩
    · rw [hg]
      exact hrel.params.trans hv.params
    · rw [hg]
      exact hrel.entry.trans hv.entry
    · intro id
      rw [hinst, hrel.ty id, hv.inst id]
    · intro x
      rw [hg, block?_putBlock renamed pred x _ (index_lt_of_block? hpdata'), hrel.block?, hv.block x]
      by_cases hxb : x = b
      · rw [if_pos hxb, if_pos hxb, if_neg]
        rintro rfl
        exact hj.ne hxb
      · rw [if_neg hxb, if_neg hxb]
    · intro id
      rw [← hv.home id, ← hrel.instBlock id, hg]
      rfl
    · intro x id i hid hi
      have hx : moved.instBlock id = some (movedTo pred b x) := by
        rw [hv.home id, hc.mem_instsOf.1 hid]
        rfl
      rw [hinst, hrel.inst? id, hv.inst id, hi, hx]
      obtain ⟨kind, o⟩ := i
      cases kind with
      | phi inc =>
        have hxb : x ≠ b := by
          rintro rfl
          have hphi := hnone id hid
          rw [isPhi_inst hi] at hphi
          cases hphi
        have hfollow := incoming_followed hwf hbdata hid hi
          (fun hlive => hv.containsBlock.2 ⟨hxb, hlive⟩) hκ
        simp only [Option.map_some, Option.elim_some, Kind.mapIncoming, movedTo, if_neg hxb] at hfollow ⊢
        rw [hfollow]
      | _ => rfl

/-- A block is gone, and its terminator stands where a jump to it stood. -/
structure Joined (f g : Func) (pred b : BlockId) : Prop where
  keeps : f.Keeps g
  ne : pred ≠ b
  live : f.containsBlock pred = true ∧ f.containsBlock b = true
  live' : ∀ x, g.containsBlock x = true → f.containsBlock x = true
  gone : g.load b = 0
  jump : f.load pred = 1
  moved : g.load pred = f.load b
  others : ∀ x, x ≠ pred → x ≠ b → g.load x = f.load x

theorem Merged.joined {pdata bdata : Block} (h : f.Merged g pred b pdata bdata) (hwf : f.WellFormed) :
    f.Joined g pred b where
  keeps := h.keeps hwf
  ne := h.ne
  live := ⟨containsBlock_iff.2 ⟨pdata, h.into⟩, containsBlock_iff.2 ⟨bdata, h.source⟩⟩
  live' := by
    intro x hx
    have hxb : x ≠ b := by
      rintro rfl
      rw [Func.containsBlock, h.block, if_pos rfl] at hx
      cases hx
    rwa [h.containsBlock hxb] at hx
  gone := by
    rw [load, h.block, if_pos rfl]
    rfl
  jump := by
    rw [load_eq h.into, h.jumps]
    rfl
  moved := by rw [load_eq h.block_pred, load_eq h.source]
  others := by
    intro x hp hb
    rw [load, load, h.block_other hb hp]

theorem Joined.of_same {h : Func} (hfg : f.Keeps g)
    (hlive : ∀ x, g.containsBlock x = f.containsBlock x) (hload : ∀ x, g.load x = f.load x)
    (hj : g.Joined h pred b) : f.Joined h pred b where
  keeps := hfg.trans hj.keeps
  ne := hj.ne
  live := by
    rw [← hlive, ← hlive]
    exact hj.live
  live' := by
    intro x hx
    rw [← hlive]
    exact hj.live' x hx
  gone := hj.gone
  jump := (hload pred).symm.trans hj.jump
  moved := hj.moved.trans (hload b)
  others := fun x hp hb => (hj.others x hp hb).trans (hload x)

theorem mergeChain_spec (hwf : f.WellFormed) (b : BlockId) :
    ∃ g changed, f.mergeChain b = .ok (g, changed) ∧
      ((changed = false ∧ g = f) ∨ changed = true ∧ ∃ pred, f.Joined g pred b) := by
  obtain ⟨o, ho, hjoins⟩ := soleJumper?_spec f b
  unfold mergeChain
  rw [ho]
  cases o with
  | none => exact ⟨f, false, rfl, .inl ⟨rfl, rfl⟩⟩
  | some pred =>
    have hj := hjoins pred rfl
    obtain ⟨h, hh, hkeeps, hj', hphis, hlive, hload⟩ := dissolvePhis_spec (f.phisOf b) hwf hj rfl
    obtain ⟨g, pdata, bdata, hg, hmerged⟩ := mergeBlocks_spec hkeeps.wellFormed hj' hphis
    refine ⟨g, true, ?_, .inr ⟨rfl, pred, ?_⟩⟩
    · simp only [bind, Except.bind, phis_eq hj.live, hh, hg]
      rfl
    · exact (hmerged.joined hkeeps.wellFormed).of_same hkeeps hlive hload

/-! ### Blocks that are led past -/

theorem forwardsTo?_spec (hf : f.Routed) (b : BlockId) :
    ∃ o, f.forwardsTo? b = .ok o ∧ ∀ target, o = some target →
      f.entry ≠ some b ∧ target ≠ b ∧ f.phisOf target = [] ∧
        ∃ address, f.block? b = some ⟨address, [], .jump target⟩ := by
  unfold forwardsTo?
  by_cases hout : (!f.containsBlock b || f.entry == some b) = true
  · rw [if_pos hout]
    exact ⟨none, rfl, fun _ h => nomatch h⟩
  rw [if_neg hout]
  obtain ⟨hlive, hentry⟩ : f.containsBlock b = true ∧ f.entry ≠ some b := by simpa using hout
  obtain ⟨data, hdata⟩ := containsBlock_iff.1 hlive
  rw [block_eq_ok.2 hdata]
  simp only [bind, Except.bind]
  cases hterm : data.term with
  | jump target =>
    have htarget : f.containsBlock target = true := by
      refine hf.targets b data hdata target ?_
      rw [hterm]
      exact List.mem_singleton_self _
    by_cases hstays : (!data.insts.isEmpty || target == b) = true
    · simp only [hstays, if_true]
      exact ⟨none, rfl, fun _ h => nomatch h⟩
    · obtain ⟨hempty, hne⟩ : data.insts = [] ∧ target ≠ b := by simpa using hstays
      simp only [hstays, phis_eq htarget]
      by_cases hphis : (f.phisOf target).isEmpty = true
      · refine ⟨some target, by simp only [hphis, if_true]; rfl, ?_⟩
        rintro _ ⟨rfl⟩
        refine ⟨hentry, hne, by simpa using hphis, data.address, ?_⟩
        obtain ⟨address, insts, term⟩ := data
        simp only at hempty hterm
        rw [hdata, hempty, hterm]
      · refine ⟨none, by simp only [hphis]; rfl, fun _ h => nomatch h⟩
  | branch v t e => exact ⟨none, rfl, fun _ h => nomatch h⟩
  | indirect v => exact ⟨none, rfl, fun _ h => nomatch h⟩
  | ret v => exact ⟨none, rfl, fun _ h => nomatch h⟩
  | unreachable => exact ⟨none, rfl, fun _ h => nomatch h⟩

theorem foldlM_modifyBlock (k : Block → Block) (hk : ∀ data, k (k data) = k data) (bs : List BlockId) :
    ∀ {f : Func}, (∀ b ∈ bs, f.containsBlock b = true) →
      ∃ g, bs.foldlM (fun f b => f.modifyBlock b k) f = .ok g ∧ g.params = f.params ∧
        g.entry = f.entry ∧ g.arena = f.arena ∧
        ∀ x, g.block? x = if x ∈ bs then (f.block? x).map k else f.block? x := by
  induction bs with
  | nil =>
    intro f _
    exact ⟨f, rfl, rfl, rfl, rfl, fun x => by simp⟩
  | cons b bs ih =>
    intro f hbs
    obtain ⟨data, hdata⟩ := containsBlock_iff.1 (hbs b List.mem_cons_self)
    have hfirst : f.modifyBlock b k = .ok (f.putBlock b (some (k data))) :=
      modifyBlock_eq_ok.2 ⟨data, hdata, rfl⟩
    have hblock := block?_of_modifyBlock hfirst
    obtain ⟨g, hg, hparams, hentry, harena, hrest⟩ := ih (f := f.putBlock b (some (k data))) (by
      intro c hc
      rw [containsBlock, hblock c]
      split
      · rw [hdata]
        rfl
      · exact hbs c (List.mem_cons_of_mem _ hc))
    refine ⟨g, by rw [List.foldlM_cons, hfirst]; exact hg, hparams, hentry, harena, fun x => ?_⟩
    rw [hrest x, hblock x]
    by_cases hxb : x = b
    · subst hxb
      rw [if_pos rfl, hdata, if_pos List.mem_cons_self]
      split
      · rw [Option.map_some, Option.map_some, hk]
      · rfl
    · by_cases hx : x ∈ bs <;> simp [hx, hxb]

theorem replaceSuccessor_of_notMem {t : Terminator} (h : b ∉ t.successors) (target : BlockId) :
    t.replaceSuccessor b target = t := by
  cases t with
  | jump c =>
    have hc : c ≠ b := fun heq => h (heq ▸ List.mem_singleton_self _)
    simp [Terminator.replaceSuccessor, hc]
  | branch v c d =>
    have hc : c ≠ b := fun heq => h (heq ▸ List.mem_cons_self)
    have hd : d ≠ b := fun heq => h (heq ▸ by simp [Terminator.successors])
    simp [Terminator.replaceSuccessor, hc, hd]
  | _ => rfl

theorem bypassForwarder_spec (hf : f.Routed) (b : BlockId) :
    ∃ g changed, f.bypassForwarder b = .ok (g, changed) ∧
      ((changed = false ∧ g = f) ∨ changed = true ∧ ∃ target, f.Bypassed g b target) := by
  obtain ⟨o, ho, hspec⟩ := forwardsTo?_spec hf b
  unfold bypassForwarder
  rw [ho]
  cases o with
  | none => exact ⟨f, false, rfl, .inl ⟨rfl, rfl⟩⟩
  | some target =>
    obtain ⟨hentry, hne, hphis, address, hb⟩ := hspec target rfl
    obtain ⟨preds, hpreds⟩ : ∃ preds, preds = (f.predsOf b).filter (· ≠ b) := ⟨_, rfl⟩
    have hidem : ∀ data : Block, ({ data with
        term := (data.term.replaceSuccessor b target).replaceSuccessor b target } : Block) =
        { data with term := data.term.replaceSuccessor b target } := by
      intro data
      rw [replaceSuccessor_of_notMem (b := b)]
      rw [Terminator.successors_replaceSuccessor]
      intro hmem
      obtain ⟨c, _, hc⟩ := List.mem_map.1 hmem
      split at hc
      · exact hne hc
      · contradiction
    obtain ⟨g, hg, hparams, hentry', harena, hblock⟩ := foldlM_modifyBlock
      (fun data => { data with term := data.term.replaceSuccessor b target }) hidem preds (f := f) (by
        intro p hp
        rw [hpreds] at hp
        obtain ⟨data, hdata, _⟩ := mem_predsOf.1 (List.mem_filter.1 hp).1
        exact containsBlock_iff.2 ⟨data, hdata⟩)
    have hbypassed : f.Bypassed g b target := by
      refine ⟨hparams, hentry', harena, hentry, hne, ⟨address, hb⟩, hphis, fun x => ?_⟩
      rw [hblock x]
      split
      · rfl
      · rename_i hx
        cases hdata : f.block? x with
        | none => rfl
        | some data =>
          have hnot : b ∉ data.term.successors := by
            intro hmem
            by_cases hxb : x = b
            · rw [hxb, hb] at hdata
              cases hdata
              exact hne (List.mem_singleton.1 hmem).symm
            · refine hx ?_
              rw [hpreds]
              exact List.mem_filter.2 ⟨mem_predsOf.2 ⟨data, hdata, hmem⟩, by simpa using hxb⟩
          rw [Option.map_some, replaceSuccessor_of_notMem hnot]
    refine ⟨g, !preds.isEmpty, ?_, ?_⟩
    · simp only [bind, Except.bind, ← hpreds, hg]
      rfl
    · cases hp : preds with
      | nil =>
        rw [hp] at hg
        cases hg
        exact .inl ⟨rfl, rfl⟩
      | cons p ps => exact .inr ⟨rfl, target, hbypassed⟩

end BinaryLift.Func
