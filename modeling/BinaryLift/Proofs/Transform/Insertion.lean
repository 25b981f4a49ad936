import BinaryLift.Proofs.Run.Reads

/-!
# A new instruction

An instruction that is no phi comes into a block behind its phis. If its operands are at hand there,
the function stays well formed, and whatever was at hand still is.
-/

namespace BinaryLift.Func

/-- The next instruction to be made. -/
def fresh (f : Func) : InstId := ⟨f.arena.size⟩

/-- The function `g` is `f` with a new instruction `i` between `pre` and `post` in block `b`. -/
structure Inserted (f : Func) (b : BlockId) (pre post : List InstId) (i : Inst) (g : Func) : Prop where
  params : g.params = f.params
  entry : g.entry = f.entry
  arena : g.arena = f.arena.push ⟨i, some b⟩
  live : f.containsBlock b = true
  split : f.instsOf b = pre ++ post
  phis : f.phisOf b <+: pre
  block : ∀ c, g.block? c = (f.block? c).map fun data =>
    if c = b then { data with insts := pre ++ f.fresh :: post } else data
  isPhi : i.kind.isPhi = false

variable {f g : Func} {a b c : BlockId} {pre post before after : List InstId} {i k : Inst}
  {id j : InstId} {data : Block} {v : Value}

theorem inst?_fresh_eq_none (f : Func) : f.inst? f.fresh = none := by
  rw [inst?, fresh, Array.getElem?_eq_none (Nat.le_refl _)]
  rfl

theorem ne_fresh_of_inst? (hi : f.inst? id = some i) : id ≠ f.fresh := by
  rintro rfl
  rw [f.inst?_fresh_eq_none] at hi
  cases hi

/-- An instruction can be put anywhere behind the phis of a block. -/
theorem insertInst_inserted {n : Nat} (hb : f.containsBlock b = true)
    (hsplit : f.instsOf b = pre ++ post) (hn : n = pre.length) (hphis : f.phisOf b <+: pre)
    (hphi : i.kind.isPhi = false) :
    ∃ g, f.insertInst b n i = .ok (g, f.fresh) ∧ f.Inserted b pre post i g := by
  subst hn
  obtain ⟨data, hdata⟩ := containsBlock_iff.1 hb
  rw [instsOf_eq hdata] at hsplit
  obtain ⟨g, hg, harena, hparams, hentry, hblock⟩ := insertInst_of_block pre.length i hdata
  refine ⟨g, hg, hparams, hentry, harena, hb, instsOf_eq hdata ▸ hsplit, hphis, fun c => ?_, hphi⟩
  rw [hblock c]
  have hle : pre.length ≤ (pre ++ post).length := by simp
  have hinsts : data.insts.insertIdx (min pre.length data.insts.length) ⟨f.arena.size⟩ =
      pre ++ f.fresh :: post := by
    rw [hsplit, Nat.min_eq_left hle, insertIdx_append, ← List.append_cons]
    rfl
  by_cases hc : c = b
  · subst hc
    rw [if_pos rfl, hdata, Option.map_some, if_pos rfl, hinsts]
  · simp only [if_neg hc, Option.map_id']

/-- An instruction can be put before any other that is no phi. -/
theorem insertBefore_inserted (hwf : f.WellFormed) (hsplit : f.instsOf b = before ++ id :: after)
    (hid : f.isPhi id = false) (hphi : i.kind.isPhi = false) :
    ∃ g, f.insertBefore id i = .ok (g, f.fresh) ∧ f.Inserted b before (id :: after) i g := by
  have hmem := mem_of_split hsplit
  obtain ⟨data, hdata, hinsts⟩ := exists_block_of_insts hsplit
  obtain ⟨g, hg, hins⟩ := insertInst_inserted (n := before.length)
    (containsBlock_iff.2 ⟨data, hdata⟩) hsplit rfl (phisOf_prefix_of_split hsplit hid) hphi
  refine ⟨g, ?_, hins⟩
  have hidx : data.insts.idxOf? id = some before.length := by
    rw [hinsts, List.idxOf?_eq_some_iff]
    refine ⟨by simp, by simp, fun k hk heq => (hwf.consistent.notMem_of_split hsplit).1 ?_⟩
    rw [List.getElem_append_left hk] at heq
    exact List.mem_of_getElem heq
  unfold insertBefore
  rw [hwf.consistent.mem_instsOf.1 hmem]
  simp only [block_eq_ok.2 hdata, bind, Except.bind, hidx, Option.getD_some]
  exact hg

namespace Inserted

theorem inst?_of_ne (h : f.Inserted b pre post i g) (hj : j ≠ f.fresh) : g.inst? j = f.inst? j := by
  rw [inst?_push h.arena, if_neg]
  exact fun heq => hj (index_inst_inj.1 heq)

theorem inst?_fresh (h : f.Inserted b pre post i g) : g.inst? f.fresh = some i := by
  rw [inst?_push h.arena, fresh, if_pos rfl]

theorem ne_fresh (hc : f.Consistent) (hj : j ∈ f.instsOf c) : j ≠ f.fresh := by
  rintro rfl
  obtain ⟨data, hdata, hmem⟩ := exists_block_of_mem hj
  exact Nat.lt_irrefl _ (hc.index_lt hdata hmem)

theorem inst?_old (h : f.Inserted b pre post i g) (hk : f.inst? j = some k) :
    g.inst? j = some k := (h.inst?_of_ne (ne_fresh_of_inst? hk)).trans hk

theorem inst?_of_mem (h : f.Inserted b pre post i g) (hc : f.Consistent) (hj : j ∈ f.instsOf c) :
    g.inst? j = f.inst? j := h.inst?_of_ne (ne_fresh hc hj)

theorem instBlock (h : f.Inserted b pre post i g) (j : InstId) :
    g.instBlock j = if j = f.fresh then some b else f.instBlock j := by
  rw [Func.instBlock, Func.instBlock, h.arena, Array.getElem?_push]
  by_cases hj : j = f.fresh
  · rw [if_pos hj, if_pos (by rw [hj]; rfl)]
    rfl
  · have hindex : j.index ≠ f.arena.size := fun heq => hj (index_inst_inj.1 heq)
    rw [if_neg hj, if_neg hindex]

theorem sameGraph (h : f.Inserted b pre post i g) : f.SameGraph g where
  entry := h.entry
  block := by
    intro c
    rw [h.block c, Option.map_map]
    congr 1
    funext data
    simp only [Function.comp]
    split <;> rfl

theorem instsOf (h : f.Inserted b pre post i g) (c : BlockId) :
    g.instsOf c = if c = b then pre ++ f.fresh :: post else f.instsOf c := by
  unfold Func.instsOf
  rw [h.block c, Option.map_map]
  by_cases hc : c = b
  · subst hc
    obtain ⟨data, hdata⟩ := containsBlock_iff.1 h.live
    simp only [hdata, Option.map_some, Function.comp, if_true, Option.getD_some]
  · simp only [if_neg hc, Function.comp_def]

theorem instsOf_self (h : f.Inserted b pre post i g) : g.instsOf b = pre ++ f.fresh :: post := by
  rw [h.instsOf b, if_pos rfl]

theorem mem_instsOf (h : f.Inserted b pre post i g) :
    j ∈ g.instsOf c ↔ (c = b ∧ j = f.fresh) ∨ j ∈ f.instsOf c := by
  rw [h.instsOf c]
  split
  · rename_i hcb
    subst hcb
    rw [h.split, List.mem_append, List.mem_cons, List.mem_append, or_left_comm]
    simp only [true_and]
  · rename_i hcb
    simp only [hcb, false_and, false_or]

theorem mem_fresh (h : f.Inserted b pre post i g) : f.fresh ∈ g.instsOf b :=
  h.mem_instsOf.2 (.inl ⟨rfl, rfl⟩)

theorem consistent (h : f.Inserted b pre post i g) (hc : f.Consistent) : g.Consistent where
  mem_iff := by
    intro c data hdata j
    rw [← instsOf_eq hdata, h.mem_instsOf, h.instBlock j, hc.mem_instsOf]
    by_cases hj : j = f.fresh
    · subst hj
      have hnone : ∀ a, f.instBlock f.fresh ≠ some a := fun a ha =>
        ne_fresh hc (hc.mem_instsOf.2 ha) rfl
      simp only [hnone, or_false, and_true, if_true, Option.some.injEq]
      exact eq_comm
    · simp only [hj, and_false, false_or, if_false]
  live := by
    intro j c hj
    rw [h.sameGraph.containsBlock]
    rw [h.instBlock j] at hj
    split at hj
    · cases hj
      exact h.live
    · exact hc.live j c hj
  nodup := by
    intro c data hdata
    rw [← instsOf_eq hdata, h.instsOf c]
    have hnodup := hc.nodup_instsOf c
    split
    · rename_i hcb
      subst hcb
      have hnew : f.fresh ∉ pre ++ post := fun hmem => ne_fresh hc (h.split ▸ hmem) rfl
      rw [h.split] at hnodup
      exact (List.perm_middle.nodup_iff).2 (List.nodup_cons.2 ⟨hnew, hnodup⟩)
    · exact hnodup

/-- Old instructions stand in the same order. -/
theorem split_of (h : f.Inserted b pre post i g) (hs : f.instsOf c = before ++ j :: after) :
    ∃ before' after', g.instsOf c = before' ++ j :: after' ∧ before ⊆ before' := by
  by_cases hcb : c = b
  · subst hcb
    have hfirst : before ++ j :: after = pre ++ post := hs.symm.trans h.split
    rcases List.append_eq_append_iff.1 hfirst with ⟨l, rfl, hl⟩ | ⟨l, rfl, rfl⟩
    · cases l with
      | nil =>
        rw [List.nil_append] at hl
        refine ⟨before ++ [f.fresh], after, ?_, List.subset_append_left _ _⟩
        rw [h.instsOf_self, ← hl, List.append_nil, List.append_cons]
      | cons x l =>
        cases hl
        refine ⟨before, l ++ f.fresh :: post, ?_, List.Subset.refl _⟩
        rw [h.instsOf_self]
        simp
    · refine ⟨pre ++ f.fresh :: l, after, ?_, ?_⟩
      · rw [h.instsOf_self]
        simp
      · exact fun x hx => by
          rcases List.mem_append.1 hx with hx | hx
          · exact List.mem_append_left _ hx
          · exact List.mem_append_right _ (List.mem_cons_of_mem _ hx)
  · exact ⟨before, after, by rw [h.instsOf c, if_neg hcb, hs], List.Subset.refl _⟩

theorem available (h : f.Inserted b pre post i g) (hj : f.Available c before j)
    (hsub : before ⊆ after) : g.Available c after j := by
  rcases hj with hj | ⟨a, data, hdom, hdata, hj⟩
  · exact .inl (hsub hj)
  · have hmem : j ∈ g.instsOf a := h.mem_instsOf.2 (.inr (instsOf_eq hdata ▸ hj))
    obtain ⟨data', hdata', hj'⟩ := exists_block_of_mem hmem
    exact .inr ⟨a, data', h.sameGraph.strictly.2 hdom, hdata', hj'⟩

theorem atHand (h : f.Inserted b pre post i g) (hv : f.AtHand c before v) (hsub : before ⊆ after) :
    g.AtHand c after v := by
  cases v with
  | const k => trivial
  | arg k => trivial
  | inst j => exact h.available hv hsub

theorem subset_instsOf (h : f.Inserted b pre post i g) (c : BlockId) : f.instsOf c ⊆ g.instsOf c :=
  fun _ hj => h.mem_instsOf.2 (.inr hj)

theorem phisOf_eq (h : f.Inserted b pre post i g) (hwf : f.WellFormed) (c : BlockId) :
    g.phisOf c = f.phisOf c ∧ ∀ j ∈ (g.instsOf c).dropWhile g.isPhi, g.isPhi j = false := by
  have hc := hwf.consistent
  have hold : ∀ {j}, j ∈ f.instsOf c → g.isPhi j = f.isPhi j := by
    intro j hj
    rw [Func.isPhi, Func.isPhi, h.inst?_of_mem hc hj]
  have hphis : ∀ j ∈ f.phisOf c, g.isPhi j = true := by
    intro j hj
    rw [hold ((f.phisOf_prefix c).subset hj)]
    exact of_mem_takeWhile hj
  have hnot : ∀ j ∈ (f.instsOf c).dropWhile f.isPhi, g.isPhi j = false := by
    intro j hj
    rw [hold ((List.dropWhile_suffix f.isPhi).subset hj)]
    exact hwf.isPhi_behind hj
  have hwhole := f.instsOf_eq_phisOf_append c
  -- the phis are followed by instructions that are none
  have hrest : ∃ rest, g.instsOf c = f.phisOf c ++ rest ∧ ∀ j ∈ rest, g.isPhi j = false := by
    by_cases hcb : c = b
    · subst hcb
      obtain ⟨r, hr⟩ := h.phis
      refine ⟨r ++ f.fresh :: post, by rw [h.instsOf_self, ← hr, List.append_assoc], ?_⟩
      have hdrop : (f.instsOf c).dropWhile f.isPhi = r ++ post := by
        have hsame : f.phisOf c ++ (f.instsOf c).dropWhile f.isPhi = f.phisOf c ++ (r ++ post) := by
          rw [← hwhole, h.split, ← List.append_assoc, hr]
        exact List.append_cancel_left hsame
      intro j hj
      rcases List.mem_append.1 hj with hj | hj
      · exact hnot j (hdrop ▸ List.mem_append_left _ hj)
      · rcases List.mem_cons.1 hj with rfl | hj
        · rw [isPhi_inst h.inst?_fresh]
          exact h.isPhi
        · exact hnot j (hdrop ▸ List.mem_append_right _ hj)
    · exact ⟨_, by rw [h.instsOf c, if_neg hcb]; exact hwhole, hnot⟩
  obtain ⟨rest, heq, hnotPhi⟩ := hrest
  have hhead : ∀ j, rest.head? = some j → g.isPhi j = false := fun j hj =>
    hnotPhi j (List.mem_of_head? hj)
  refine ⟨?_, ?_⟩
  · rw [Func.phisOf, heq, takeWhile_append_of_all hphis hhead]
  · rw [heq, dropWhile_append_of_all hphis hhead]
    exact hnotPhi

theorem inst_cases (h : f.Inserted b pre post i g) (hid : id ∈ g.instsOf c)
    (hk : g.inst? id = some k) :
    (id = f.fresh ∧ k = i) ∨ (id ∈ f.instsOf c ∧ f.inst? id = some k) := by
  by_cases hnew : id = f.fresh
  · subst hnew
    rw [h.inst?_fresh] at hk
    exact .inl ⟨rfl, (Option.some.inj hk).symm⟩
  · rw [h.inst?_of_ne hnew] at hk
    exact .inr ⟨(h.mem_instsOf.1 hid).resolve_left fun hsame => hnew hsame.2, hk⟩

theorem inst_of_phi (h : f.Inserted b pre post i g) {inc : List (BlockId × Value)} {ty : Option Ty}
    (hid : id ∈ g.instsOf c) (hi : g.inst? id = some ⟨.phi inc, ty⟩) :
    id ∈ f.instsOf c ∧ f.inst? id = some ⟨.phi inc, ty⟩ := by
  rcases h.inst_cases hid hi with ⟨_, rfl⟩ | hold
  · exact absurd h.isPhi Bool.true_eq_false.mp
  · exact hold

theorem term_old (h : f.Inserted b pre post i g) {data' : Block} (hdata' : g.block? c = some data') :
    ∃ data, f.block? c = some data ∧ data'.address = data.address ∧ data'.term = data.term := by
  rw [h.block c] at hdata'
  obtain ⟨data, hdata, rfl⟩ := Option.map_eq_some_iff.1 hdata'
  refine ⟨data, hdata, ?_⟩
  split <;> exact ⟨rfl, rfl⟩

/-- What the new instruction reads has to be there; everything else reads what it read. -/
theorem available_read (h : f.Inserted b pre post i g) (hwf : f.WellFormed)
    (hat : f.Reachable b → ∀ v ∈ i.kind.operands, f.AtHand b pre v)
    (hread : g.Reads (fun _ => false) c before (.inst j)) : g.Available c before j := by
  have hc := hwf.consistent
  cases hread with
  | inst hcg hsplit _ hk hkphi hj =>
    have hcf := h.sameGraph.reachable.1 hcg
    rcases h.inst_cases (mem_of_split hsplit) hk with ⟨rfl, rfl⟩ | ⟨hid, hk⟩
    · obtain rfl := (h.consistent hc).same_block h.mem_fresh (mem_of_split hsplit)
      have hav : f.Available b pre j := hat hcf _ hj
      rw [← ((h.consistent hc).split_unique h.instsOf_self hsplit).2]
      exact h.available hav (List.Subset.refl _)
    · obtain ⟨l, r, hold⟩ := List.append_of_mem hid
      obtain ⟨before', after', hnew, hsub⟩ := h.split_of hold
      have hav : f.Available c l j := hwf.use hcf hold hk hkphi hj
      refine h.available hav ?_
      rw [((h.consistent hc).split_unique hsplit hnew).2]
      exact hsub
  | phi hb hid _ hi' he hq =>
    obtain ⟨hmem, hi⟩ := h.inst_of_phi hid hi'
    have hav : f.Available c (f.instsOf c) j := hwf.phiUse (h.sameGraph.reachable.1 hb) hmem hi he
      (h.sameGraph.reachable.1 hq)
    exact h.available hav (h.subset_instsOf c)
  | term hb hdata' hj =>
    obtain ⟨data, hdata, _, hterm⟩ := h.term_old hdata'
    have hav : f.Available c (f.instsOf c) j :=
      hwf.termUse (v := .inst j) (h.sameGraph.reachable.1 hb) hdata (hterm ▸ hj)
    exact h.available hav (h.subset_instsOf c)

theorem wellFormed (h : f.Inserted b pre post i g) (hwf : f.WellFormed)
    (hat : f.Reachable b → ∀ v ∈ i.kind.operands, f.AtHand b pre v) : g.WellFormed := by
  refine h.sameGraph.wellFormed hwf (h.consistent hwf.consistent) (fun c => (h.phisOf_eq hwf c).2)
    ?_ fun c before j => h.available_read hwf hat
  intro c id inc ty hid hi'
  obtain ⟨hmem, hi⟩ := h.inst_of_phi hid hi'
  exact hwf.hears hmem hi

end Inserted

end BinaryLift.Func
