import BinaryLift.Proofs.Run.Orderly

/-!
# What code reads

Well-formedness asks three times for the same: a value is at hand where an instruction, a phi or a
terminator reads it. With one relation for the three, an edit has to say only where what the new code
reads was read before.
-/

namespace BinaryLift.Func

variable {f g : Func} {drop : InstId → Bool} {b : BlockId} {pre : List InstId} {id : InstId}
  {v : Value}

/-- Kept code that control can reach reads the value behind `pre` in block `b`. A phi reads at the ends
of the blocks that control comes from. -/
inductive Reads (f : Func) (drop : InstId → Bool) : BlockId → List InstId → Value → Prop
  | inst {b : BlockId} {pre post : List InstId} {id : InstId} {i : Inst} {v : Value}
      (hb : f.Reachable b) (hsplit : f.instsOf b = pre ++ id :: post) (hkeep : drop id = false)
      (hi : f.inst? id = some i) (hphi : i.kind.isPhi = false) (hv : v ∈ i.kind.operands) :
      Reads f drop b pre v
  | phi {b q : BlockId} {id : InstId} {inc : List (BlockId × Value)} {ty : Option Ty} {v : Value}
      (hb : f.Reachable b) (hid : id ∈ f.instsOf b) (hkeep : drop id = false)
      (hi : f.inst? id = some ⟨.phi inc, ty⟩) (he : (q, v) ∈ inc) (hq : f.Reachable q) :
      Reads f drop q (f.instsOf q) v
  | term {b : BlockId} {data : Block} {v : Value} (hb : f.Reachable b)
      (hdata : f.block? b = some data) (hv : v ∈ data.term.operands) : Reads f drop b (f.instsOf b) v

namespace Reads

theorem reachable (h : f.Reads drop b pre v) : f.Reachable b := by
  cases h with
  | inst hb => exact hb
  | phi _ _ _ _ _ hq => exact hq
  | term hb => exact hb

theorem pre_prefix (h : f.Reads drop b pre v) : pre <+: f.instsOf b := by
  cases h with
  | inst _ hsplit => exact prefix_of_split hsplit
  | phi => exact List.prefix_refl _
  | term => exact List.prefix_refl _

theorem atHand (h : f.Reads drop b pre v) (hwf : f.WellFormed) : f.AtHand b pre v := by
  cases h with
  | inst hb hsplit _ hi hphi hv => exact hwf.use hb hsplit hi hphi hv
  | phi hb hid _ hi he hq => exact hwf.phiUse hb hid hi he hq
  | term hb hdata hv => exact hwf.termUse hb hdata hv

/-- Somebody who stays reads the value. -/
theorem user (h : f.Reads drop b pre v) :
    ∃ u, u ∈ f.usersOf v ∧ ∀ x, u = .inst x → drop x = false := by
  cases h with
  | inst _ hsplit hkeep hi _ hv =>
    refine ⟨_, usersOf_of_mem (mem_of_split hsplit) hi hv, ?_⟩
    rintro x ⟨⟩
    exact hkeep
  | phi _ hid hkeep hi he _ =>
    refine ⟨_, usersOf_of_mem hid hi (List.mem_map.2 ⟨_, he, rfl⟩), ?_⟩
    rintro x ⟨⟩
    exact hkeep
  | term _ hdata hv =>
    exact ⟨_, mem_usersOf.2 ⟨_, _, hdata, .inr ⟨hv, rfl⟩⟩, fun _ heq => nomatch heq⟩

end Reads

/-- A phi of `b` hears from blocks that lead there, and once from each that control can reach. -/
structure Hears (f : Func) (b : BlockId) (qs : List BlockId) : Prop where
  once : ∀ q, f.Reachable q → f.Edge q b → qs.count q = 1
  edge : ∀ q ∈ qs, f.Edge q b

theorem WellFormed.hears (h : f.WellFormed) (hid : id ∈ f.instsOf b)
    {inc : List (BlockId × Value)} {ty : Option Ty} (hi : f.inst? id = some ⟨.phi inc, ty⟩) :
    f.Hears b (inc.map (·.1)) := by
  obtain ⟨data, hdata, hmem⟩ := exists_block_of_mem hid
  obtain ⟨honce, hedges⟩ := h.incoming b data id inc ty hdata hmem hi
  refine ⟨honce, fun q hq => ?_⟩
  obtain ⟨e, he, rfl⟩ := List.mem_map.1 hq
  exact hedges e he

/-- A function is well formed if what its reachable code reads is there. -/
theorem wellFormed_of_reads (hc : f.Consistent)
    (hentry : ∀ e, f.entry = some e → f.containsBlock e = true)
    (htargets : ∀ b data, f.block? b = some data → ∀ s ∈ data.term.successors,
      f.containsBlock s = true)
    (hheads : ∀ b, ∀ id ∈ (f.instsOf b).dropWhile f.isPhi, f.isPhi id = false)
    (hhears : ∀ b id inc ty, id ∈ f.instsOf b → f.inst? id = some ⟨.phi inc, ty⟩ →
      f.Hears b (inc.map (·.1)))
    (hreads : ∀ b pre j, f.Reads (fun _ => false) b pre (.inst j) → f.Available b pre j) :
    f.WellFormed where
  consistent := hc
  entry := hentry
  targets := htargets
  heads := fun b data hdata => instsOf_eq hdata ▸ hheads b
  incoming := by
    intro b data id inc ty hdata hid hi
    obtain ⟨honce, hedge⟩ := hhears b id inc ty (instsOf_eq hdata ▸ hid) hi
    exact ⟨honce, fun e he => hedge e.1 (List.mem_map.2 ⟨e, he, rfl⟩)⟩
  phiUses := by
    intro b data id inc ty hb hdata hid hi q j he hq qdata hqdata
    rw [← instsOf_eq hqdata]
    exact hreads q _ j (.phi hb (instsOf_eq hdata ▸ hid) rfl hi he hq)
  uses := by
    intro b data before id after i hb hdata hsplit hi hphi j hj
    exact hreads b before j (.inst hb ((instsOf_eq hdata).trans hsplit) rfl hi hphi hj)
  termUses := by
    intro b data hb hdata j hj
    rw [← instsOf_eq hdata]
    exact hreads b _ j (.term hb hdata hj)

theorem SameGraph.hears (h : f.SameGraph g) {qs : List BlockId} (hqs : f.Hears b qs) :
    g.Hears b qs :=
  ⟨fun q hq hedge => hqs.once q (h.reachable.1 hq) (h.edge.1 hedge),
    fun q hq => h.edge.2 (hqs.edge q hq)⟩

/-- Where blocks lead where they led, and phis hear from the blocks that lead to them, it remains to be
seen that what reachable code reads is there. -/
theorem SameGraph.wellFormed (h : f.SameGraph g) (hwf : f.WellFormed) (hc : g.Consistent)
    (hheads : ∀ b, ∀ id ∈ (g.instsOf b).dropWhile g.isPhi, g.isPhi id = false)
    (hhears : ∀ b id inc ty, id ∈ g.instsOf b → g.inst? id = some ⟨.phi inc, ty⟩ →
      f.Hears b (inc.map (·.1)))
    (hreads : ∀ b pre j, g.Reads (fun _ => false) b pre (.inst j) → g.Available b pre j) :
    g.WellFormed := by
  refine wellFormed_of_reads hc (fun e he => ?_) (fun b data' hdata' s hs => ?_) hheads
    (fun b id inc ty hid hi => h.hears (hhears b id inc ty hid hi)) hreads
  · rw [h.containsBlock]
    exact hwf.entry e (h.entry ▸ he)
  · obtain ⟨data, hdata, hsucc⟩ := h.old hdata'
    rw [h.containsBlock]
    exact hwf.targets b data hdata s (hsucc ▸ hs)

end BinaryLift.Func
