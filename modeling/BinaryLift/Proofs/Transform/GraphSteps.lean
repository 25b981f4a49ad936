import BinaryLift.Proofs.Transform.Forwarding
import BinaryLift.Proofs.Transform.GraphEdits
import BinaryLift.Proofs.Transform.Merging
import BinaryLift.Proofs.Transform.Thinning

/-!
# The steps that simplify control flow

Each of the four steps succeeds on a well-formed function. Folding a branch and removing what cannot
be reached only thin the graph; a block that joins its predecessor first loses its phis, which pass
on what comes from there; and an empty block is led past.
-/

namespace BinaryLift

def Terminator.isJump : Terminator → Bool
  | .jump _ => true
  | _ => false

theorem Terminator.isJump_iff (t : Terminator) : t.isJump = decide (t.successors.length = 1) := by
  cases t <;> rfl

namespace Func

/-- What there may be to do at a block: a terminator that is no jump counts twice. -/
def load (f : Func) (b : BlockId) : Nat :=
  (f.block? b).elim 0 fun data => if data.term.isJump then 1 else 2

variable {f g : Func} {b q s target pred : BlockId} {data : Block}

/-- Nothing has a recorded address where an indirect jump stands. -/
theorem addressBlock_of_leaves (hl : ∀ act : Activation, act.Leaves f) (hdata : f.block? b = some data)
    {v : Value} (hterm : data.term = .indirect v) (w : Word) : f.addressBlock w = none := by
  let act : Activation := {
    args := fun _ => 0
    answer := fun _ _ memory => (0, memory)
    base := fun _ => 0
    own := fun _ => false
    linked := true }
  exact hl act rfl b data v hdata hterm w

theorem load_eq (hdata : f.block? b = some data) :
    f.load b = if data.term.isJump then 1 else 2 := by
  rw [load, hdata]
  rfl

theorem load_congr (h : (g.block? b).map (·.term.isJump) = (f.block? b).map (·.term.isJump)) :
    g.load b = f.load b := by
  have helim : ∀ o : Option Block, (o.elim 0 fun data => if data.term.isJump then 1 else 2) =
      (o.map (·.term.isJump)).elim 0 fun jump => if jump then 1 else 2 := by
    intro o
    cases o <;> rfl
  rw [load, load, helim, helim, h]

theorem SameGraph.load (h : f.SameGraph g) (b : BlockId) : g.load b = f.load b := by
  have hmap := congrArg (Option.map fun l => decide (List.length l = 1)) (h.block b)
  simp only [Option.map_map, Function.comp_def, ← Terminator.isJump_iff] at hmap
  exact load_congr hmap

/-! ### Branches -/

/-- A terminator with fewer arms, and phis that forget the arms that have gone. -/
theorem thinned_of_term (hwf : f.WellFormed) (hdata : f.block? b = some data) {t : Terminator}
    (ht : data.term.Narrows t) {h : Func} {κ : BlockId → Incomings → Incomings}
    (hrel : f.Relabeled h κ)
    (hκ : ∀ s inc, (∀ e ∈ inc, f.Edge e.1 s) →
      κ s inc = inc.filter fun e => decide (e.1 = b → s ∈ t.successors))
    (hset : h.setTerm b t = .ok g) : f.Thinned g := by
  have hlayout := setTerm_sameLayout hset
  have hlive : ∀ x, g.containsBlock x = f.containsBlock x :=
    fun x => (hlayout.live x).trans (hrel.containsBlock x)
  have hblock : ∀ x, g.block? x = if x = b then some { data with term := t } else f.block? x := by
    intro x
    rw [block?_of_modifyBlock hset, hrel.block?, hrel.block?, hdata]
    rfl
  have hback : ∀ x data', g.block? x = some data' → ∃ data, f.block? x = some data ∧
      data'.insts = data.insts ∧ data'.address = data.address ∧ data.term.Narrows data'.term := by
    intro x data' hdata'
    rw [hblock x] at hdata'
    split at hdata'
    · rename_i hx
      cases hdata'
      exact ⟨data, hx ▸ hdata, rfl, rfl, ht⟩
    · exact ⟨data', hdata', rfl, rfl, .same _⟩
  have hedge : ∀ q s, f.Edge q s → (g.Edge q s ↔ (q = b → s ∈ t.successors)) := by
    rintro q s ⟨qdata, hqdata, hs, hslive⟩
    unfold Edge
    rw [hblock q, hlive s]
    by_cases hq : q = b
    · subst hq
      simp [hslive]
    · simp [hq, hqdata, hs, hslive]
  -- only the block has changed since the phis were told
  obtain ⟨_, _, rfl⟩ := modifyBlock_eq_ok.1 hset
  refine ⟨hrel.params, hrel.entry, hback, ?_, ?_, ?_, hrel.ty, ?_⟩
  · intro x hx
    rw [hlive x]
    exact hx.live
  · intro x data' hdata' s hs
    obtain ⟨xdata, hxdata, _, _, hterm⟩ := hback x data' hdata'
    rw [hlive s]
    exact hwf.targets x xdata hxdata s (hterm.successors hs)
  · intro id x
    rw [hlive x, hlayout.instBlock, hrel.instBlock]
    exact ⟨fun hid => ⟨hid, hwf.consistent.live id x hid⟩, fun hid => hid.1⟩
  · intro x id i hid hi
    rw [hlayout.instsOf, hrel.instsOf] at hid
    refine (hrel.inst hwf.consistent hid hi).trans ?_
    obtain ⟨kind, o⟩ := i
    cases kind with
    | phi inc =>
      obtain ⟨xdata, hxdata, hmem⟩ := exists_block_of_mem hid
      have hedges := (hwf.incoming x xdata id inc o hxdata hmem hi).2
      simp only [Kind.mapIncoming, hκ x inc hedges]
      rw [List.filter_congr fun e he => ?_]
      rw [decide_eq_decide, hedge e.1 x (hedges e he)]
    | _ => rfl

/-- Where a folded branch goes: the terminator narrows to a jump. -/
structure Folded (f g : Func) (b : BlockId) : Prop where
  thinned : f.Thinned g
  live : ∀ x, g.containsBlock x = f.containsBlock x
  block : ∃ data t, f.block? b = some data ∧ (∀ s, data.term ≠ .jump s) ∧
    ∀ x, g.block? x = if x = b then some { data with term := .jump t } else f.block? x

theorem folded_of_term (hwf : f.WellFormed) (hdata : f.block? b = some data)
    (ht : data.term.Narrows (.jump target)) (hjump : ∀ s, data.term ≠ .jump s) {h : Func}
    {κ : BlockId → Incomings → Incomings} (hrel : f.Relabeled h κ)
    (hκ : ∀ s inc, (∀ e ∈ inc, f.Edge e.1 s) →
      κ s inc = inc.filter fun e => decide (e.1 = b → s = target)) :
    ∃ g, h.setTerm b (.jump target) = .ok g ∧ f.Folded g b := by
  have hset : h.setTerm b (.jump target) =
      .ok (h.putBlock b (some { data with term := .jump target })) :=
    modifyBlock_eq_ok.2 ⟨data, (hrel.block? b).trans hdata, rfl⟩
  refine ⟨_, hset, thinned_of_term hwf hdata ht hrel ?_ hset, ?_, data, target, hdata, hjump, ?_⟩
  · intro s inc hinc
    rw [hκ s inc hinc]
    simp [Terminator.successors]
  · intro x
    rw [(setTerm_sameLayout hset).live, hrel.containsBlock]
  · intro x
    rw [block?_of_modifyBlock hset, hrel.block?, hrel.block?, hdata]
    rfl

/-- Where a block has one successor, phis have nothing to forget. -/
theorem incoming_eq_filter (hsole : ∀ s, f.Edge b s → s = target) (s : BlockId) (inc : Incomings)
    (hinc : ∀ e ∈ inc, f.Edge e.1 s) :
    inc = inc.filter fun e => decide (e.1 = b → s = target) := by
  refine (List.filter_eq_self.2 fun e he => ?_).symm
  rw [decide_eq_true_eq]
  rintro rfl
  exact hsole s (hinc e he)

/-- The phis of the arm that is not taken forget it, unless both arms are one. -/
theorem forget_arm (hc : f.Consistent) {taken dropped : BlockId}
    (hlive : f.containsBlock dropped = true)
    (harms : ∀ s, f.Edge b s → s = taken ∨ s = dropped) :
    ∃ h κ, (if dropped ≠ taken ∧ f.containsBlock dropped then f.removePhiIncoming dropped b
        else pure f) = .ok h ∧ f.Relabeled h κ ∧
      ∀ s inc, (∀ e ∈ inc, f.Edge e.1 s) →
        κ s inc = inc.filter fun e => decide (e.1 = b → s = taken) := by
  by_cases hne : dropped ≠ taken
  · rw [if_pos ⟨hne, hlive⟩]
    obtain ⟨h, hh, hrel⟩ := removePhiIncoming_spec hc hlive b
    refine ⟨h, _, hh, hrel, fun s inc hinc => ?_⟩
    unfold onBlock
    split
    · rename_i hs
      refine List.filter_congr fun e _ => ?_
      rw [decide_eq_decide, hs]
      exact ⟨fun he heq => absurd heq he, fun h heq => hne (h heq)⟩
    · rename_i hs
      refine (List.filter_eq_self.2 fun e he => ?_).symm
      rw [decide_eq_true_eq]
      rintro rfl
      exact (harms s (hinc e he)).resolve_right hs
  · rw [if_neg fun h => hne h.1]
    rw [ne_eq, not_not] at hne
    subst hne
    exact ⟨f, _, rfl, .refl f, incoming_eq_filter fun s hs => (harms s hs).elim id id⟩

/-- An arm that is not taken goes, with what came in on it. -/
theorem foldBranch_const (hwf : f.WellFormed) (hdata : f.block? b = some data) {c : Constant}
    {t e : BlockId} (hterm : data.term = .branch (.const c) t e) :
    ∃ g, f.foldBranch b = .ok (g, true) ∧ f.Folded g b := by
  obtain ⟨taken, htaken⟩ : ∃ taken, taken = if c.isZero then e else t := ⟨_, rfl⟩
  obtain ⟨dropped, hdropped⟩ : ∃ dropped, dropped = if c.isZero then t else e := ⟨_, rfl⟩
  have harms : ∀ s, f.Edge b s → s = taken ∨ s = dropped := by
    rintro s ⟨data', hdata', hs, _⟩
    rw [hdata] at hdata'
    cases hdata'
    rw [hterm] at hs
    rw [htaken, hdropped]
    cases c.isZero <;> simpa [Terminator.successors, or_comm] using hs
  have hlive : f.containsBlock dropped = true := by
    refine hwf.targets b data hdata dropped ?_
    rw [hterm, hdropped]
    split <;> simp [Terminator.successors]
  have hnarrow : data.term.Narrows (.jump taken) := by
    rw [hterm, htaken]
    exact .const c t e
  have hjump : ∀ s, data.term ≠ .jump s := by
    intro s heq
    rw [hterm] at heq
    cases heq
  obtain ⟨h, κ, hh, hrel, hκ⟩ := forget_arm hwf.consistent hlive harms
  obtain ⟨g, hg, hfolded⟩ := folded_of_term hwf hdata hnarrow hjump hrel hκ
  have hfold : f.foldBranch b = (do
      let f ← if dropped ≠ taken ∧ f.containsBlock dropped then f.removePhiIncoming dropped b
        else pure f
      return (← f.setTerm b (.jump taken), true)) := by
    unfold foldBranch
    rw [term_eq hdata, hterm, htaken, hdropped]
    rfl
  refine ⟨g, ?_, hfolded⟩
  rw [hfold]
  split at hh
  · rename_i hdrop
    rw [if_pos hdrop, hh]
    simp only [bind, Except.bind, hg]
    rfl
  · rename_i hdrop
    cases hh
    rw [if_neg hdrop]
    simp only [bind, Except.bind, pure, Except.pure, hg]

theorem foldBranch_equal (hwf : f.WellFormed) (hdata : f.block? b = some data) {v : Value}
    {t : BlockId} (hterm : data.term = .branch v t t) (hv : v.isConst = false) :
    ∃ g, f.foldBranch b = .ok (g, true) ∧ f.Folded g b := by
  have hnarrow : data.term.Narrows (.jump t) := by
    rw [hterm]
    exact .equal v t
  have hjump : ∀ s, data.term ≠ .jump s := by
    intro s heq
    rw [hterm] at heq
    cases heq
  have hsole : ∀ s, f.Edge b s → s = t := by
    rintro s ⟨data', hdata', hs, _⟩
    rw [hdata] at hdata'
    cases hdata'
    rw [hterm] at hs
    simpa [Terminator.successors] using hs
  obtain ⟨g, hg, hfolded⟩ := folded_of_term hwf hdata hnarrow hjump (.refl f)
    (incoming_eq_filter hsole)
  refine ⟨g, ?_, hfolded⟩
  unfold foldBranch
  rw [term_eq hdata, hterm]
  cases v with
  | const c => cases hv
  | arg n => simp only [bind, Except.bind, pure, Except.pure, if_true, hg]
  | inst j => simp only [bind, Except.bind, pure, Except.pure, if_true, hg]

/-- Where indirect jumps leave the function, only branches are folded. -/
theorem foldBranch_spec (hwf : f.WellFormed) (hl : ∀ act : Activation, act.Leaves f)
    (hb : f.containsBlock b = true) :
    ∃ g changed, f.foldBranch b = .ok (g, changed) ∧
      ((changed = false ∧ g = f) ∨ changed = true ∧ f.Folded g b) := by
  obtain ⟨data, hdata⟩ := containsBlock_iff.1 hb
  have hstays : f.foldBranch b = .ok (f, false) →
      ∃ g changed, f.foldBranch b = .ok (g, changed) ∧
        ((changed = false ∧ g = f) ∨ changed = true ∧ f.Folded g b) :=
    fun heq => ⟨f, false, heq, .inl ⟨rfl, rfl⟩⟩
  have hfolds : (∃ g, f.foldBranch b = .ok (g, true) ∧ f.Folded g b) →
      ∃ g changed, f.foldBranch b = .ok (g, changed) ∧
        ((changed = false ∧ g = f) ∨ changed = true ∧ f.Folded g b) :=
    fun ⟨g, hg, hfolded⟩ => ⟨g, true, hg, .inr ⟨rfl, hfolded⟩⟩
  cases hterm : data.term with
  | jump s => exact hstays (by unfold foldBranch; rw [term_eq hdata, hterm]; rfl)
  | ret v => exact hstays (by unfold foldBranch; rw [term_eq hdata, hterm]; rfl)
  | unreachable => exact hstays (by unfold foldBranch; rw [term_eq hdata, hterm]; rfl)
  | branch v t e =>
    by_cases hconst : ∃ c, v = .const c
    · obtain ⟨c, rfl⟩ := hconst
      exact hfolds (foldBranch_const hwf hdata hterm)
    · have hv : v.isConst = false := by
        cases v with
        | const c => exact absurd ⟨c, rfl⟩ hconst
        | arg n => rfl
        | inst j => rfl
      by_cases hte : t = e
      · subst hte
        exact hfolds (foldBranch_equal hwf hdata hterm hv)
      · refine hstays ?_
        unfold foldBranch
        rw [term_eq hdata, hterm]
        cases v with
        | const c => cases hv
        | arg n => exact if_neg hte
        | inst j => exact if_neg hte
  | indirect v =>
    refine hstays ?_
    unfold foldBranch
    rw [term_eq hdata, hterm]
    cases v with
    | const c =>
      simp only [bind, Except.bind, addressBlock_of_leaves hl hdata hterm]
      rfl
    | arg n => rfl
    | inst j => rfl

/-! ### Blocks that cannot be reached -/

/-- Several blocks forget what came in from one. -/
theorem foldlM_removePhiIncoming (hc : f.Consistent) (q : BlockId) (ss : List BlockId)
    (hss : ∀ s ∈ ss, f.containsBlock s = true) :
    ∃ g κ, ss.foldlM (fun f s => f.removePhiIncoming s q) f = .ok g ∧ f.Relabeled g κ ∧
      ∀ s inc, κ s inc = if s ∈ ss then inc.filter (·.1 ≠ q) else inc := by
  induction ss generalizing f with
  | nil => exact ⟨f, _, rfl, .refl f, fun s inc => by simp⟩
  | cons x ss ih =>
    obtain ⟨h, hh, hrel⟩ := removePhiIncoming_spec hc (hss x List.mem_cons_self) q
    obtain ⟨g, κ, hg, hrel', hκ⟩ := ih (hrel.consistent hc) fun s hs => by
      rw [hrel.containsBlock]
      exact hss s (List.mem_cons_of_mem _ hs)
    refine ⟨g, _, by rw [List.foldlM_cons, hh]; exact hg, hrel.trans hrel', fun s inc => ?_⟩
    rw [hκ s]
    by_cases hsx : s = x
    · subst hsx
      by_cases hs : s ∈ ss <;> simp [onBlock, hs, List.filter_filter]
    · by_cases hs : s ∈ ss <;> simp [onBlock, hs, hsx]

/-- What phis keep of the edges of a well-formed function is what does not come from `dead`. -/
theorem forget_relabeled (rpo dead : List BlockId) (hc : f.Consistent)
    (hdead : ∀ q ∈ dead, f.containsBlock q = true) (hrpo : ∀ s ∈ rpo, f.containsBlock s = true) :
    ∃ g κ, f.forget rpo dead = .ok g ∧ f.Relabeled g κ ∧
      ∀ s ∈ rpo, ∀ inc, (∀ e ∈ inc, f.Edge e.1 s) → κ s inc = inc.filter (·.1 ∉ dead) := by
  unfold forget
  induction dead generalizing f with
  | nil => exact ⟨f, _, rfl, .refl f, fun s _ inc _ => by simp⟩
  | cons q dead ih =>
    obtain ⟨data, hdata⟩ := containsBlock_iff.1 (hdead q List.mem_cons_self)
    obtain ⟨h, κ, hh, hrel, hκ⟩ := foldlM_removePhiIncoming hc q
      (data.term.successors.filter (· ∈ rpo))
      fun s hs => hrpo s (by simpa using (List.mem_filter.1 hs).2)
    obtain ⟨g, κ', hg, hrel', hκ'⟩ := ih (hrel.consistent hc)
      (fun s hs => by rw [hrel.containsBlock]; exact hdead s (List.mem_cons_of_mem _ hs))
      (fun s hs => by rw [hrel.containsBlock]; exact hrpo s hs)
    refine ⟨g, _, ?_, hrel.trans hrel', fun s hs inc hinc => ?_⟩
    · rw [List.foldlM_cons, successors_eq_ok hdata]
      simp only [bind, Except.bind, hh]
      exact hg
    · -- an incoming from `q` is there only if there is an edge
      have hfirst : κ s inc = inc.filter (·.1 ≠ q) := by
        rw [hκ s inc]
        split
        · rfl
        · rename_i hnot
          refine (List.filter_eq_self.2 fun e he => ?_).symm
          rw [decide_eq_true_eq]
          rintro rfl
          obtain ⟨data', hdata', hsucc, _⟩ := hinc e he
          rw [hdata] at hdata'
          cases hdata'
          exact hnot (List.mem_filter.2 ⟨hsucc, by simpa using hs⟩)
      have hedges : ∀ e ∈ inc.filter (·.1 ≠ q), h.Edge e.1 s := by
        intro e he
        obtain ⟨data', hdata', hsucc, hlive⟩ := hinc e (List.mem_filter.1 he).1
        exact ⟨data', by rw [hrel.block?, hdata'], hsucc, by rw [hrel.containsBlock]; exact hlive⟩
      rw [hfirst, hκ' s hs _ hedges, List.filter_filter]
      refine List.filter_congr fun e _ => ?_
      simp [Bool.and_comm]

namespace Pruned

variable {dead : List BlockId}

theorem live_iff (h : f.Pruned g dead) (x : BlockId) : g.containsBlock x = true ↔ f.Reachable x := by
  refine ⟨fun hx => ?_, h.live_of_reachable⟩
  obtain ⟨data, hdata⟩ := containsBlock_iff.1 hx
  exact (h.reachable_of_live hdata).2

/-- Of the edges to a block that can be reached, those that do not come from `dead` are left. -/
theorem edge_iff (h : f.Pruned g dead) (hs : f.Reachable s) (hqs : f.Edge q s) :
    g.Edge q s ↔ q ∉ dead := by
  obtain ⟨qdata, hqdata, hsucc, _⟩ := hqs
  constructor
  · rintro ⟨_, hq, _⟩ hdead
    exact ((h.mem_dead q).1 hdead).2 (h.reachable_of_live hq).2
  · intro hq
    exact ⟨qdata, by rw [h.block, if_neg hq, hqdata], hsucc, (h.live_iff s).2 hs⟩

/-- Removing what cannot be reached thins the graph. -/
theorem thinned (h : f.Pruned g dead) (hwf : f.WellFormed) : f.Thinned g := by
  obtain ⟨rpo, told, hmem, htold, _, hrem⟩ := h.steps
  obtain ⟨_, κ, htold', hrel, hκ⟩ := forget_relabeled rpo dead hwf.consistent
    (fun q hq => ((h.mem_dead q).1 hq).1) fun s hs => ((hmem s).1 hs).live
  cases htold.symm.trans htold'
  refine ⟨hrem.params.trans hrel.params, hrem.entry.trans hrel.entry, ?_, ?_, ?_, ?_, ?_, ?_⟩
  · intro x data' hdata'
    exact ⟨data', (h.reachable_of_live hdata').1, rfl, rfl, .same _⟩
  · exact fun x hx => h.live_of_reachable hx
  · intro x data' hdata' s hs
    obtain ⟨hdata, hx⟩ := h.reachable_of_live hdata'
    exact (h.live_iff s).2 (hx.step (hwf.edge hdata hs))
  · intro id x
    rw [hrem.instBlock id, hrel.instBlock id, Option.filter_eq_some_iff, decide_eq_true_eq,
      h.live_iff]
    refine and_congr_right fun hid => ?_
    rw [h.mem_dead x, not_and, not_not]
    exact ⟨fun hx => hx (hwf.consistent.live id x hid), fun hx _ => hx⟩
  · intro id
    rw [hrem.inst? id, hrel.ty id]
  · intro x id i hid hi
    obtain ⟨data', hdata', hidm⟩ := exists_block_of_mem hid
    obtain ⟨hdata, hx⟩ := h.reachable_of_live hdata'
    have hid' : id ∈ f.instsOf x := by
      rw [instsOf_eq hdata]
      exact hidm
    rw [hrem.inst? id, hrel.inst hwf.consistent hid' hi]
    obtain ⟨kind, o⟩ := i
    cases kind with
    | phi inc =>
      have hedges := (hwf.incoming x data' id inc o hdata hidm hi).2
      simp only [Kind.mapIncoming, hκ x ((hmem x).2 hx) inc hedges]
      rw [List.filter_congr fun e he => ?_]
      rw [decide_eq_decide, h.edge_iff hx (hedges e he)]
    | _ => rfl

end Pruned

end Func

end BinaryLift
