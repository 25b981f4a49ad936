import BinaryLift.Proofs.Run.Surveys
import BinaryLift.Proofs.Transform.KnownResults
import BinaryLift.Proofs.Transform.Rounds
import Mathlib

/-!
# Value numbering preserves executions

While `early-cse` or `gvn` scans blocks, everything that is remembered stays true: of the place the scan
has come to or, between blocks, of the ends of the blocks behind it. So whatever is replaced repeats the
value that it is replaced by.
-/

namespace BinaryLift

theorem Kind.traverse_eq_ok {k : Value → Checked Value} {h : Value → Value}
    (hk : ∀ v, k v = .ok (h v)) (kind : Kind) : kind.traverse k = .ok (kind.mapOperands h) := by
  have hpure : k = fun v => pure (h v) := funext hk
  subst hpure
  cases kind with
  | phi inc =>
    simp only [traverse, mapOperands, pure_bind, List.mapM_pure]
    rfl
  | call callee args =>
    simp only [traverse, mapOperands, List.mapM_pure]
    rfl
  | _ => rfl

namespace Func

variable {f : Func} {b : BlockId} {pre post : List InstId} {id : InstId}

/-- How far what is known of memory has come when `pre` has been scanned: it is carried over the phis of a
block as a whole, then from one instruction to the next. -/
def passed (f : Func) (b : BlockId) (pre : List InstId) : List InstId :=
  if f.phisOf b <+: pre then pre else f.phisOf b

theorem passed_nil (f : Func) (b : BlockId) : f.passed b [] = f.phisOf b := by
  unfold passed
  split
  · rename_i hphis
    exact (List.prefix_nil.1 hphis).symm
  · rfl

theorem passed_of_prefix (h : f.phisOf b <+: pre) : f.passed b pre = pre := if_pos h

theorem WellFormed.passed_phi (hwf : f.WellFormed) (hsplit : f.instsOf b = pre ++ id :: post)
    (hphi : f.isPhi id = true) :
    f.passed b pre = f.phisOf b ∧ f.passed b (pre ++ [id]) = f.phisOf b := by
  have hnot : ¬ f.phisOf b <+: pre := by
    intro hphis
    rw [hwf.isPhi_of_split hphis hsplit] at hphi
    cases hphi
  refine ⟨if_neg hnot, ?_⟩
  unfold passed
  split
  · rename_i hphis
    exact ((List.prefix_concat_iff.1 hphis).resolve_right hnot).symm
  · rfl

end Func

/-- What is remembered of the instructions in `seen` is true. -/
structure Numbering.Sound (f : Func) (seen : List InstId) (s : Numbering) : Prop where
  replaced : f.Repeated s.replaced
  leaders : ∀ key group, s.leaders.get? key = some group → ∀ e ∈ group,
    e.2 ∈ f.instsOf e.1 ∧ e.2 ∈ seen ∧ f.Computes key e.2
  availableOut : ∀ c t, s.availableOut.get? c = some t → ∀ key v, t.get? key = some v →
    f.Holds c (f.instsOf c) key v

/-- The blocks `done` and the instructions `pre` of block `b` have been scanned. What is known of
memory is true behind `stop`. -/
structure BlockNumbering.Sound (f : Func) (p : NumberingPolicy) (done : List BlockId) (b : BlockId)
    (pre stop : List InstId) (s : BlockNumbering) : Prop
    extends s.toNumbering.Sound f (done.flatMap f.instsOf ++ pre) where
  available : ∀ key v, s.available.get? key = some v → p.loads ≠ .nowhere ∧ f.Holds b stop key v
  phis : ∀ key j, s.phis.get? key = some j → j ∈ pre ∧ f.Merges b key j

namespace BlockNumbering

variable {f : Func} {p : NumberingPolicy} {dom : DomTree} {done : List BlockId} {b : BlockId}
  {pre post stop : List InstId} {id : InstId} {v : Value} {s : BlockNumbering}

namespace Sound

/-- The scan goes on. -/
theorem advance (h : s.Sound f p done b pre stop) (id : InstId) (stop' : List InstId)
    (hholds : ∀ key v, s.available.get? key = some v → p.loads ≠ .nowhere → f.Holds b stop key v →
      f.Holds b stop' key v) :
    s.Sound f p done b (pre ++ [id]) stop' where
  replaced := h.replaced
  leaders := by
    intro key group hgroup e he
    obtain ⟨hmem, hseen, hcomputes⟩ := h.leaders key group hgroup e he
    refine ⟨hmem, ?_, hcomputes⟩
    rw [← List.append_assoc]
    exact List.mem_append_left _ hseen
  availableOut := h.availableOut
  available := by
    intro key v hv
    obtain ⟨hloads, hknown⟩ := h.available key v hv
    exact ⟨hloads, hholds key v hv hloads hknown⟩
  phis := by
    intro key j hj
    obtain ⟨hmem, hmerges⟩ := h.phis key j hj
    exact ⟨List.mem_append_left _ hmem, hmerges⟩

theorem replace (h : s.Sound f p done b pre stop) (hid : f.Repeats id v) :
    (s.replace id v).Sound f p done b pre stop where
  replaced := h.replaced.insert hid
  leaders := h.leaders
  availableOut := h.availableOut
  available := h.available
  phis := h.phis

theorem remember (h : s.Sound f p done b pre stop) {t : Available}
    (ht : ∀ key v, t.get? key = some v → p.loads ≠ .nowhere ∧ f.Holds b stop key v) :
    BlockNumbering.Sound f p done b pre stop { s with available := t } where
  replaced := h.replaced
  leaders := h.leaders
  availableOut := h.availableOut
  available := ht
  phis := h.phis

/-! ### Computations -/

/-- A leader in a dominating block is at hand. -/
theorem leader_available (h : s.Sound f p done b pre stop) (hc : f.Consistent) (hnew : b ∉ done)
    {key : Kind × Option Ty} {group : List (BlockId × InstId)}
    (hgroup : s.leaders.get? key = some group) {e : BlockId × InstId} (he : e ∈ group)
    (hdom : f.Dominates e.1 b) : f.Available b pre e.2 := by
  obtain ⟨hmem, hseen, _⟩ := h.leaders key group hgroup e he
  by_cases heb : e.1 = b
  · rcases List.mem_append.1 hseen with hdone | hpre
    · obtain ⟨c, hc', hec⟩ := List.mem_flatMap.1 hdone
      rw [hc.same_block hec hmem, heb] at hc'
      exact absurd hc' hnew
    · exact .inl hpre
  · obtain ⟨data, hdata, hmem⟩ := Func.exists_block_of_mem hmem
    exact .inr ⟨e.1, data, ⟨heb, hdom⟩, hdata, hmem⟩

theorem lead (h : s.Sound f p done b pre stop) {key : Kind × Option Ty}
    (hid : id ∈ f.instsOf b) (hpre : id ∈ pre) (hkey : f.Computes key id) :
    BlockNumbering.Sound f p done b pre stop { s with
      leaders := s.leaders.insert key ((s.leaders.get? key).getD [] ++ [(b, id)]) } where
  replaced := h.replaced
  leaders := by
    intro key' group hgroup e he
    simp only [Table.get?_insert] at hgroup
    split at hgroup
    · rename_i heq
      subst heq
      cases hgroup
      rcases List.mem_append.1 he with he | he
      · cases hold : s.leaders.get? key with
        | none =>
          rw [hold] at he
          cases he
        | some group =>
          rw [hold] at he
          exact h.leaders key group hold e he
      · rw [List.mem_singleton.1 he]
        exact ⟨hid, List.mem_append_right _ hpre, hkey⟩
    · exact h.leaders key' group hgroup e he
  availableOut := h.availableOut
  available := h.available
  phis := h.phis

theorem pure (h : s.Sound f p done b pre stop) {stop' : List InstId}
    (hstep : s.Sound f p done b (pre ++ [id]) stop') (hwf : f.WellFormed) (hb : f.Reachable b)
    (hdom : ∀ a c, dom.dominates a c = true → f.Dominates a c) (hnew : b ∉ done)
    (hsplit : f.instsOf b = pre ++ id :: post) {key : Kind × Option Ty} (hkey : f.Computes key id) :
    (s.pure dom b id key).Sound f p done b (pre ++ [id]) stop' := by
  unfold BlockNumbering.pure
  simp only
  split
  · rename_i c leader hfind
    have hdominates : f.Dominates c b := hdom c b (by simpa using List.find?_some hfind)
    have hmem := List.mem_of_find?_eq_some hfind
    cases hgroup : s.leaders.get? key with
    | none =>
      rw [hgroup] at hmem
      cases hmem
    | some group =>
      rw [hgroup] at hmem
      have hav := h.leader_available hwf.consistent hnew hgroup hmem hdominates
      exact hstep.replace (hkey.repeats (h.leaders key group hgroup _ hmem).2.2 hwf hb hsplit hav)
  · exact hstep.lead (Func.mem_of_split hsplit) (by simp) hkey

/-! ### Phis -/

theorem merge (h : s.Sound f p done b pre stop) {key : List (BlockId × Value)} (hpre : id ∈ pre)
    (hkey : f.Merges b key id) :
    BlockNumbering.Sound f p done b pre stop { s with phis := s.phis.insert key id } where
  replaced := h.replaced
  leaders := h.leaders
  availableOut := h.availableOut
  available := h.available
  phis := by
    intro key' j hj
    simp only [Table.get?_insert] at hj
    split at hj
    · rename_i heq
      cases hj
      exact ⟨hpre, heq ▸ hkey⟩
    · exact h.phis key' j hj

theorem phi (h : s.Sound f p done b pre stop) (hwf : f.WellFormed) (hb : f.Reachable b)
    (hsplit : f.instsOf b = pre ++ id :: post) {incoming : List (BlockId × Value)}
    (hkey : f.Merges b (incoming.mergeSort fun x y => x.1.le y.1) id) :
    ∃ s', s.phi f id (f.typeOf (.inst id)) incoming = .ok s' ∧
      s'.Sound f p done b (pre ++ [id]) stop := by
  have hstep := h.advance id stop fun _ _ _ _ hv => hv
  have hlast : id ∈ pre ++ [id] := by simp
  unfold BlockNumbering.phi
  simp only
  cases hfind : s.phis.get? (incoming.mergeSort fun x y => x.1.le y.1) with
  | none => exact ⟨_, rfl, hstep.merge hlast hkey⟩
  | some leader =>
    obtain ⟨hmem, hleader⟩ := h.phis _ leader hfind
    obtain ⟨inc, ty, hi⟩ := hleader.inst
    have hinst : f.inst leader = .ok ⟨.phi inc, ty⟩ := by rw [Func.inst, hi]
    simp only [hinst, bind, Except.bind]
    split
    · rename_i hty
      have hty' := (Func.typeOf_inst hi).trans hty
      exact ⟨_, rfl, hstep.replace (hkey.repeats hleader hwf hb hsplit hmem hty')⟩
    · exact ⟨_, rfl, hstep.merge hlast hkey⟩

/-! ### Memory -/

theorem load (h : s.Sound f p done b pre pre) (hwf : f.WellFormed) (hb : f.Reachable b)
    (hsplit : f.instsOf b = pre ++ id :: post) (hloads : p.loads ≠ .nowhere) {q : Value}
    {ty : Option Ty} (hi : f.inst? id = some ⟨.load q, ty⟩) :
    (s.load id (s.replaced.chase q) ty).Sound f p done b (pre ++ [id]) (pre ++ [id]) := by
  have hstep := h.advance id (pre ++ [id])
    fun _ _ _ _ hv => hv.idle hwf hsplit hi rfl rfl
  cases ty with
  | none => exact hstep
  | some ty =>
    unfold BlockNumbering.load
    simp only
    split
    · rename_i v hv
      exact hstep.replace ((h.available _ v hv).2.repeats h.replaced hwf hb hsplit hi)
    · refine hstep.remember fun key v hv => ?_
      rw [Table.get?_insert] at hv
      split at hv
      · rename_i heq
        cases hv
        rw [← heq]
        exact ⟨hloads, h.replaced.holds_load hwf hb hsplit hi⟩
      · exact hstep.available key v hv

/-- Nothing is known of memory any more. -/
theorem forget (h : s.Sound f p done b pre stop) (id : InstId) (stop' : List InstId) :
    BlockNumbering.Sound f p done b (pre ++ [id]) stop' { s with available := [] } := by
  have hnone : BlockNumbering.Sound f p done b pre stop { s with available := [] } :=
    h.remember (t := []) fun _ _ hv => nomatch hv
  exact hnone.advance id stop' fun _ _ hv => nomatch hv

theorem store (h : s.Sound f p done b pre stop) (hwf : f.WellFormed) (hb : f.Reachable b)
    (hsplit : f.instsOf b = pre ++ id :: post) (hloads : p.loads ≠ .nowhere) {q u : Value}
    {o : Option Ty} (hi : f.inst? id = some ⟨.store q u, o⟩) :
    ∃ s', s.store f (s.replaced.chase q) (s.replaced.chase u) = .ok s' ∧
      s'.Sound f p done b (pre ++ [id]) (pre ++ [id]) := by
  have hpre := Func.prefix_of_split hsplit
  have hu := hwf.use hb hsplit hi rfl (v := u) (List.mem_cons_of_mem _ List.mem_cons_self)
  have hvalue := hwf.consistent.valueTy_of_atHand hb hpre (h.replaced.atHand_chase hwf hb hpre hu)
  have hstep := h.forget id (pre ++ [id])
  unfold BlockNumbering.store
  simp only [hvalue, bind, Except.bind]
  cases hty : f.typeOf (s.replaced.chase u) with
  | none => exact ⟨_, rfl, hstep⟩
  | some ty =>
    refine ⟨_, rfl, hstep.remember fun key v hv => ?_⟩
    simp only [Table.get?] at hv
    split at hv
    · rename_i heq
      cases hv
      rw [← heq]
      exact ⟨hloads, h.replaced.holds_store hwf hb hsplit hi hty⟩
    · cases hv

/-! ### One instruction -/

theorem inst_phi (h : s.Sound f p done b pre stop) (hwf : f.WellFormed) (hb : f.Reachable b)
    (hsplit : f.instsOf b = pre ++ id :: post) (hphi : f.isPhi id = true) :
    ∃ s', BlockNumbering.inst p dom f b s id = .ok s' ∧ s'.Sound f p done b (pre ++ [id]) stop := by
  obtain ⟨inc, ty, hi⟩ := Func.isPhi_eq_true hphi
  have hinst : f.inst id = .ok ⟨.phi inc, ty⟩ := by rw [Func.inst, hi]
  unfold BlockNumbering.inst
  simp only [hinst, bind, Except.bind, Kind.traverse_eq_ok (h.replaced.resolve hwf),
    Kind.mapOperands]
  split
  · have hty : f.typeOf (.inst id) = ty := Func.typeOf_inst hi
    rw [← hty]
    exact h.phi hwf hb hsplit (h.replaced.merges hwf hb (Func.mem_of_split hsplit) hi
      (List.mergeSort_perm _ _))
  · exact ⟨s, rfl, h.advance id stop fun _ _ _ _ hv => hv⟩

theorem inst (h : s.Sound f p done b pre pre) (hwf : f.WellFormed) (hb : f.Reachable b)
    (hdom : ∀ a c, dom.dominates a c = true → f.Dominates a c) (hnew : b ∉ done)
    (hsplit : f.instsOf b = pre ++ id :: post) (hphi : f.isPhi id = false) :
    ∃ s', BlockNumbering.inst p dom f b s id = .ok s' ∧
      s'.Sound f p done b (pre ++ [id]) (pre ++ [id]) := by
  obtain ⟨⟨kind, ty⟩, hi⟩ := hwf.consistent.inst?_of_mem (Func.mem_of_split hsplit)
  have hinst : f.inst id = .ok ⟨kind, ty⟩ := by rw [Func.inst, hi]
  have hkind : kind.isPhi = false := by rwa [Func.isPhi_inst hi] at hphi
  have hidle : kind.hasSideEffects = false → s.Sound f p done b (pre ++ [id]) (pre ++ [id]) :=
    fun hk => h.advance id (pre ++ [id]) fun _ _ _ _ hv => hv.idle hwf hsplit hi hkind hk
  have hpure : kind.isPure = true → ∃ s', (.ok (s.pure dom b id
      (if p.commute then (kind.mapOperands s.replaced.chase).sorted
        else kind.mapOperands s.replaced.chase, ty)) : Checked BlockNumbering) = .ok s' ∧
      s'.Sound f p done b (pre ++ [id]) (pre ++ [id]) := by
    intro hk
    have hcomputes := h.replaced.computes hwf hi hk
    refine ⟨_, rfl, h.pure (hidle (Kind.hasSideEffects_of_pure hk)) hwf hb hdom hnew hsplit ?_⟩
    split
    · exact hcomputes.sorted
    · exact hcomputes
  unfold BlockNumbering.inst
  simp only [hinst, bind, Except.bind, Kind.traverse_eq_ok (h.replaced.resolve hwf)]
  cases kind with
  | phi inc => cases hkind
  | load q =>
    refine ⟨_, rfl, ?_⟩
    split
    · exact hidle rfl
    · rename_i hloads
      exact h.load hwf hb hsplit hloads hi
  | store q u =>
    simp only [Kind.mapOperands]
    split
    · rename_i hloads
      exact ⟨s, rfl, h.advance id (pre ++ [id]) fun _ _ _ hne _ => absurd hloads hne⟩
    · rename_i hloads
      exact h.store hwf hb hsplit hloads hi
  | call callee args => exact ⟨_, rfl, h.forget id _⟩
  | alloca n => exact ⟨s, rfl, hidle rfl⟩
  | _ => exact hpure rfl

theorem step (h : s.Sound f p done b pre (f.passed b pre)) (hwf : f.WellFormed) (hb : f.Reachable b)
    (hdom : ∀ a c, dom.dominates a c = true → f.Dominates a c) (hnew : b ∉ done)
    (hsplit : f.instsOf b = pre ++ id :: post) :
    ∃ s', BlockNumbering.inst p dom f b s id = .ok s' ∧
      s'.Sound f p done b (pre ++ [id]) (f.passed b (pre ++ [id])) := by
  cases hphi : f.isPhi id with
  | true =>
    obtain ⟨hpre, hnext⟩ := hwf.passed_phi hsplit hphi
    rw [hpre] at h
    rw [hnext]
    exact h.inst_phi hwf hb hsplit hphi
  | false =>
    have hphis := Func.phisOf_prefix_of_split hsplit hphi
    rw [Func.passed_of_prefix hphis] at h
    rw [Func.passed_of_prefix (hphis.trans (List.prefix_append _ _))]
    exact h.inst hwf hb hdom hnew hsplit hphi

end Sound

end BlockNumbering

/-! ### One block -/

namespace Numbering

variable {f : Func} {p : NumberingPolicy} {dom : DomTree} {done rest : List BlockId} {b : BlockId}
  {s : Numbering} {e : BlockId}

theorem Sound.empty (f : Func) : Sound f [] {} := by
  refine ⟨fun _ _ h => ?_, fun _ _ h => ?_, fun _ _ h => ?_⟩ <;> cases h

/-- The block that a scan comes to. -/
theorem next_block (hd : dom.Correct f e) (hrpo : dom.rpo = done ++ b :: rest) :
    f.Reachable b ∧ b ∉ done := by
  have hnodup := hd.ordered.nodup
  rw [hrpo, List.nodup_append] at hnodup
  exact ⟨(hd.ordered.mem_iff b).1 (by simp [hrpo]),
    fun hmem => hnodup.2.2 b hmem b List.mem_cons_self rfl⟩

/-- What is known at the end of the only predecessor is known at the start of a block. -/
theorem Sound.availableIn {seen : List InstId} (h : s.Sound f seen) (hwf : f.WellFormed)
    (hd : dom.Correct f e) (hb : f.Reachable b) {key : Value × Ty} {v : Value}
    (hv : (s.availableIn p dom b).get? key = some v) :
    p.loads ≠ .nowhere ∧ f.Holds b (f.phisOf b) key v := by
  unfold Numbering.availableIn at hv
  split at hv
  · cases hv
  · rename_i hchain
    have hloads : p.loads = .chain := by simpa using hchain
    refine ⟨by rw [hloads]; decide, ?_⟩
    split at hv
    · rename_i pred idom hpreds hidom
      split at hv
      · rename_i heq
        subst heq
        cases hout : s.availableOut.get? pred with
        | none =>
          rw [hout] at hv
          cases hv
        | some t =>
          rw [hout] at hv
          have hentry : f.entry ≠ some b := by
            rw [hd.entry]
            intro heq
            exact hd.ne_entry hidom (Option.some.inj heq).symm
          refine (h.availableOut pred t hout key v hv).enter hwf hb hentry (hd.idom_strictly hidom) ?_
          intro q hq hedge
          have hmem := (hd.mem_preds b hb.live q).2 ⟨hq, hedge⟩
          rw [hpreds] at hmem
          exact List.mem_singleton.1 hmem
      · cases hv
    · cases hv

theorem Sound.start (h : s.Sound f (done.flatMap f.instsOf)) (hwf : f.WellFormed)
    (hd : dom.Correct f e) (hb : f.Reachable b) :
    BlockNumbering.Sound f p done b [] (f.passed b []) { s with available := s.availableIn p dom b } := by
  rw [Func.passed_nil]
  refine ⟨?_, fun key v hv => h.availableIn hwf hd hb hv, fun key j hj => nomatch hj⟩
  rw [List.append_nil]
  exact h

theorem Sound.block (h : s.Sound f (done.flatMap f.instsOf)) (hwf : f.WellFormed)
    (hd : dom.Correct f e) (hb : f.Reachable b) (hnew : b ∉ done) :
    ∃ s', Numbering.block p dom f s b = .ok s' ∧ s'.Sound f ((done ++ [b]).flatMap f.instsOf) := by
  obtain ⟨data, hdata⟩ := Func.containsBlock_iff.1 hb.live
  have hdom : ∀ a c, dom.dominates a c = true → f.Dominates a c :=
    fun _ _ hac => hd.dominates_of_eq_true hac
  obtain ⟨s', hs', hscan⟩ := foldlM_spec (BlockNumbering.inst p dom f b) (l := f.instsOf b)
    (I := fun pre s => s.Sound f p done b pre (f.passed b pre))
    (fun _ _ _ _ hsplit hs => hs.step hwf hb hdom hnew hsplit) (h.start hwf hd hb)
  rw [Func.passed_of_prefix (f.phisOf_prefix b)] at hscan
  refine ⟨{ s'.toNumbering with availableOut := s'.availableOut.insert b s'.available }, ?_, ?_⟩
  · unfold Numbering.block
    simp only [Func.block_eq_ok.2 hdata, bind, Except.bind]
    rw [← Func.instsOf_eq hdata, hs']
    rfl
  · refine ⟨hscan.replaced, ?_, fun c t ht key v hv => ?_⟩
    · rw [List.flatMap_append, List.flatMap_singleton]
      exact hscan.leaders
    · simp only [Table.get?_insert] at ht
      split at ht
      · rename_i heq
        subst heq
        cases ht
        exact (hscan.available key v hv).2
      · exact hscan.availableOut c t ht key v hv

end Numbering

namespace Func

variable {f : Func}

/-! ### The whole function -/

theorem number_keeps (hwf : f.WellFormed) (p : NumberingPolicy) :
    ∃ g changed, f.number p = .ok (g, changed) ∧ f.Keeps g := by
  have hstart := Numbering.Sound.empty f
  unfold number
  cases he : f.entry with
  | none =>
    obtain ⟨d, hd, hentry⟩ := compute_of_no_entry he
    have hrpo : d.rpo = [] := List.head?_eq_none_iff.1 hentry
    rw [hd]
    simp only [bind, Except.bind, hrpo]
    exact hstart.replaced.substitute hwf
  | some e =>
    obtain ⟨d, hd, hcorrect⟩ := DomTree.compute_correct he (hwf.entry e he)
    obtain ⟨s, hs, hsound⟩ := foldlM_spec (Numbering.block p d f) (l := d.rpo)
      (I := fun done s => s.Sound f (done.flatMap f.instsOf)) (fun done b post s heq hs => by
        obtain ⟨hb, hnew⟩ := Numbering.next_block hcorrect heq
        exact hs.block hwf hcorrect hb hnew) hstart
    rw [hd]
    simp only [bind, Except.bind, hs]
    exact hsound.replaced.substitute hwf

/-- Indirect jumps leave the function. Then every execution that ends without an undefined operation
ends in the same way after global value numbering, with the same calls and the same memory. -/
theorem number_global_preserves (hwf : f.WellFormed) (hty : f.WellTyped) :
    ∃ g changed, f.number .global = .ok (g, changed) ∧
      ∀ (act : Activation) (memory : Memory), act.linked = false →
        (∀ s, act.own s = true → f.confines s = true) →
        ∀ n e m, f.run act memory n = some (e, m) →
          ∃ k m', g.run act memory k = some (e, m') ∧ m'.calls = m.calls ∧
            m'.memory = m.memory ∧ m'.slots = m.slots := by
  obtain ⟨g, changed, hg, hkeeps⟩ := number_keeps hwf .global
  refine ⟨g, changed, hg, fun act memory hlinked hown n e m hrun => ?_⟩
  exact hkeeps.refines act (act.leaves_of_linked hlinked f) (orderly_of_wellTyped hwf hty hown)
    memory n e m hrun

/-- A sum is stored; the next block computes it again, with the operands in the other order, and
loads it. -/
def sumTwice : Func where
  name := "sample"
  params := [⟨"x", .i64⟩, ⟨"y", .i64⟩, ⟨"p", .ptr⟩]
  ret := some .i64
  arena := #[
    ⟨⟨.binary .add (.arg 0) (.arg 1), some .i64⟩, some ⟨0⟩⟩,
    ⟨⟨.store (.arg 2) (.inst ⟨0⟩), none⟩, some ⟨0⟩⟩,
    ⟨⟨.binary .add (.arg 1) (.arg 0), some .i64⟩, some ⟨1⟩⟩,
    ⟨⟨.load (.arg 2), some .i64⟩, some ⟨1⟩⟩,
    ⟨⟨.binary .mul (.inst ⟨2⟩) (.inst ⟨3⟩), some .i64⟩, some ⟨1⟩⟩]
  blocks := #[
    some { insts := [⟨0⟩, ⟨1⟩], term := .jump ⟨1⟩ },
    some { insts := [⟨2⟩, ⟨3⟩, ⟨4⟩], term := .ret (some (.inst ⟨4⟩)) }]
  entry := some ⟨0⟩

theorem sumTwice_wellFormed : sumTwice.WellFormed := by
  have haccepts : Survey.accepts [(⟨0⟩, []), (⟨1⟩, [⟨0⟩])] sumTwice = true := by decide
  exact Survey.wellFormed_of_accepts haccepts

/-- An activation with three as every argument. -/
def three : Activation where
  args := fun _ => 3
  answer := fun _ _ memory => (0, memory)
  base := fun _ => 0
  own := fun _ => false
  linked := false

/-- The second sum and the load are gone, and the square of the sum is returned. -/
theorem sumTwice_numbered :
    ∃ g, sumTwice.number .global = .ok (g, true) ∧ g.instsOf ⟨1⟩ = [⟨4⟩] ∧
      g.inst? ⟨4⟩ = some ⟨.binary .mul (.inst ⟨0⟩) (.inst ⟨0⟩), some .i64⟩ ∧
      ∃ k m, g.run three (fun _ => 0) k = some (.ret (some 36), m) ∧ m.memory 3 = 6 := by
  obtain ⟨g, changed, hg, hruns⟩ :=
    number_global_preserves sumTwice_wellFormed (by decide : sumTwice.WellTyped)
  have hresult : ((sumTwice.number .global).toOption.map fun r =>
      (r.2, r.1.instsOf ⟨1⟩, r.1.inst? ⟨4⟩)) =
      some (true, [⟨4⟩], some ⟨.binary .mul (.inst ⟨0⟩) (.inst ⟨0⟩), some .i64⟩) := by cbv
  have hexit : (sumTwice.run three (fun _ => 0) 2).map (fun r => (r.1, r.2.memory 3)) =
      some (.ret (some 36), 6) := by cbv
  rw [hg] at hresult
  obtain ⟨rfl, hresult⟩ := Prod.mk.inj (Option.some.inj hresult)
  obtain ⟨hinsts, hinst⟩ := Prod.mk.inj hresult
  obtain ⟨⟨e, m⟩, hrun, heq⟩ := Option.map_eq_some_iff.1 hexit
  obtain ⟨rfl, hmemory⟩ := Prod.mk.inj heq
  obtain ⟨k, m', hrun', _, hmemory', _⟩ :=
    hruns three _ rfl (fun _ hown => absurd hown Bool.false_ne_true) 2 _ m hrun
  exact ⟨g, hg, hinsts, hinst, k, m', hrun', by rw [hmemory', hmemory]⟩

/-- Indirect jumps leave the function. Then every execution that ends without an undefined operation
ends in the same way after early value numbering, whether it looks at memory or not, with the same
calls and the same memory. -/
theorem number_early_preserves (hwf : f.WellFormed) (hty : f.WellTyped) (memoryAware : Bool) :
    ∃ g changed, f.number (.early memoryAware) = .ok (g, changed) ∧
      ∀ (act : Activation) (memory : Memory), act.linked = false →
        (∀ s, act.own s = true → f.confines s = true) →
        ∀ n e m, f.run act memory n = some (e, m) →
          ∃ k m', g.run act memory k = some (e, m') ∧ m'.calls = m.calls ∧
            m'.memory = m.memory ∧ m'.slots = m.slots := by
  obtain ⟨g, changed, hg, hkeeps⟩ := number_keeps hwf (.early memoryAware)
  exact ⟨g, changed, hg, fun act memory hlinked hown => hkeeps.preserves hwf hty hlinked hown memory⟩

/-- A sum is stored, loaded and computed again in one block. -/
def sumStored : Func where
  name := "sample"
  params := [⟨"x", .i64⟩, ⟨"y", .i64⟩, ⟨"p", .ptr⟩]
  ret := some .i64
  arena := #[
    ⟨⟨.binary .add (.arg 0) (.arg 1), some .i64⟩, some ⟨0⟩⟩,
    ⟨⟨.store (.arg 2) (.inst ⟨0⟩), none⟩, some ⟨0⟩⟩,
    ⟨⟨.load (.arg 2), some .i64⟩, some ⟨0⟩⟩,
    ⟨⟨.binary .add (.arg 0) (.arg 1), some .i64⟩, some ⟨0⟩⟩,
    ⟨⟨.binary .mul (.inst ⟨2⟩) (.inst ⟨3⟩), some .i64⟩, some ⟨0⟩⟩]
  blocks := #[some { insts := [⟨0⟩, ⟨1⟩, ⟨2⟩, ⟨3⟩, ⟨4⟩], term := .ret (some (.inst ⟨4⟩)) }]
  entry := some ⟨0⟩

theorem sumStored_wellFormed : sumStored.WellFormed := by
  have haccepts : Survey.accepts [(⟨0⟩, [])] sumStored = true := by decide
  exact Survey.wellFormed_of_accepts haccepts

/-- The load goes only if memory is looked at. The square of the sum is returned in both cases. -/
theorem sumStored_numbered :
    (∃ g, sumStored.number (.early true) = .ok (g, true) ∧
      g.instsOf ⟨0⟩ = [⟨0⟩, ⟨1⟩, ⟨4⟩] ∧
      ∃ k m, g.run three (fun _ => 0) k = some (.ret (some 36), m) ∧ m.memory 3 = 6) ∧
    ∃ g, sumStored.number (.early false) = .ok (g, true) ∧
      g.instsOf ⟨0⟩ = [⟨0⟩, ⟨1⟩, ⟨2⟩, ⟨4⟩] ∧
      ∃ k m, g.run three (fun _ => 0) k = some (.ret (some 36), m) ∧ m.memory 3 = 6 := by
  have hexit : (sumStored.run three (fun _ => 0) 1).map (fun r => (r.1, r.2.memory 3)) =
      some (.ret (some 36), 6) := by cbv
  have hboth : ∀ (memoryAware : Bool) (insts : List InstId),
      ((sumStored.number (.early memoryAware)).toOption.map fun r => (r.2, r.1.instsOf ⟨0⟩)) =
        some (true, insts) →
      ∃ g, sumStored.number (.early memoryAware) = .ok (g, true) ∧ g.instsOf ⟨0⟩ = insts ∧
        ∃ k m, g.run three (fun _ => 0) k = some (.ret (some 36), m) ∧ m.memory 3 = 6 := by
    intro memoryAware insts hresult
    obtain ⟨g, changed, hg, hruns⟩ := number_early_preserves sumStored_wellFormed
      (by decide : sumStored.WellTyped) memoryAware
    rw [hg] at hresult
    obtain ⟨rfl, hinsts⟩ := Prod.mk.inj (Option.some.inj hresult)
    obtain ⟨⟨e, m⟩, hrun, heq⟩ := Option.map_eq_some_iff.1 hexit
    obtain ⟨rfl, hmemory⟩ := Prod.mk.inj heq
    obtain ⟨k, m', hrun', _, hmemory', _⟩ :=
      hruns three _ rfl (fun _ hown => absurd hown Bool.false_ne_true) 1 _ m hrun
    exact ⟨g, hg, hinsts, k, m', hrun', by rw [hmemory', hmemory]⟩
  exact ⟨hboth true _ (by cbv), hboth false _ (by cbv)⟩

end Func

end BinaryLift
