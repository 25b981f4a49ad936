import BinaryLift.Proofs.Closed.Functions
import BinaryLift.Proofs.Graph.Exactness
import BinaryLift.Proofs.Transform.Combination
import BinaryLift.Proofs.Transform.DeadCode
import BinaryLift.Transform.Memory

/-!
# Rewriting closed functions

Dead code, memory accesses and local algebra: no rewrite meets a handle that names nothing, and
everything live code leads to afterwards was led to before or is new. What is folded, narrowed or
combined may be any code, also code that control cannot reach.
-/

namespace BinaryLift

open Func

variable {α : Type} {s : Prop}

/-! ### Sweeps and rounds -/

theorem Gives.sweepOver {I : Func → Prop} {step : Func → α → Transformed} {f : Func} {items : List α}
    (hstep : ∀ x ∈ items, ∀ g, I g → Gives s (fun r => I r.1) (step g x)) (hf : I f) :
    Gives s (fun r => I r.1) (sweepOver step f items) := by
  unfold BinaryLift.sweepOver
  refine Gives.foldlM (I := fun acc : Func × Bool => I acc.1) (fun x hx acc hacc => ?_) hf
  exact (hstep x hx acc.1 hacc).bind fun r hr => .pure hr

/-- Whatever the number of rounds. -/
theorem Gives.untilStable {I : Func → Prop} {round : Func → Transformed}
    (hround : ∀ g, I g → Gives True (fun r => I r.1) (round g)) (n : Nat) {f : Func} (hf : I f) :
    Gives True (fun r => I r.1) (untilStable round n f) := by
  induction n generalizing f with
  | zero => exact .inr ⟨trivial, rfl⟩
  | succ n ih =>
    unfold BinaryLift.untilStable
    refine (hround f hf).bind fun r hr => ?_
    dsimp only
    split
    · exact (ih hr).bind fun r' hr' => .pure hr'
    · exact .pure hr

namespace Func

variable {P : InstId → Prop} {f g h : Func} {id : InstId} {v w lhs rhs : Value} {i : Inst} {ty : Ty}

/-- The function `g` has come from `f` and keeps to `P`. -/
structure Stays (P : InstId → Prop) (f g : Func) : Prop where
  within : g.Enclosed P
  size : f.arena.size ≤ g.arena.size

theorem Enclosed.stays (h : f.Enclosed P) : f.Stays P f := ⟨h, Nat.le_refl _⟩

theorem Stays.trans (hfg : f.Stays P g) (hgh : g.Stays P h) : f.Stays P h :=
  ⟨hgh.within, Nat.le_trans hfg.size hgh.size⟩

theorem Stays.knows (hg : f.Stays P g) (hv : f.Knows P v) : g.Knows P v := hv.mono hg.size

namespace Enclosed

theorem stays_without (h : f.Enclosed P) {ids : List InstId} (hw : f.Without ids g) : f.Stays P g :=
  ⟨h.without hw, Nat.le_of_eq (size_arena_congr hw.inst?).symm⟩

theorem gives_removeInsts (h : f.Enclosed P) (ids : List InstId) :
    Gives s (f.Stays P) (f.removeInsts ids) := by
  obtain ⟨g, hg, hw⟩ := removeInsts_spec h.consistent.housed ids
  exact .of_ok hg (h.stays_without hw)

theorem gives_removeInst (h : f.Enclosed P) (id : InstId) : Gives s (f.Stays P) (f.removeInst id) := by
  obtain ⟨g, hg, hw⟩ := removeInst_spec h.consistent.housed id
  exact .of_ok hg (h.stays_without hw)

theorem stays_mapOperands (h : f.Enclosed P) {ρ : Value → Value}
    (hρ : ∀ v, f.Knows P v → f.Knows P (ρ v)) : f.Stays P (f.mapOperands ρ) :=
  ⟨h.mapOperands hρ, Nat.le_of_eq (sameLayout_mapOperands f ρ).arena.symm⟩

theorem stays_replaceAllUses (h : f.Enclosed P) (v : Value) (hw : f.Knows P w) :
    f.Stays P (f.replaceAllUses v w) :=
  ⟨h.replaceAllUses hw, Nat.le_of_eq (sameLayout_replaceAllUses f v w).arena.symm⟩

theorem stays_modifyKind (h : f.Enclosed P) (id : InstId) {k : Kind → Kind}
    (hk : ∀ i, f.inst? id = some i → (∀ v ∈ i.kind.operands, f.Knows P v) →
      ∀ v ∈ (k i.kind).operands, f.Knows P v) : f.Stays P (f.modifyKind id k) :=
  ⟨h.modifyKind hk, Nat.le_of_eq (sameLayout_modifyKind f id k).arena.symm⟩

theorem stays_gains (h : f.Enclosed P) {b : BlockId} (hg : f.Gains b i g)
    (hi : ∀ v ∈ i.kind.operands, f.Knows P v) : f.Stays P g :=
  ⟨h.gains hg hi, by rw [hg.arena, Array.size_push]; exact Nat.le_succ _⟩

/-- An instruction makes way for a value. -/
theorem gives_replaced (h : f.Enclosed P) (id : InstId) (hv : f.Knows P v) :
    Gives s (f.Stays P) ((f.replaceAllUses (.inst id) v).removeInst id) := by
  have hstays := h.stays_replaceAllUses (.inst id) hv
  exact (hstays.within.gives_removeInst id).mono fun _ hg => hstays.trans hg

/-! ### Dead code -/

theorem dropUnusedOnce_returns (h : f.Enclosed P) :
    ∃ g changed, f.dropUnusedOnce = .ok (g, changed) ∧ f.Stays P g ∧
      (changed = true → g.liveInsts.length < f.liveInsts.length) := by
  obtain ⟨dead, hdead, hmem⟩ := unused_spec h.consistent
  unfold dropUnusedOnce
  rw [hdead]
  cases dead with
  | nil => exact ⟨f, false, rfl, h.stays, fun h => nomatch h⟩
  | cons id rest =>
    obtain ⟨g, hg, hwithout⟩ := removeInsts_spec h.consistent.housed (id :: rest)
    refine ⟨g, true, ?_, h.stays_without hwithout, fun _ => ?_⟩
    · simp only [bind, Except.bind, List.isEmpty_cons, Bool.false_eq_true, if_false, hg]
      rfl
    · exact hwithout.length_lt h.consistent (h.without hwithout).consistent
        ((hmem id).1 List.mem_cons_self).1 List.mem_cons_self

theorem gives_dropUnused (h : f.Enclosed P) : Gives s (fun r => f.Stays P r.1) f.dropUnused := by
  obtain ⟨g, changed, hg, hstays⟩ := untilStable_spec (I := f.Stays P)
    (μ := fun g => g.liveInsts.length) (fun g hg => by
      obtain ⟨g', c, hg', hstays, hless⟩ := hg.within.dropUnusedOnce_returns
      exact ⟨g', c, hg', hg.trans hstays, hless⟩) _ h.stays (Nat.lt_succ_self _)
  exact .of_ok hg hstays

theorem knows_of_wanted (h : f.Enclosed P) (hid : f.Wanted id) : f.Knows P (.inst id) := by
  induction hid with
  | effects hid => exact h.knows_of_mem hid
  | term hdata hj => exact h.terms _ _ hdata _ hj
  | operand _ hi hj ih => exact h.insts _ _ (ih _ rfl).1 hi _ hj

theorem gives_dropUnneeded (h : f.Enclosed P) : Gives s (fun r => f.Stays P r.1) f.dropUnneeded := by
  obtain ⟨keep, hkeep⟩ := needed_of_wanted h.consistent fun id hid =>
    Option.isSome_iff_exists.2 (h.knows_of_wanted hid).exists_inst
  unfold dropUnneeded
  rw [hkeep]
  exact (h.gives_removeInsts _).bind fun g hg => .pure hg

/-! ### Memory accesses -/

theorem gives_constantAddressIn (h : f.Enclosed P) (memory n : Nat) (hv : f.Knows P v) :
    Gives True (fun _ => True) (f.constantAddressIn memory n v) := by
  induction n generalizing v with
  | zero => exact .inr ⟨trivial, rfl⟩
  | succ n ih =>
    cases v with
    | const c => exact .pure trivial
    | arg k => exact .pure trivial
    | inst id =>
      unfold constantAddressIn
      split
      · exact .pure trivial
      · refine (h.gives_kind hv).bind fun k hk => ?_
        split
        · exact .pure trivial
        · rename_i base c
          split
          · exact .pure trivial
          · exact (ih (hk.2 base List.mem_cons_self)).bind fun _ _ => .pure trivial
        · exact .pure trivial

theorem gives_constantLoad (h : f.Enclosed P) (img : Image) (memory : Nat) (policy : MemoryPolicy)
    (hid : f.Knows P (.inst id)) :
    Gives True (fun o => ∀ v, o = some v → f.Knows P v) (f.constantLoad img memory policy id) := by
  unfold constantLoad
  refine (h.gives_inst hid).bind fun i hi => ?_
  split
  · rename_i ptr ty hk _
    have hptr : f.Knows P ptr := hi.2 ptr (by rw [hk]; exact List.mem_singleton_self ptr)
    split
    · exact .pure nofun
    · refine (h.gives_constantAddressIn memory (f.arena.size + 1) hptr).bind fun a _ => .pure ?_
      intro v hv
      obtain ⟨w, _, rfl⟩ := Option.map_eq_some_iff.1 hv
      exact knows_int w ty
  · exact .pure nofun

theorem gives_foldImageLoads (h : f.Enclosed P) (img : Image) (memory : Nat) (policy : MemoryPolicy) :
    Gives True (fun r => f.Stays P r.1) (f.foldImageLoads img memory policy) := by
  refine .sweepOver (fun id hid g hg => ?_) h.stays
  have hknown := hg.knows (h.knows_of_mem_liveInsts hid)
  refine (hg.within.gives_constantLoad img memory policy hknown).bind fun o ho => ?_
  cases o with
  | none => exact .pure hg
  | some v =>
    exact (hg.within.gives_replaced id (ho v rfl)).bind fun g' hg' => .pure (hg.trans hg')

theorem gives_flattenMemory (h : f.Enclosed P) (memory : Nat) :
    Gives s (fun r => f.Stays P r.1) (f.flattenMemory memory) := by
  refine .sweepOver (fun id hid g hg => ?_) h.stays
  refine (hg.within.gives_kind (hg.knows (h.knows_of_mem_liveInsts hid))).bind fun k hk => ?_
  obtain ⟨⟨ty, hi⟩, hops⟩ := hk
  split
  · rename_i base offset
    split
    · have hflat : g.Stays P (g.modifyKind id fun _ => .cast .inttoptr offset) := by
        refine hg.within.stays_modifyKind id fun i _ _ v hv => ?_
        rw [List.mem_singleton.1 hv]
        exact hops offset (by simp [Kind.operands])
      exact .pure (hg.trans hflat)
    · exact .pure hg
  · exact .pure hg

theorem gives_narrowable? (h : f.Enclosed P) (hid : f.Knows P (.inst id)) :
    Gives s (fun o => ∀ load ptr, o = some (load, ptr) → f.isLive load = true ∧ f.Knows P ptr)
      (f.narrowable? id) := by
  unfold narrowable?
  refine (h.gives_kind hid).bind fun k hk => ?_
  split
  · rename_i load
    have hload : f.Knows P (.inst load) := hk.2 _ (List.mem_singleton_self _)
    split
    · exact .pure nofun
    · rename_i hlive
      refine (h.gives_inst hload).bind fun i hi => ?_
      split
      · rename_i ptr ty
        refine .pure fun load' ptr' heq => ?_
        split at heq
        · cases heq
        · cases heq
          exact ⟨by simpa using hlive, hi.2 _ (List.mem_singleton_self _)⟩
      · exact .pure nofun
  · exact .pure nofun

/-- An instruction before a live one. -/
theorem gives_insertBefore (h : f.Enclosed P) {anchor : InstId} (hlive : f.isLive anchor = true)
    (hi : ∀ v ∈ i.kind.operands, f.Knows P v) :
    Gives s (fun r => f.Stays P r.1 ∧ r.1.Knows P (.inst r.2)) (f.insertBefore anchor i) := by
  obtain ⟨b, hb⟩ := Option.isSome_iff_exists.1 hlive
  obtain ⟨data, hdata⟩ := containsBlock_iff.1 (h.consistent.live anchor b hb)
  obtain ⟨g, hg, _⟩ := insertInst_of_block ((data.insts.idxOf? anchor).getD 0) i hdata
  have hbefore : f.insertBefore anchor i = .ok (g, ⟨f.arena.size⟩) := by
    unfold insertBefore
    rw [hb]
    simp only [block_eq_ok.2 hdata, bind, Except.bind]
    exact hg
  have hgains := (insertInst_gains hg).2
  refine .of_ok hbefore ⟨h.stays_gains hgains hi, ?_⟩
  rintro j ⟨⟩
  refine ⟨h.fresh _ (Nat.le_refl _), ?_⟩
  rw [hgains.arena, Array.size_push]
  exact Nat.lt_succ_self _

theorem gives_narrowLoads (h : f.Enclosed P) : Gives s (fun r => f.Stays P r.1) f.narrowLoads := by
  refine .sweepOver (fun id hid g hg => ?_) h.stays
  have hknown := hg.knows (h.knows_of_mem_liveInsts hid)
  unfold narrowLoad
  refine (hg.within.gives_narrowable? hknown).bind fun o ho => ?_
  split
  · exact .pure hg
  · rename_i load ptr
    obtain ⟨hlive, hptr⟩ := ho load ptr rfl
    split
    · exact .pure hg
    · refine (hg.within.gives_inst hknown).bind fun i _ => ?_
      refine (hg.within.gives_insertBefore hlive (i := ⟨.load ptr, i.ty⟩) fun v hv => ?_).bind ?_
      · rw [List.mem_singleton.1 hv]
        exact hptr
      · rintro ⟨g₁, narrow⟩ ⟨hg₁, hnarrow⟩
        have hg₂ := hg₁.within.stays_replaceAllUses (.inst id) hnarrow
        refine (hg₂.within.gives_removeInsts [id, load]).bind fun g₃ hg₃ => .pure ?_
        exact hg.trans (hg₁.trans (hg₂.trans hg₃))

/-! ### Local algebra -/

theorem knows_of_derives (h : f.Enclosed P) {k : Kind} (hops : ∀ v ∈ k.operands, f.Knows P v)
    (hv : f.Derives k v) : f.Knows P v := by
  rcases hv with ⟨c, rfl⟩ | hv | ⟨j, i, hj, hi, _, hv⟩
  · exact knows_const c
  · exact hops v hv
  · exact h.insts j i (hops _ hj j rfl).1 hi v hv

theorem chainLink?_returns (op : BinOp) (hid : f.Knows P (.inst id)) :
    ∃ o, f.chainLink? op id = .ok o := by
  obtain ⟨⟨k, ty⟩, hi⟩ := hid.exists_inst
  unfold chainLink?
  simp only [kind_of_inst? hi, bind, Except.bind]
  split <;> exact ⟨_, rfl⟩

theorem canonicalBinary?_returns (op : BinOp) (hlhs : f.Knows P lhs) (rhs : Value) (ty : Ty) :
    ∃ o, f.canonicalBinary? op lhs rhs ty = .ok o := by
  unfold canonicalBinary?
  split
  · exact ⟨_, rfl⟩
  · cases rhs with
    | const c =>
      simp only
      split
      · split <;> exact ⟨_, rfl⟩
      · cases lhs with
        | inst inner =>
          simp only
          split
          · obtain ⟨o, ho⟩ := chainLink?_returns op hlhs
            simp only [ho, bind, Except.bind]
            cases o <;> exact ⟨_, rfl⟩
          · exact ⟨_, rfl⟩
        | const c' => exact ⟨_, rfl⟩
        | arg n => exact ⟨_, rfl⟩
    | arg n => exact ⟨_, rfl⟩
    | inst j => exact ⟨_, rfl⟩

theorem canonical?_returns (hops : ∀ v ∈ i.kind.operands, f.Knows P v) :
    ∃ o, f.canonical? i = .ok o := by
  obtain ⟨k, ty⟩ := i
  cases k with
  | binary op lhs rhs => exact canonicalBinary?_returns op (hops lhs List.mem_cons_self) rhs _
  | ptrAdd base offset =>
    cases base with
    | inst inner =>
      cases offset with
      | const c =>
        obtain ⟨⟨k, o⟩, hi⟩ := (hops _ List.mem_cons_self).exists_inst
        simp only [canonical?, kind_of_inst? hi, bind, Except.bind]
        split <;> exact ⟨_, rfl⟩
      | _ => exact ⟨_, rfl⟩
    | _ => exact ⟨_, rfl⟩
  | _ => exact ⟨_, rfl⟩

theorem gives_canonicalize (h : f.Enclosed P) (hid : f.Knows P (.inst id)) :
    Gives s (fun r => f.Stays P r.1) (f.canonicalize id) := by
  unfold canonicalize
  refine (h.gives_inst hid).bind fun i hi => ?_
  obtain ⟨o, ho⟩ := canonical?_returns hi.2
  simp only [ho, bind, Except.bind]
  cases o with
  | none => exact .pure h.stays
  | some k =>
    have hk := (canonical?_canonical hi.1 ho).derives
    have hstays : f.Stays P (f.modifyKind id fun _ => k) :=
      h.stays_modifyKind id fun _ _ _ v hv => h.knows_of_derives hi.2 (hk v hv)
    exact .pure hstays

theorem simplifyCast?_returns (h : f.Enclosed P) (op : CastOp) (hv : f.Knows P v) (ty : Ty) :
    ∃ o, f.simplifyCast? op v ty = .ok o := by
  unfold simplifyCast?
  obtain ⟨source, hsource, _⟩ := (gives_valueTy hv).returns
  simp only [hsource, bind, Except.bind]
  cases source with
  | none => exact ⟨_, rfl⟩
  | some source =>
    cases v with
    | const c => exact ⟨_, rfl⟩
    | arg n => exact ⟨_, rfl⟩
    | inst inner =>
      simp only
      split
      · exact ⟨_, rfl⟩
      · obtain ⟨k, hk, hi, hops⟩ := (h.gives_kind hv).returns
        simp only [hk]
        split
        · obtain ⟨_, hinner, _⟩ := (gives_valueTy (hops _ (List.mem_singleton_self _))).returns
          simp only [hinner]
          exact ⟨_, rfl⟩
        · exact ⟨_, rfl⟩

theorem simplify?_returns (h : f.Enclosed P) (dom : DomTree) (hi : f.inst? id = some i)
    (hops : ∀ v ∈ i.kind.operands, f.Knows P v) : ∃ o, f.simplify? dom id = .ok o := by
  obtain ⟨k, ty⟩ := i
  unfold simplify?
  simp only [inst_of_inst? hi, bind, Except.bind]
  cases ty with
  | none => exact ⟨_, rfl⟩
  | some ty =>
    cases k with
    | cast op v => exact h.simplifyCast?_returns op (hops v (List.mem_singleton_self v)) ty
    | select cond x y =>
      simp only
      split <;> exact ⟨_, rfl⟩
    | _ => exact ⟨_, rfl⟩

theorem mem_of_commonIncoming? {inc : List (BlockId × Value)} {me : Value}
    (hv : commonIncoming? me inc = some v) : v ∈ inc.map (·.2) := by
  unfold commonIncoming? at hv
  split at hv
  · cases hv
  · rename_i u rest hsplit
    split at hv
    · cases hv
      exact List.mem_of_mem_filter (hsplit ▸ List.mem_cons_self)
    · cases hv

theorem gives_simplify? (h : f.Enclosed P) (dom : DomTree) (hid : f.Knows P (.inst id)) :
    Gives s (fun o => ∀ v, o = some v → f.Knows P v) (f.simplify? dom id) := by
  obtain ⟨⟨k, ty⟩, hi⟩ := hid.exists_inst
  have hops := h.insts id _ (hid id rfl).1 hi
  obtain ⟨o, ho⟩ := h.simplify?_returns dom hi hops
  refine .of_ok ho ?_
  rintro v rfl
  cases hphi : k.isPhi with
  | false => exact h.knows_of_derives hops (simplify?_replaces hi hphi ho).derives
  | true =>
    cases k with
    | phi inc =>
      exact hops v (mem_of_commonIncoming? (simplify?_phi hi ho).1)
    | _ => cases hphi

theorem gives_combineInst (h : f.Enclosed P) (dom : DomTree) (id : InstId) :
    Gives s (fun r => f.Stays P r.1) (combineInst dom f id) := by
  unfold combineInst
  split
  · exact .pure h.stays
  · rename_i hlive
    have hknown : f.Knows P (.inst id) := h.knows_of_isLive (by simpa using hlive)
    refine (h.gives_canonicalize hknown).bind ?_
    rintro ⟨g, c⟩ hg
    refine (hg.within.gives_simplify? dom (hg.knows hknown)).bind fun o ho => ?_
    cases o with
    | none => exact .pure hg
    | some v =>
      exact (hg.within.gives_replaced id (ho v rfl)).bind fun g' hg' => .pure (hg.trans hg')

/-- Combination for any number of rounds. -/
theorem gives_combineRounds (h : f.Enclosed P) (dom : DomTree) (n : Nat) :
    Gives True (fun r => f.Stays P r.1) (untilStable (combineOnce dom) n f) := by
  refine .untilStable (fun g hg => ?_) n h.stays
  exact .sweepOver (fun id _ g' hg' =>
    (hg'.within.gives_combineInst dom id).mono fun _ hr => hg'.trans hr) hg

theorem gives_combine (h : f.Enclosed P) : Gives True (fun r => f.Stays P r.1) f.combine := by
  obtain ⟨dom, hdom⟩ := DomTree.compute_returns h.entry
  unfold combine
  rw [hdom]
  exact h.gives_combineRounds dom _

end Enclosed

end Func

end BinaryLift
