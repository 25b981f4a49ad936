import BinaryLift.Proofs.Program.Bookkeeping
import BinaryLift.Proofs.Program.Checks
import BinaryLift.Program.Iteration

/-!
# Closed functions

A function is closed if it names only what exists: control stays within live blocks and operands are
instructions that have been made. No value need be defined where it is used, and blocks that control
cannot reach count like others. An operand may name an instruction that has been taken out; what such
an instruction read is then part of what live code leads to.

The changes that passes make keep to a set of instructions that holds everything live code leads to.
-/

namespace BinaryLift.Func

variable {f g h : Func} {P : InstId → Prop} {b c into source pred : BlockId} {id j : InstId}
  {data : Block} {i : Inst} {v w : Value} {s : Prop}

structure Closed (f : Func) : Prop where
  consistent : f.Consistent
  entry : f.EntryLive
  targets : ∀ b data, f.block? b = some data → ∀ s ∈ data.term.successors,
    f.containsBlock s = true
  operands : ∀ id i, f.isLive id = true → f.inst? id = some i →
    ∀ j, .inst j ∈ i.kind.operands → j.index < f.arena.size
  termOperands : ∀ b data, f.block? b = some data →
    ∀ j, .inst j ∈ data.term.operands → j.index < f.arena.size

/-- Live code leads to the instruction through operands. -/
inductive LeadsTo (f : Func) : InstId → Prop
  | inst {id j : InstId} {i : Inst} (hlive : f.isLive id = true) (hi : f.inst? id = some i)
      (hj : .inst j ∈ i.kind.operands) : LeadsTo f j
  | term {b : BlockId} {data : Block} {j : InstId} (hb : f.block? b = some data)
      (hj : .inst j ∈ data.term.operands) : LeadsTo f j
  | through {id j : InstId} {i : Inst} (hid : LeadsTo f id) (hi : f.inst? id = some i)
      (hj : .inst j ∈ i.kind.operands) : LeadsTo f j

/-- The function is closed, and so are the removed instructions that live code leads to. -/
structure ClosedThrough (f : Func) : Prop extends f.Closed where
  made : ∀ id, f.LeadsTo id → id.index < f.arena.size

/-- A value that is no instruction, or one of the instructions in `P` that have been made. -/
def Knows (f : Func) (P : InstId → Prop) (v : Value) : Prop :=
  ∀ j, v = .inst j → P j ∧ j.index < f.arena.size

/-- Live code and the instructions in `P` lead to nothing but made instructions in `P`. Those that
are yet to be made are in `P`. -/
structure Enclosed (P : InstId → Prop) (f : Func) : Prop where
  consistent : f.Consistent
  entry : f.EntryLive
  targets : ∀ b data, f.block? b = some data → ∀ s ∈ data.term.successors,
    f.containsBlock s = true
  live : ∀ id, f.isLive id = true → P id
  fresh : ∀ id, f.arena.size ≤ id.index → P id
  insts : ∀ id i, P id → f.inst? id = some i → ∀ v ∈ i.kind.operands, f.Knows P v
  terms : ∀ b data, f.block? b = some data → ∀ v ∈ data.term.operands, f.Knows P v

theorem ClosedThrough.within (h : f.ClosedThrough) :
    f.Enclosed fun id => f.LeadsTo id ∨ f.isLive id = true ∨ f.arena.size ≤ id.index where
  consistent := h.consistent
  entry := h.entry
  targets := h.targets
  live := fun _ hid => .inr (.inl hid)
  fresh := fun _ hid => .inr (.inr hid)
  insts := by
    rintro id i hid hi v hv j rfl
    have hleads : f.LeadsTo j := by
      rcases hid with hid | hid | hid
      · exact .through hid hi hv
      · exact .inst hid hi hv
      · exact absurd (index_lt_of_inst? hi) (Nat.not_lt_of_le hid)
    exact ⟨.inl hleads, h.made j hleads⟩
  terms := by
    rintro b data hb v hv j rfl
    have hleads : f.LeadsTo j := .term hb hv
    exact ⟨.inl hleads, h.made j hleads⟩

namespace Enclosed

theorem closedThrough (h : f.Enclosed P) : f.ClosedThrough where
  consistent := h.consistent
  entry := h.entry
  targets := h.targets
  operands := fun id i hid hi j hj => (h.insts id i (h.live id hid) hi _ hj j rfl).2
  termOperands := fun b data hb j hj => (h.terms b data hb _ hj j rfl).2
  made := by
    intro id hid
    have hknown : f.Knows P (.inst id) := by
      induction hid with
      | inst hlive hi hj => exact h.insts _ _ (h.live _ hlive) hi _ hj
      | term hb hj => exact h.terms _ _ hb _ hj
      | through _ hi hj ih => exact h.insts _ _ (ih _ rfl).1 hi _ hj
    exact (hknown id rfl).2

/-! ### What can be asked for -/

theorem knows_of_isLive (h : f.Enclosed P) (hid : f.isLive id = true) : f.Knows P (.inst id) := by
  rintro j ⟨⟩
  exact ⟨h.live id hid, index_lt_of_isLive hid⟩

theorem knows_of_mem (h : f.Enclosed P) (hid : id ∈ f.instsOf b) : f.Knows P (.inst id) :=
  h.knows_of_isLive (h.consistent.isLive_of_mem hid)

theorem knows_of_mem_liveInsts (h : f.Enclosed P) (hid : id ∈ f.liveInsts) : f.Knows P (.inst id) := by
  obtain ⟨b, hb⟩ := mem_liveInsts.1 hid
  exact h.knows_of_mem hb

end Enclosed

@[simp] theorem knows_const (c : Constant) : f.Knows P (.const c) := nofun

@[simp] theorem knows_arg (n : Nat) : f.Knows P (.arg n) := nofun

theorem knows_int (x : Word) (ty : Ty) : f.Knows P (.int x ty) := nofun

theorem Knows.exists_inst (h : f.Knows P (.inst id)) : ∃ i, f.inst? id = some i :=
  exists_inst?_of_lt (h id rfl).2

theorem Knows.mono (h : f.Knows P v) (hle : f.arena.size ≤ g.arena.size) : g.Knows P v :=
  fun j hj => ⟨(h j hj).1, Nat.lt_of_lt_of_le (h j hj).2 hle⟩

theorem inst_of_inst? (hi : f.inst? id = some i) : f.inst id = .ok i := by
  unfold inst
  rw [hi]

/-- An instruction that is known can be looked at, and what it reads is known. -/
theorem Enclosed.gives_inst (h : f.Enclosed P) (hid : f.Knows P (.inst id)) :
    Gives s (fun i => f.inst? id = some i ∧ ∀ v ∈ i.kind.operands, f.Knows P v) (f.inst id) := by
  obtain ⟨i, hi⟩ := hid.exists_inst
  exact .of_ok (inst_of_inst? hi) ⟨hi, h.insts id i (hid id rfl).1 hi⟩

theorem Enclosed.gives_kind (h : f.Enclosed P) (hid : f.Knows P (.inst id)) :
    Gives s (fun k => (∃ ty, f.inst? id = some ⟨k, ty⟩) ∧ ∀ v ∈ k.operands, f.Knows P v)
      (f.kind id) := by
  refine (h.gives_inst (s := s) hid).bind fun i hi => .pure ⟨⟨i.ty, hi.1⟩, hi.2⟩

theorem gives_valueTy (hv : f.Knows P v) : Gives s (fun _ => True) (f.valueTy v) := by
  cases v with
  | const c => exact .pure trivial
  | arg n => exact .pure trivial
  | inst id =>
    obtain ⟨i, hi⟩ := hv.exists_inst
    exact (Gives.of_ok (Q := fun _ => True) (inst_of_inst? hi) trivial).bind fun _ _ => .pure trivial

/-! ### Changes -/

theorem knows_congr (hsize : g.arena.size = f.arena.size) : g.Knows P v ↔ f.Knows P v := by
  unfold Knows
  rw [hsize]

namespace Enclosed

theorem of_layout (h : f.Enclosed P) (hlayout : f.SameLayout g)
    (hinsts : ∀ id i, P id → g.inst? id = some i → ∀ v ∈ i.kind.operands, f.Knows P v)
    (hterms : ∀ b data, g.block? b = some data →
      (∀ s ∈ data.term.successors, f.containsBlock s = true) ∧
        ∀ v ∈ data.term.operands, f.Knows P v) : g.Enclosed P where
  consistent := hlayout.consistent h.consistent
  entry := .of_eq hlayout.entry (fun b hb _ => (hlayout.live b).trans hb) h.entry
  targets := by
    intro b data hb s hs
    rw [hlayout.live]
    exact (hterms b data hb).1 s hs
  live := by
    intro id hid
    rw [hlayout.isLive] at hid
    exact h.live id hid
  fresh := by
    intro id hid
    rw [hlayout.arena] at hid
    exact h.fresh id hid
  insts := fun id i hid hi v hv => (knows_congr hlayout.arena).2 (hinsts id i hid hi v hv)
  terms := fun b data hb v hv => (knows_congr hlayout.arena).2 ((hterms b data hb).2 v hv)

theorem curtailed (h : f.Enclosed P) (hlayout : f.SameLayout g) (hcurtails : f.Curtails g)
    (hblock : ∀ b, g.block? b = f.block? b) : g.Enclosed P := by
  refine h.of_layout hlayout (fun id i hid hi v hv => ?_) fun b data hb => ?_
  · obtain ⟨i', hi', _, hsub⟩ := hcurtails id i hi
    exact h.insts id i' hid hi' v (hsub hv)
  · rw [hblock] at hb
    exact ⟨h.targets b data hb, h.terms b data hb⟩

theorem retold (h : f.Enclosed P) (hretold : f.Retold g) : g.Enclosed P :=
  h.curtailed hretold.layout hretold.curtails hretold.block

theorem modifyKind (h : f.Enclosed P) {k : Kind → Kind}
    (hk : ∀ i, f.inst? id = some i → (∀ v ∈ i.kind.operands, f.Knows P v) →
      ∀ v ∈ (k i.kind).operands, f.Knows P v) : (f.modifyKind id k).Enclosed P := by
  refine h.of_layout (sameLayout_modifyKind f id k) (fun j i hj hi v hv => ?_) fun b data hb =>
    ⟨h.targets b data hb, h.terms b data hb⟩
  rw [inst?_modifyKind] at hi
  split at hi
  · rename_i heq
    obtain ⟨i', hi', rfl⟩ := Option.map_eq_some_iff.1 hi
    subst heq
    exact hk i' hi' (h.insts id i' hj hi') v hv
  · exact h.insts j i hj hi v hv

theorem setTerm (h : f.Enclosed P) (hb : f.containsBlock b = true) {t : Terminator}
    (htargets : ∀ s ∈ t.successors, f.containsBlock s = true)
    (hterms : ∀ v ∈ t.operands, f.Knows P v) :
    ∃ g, f.setTerm b t = .ok g ∧ g.Enclosed P ∧ f.SameLayout g := by
  obtain ⟨data, hdata⟩ := containsBlock_iff.1 hb
  obtain ⟨g, hg⟩ : ∃ g, f.setTerm b t = .ok g := ⟨_, modifyBlock_eq_ok.2 ⟨data, hdata, rfl⟩⟩
  have hlayout := setTerm_sameLayout hg
  have hblock := block?_of_modifyBlock hg
  obtain ⟨_, _, hput⟩ := modifyBlock_eq_ok.1 hg
  refine ⟨g, hg, h.of_layout hlayout (fun id i hid hi => ?_) fun c cdata hc => ?_, hlayout⟩
  · rw [hput] at hi
    exact h.insts id i hid hi
  · rw [hblock c] at hc
    split at hc
    · rw [hdata] at hc
      cases hc
      exact ⟨htargets, hterms⟩
    · exact ⟨h.targets c cdata hc, h.terms c cdata hc⟩

theorem mapOperands (h : f.Enclosed P) {ρ : Value → Value}
    (hρ : ∀ v, f.Knows P v → f.Knows P (ρ v)) : (f.mapOperands ρ).Enclosed P := by
  have hlayout := sameLayout_mapOperands f ρ
  refine h.of_layout hlayout (fun id i hid hi v hv => ?_) fun b data hb => ?_
  · have hlt := index_lt_of_inst? hi
    rw [hlayout.arena] at hlt
    obtain ⟨i₀, hi₀⟩ := exists_inst?_of_lt hlt
    rw [inst?_mapOperands ρ hi₀] at hi
    cases hi
    dsimp only at hv
    split at hv
    · rw [Kind.operands_mapOperands] at hv
      obtain ⟨u, hu, rfl⟩ := List.mem_map.1 hv
      exact hρ u (h.insts id i₀ hid hi₀ u hu)
    · exact h.insts id i₀ hid hi₀ v hv
  · rw [block?_mapOperands] at hb
    obtain ⟨data₀, hb₀, rfl⟩ := Option.map_eq_some_iff.1 hb
    refine ⟨fun s hs => ?_, fun v hv => ?_⟩
    · rw [Terminator.successors_mapOperands] at hs
      exact h.targets b data₀ hb₀ s hs
    · rw [Terminator.operands_mapOperands] at hv
      obtain ⟨u, hu, rfl⟩ := List.mem_map.1 hv
      exact hρ u (h.terms b data₀ hb₀ u hu)

theorem replaceAllUses (h : f.Enclosed P) (hw : f.Knows P w) : (f.replaceAllUses v w).Enclosed P := by
  unfold Func.replaceAllUses
  split
  · exact h
  · refine h.mapOperands fun u hu => ?_
    split
    · exact hw
    · exact hu

theorem without (h : f.Enclosed P) {ids : List InstId} (hw : f.Without ids g) : g.Enclosed P := by
  have hsize := size_arena_congr hw.inst?
  have hold : ∀ {b data}, g.block? b = some data →
      ∃ data₀, f.block? b = some data₀ ∧ data.term = data₀.term := by
    intro b data hb
    rw [hw.block? b] at hb
    obtain ⟨data₀, hb₀, rfl⟩ := Option.map_eq_some_iff.1 hb
    exact ⟨data₀, hb₀, rfl⟩
  have hlive : ∀ b, g.containsBlock b = f.containsBlock b := fun b => by
    rw [containsBlock, hw.block? b, Option.isSome_map, containsBlock]
  refine ⟨hw.consistent h.consistent, .of_eq hw.entry (fun b hb _ => (hlive b).trans hb) h.entry,
    fun b data hb s hs => ?_, fun id hid => h.live id ?_, fun id hid => h.fresh id (hsize ▸ hid),
    fun id i hid hi v hv => ?_, fun b data hb v hv => ?_⟩
  · obtain ⟨data₀, hb₀, hterm⟩ := hold hb
    rw [hlive]
    exact h.targets b data₀ hb₀ s (hterm ▸ hs)
  · rw [isLive, hw.instBlock id] at hid
    split at hid
    · cases hid
    · exact hid
  · rw [hw.inst? id] at hi
    exact (knows_congr hsize).2 (h.insts id i hid hi v hv)
  · obtain ⟨data₀, hb₀, hterm⟩ := hold hb
    exact (knows_congr hsize).2 (h.terms b data₀ hb₀ v (hterm ▸ hv))

/-- Blocks that no remaining block goes to may be removed. -/
theorem removed (h : f.Enclosed P) {bs : List BlockId} (hr : f.Removed bs g)
    (he : ∀ e, f.entry = some e → e ∉ bs)
    (hbs : ∀ b data, f.block? b = some data → b ∉ bs → ∀ s ∈ data.term.successors, s ∉ bs) :
    g.Enclosed P := by
  have hsize := size_arena_congr hr.inst?
  have hold : ∀ {b data}, g.block? b = some data → b ∉ bs ∧ f.block? b = some data := by
    intro b data hb
    rw [hr.block? b] at hb
    split at hb
    · cases hb
    · exact ⟨‹_›, hb⟩
  have hlive : ∀ b, b ∉ bs → g.containsBlock b = f.containsBlock b := by
    intro b hb
    rw [containsBlock, hr.block? b, if_neg hb, containsBlock]
  refine ⟨hr.consistent h.consistent, .of_eq hr.entry
      (fun b hb heq => (hlive b (he b heq)).trans hb) h.entry,
    fun b data hb s hs => ?_, fun id hid => h.live id ?_, fun id hid => h.fresh id (hsize ▸ hid),
    fun id i hid hi v hv => ?_, fun b data hb v hv => ?_⟩
  · obtain ⟨hnot, hb₀⟩ := hold hb
    rw [hlive s (hbs b data hb₀ hnot s hs)]
    exact h.targets b data hb₀ s hs
  · rw [isLive, hr.instBlock id] at hid
    cases hhome : f.instBlock id with
    | none =>
      rw [hhome] at hid
      cases hid
    | some b =>
      rw [isLive, hhome]
      rfl
  · rw [hr.inst? id] at hi
    exact (knows_congr hsize).2 (h.insts id i hid hi v hv)
  · exact (knows_congr hsize).2 (h.terms b data (hold hb).2 v hv)

/-- A block may join another one if no third block goes to it. -/
theorem absorbs (h : f.Enclosed P) (ha : f.Absorbs into source g)
    (hsole : ∀ b data, f.block? b = some data → source ∈ data.term.successors → b = into) :
    g.Enclosed P := by
  obtain ⟨data, sdata, hdata, hsdata, hblock⟩ := ha.block
  have hlive : ∀ b, b ≠ source → f.containsBlock b = true → g.containsBlock b = true := by
    intro b hbs hb
    rw [containsBlock, hblock b, if_neg hbs]
    split
    · rfl
    · exact hb
  have hold : ∀ {b bdata}, g.block? b = some bdata → ∃ c cdata, f.block? c = some cdata ∧
      bdata.term = cdata.term ∧ c ≠ into := by
    intro b bdata hb
    rw [hblock b] at hb
    split at hb
    · cases hb
    · split at hb
      · cases hb
        exact ⟨source, sdata, hsdata, rfl, Ne.symm ha.ne⟩
      · exact ⟨b, bdata, hb, rfl, ‹_›⟩
  refine ⟨ha.consistent h.consistent, .of_eq ha.entry (fun b hb heq => hlive b ?_ hb) h.entry,
    fun b bdata hb s hs => ?_, fun id hid => h.live id ?_,
    fun id hid => h.fresh id (ha.arena ▸ hid), fun id i hid hi v hv => ?_,
    fun b bdata hb v hv => ?_⟩
  · rintro rfl
    exact ha.notEntry heq
  · obtain ⟨c, cdata, hc, hterm, hci⟩ := hold hb
    rw [hterm] at hs
    refine hlive s ?_ (h.targets c cdata hc s hs)
    rintro rfl
    exact hci (hsole c cdata hc hs)
  · rw [isLive, ha.instBlock id] at hid
    split at hid
    · rename_i hin
      rw [isLive, hin]
      rfl
    · exact hid
  · obtain ⟨i₀, hi₀, _, hsub⟩ := ha.curtails id i hi
    exact (knows_congr ha.arena).2 (h.insts id i₀ hid hi₀ v (hsub hv))
  · obtain ⟨c, cdata, hc, hterm, _⟩ := hold hb
    exact (knows_congr ha.arena).2 (h.terms c cdata hc v (hterm ▸ hv))

theorem gains (h : f.Enclosed P) (hg : f.Gains b i g) (hi : ∀ v ∈ i.kind.operands, f.Knows P v) :
    g.Enclosed P := by
  obtain ⟨data, insts, hdata, _, hblock⟩ := hg.block
  have hsize : f.arena.size ≤ g.arena.size := by
    rw [hg.arena, Array.size_push]
    exact Nat.le_succ _
  have hold : ∀ {c cdata}, g.block? c = some cdata →
      ∃ cdata₀, f.block? c = some cdata₀ ∧ cdata.term = cdata₀.term := by
    intro c cdata hc
    rw [hblock c] at hc
    split at hc
    · rename_i hcb
      cases hc
      exact ⟨data, hcb ▸ hdata, rfl⟩
    · exact ⟨cdata, hc, rfl⟩
  refine ⟨hg.consistent h.consistent, .of_eq hg.entry (fun c hc _ => (hg.live c).trans hc) h.entry,
    fun c cdata hc s hs => ?_, fun id hid => ?_,
    fun id hid => h.fresh id (Nat.le_trans hsize hid), fun id i' hid hi' v hv => ?_,
    fun c cdata hc v hv => ?_⟩
  · obtain ⟨cdata₀, hc₀, hterm⟩ := hold hc
    rw [hg.live]
    exact h.targets c cdata₀ hc₀ s (hterm ▸ hs)
  · rw [isLive, hg.instBlock id] at hid
    split at hid
    · rename_i hnew
      exact h.fresh id (Nat.le_of_eq hnew.symm)
    · exact h.live id hid
  · rw [inst?_push hg.arena] at hi'
    split at hi'
    · cases hi'
      exact (hi v hv).mono hsize
    · exact (h.insts id i' hid hi' v hv).mono hsize
  · obtain ⟨cdata₀, hc₀, hterm⟩ := hold hc
    exact (h.terms c cdata₀ hc₀ v (hterm ▸ hv)).mono hsize

end Enclosed

end BinaryLift.Func
