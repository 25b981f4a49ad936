import BinaryLift.Proofs.Lift.Contents
import BinaryLift.Proofs.Target.Policy
import BinaryLift.Proofs.Target.FreeRun
import BinaryLift.Proofs.Target.Speculation

/-!
# Edges from candidates

A computed destination with one or two candidates becomes a jump, or a branch on the comparison with
the lower one. If the candidates are complete, that terminator leads to the block registered for
whatever the destination is. The default resolver of a policy that reads nothing or read-only bytes
lists complete candidates as long as the definitions of the destination lead to no cycle.
-/

namespace BinaryLift

/-! ### The terminator -/

/-- The terminator goes to the blocks of one or two candidates; two are told apart by comparing the
destination with the first. -/
inductive Picks (m : BlockMap) (g : Func) (dest : Value) (ty : Ty) : List Word → Terminator → Prop
  | jump {a : Word} {b : BlockId} : m.blockAt a = some b → Picks m g dest ty [a] (.jump b)
  | branch {a a' : Word} {b b' : BlockId} {cond : InstId} :
    m.blockAt a = some b → m.blockAt a' = some b' →
    g.inst? cond = some ⟨.icmp .eq dest (.int a ty), some .i1⟩ →
    Picks m g dest ty [a, a'] (.branch (.inst cond) b b')

theorem Picks.ne_nil {m : BlockMap} {g : Func} {dest : Value} {ty : Ty} {cands : List Word}
    {t : Terminator} (h : Picks m g dest ty cands t) : cands ≠ [] := by
  cases h <;> exact List.cons_ne_nil _ _

theorem Picks.congr {m : BlockMap} {g g' : Func} {dest : Value} {ty : Ty} {cands : List Word}
    {t : Terminator} (h : Picks m g dest ty cands t) (hinst : ∀ id, g'.inst? id = g.inst? id) :
    Picks m g' dest ty cands t := by
  cases h with
  | jump hat => exact .jump hat
  | branch hat hat' hcond => exact .branch hat hat' (by rw [hinst, hcond])

theorem Resolver.addresses_candidates {s : AddressSet} (h : (Class.candidates s).addresses ≠ []) :
    (Class.candidates s).addresses.map (·.1) = s.toList := by
  unfold Class.addresses at h ⊢
  dsimp only at h ⊢
  split at h
  · rename_i a hs
    rw [hs]
    rfl
  · rename_i a a' hs
    rw [hs]
    rfl
  · exact absurd rfl h

namespace Progress

variable {σ : Type} {r : Resolver} {p q : Progress σ} {block : BlockId} {site : Word} {dest : Value}
  {cands : AddressSet} {t : Terminator}

/-- What a destination with candidates becomes, if it does not stay indirect. -/
theorem indirect_picks (hspec : r.Speculative p.func dest cands)
    (h : p.indirect r block site dest = (q, .ok t)) (hmade : t.successors ≠ []) :
    p.func.ContinuedBy q.func ∧
      Picks q.blocks q.func dest (p.func.wordTy dest) cands.toList t := by
  unfold indirect at h
  cases hcons : p.consult r site dest with
  | mk p₁ o =>
    rw [hcons] at h
    cases o with
    | error e => cases h
    | ok res =>
      obtain ⟨c, hc, hsettle⟩ := consult_ok hcons
      have hclass : r.classify p.func dest = .ok (.candidates cands) :=
        Resolver.classify_eq_ok.2 hspec
      rw [hclass] at hc
      cases hc
      obtain ⟨htakes, hdest, _, htargets, hat⟩ := Resolver.settle_takes hsettle
      have hgrows : p.func.ContinuedBy p₁.func := .of_grows htakes.grows
      have hnone : res.dest = none := hdest
      have haddr : res.targets ≠ [] → cands.toList = res.targets.map (·.address) := by
        intro hne
        have hall : res.targets.map (fun t => (t.address, t.reason)) =
            (Resolver.Class.candidates cands).addresses := by
          rw [htargets]
          split
          · rfl
          · rename_i hrej
            rw [if_neg hrej] at htargets
            exact absurd (List.map_eq_nil_iff.1 htargets) hne
        have hsome : (Resolver.Class.candidates cands).addresses ≠ [] := by
          rw [← hall]
          exact fun hnil => hne (List.map_eq_nil_iff.1 hnil)
        rw [← Resolver.addresses_candidates hsome, ← hall, List.map_map]
        rfl
      match hlist : res.targets with
      | [] =>
        simp only [hnone, hlist] at h
        cases h
        exact absurd rfl hmade
      | [only] =>
        simp only [hnone, hlist] at h
        cases h
        rw [haddr (by simp [hlist]), hlist]
        exact ⟨hgrows, .jump (hat only (by simp [hlist]))⟩
      | [first, second] =>
        simp only [hnone, hlist] at h
        split at h
        · cases h
        · rename_i g t' hbranch
          cases h
          obtain ⟨cond, rfl, happ⟩ := branchOn_ok hbranch
          rw [haddr (by simp [hlist]), hlist]
          refine ⟨hgrows.appendInst happ, .branch (hat first (by simp [hlist]))
            (hat second (by simp [hlist])) ?_⟩
          obtain ⟨rfl, harena, _⟩ := Func.appendInst_eq_ok happ
          rw [Func.inst?_push harena, if_pos rfl, Func.wordTy, htakes.grows.typeOf, ← Func.wordTy]
      | _ :: _ :: _ :: _ =>
        simp only [hnone, hlist] at h
        cases h
        exact absurd rfl hmade

/-- What a visit makes of a destination with candidates. -/
theorem Visits.picks {lifter : BlockLifter σ} {v : Visit} (h : Visits lifter r p v q)
    (hexit : v.exit = .indirect dest) (hspec : r.Speculative v.filled dest cands)
    (hterm : q.func.term v.block = .ok t) (hmade : t.successors ≠ []) :
    v.filled.ContinuedBy q.func ∧
      Picks q.blocks q.func dest (v.filled.wordTy dest) cands.toList t := by
  obtain ⟨m, s, _, hlift, hblock⟩ := h
  obtain ⟨p₁, p₂, t', g, hfunc, _, _, _, hmat, hset, rfl⟩ :=
    liftBlock_eq_ok (p := { p with blocks := m }) hlift hblock
  obtain rfl : t = t' := by
    obtain ⟨data, hdata, _⟩ := Func.modifyBlock_eq_ok.1 hset
    have hput := setTerm_block? hset v.block
    rw [if_pos rfl, hdata, Option.map_some] at hput
    simp only [Func.term, Func.block_eq_ok.2 hput] at hterm
    exact (Except.ok.inj hterm).symm
  rw [hexit] at hmat
  rw [← hfunc] at hspec ⊢
  obtain ⟨hcont, hpicks⟩ := indirect_picks hspec hmat hmade
  exact ⟨hcont.setTerm hset, hpicks.congr (setTerm_inst? hset)⟩

end Progress

/-! ### Where it leads -/

/-- The block that a terminator of `g` leads to in a state of a run, the condition of a branch being
evaluated in that state. -/
def FreeRun.LeadsTo (r : FreeRun) (g : Func) (s : Assignment) : Terminator → BlockId → Prop
  | .jump b, c => c = b
  | .branch (.inst cond) b b', c =>
    ∃ i k, g.inst? cond = some i ∧ r.Gives s i k ∧ c = if k ≠ 0 then b else b'
  | .branch v b b', c => ∃ k, r.operand s v = some k ∧ c = if k ≠ 0 then b else b'
  | _, _ => False

theorem Predicate.fold_eq {a b : Word} {ty : Ty} (ha : ty.Fits a) (hb : ty.Fits b) :
    Predicate.eq.fold a b ty = decide (a = b) := by
  simp only [Predicate.fold]
  rw [ha, hb]

/-- The comparison with a candidate tells whether the destination is that candidate. -/
theorem FreeRun.gives_comparison {r : FreeRun} {s : Assignment} {dest : Value} {a w k : Word}
    (hw : r.operand s dest = some w) (ha : (r.func.wordTy dest).Fits a)
    (hfit : (r.func.wordTy dest).Fits w) :
    r.Gives s ⟨.icmp .eq dest (.int a (r.func.wordTy dest)), some .i1⟩ k ↔
      k = if w = a then 1 else 0 := by
  have hconst : r.operand s (.int a (r.func.wordTy dest)) = some a := congrArg some ha
  simp only [FreeRun.Gives, hw, hconst, Option.some.injEq, ↓existsAndEq, true_and,
    Predicate.fold_eq hfit ha, decide_eq_true_eq]

/-- If the candidates are complete, the terminator leads to the block of the destination. -/
theorem Picks.leadsTo {m : BlockMap} {g : Func} {dest : Value} {ty : Ty} {cands : List Word}
    {t : Terminator} (h : Picks m g dest ty cands t) (hfits : ∀ a ∈ cands, ty.Fits a)
    {r : FreeRun} (hty : r.func.wordTy dest = ty) {s : Assignment} {w : Word}
    (hw : r.operand s dest = some w) (hmem : w ∈ cands) :
    ∃ b, m.blockAt w = some b ∧ ∀ c, r.LeadsTo g s t c ↔ c = b := by
  cases h with
  | @jump a b hat =>
    rw [List.mem_singleton.1 hmem]
    exact ⟨b, hat, fun _ => Iff.rfl⟩
  | @branch a a' b b' cond hat hat' hcond =>
    have hlead : ∀ c, r.LeadsTo g s (.branch (.inst cond) b b') c ↔
        c = if w = a then b else b' := by
      intro c
      have hgives := fun k => r.gives_comparison (k := k) hw
        (hty ▸ hfits a List.mem_cons_self) (hty ▸ hfits w hmem)
      rw [hty] at hgives
      simp only [FreeRun.LeadsTo, hcond, Option.some.injEq, ↓existsAndEq, true_and, hgives]
      split <;> simp
    by_cases hwa : w = a
    · exact ⟨b, hwa ▸ hat, fun c => by rw [hlead, if_pos hwa]⟩
    · have hwa' : w = a' := by simpa [hwa] using hmem
      exact ⟨b', hwa' ▸ hat', fun c => by rw [hlead, if_neg hwa]⟩

/-! ### The default resolver -/

namespace Session

variable {σ : Type} {s : Session σ}

/-- The run has the memory that the resolver of the session reads, if it reads any: the read-only
bytes of the image, addressed from the memory parameter. -/
def Respected (s : Session σ) (r : FreeRun) : Prop :=
  s.config.policy = .readOnly →
    r.memory = .readonlyImage s.image (some s.lifter.signature.memory)

/-- The default resolver lists candidates from read-only bytes at most, and those are respected. -/
theorem IsDefault.view (h : s.IsDefault)
    (hpolicy : s.config.policy = .never ∨ s.config.policy = .readOnly) :
    ∃ mem : MemoryView, s.resolver.enumerator = enumerate mem ∧ mem.Constant ∧
      ∀ r, s.Respected r → mem = {} ∨ mem = r.memory := by
  rw [h.resolver]
  rcases hpolicy with hnever | hread
  · exact ⟨{}, by rw [hnever]; rfl, .inl rfl, fun _ _ => .inl rfl⟩
  · exact ⟨.readonlyImage s.image (some s.lifter.signature.memory), by rw [hread]; rfl, .inr rfl,
      fun r hr => .inr (hr hread).symm⟩

end Session

/-- A run of a continued function as one of the function itself, with what a view tells. -/
theorem FreeRun.exists_continues {r : FreeRun} {f : Func} {mem : MemoryView}
    (hcont : f.ContinuedBy r.func) (htyped : f.WellTyped) (hmem : mem = {} ∨ mem = r.memory) :
    ∃ r' : FreeRun, r'.func = f ∧ r'.memory = mem ∧ r.Continues r' := by
  rcases hmem with rfl | rfl
  · refine ⟨⟨f, {}, r.args, fun n h => by cases h⟩, rfl, rfl, hcont, htyped, rfl, ?_⟩
    intro a width w _ img x himg
    cases himg
  · exact ⟨⟨f, r.memory, r.args, r.memoryZero⟩, rfl, rfl, hcont, htyped, rfl, fun _ _ _ h => h⟩

namespace Session

variable {σ : Type} {s : Session σ}

/-- A session with the resolver that its policy prescribes, reading nothing or read-only bytes, gives
a destination whose definitions lead to no cycle a terminator that leads to the block registered for
the destination, in every state of a run of the function without paths. -/
theorem candidates_lead_to_destination (hdefault : s.IsDefault)
    (hpolicy : s.config.policy = .never ∨ s.config.policy = .readOnly) {p q : Progress σ}
    {v : Visit} (hvisit : Progress.Visits s.lifter s.resolver p v q) {dest : Value}
    (hexit : v.exit = .indirect dest) (htyped : v.filled.WellTyped) (hbits : v.filled.NoBitLoad)
    (hacyclic : v.filled.Acyclic dest) {cands : AddressSet}
    (hspec : s.resolver.Speculative v.filled dest cands) {t : Terminator}
    (hterm : q.func.term v.block = .ok t) (hmade : t.successors ≠ []) {r : FreeRun}
    (hfunc : r.func = v.filled ∨ r.func = q.func) (hmem : s.Respected r) {st : Assignment}
    (hst : r.Reachable st) {w : Word} (hw : r.operand st dest = some w) :
    ∃ b, q.blocks.blockAt w = some b ∧ ∀ c, r.LeadsTo q.func st t c ↔ c = b := by
  obtain ⟨hcont, hpicks⟩ := hvisit.picks hexit hspec hterm hmade
  obtain ⟨mem, henum, hconst, hview⟩ := hdefault.view hpolicy
  have hcands : enumerate mem v.filled dest = .ok cands := henum ▸ hspec.enumerator
  obtain ⟨id, rfl, hlive⟩ := isLive_of_enumerate hcands hpicks.ne_nil hspec.notLiteral
  have hrun : v.filled.ContinuedBy r.func := by
    rcases hfunc with hfunc | hfunc
    · exact hfunc ▸ .refl _
    · exact hfunc ▸ hcont
  obtain ⟨r', hfunc', hmem', hcontinues⟩ := FreeRun.exists_continues hrun htyped (hview r hmem)
  rw [← hfunc'] at hcands hlive htyped hbits hacyclic hpicks hrun
  rw [← hmem'] at hcands hconst
  obtain ⟨hcomplete, hfits⟩ :=
    enumerate_complete hconst htyped.agrees hbits hacyclic hcands hpicks.ne_nil
  have hw' : r'.operand (FreeRun.restrict r'.func st) (.inst id) = some w := by
    simp only [FreeRun.operand, FreeRun.restrict, hlive, if_true]
    exact hw
  obtain ⟨i, hi⟩ := Func.exists_inst_of_isLive hlive
  have hty : r.func.wordTy (.inst id) = r'.func.wordTy (.inst id) := by
    rw [Func.wordTy_inst hi, Func.wordTy_inst (hrun.inst? hi)]
  exact hpicks.leadsTo hfits hty hw (hcomplete _ w (hcontinues.reachable hst) hw')

/-- A session with a table that may be read. -/
def tableSession : Session Unit := Session.new (tableImage .readable 0x20 0x40) tableLifter ()

/-- The first block of the table's function, filled. -/
def tableVisit : Visit where
  address := 0x1000
  block := ⟨0⟩
  exit := .indirect (.inst ⟨3⟩)
  filled := {
    name := "table"
    params := [⟨"stack", .ptr⟩, ⟨"memory", .ptr⟩]
    ret := some .i64
    arena := #[
      ⟨⟨.icmp .eq (.arg 0) (.int 0 .ptr), some .i1⟩, some ⟨0⟩⟩,
      ⟨⟨.select (.inst ⟨0⟩) (.int 0x2000 .i64) (.int 0x2008 .i64), some .i64⟩, some ⟨0⟩⟩,
      ⟨⟨.ptrAdd (.arg 1) (.inst ⟨1⟩), some .ptr⟩, some ⟨0⟩⟩,
      ⟨⟨.load (.inst ⟨2⟩), some .i64⟩, some ⟨0⟩⟩]
    blocks := #[some { address := some 0x1000, insts := [⟨0⟩, ⟨1⟩, ⟨2⟩, ⟨3⟩] }]
    entry := some ⟨0⟩ }

/-- The search before and after that block. -/
def beforeTable : Progress Unit := .start () tableLifter.signature "table" 0x1000

def afterTable : Progress Unit :=
  (Progress.liftBlock tableLifter tableSession.resolver
    { beforeTable with blocks := beforeTable.blocks.next.1 } ⟨0⟩ 0x1000).1

theorem tableVisit_visits :
    Progress.Visits tableLifter tableSession.resolver beforeTable tableVisit afterTable := by
  refine ⟨beforeTable.blocks.next.1, (), rfl, by cbv, Prod.ext rfl ?_⟩
  cbv

/-- Each instruction reads only results of earlier ones. -/
theorem tableVisit_acyclic (v : Value) : tableVisit.filled.Acyclic v := by
  refine Func.acyclic_of_ordered ?_ v
  rintro ⟨k⟩ ⟨j⟩ ⟨_, inst, hinst, hj⟩
  have hk : k < 4 := Func.index_lt_of_inst? hinst
  interval_cases k <;> cases hinst <;> simp [tableVisit, Kind.operands, Value.int] at hj ⊢ <;> omega

theorem tableVisit_speculative : ∃ cands,
    tableSession.resolver.Speculative tableVisit.filled (.inst ⟨3⟩) cands := by
  have henum : ∃ cands, tableSession.resolver.enumerator tableVisit.filled (.inst ⟨3⟩) =
      .ok cands := by
    cbv
    exact ⟨_, rfl⟩
  obtain ⟨cands, hcands⟩ := henum
  exact ⟨cands, ⟨(fun c h => by cases h), by cbv, hcands⟩⟩

/-- The run with a stack: the second word is loaded. -/
def tableRun : FreeRun where
  func := tableVisit.filled
  memory := .readonlyImage (tableImage .readable 0x20 0x40) (some 1)
  args := fun n => if n = 0 then 0x7000 else 0
  memoryZero := by
    intro n h
    cases h
    rfl

theorem tableRun_reachable :
    ∃ st, tableRun.Reachable st ∧ tableRun.operand st (.inst ⟨3⟩) = some 0x1040 := by
  have h0 : tableRun.Reachable _ :=
    FreeRun.Reachable.start.step (w := 0) (j := ⟨0⟩) rfl rfl ⟨0x7000, 0, rfl, rfl, rfl⟩
  have h1 : tableRun.Reachable _ :=
    h0.step (w := 0x2008) (j := ⟨1⟩) rfl rfl ⟨0, 0x2000, 0x2008, rfl, rfl, rfl, rfl⟩
  have h2 : tableRun.Reachable _ :=
    h1.step (w := 0x2008) (j := ⟨2⟩) rfl rfl ⟨0, 0x2008, rfl, rfl, rfl⟩
  have hread : tableRun.Reads 0x2008 8 0x1040 := by
    intro img x himg hx
    cases himg
    have hval : (some 0x1040 : Option Word) = some x := by
      rw [← hx]
      cbv
    exact Option.some.inj hval
  have h3 : tableRun.Reachable _ :=
    h2.step (w := 0x1040) (j := ⟨3⟩) rfl rfl ⟨0x2008, rfl, hread⟩
  exact ⟨_, h3, rfl⟩

theorem tableSession_leads : ∃ cands st b,
    (tableSession.IsDefault ∧ tableSession.config.policy = .readOnly ∧
      Progress.Visits tableSession.lifter tableSession.resolver beforeTable tableVisit afterTable ∧
      tableVisit.exit = .indirect (.inst ⟨3⟩) ∧ tableVisit.filled.WellTyped ∧
      tableVisit.filled.NoBitLoad ∧ tableVisit.filled.Acyclic (.inst ⟨3⟩) ∧
      tableSession.resolver.Speculative tableVisit.filled (.inst ⟨3⟩) cands ∧
      afterTable.func.term ⟨0⟩ = .ok (.branch (.inst ⟨4⟩) ⟨1⟩ ⟨2⟩) ∧
      tableSession.Respected tableRun ∧ tableRun.Reachable st ∧
      tableRun.operand st (.inst ⟨3⟩) = some 0x1040) ∧
    afterTable.blocks.blockAt 0x1040 = some b ∧
    ∀ c, tableRun.LeadsTo afterTable.func st (.branch (.inst ⟨4⟩) ⟨1⟩ ⟨2⟩) c ↔ c = b := by
  obtain ⟨cands, hspec⟩ := tableVisit_speculative
  obtain ⟨st, hst, hw⟩ := tableRun_reachable
  have hdefault : tableSession.IsDefault := isDefault_new _ _ _
  have htyped : tableVisit.filled.WellTyped := by decide
  have hbits : tableVisit.filled.NoBitLoad := by
    intro s hs _ p h
    simp only [tableVisit, List.mem_cons, List.not_mem_nil, or_false] at hs
    rcases hs with rfl | rfl | rfl | rfl <;> cases h
  have hacyclic := tableVisit_acyclic (.inst ⟨3⟩)
  have hterm : afterTable.func.term ⟨0⟩ = .ok (.branch (.inst ⟨4⟩) ⟨1⟩ ⟨2⟩) := by cbv
  have hmem : tableSession.Respected tableRun := fun _ => rfl
  obtain ⟨b, hb, hlead⟩ := candidates_lead_to_destination hdefault (.inr rfl) tableVisit_visits rfl
    htyped hbits hacyclic hspec hterm (List.cons_ne_nil _ _) (.inl rfl) hmem hst hw
  exact ⟨cands, st, b, ⟨hdefault, rfl, tableVisit_visits, rfl, htyped, hbits, hacyclic, hspec,
    hterm, hmem, hst, hw⟩, hb, hlead⟩

end Session

end BinaryLift
