import BinaryLift.Proofs.Program.Checks
import BinaryLift.Proofs.Transform.ChainEnds
import BinaryLift.Proofs.Transform.Numbering

/-!
# Replacements come earlier

A scan adds to its replacements for the instruction that it is at only, and what it adds is defined before
that instruction. So at no moment does a chain of replacements come back to itself, and following one ends
at something that is not replaced.
-/

namespace BinaryLift

namespace Func

variable {f : Func} {b : BlockId} {before after : List InstId} {id j : InstId} {v : Value}

/-- The definition of `j` properly dominates that of `id`: it stands before it in the same block or in a
block that strictly dominates that one. -/
def DefinedBefore (f : Func) (j id : InstId) : Prop :=
  ∃ b before after, f.Reachable b ∧ f.instsOf b = before ++ id :: after ∧
    (j ∈ before ∨ ∃ c, f.StrictlyDominates c b ∧ j ∈ f.instsOf c)

/-- Both are phis of one block, `j` the earlier one. -/
def EarlierPhi (f : Func) (j id : InstId) : Prop :=
  ∃ b before after, f.instsOf b = before ++ id :: after ∧ j ∈ before ∧ f.isPhi j = true ∧
    f.isPhi id = true

/-- What may stand in for the result of `id`. The phis of a block get their values at one time, so none of
them properly dominates another. -/
inductive Earlier (f : Func) (id : InstId) : Value → Prop
  | const (c : Constant) : Earlier f id (.const c)
  | arg (n : Nat) : Earlier f id (.arg n)
  | result {j : InstId} (hphi : f.isPhi id = false) (h : f.DefinedBefore j id) : Earlier f id (.inst j)
  | phi {j : InstId} (h : f.EarlierPhi j id) : Earlier f id (.inst j)

theorem Repeats.definedBefore (h : f.Repeats id (.inst j)) : f.DefinedBefore j id := by
  obtain ⟨b, before, after, hb, hsplit, hj⟩ := h.home
  refine ⟨b, before, after, hb, hsplit, hj.imp_right ?_⟩
  rintro ⟨c, data, hdom, hdata, hj⟩
  exact ⟨c, hdom, instsOf_eq hdata ▸ hj⟩

theorem Repeats.earlier (h : f.Repeats id v)
    (hphi : f.isPhi id = true → ∃ j, v = .inst j ∧ f.EarlierPhi j id) : f.Earlier id v := by
  cases v with
  | const c => exact .const c
  | arg n => exact .arg n
  | inst j =>
    cases hid : f.isPhi id with
    | false => exact .result hid h.definedBefore
    | true =>
      obtain ⟨_, heq, hj⟩ := hphi hid
      cases heq
      exact .phi hj

theorem Repeated.acyclic {t : Replacements} (h : f.Repeated t) (hwf : f.WellFormed) : t.Acyclic := by
  obtain ⟨rank, hrank⟩ := hwf.exists_rank
  refine Replacements.acyclic_of_rank rank fun i j hij => ?_
  obtain ⟨b, before, after, hb, hsplit, hj⟩ := (h i _ hij).home
  exact hrank b before i after j hb hsplit hj

end Func

theorem Kind.traverse_isPhi (σ : Value → Checked Value) (k : Kind) :
    Ensures (fun k' => k'.isPhi = k.isPhi) (k.traverse σ) := by
  cases k with
  | alloca n => exact .pure rfl
  | load p => exact .bind_any fun _ => .pure rfl
  | cast op x => exact .bind_any fun _ => .pure rfl
  | phi inc => exact .bind_any fun _ => .pure rfl
  | call callee args => exact .bind_any fun _ => .pure rfl
  | select c x y => exact .bind_any fun _ => .bind_any fun _ => .bind_any fun _ => .pure rfl
  | _ => exact .bind_any fun _ => .bind_any fun _ => .pure rfl

/-! ### What a step adds -/

namespace BlockNumbering

variable {f : Func} {p : NumberingPolicy} {dom : DomTree} {done : List BlockId} {b : BlockId}
  {pre post stop : List InstId} {id : InstId} {s s' : BlockNumbering}

/-- From `s` to `s'` nothing has been replaced but `id`, and if that is a phi, by a phi of the block. -/
def AddsOnly (f : Func) (id : InstId) (s s' : BlockNumbering) : Prop :=
  s'.replaced = s.replaced ∨ ∃ v, s'.replaced = s.replaced.insert id v ∧
    (f.isPhi id = true → ∃ key j, s.phis.get? key = some j ∧ v = .inst j)

theorem addsOnly_pure (hid : f.isPhi id = false) (key : Kind × Option Ty) :
    AddsOnly f id s (s.pure dom b id key) := by
  unfold BlockNumbering.pure
  dsimp only
  split
  · refine .inr ⟨_, rfl, fun hphi => ?_⟩
    rw [hid] at hphi
    cases hphi
  · exact .inl rfl

theorem addsOnly_load (hid : f.isPhi id = false) (ptr : Value) (ty : Option Ty) :
    AddsOnly f id s (s.load id ptr ty) := by
  unfold BlockNumbering.load
  split
  · exact .inl rfl
  · split
    · refine .inr ⟨_, rfl, fun hphi => ?_⟩
      rw [hid] at hphi
      cases hphi
    · exact .inl rfl

theorem addsOnly_phi (ty : Option Ty) (inc : List (BlockId × Value)) :
    Ensures (AddsOnly f id s) (s.phi f id ty inc) := by
  unfold BlockNumbering.phi
  dsimp only
  split
  · rename_i leader hleader
    refine .bind_any fun i => ?_
    split
    · exact .pure (.inr ⟨_, rfl, fun _ => ⟨_, leader, hleader, rfl⟩⟩)
    · exact .pure (.inl rfl)
  · exact .pure (.inl rfl)

theorem addsOnly_store (ptr value : Value) : Ensures (AddsOnly f id s) (s.store f ptr value) := by
  unfold BlockNumbering.store
  refine .bind_any fun o => ?_
  cases o with
  | none => exact .pure (.inl rfl)
  | some ty => exact .pure (.inl rfl)

theorem addsOnly_inst : Ensures (AddsOnly f id s) (inst p dom f b s id) := by
  intro s' hs'
  obtain ⟨i, hi, hrest⟩ := bind_eq_ok.1 hs'
  obtain ⟨k, hk, hstep⟩ := bind_eq_ok.1 hrest
  have hphi : f.isPhi id = k.isPhi := by
    rw [Func.isPhi_inst (Func.inst_eq_ok hi), Kind.traverse_isPhi _ _ k hk]
  cases k with
  | phi inc =>
    dsimp only at hstep
    split at hstep
    · exact addsOnly_phi _ _ _ hstep
    · cases hstep
      exact .inl rfl
  | load q =>
    cases hstep
    split
    · exact .inl rfl
    · exact addsOnly_load hphi _ _
  | store q u =>
    dsimp only at hstep
    split at hstep
    · cases hstep
      exact .inl rfl
    · exact addsOnly_store _ _ _ hstep
  | call callee args =>
    cases hstep
    exact .inl rfl
  | alloca n =>
    cases hstep
    exact .inl rfl
  | _ =>
    cases hstep
    exact addsOnly_pure hphi _

end BlockNumbering

/-! ### The moments of a scan -/

/-- Everything that is replaced is replaced by what comes earlier. -/
def Replacements.Descends (f : Func) (t : Replacements) : Prop :=
  ∀ id v, t.get? id = some v → f.Earlier id v

theorem BlockNumbering.Sound.descends {f : Func} {p : NumberingPolicy} {done : List BlockId}
    {b : BlockId} {pre post stop stop' : List InstId} {id : InstId} {s s' : BlockNumbering}
    (h : s.Sound f p done b pre stop) (hearlier : s.replaced.Descends f)
    (hsplit : f.instsOf b = pre ++ id :: post) (hadds : AddsOnly f id s s')
    (h' : s'.Sound f p done b (pre ++ [id]) stop') : s'.replaced.Descends f := by
  intro i v hv
  rcases hadds with hsame | ⟨w, hinsert, hphi⟩
  · exact hearlier i v (hsame ▸ hv)
  · have hrepeats := h'.replaced i v hv
    rw [hinsert, Table.get?_insert] at hv
    split at hv
    · rename_i heq
      subst heq
      cases hv
      refine hrepeats.earlier fun hid => ?_
      obtain ⟨key, j, hj, rfl⟩ := hphi hid
      obtain ⟨hmem, hmerges⟩ := h.phis key j hj
      obtain ⟨inc, ty, hinst⟩ := hmerges.inst
      exact ⟨j, rfl, b, pre, post, hsplit, hmem, Func.isPhi_inst hinst, hid⟩
    · exact hearlier i v hv

namespace Numbering

variable {f : Func} {p : NumberingPolicy} {dom : DomTree} {done rest : List BlockId} {b e : BlockId}
  {pre post : List InstId} {s : Numbering}

theorem Sound.within (h : s.Sound f (done.flatMap f.instsOf)) (hearlier : s.replaced.Descends f)
    (hwf : f.WellFormed) (hd : dom.Correct f e) (hb : f.Reachable b) (hnew : b ∉ done)
    (hsplit : f.instsOf b = pre ++ post) :
    ∃ s', pre.foldlM (BlockNumbering.inst p dom f b) { s with available := s.availableIn p dom b } =
        .ok s' ∧
      s'.Sound f p done b pre (f.passed b pre) ∧ s'.replaced.Descends f := by
  refine foldlM_spec (BlockNumbering.inst p dom f b)
    (I := fun q s => s.Sound f p done b q (f.passed b q) ∧ s.replaced.Descends f)
    (fun q id r s hpre hs => ?_) ⟨h.start hwf hd hb, hearlier⟩
  have hsplit' : f.instsOf b = q ++ id :: (r ++ post) := by rw [hsplit, hpre, List.append_assoc]; rfl
  obtain ⟨s', hs', hsound⟩ :=
    hs.1.step hwf hb (fun _ _ hac => hd.dominates_of_eq_true hac) hnew hsplit'
  exact ⟨s', hs', hsound, hs.1.descends hs.2 hsplit' (BlockNumbering.addsOnly_inst s' hs') hsound⟩

theorem Sound.descends (h : s.Sound f (done.flatMap f.instsOf)) (hearlier : s.replaced.Descends f)
    (hwf : f.WellFormed) (hd : dom.Correct f e) (hb : f.Reachable b) (hnew : b ∉ done)
    {s' : Numbering} (hs' : Numbering.block p dom f s b = .ok s') : s'.replaced.Descends f := by
  obtain ⟨data, hdata, hrest⟩ := bind_eq_ok.1 hs'
  obtain ⟨s₁, hs₁, hdone⟩ := bind_eq_ok.1 hrest
  have hsplit : f.instsOf b = f.instsOf b ++ [] := (List.append_nil _).symm
  obtain ⟨s₂, hs₂, _, hearlier₂⟩ := h.within (p := p) hearlier hwf hd hb hnew hsplit
  rw [Func.instsOf_eq (Func.block_eq_ok.1 hdata), hs₁] at hs₂
  cases hs₂
  cases hdone
  exact hearlier₂

theorem scan_blocks (hwf : f.WellFormed) (hd : dom.Correct f e) (hrpo : dom.rpo = done ++ rest) :
    ∃ s, done.foldlM (block p dom f) {} = .ok s ∧ s.Sound f (done.flatMap f.instsOf) ∧
      s.replaced.Descends f := by
  refine foldlM_spec (block p dom f)
    (I := fun done s => s.Sound f (done.flatMap f.instsOf) ∧ s.replaced.Descends f)
    (fun q b r s hdone hs => ?_) ⟨.empty f, fun _ _ hv => by cases hv⟩
  rw [hdone, List.append_assoc] at hrpo
  obtain ⟨hb, hnew⟩ := next_block hd hrpo
  obtain ⟨s', hs', hsound⟩ := hs.1.block (p := p) hwf hd hb hnew
  exact ⟨s', hs', hsound, hs.1.descends hs.2 hwf hd hb hnew hs'⟩

/-- The state of a scan that has been over the blocks `done` and over the instructions `pre` of the next
block `b`. -/
def scan (p : NumberingPolicy) (dom : DomTree) (f : Func) (done : List BlockId) (b : BlockId)
    (pre : List InstId) : Checked BlockNumbering := do
  let s ← done.foldlM (block p dom f) {}
  pre.foldlM (BlockNumbering.inst p dom f b) { s with available := s.availableIn p dom b }

/-- At the end of a block the contents of memory are put by, and the scan goes on with the next block. -/
theorem scan_block (hlive : f.containsBlock b = true) :
    (done ++ [b]).foldlM (block p dom f) {} = do
      let s ← scan p dom f done b (f.instsOf b)
      return { s.toNumbering with availableOut := s.availableOut.insert b s.available } := by
  obtain ⟨data, hdata⟩ := Func.containsBlock_iff.1 hlive
  simp only [List.foldlM_append, List.foldlM_cons, List.foldlM_nil, bind_pure, scan, bind_assoc,
    Func.instsOf_eq hdata]
  refine bind_congr fun s => ?_
  rw [block, Func.block_eq_ok.2 hdata]
  rfl

theorem scan_spec (hwf : f.WellFormed) (hd : dom.Correct f e) (hrpo : dom.rpo = done ++ b :: rest)
    (hsplit : f.instsOf b = pre ++ post) :
    ∃ s, scan p dom f done b pre = .ok s ∧ f.Repeated s.replaced ∧ s.replaced.Descends f := by
  obtain ⟨s, hs, hsound, hearlier⟩ := scan_blocks (p := p) hwf hd hrpo
  obtain ⟨hb, hnew⟩ := next_block hd hrpo
  obtain ⟨s', hs', hsound', hearlier'⟩ := hsound.within (p := p) hearlier hwf hd hb hnew hsplit
  refine ⟨s', ?_, hsound'.replaced, hearlier'⟩
  simp only [scan, hs, bind, Except.bind]
  exact hs'

end Numbering

namespace Func

variable {f : Func}

/-- At every moment of a scan, whatever is compared and however far loads are remembered, what is replaced
is replaced by a constant, a parameter or what is defined before it. So the replacements have no cycle:
following any of them ends, at something that is not replaced, and the scan comes to its end. -/
theorem number_replaces_by_earlier (hwf : f.WellFormed) (p : NumberingPolicy) :
    ∃ dom, DomTree.compute f = .ok dom ∧ (∃ r, f.number p = .ok r) ∧
      ∀ done b rest pre post, dom.rpo = done ++ b :: rest → f.instsOf b = pre ++ post →
        ∃ s, Numbering.scan p dom f done b pre = .ok s ∧
          (∀ id v, s.replaced.get? id = some v → f.Earlier id v) ∧
          s.replaced.Acyclic ∧
          ∀ v, ∃ u, s.replaced.resolve v = .ok u ∧ s.replaced.EndsAt v u := by
  obtain ⟨g, changed, hg, _⟩ := number_keeps hwf p
  cases he : f.entry with
  | none =>
    obtain ⟨d, hd, hentry⟩ := compute_of_no_entry he
    refine ⟨d, hd, ⟨_, hg⟩, fun done b rest pre post hrpo => ?_⟩
    rw [show d.rpo = [] from List.head?_eq_none_iff.1 hentry] at hrpo
    cases done <;> cases hrpo
  | some e =>
    obtain ⟨d, hd, hcorrect⟩ := DomTree.compute_correct he (hwf.entry e he)
    refine ⟨d, hd, ⟨_, hg⟩, fun done b rest pre post hrpo hsplit => ?_⟩
    obtain ⟨s, hs, hrepeated, hearlier⟩ := Numbering.scan_spec (p := p) hwf hcorrect hrpo hsplit
    have hacyclic := hrepeated.acyclic hwf
    exact ⟨s, hs, hearlier, hacyclic,
      fun v => ⟨_, hrepeated.resolve hwf v, hacyclic.endsAt_iff.2 rfl⟩⟩

/-- Two phis of a loop merge the same values, one of them the sum with the other; behind the loop the sum
is computed a third time, with its operands in the other order. -/
def twinPhis : Func where
  name := "sample"
  params := [⟨"flag", .i1⟩, ⟨"x", .i64⟩]
  ret := some .i64
  arena := #[
    ⟨⟨.phi [(⟨0⟩, .arg 1), (⟨1⟩, .inst ⟨2⟩)], some .i64⟩, some ⟨1⟩⟩,
    ⟨⟨.phi [(⟨0⟩, .arg 1), (⟨1⟩, .inst ⟨2⟩)], some .i64⟩, some ⟨1⟩⟩,
    ⟨⟨.binary .add (.inst ⟨0⟩) (.arg 1), some .i64⟩, some ⟨1⟩⟩,
    ⟨⟨.binary .add (.inst ⟨1⟩) (.arg 1), some .i64⟩, some ⟨1⟩⟩,
    ⟨⟨.binary .add (.arg 1) (.inst ⟨1⟩), some .i64⟩, some ⟨2⟩⟩]
  blocks := #[
    some { term := .jump ⟨1⟩ },
    some { insts := [⟨0⟩, ⟨1⟩, ⟨2⟩, ⟨3⟩], term := .branch (.arg 0) ⟨1⟩ ⟨2⟩ },
    some { insts := [⟨4⟩], term := .ret (some (.inst ⟨4⟩)) }]
  entry := some ⟨0⟩

/-- The second phi makes way for the first one, and both other sums for the first sum. -/
theorem twinPhis_replaced :
    twinPhis.WellFormed ∧ ∃ dom s, DomTree.compute twinPhis = .ok dom ∧
      Numbering.scan .global dom twinPhis [⟨0⟩, ⟨1⟩] ⟨2⟩ [⟨4⟩] = .ok s ∧
      s.replaced = [(⟨1⟩, .inst ⟨0⟩), (⟨3⟩, .inst ⟨2⟩), (⟨4⟩, .inst ⟨2⟩)] ∧
      twinPhis.Earlier ⟨1⟩ (.inst ⟨0⟩) ∧ twinPhis.Earlier ⟨4⟩ (.inst ⟨2⟩) ∧
      ∃ u, s.replaced.resolve (.inst ⟨4⟩) = .ok u ∧ s.replaced.EndsAt (.inst ⟨4⟩) u := by
  have haccepts : Survey.accepts [(⟨0⟩, []), (⟨1⟩, [⟨0⟩]), (⟨2⟩, [⟨0⟩, ⟨1⟩])] twinPhis = true := by decide
  have hwf := Survey.wellFormed_of_accepts haccepts
  have hrpo : (DomTree.compute twinPhis).toOption.map (·.rpo) = some [⟨0⟩, ⟨1⟩, ⟨2⟩] := by cbv
  have hreplaced : ((DomTree.compute twinPhis).toOption.bind fun dom =>
      (Numbering.scan .global dom twinPhis [⟨0⟩, ⟨1⟩] ⟨2⟩ [⟨4⟩]).toOption.map (·.replaced)) =
      some [(⟨1⟩, .inst ⟨0⟩), (⟨3⟩, .inst ⟨2⟩), (⟨4⟩, .inst ⟨2⟩)] := by cbv
  obtain ⟨dom, hdom, _, hmoments⟩ := number_replaces_by_earlier hwf .global
  rw [hdom] at hrpo hreplaced
  obtain ⟨s, hs, hearlier, _, hends⟩ := hmoments [⟨0⟩, ⟨1⟩] ⟨2⟩ [] [⟨4⟩] [] (Option.some.inj hrpo) rfl
  simp only [Except.toOption, Option.bind_some, hs, Option.map_some, Option.some.injEq] at hreplaced
  exact ⟨hwf, dom, s, hdom, hs, hreplaced, hearlier _ _ (by rw [hreplaced]; rfl),
    hearlier _ _ (by rw [hreplaced]; rfl), hends _⟩

end Func

end BinaryLift
