import BinaryLift.Proofs.Run.Availability

/-!
# Surveys

Whether a function is well formed is a question about all ways through it. A survey answers it by
looking at each block once: it lists the blocks that control may be in and names, for each of them,
blocks that lie on every way to it.
-/

namespace BinaryLift

/-- Blocks that control may be in, each with other blocks that lie on every way to it. -/
abbrev Survey := List (BlockId × List BlockId)

namespace Survey

variable (s : Survey) (f : Func) (b : BlockId)

def lists : Bool := s.any (·.1 = b)

def leads (c : BlockId) : Bool := (f.block? b).any fun data => c ∈ data.term.successors

/-- The entry is listed, and with a block its successors. What lies on every way to a block lies on
every way to a predecessor or is that predecessor. -/
def covers : Bool :=
  f.entry.all (fun e => f.containsBlock e && s.lists e) &&
  s.all fun x => x.1 ∉ x.2 && (f.entry != some x.1 || x.2.isEmpty) &&
    (f.block? x.1).all fun data => data.term.successors.all fun c =>
      s.lists c && s.all fun y => y.1 != c || y.2.all fun a => a = x.1 || a ∈ x.2

/-- The value is there whenever control is in `b` behind `before`. -/
def sees (before : List InstId) : Value → Bool
  | .inst j => j ∈ before || s.any fun x => x.1 = b && x.2.any fun c => j ∈ f.instsOf c
  | _ => true

/-- A phi has one value for each predecessor that is listed, and values for predecessors only. -/
def arranged : Kind → Bool
  | .phi inc =>
    s.all (fun x => !leads f x.1 b || (inc.map (·.1)).count x.1 = 1) &&
    inc.all fun e => leads f e.1 b
  | _ => true

def supplied (before : List InstId) : Kind → Bool
  | .phi inc => inc.all fun e => !s.lists e.1 || s.sees f e.1 (f.instsOf e.1) e.2
  | k => k.operands.all (s.sees f b before)

/-- What is asked of every live block. -/
def tidy (data : Block) : Bool :=
  decide data.insts.Nodup &&
  data.insts.all (fun id => f.instBlock id = some b) &&
  data.term.successors.all f.containsBlock &&
  (data.insts.dropWhile f.isPhi).all (fun id => !f.isPhi id) &&
  data.insts.all fun id => (f.inst? id).all fun i => s.arranged f b i.kind

/-- What is asked of a block that control may be in. -/
def fed (data : Block) : Bool :=
  (data.insts.zipIdx.all fun e => (f.inst? e.1).all fun i =>
    s.supplied f b (data.insts.take e.2) i.kind) &&
  data.term.operands.all (s.sees f b data.insts)

/-- An instruction says that it stands in a block only if the block lists it. -/
def housed : Bool :=
  f.arena.toList.zipIdx.all fun e => e.1.block.all fun b => (⟨e.2⟩ : InstId) ∈ f.instsOf b

def accepts : Bool :=
  s.covers f && housed f && f.liveBlocks.all (fun e => s.tidy f e.1 e.2) &&
  s.all fun x => (f.block? x.1).all (s.fed f x.1)

variable {s f b}

theorem lists_iff : s.lists b = true ↔ ∃ ds, (b, ds) ∈ s := by
  simp only [lists, List.any_eq_true, decide_eq_true_eq]
  constructor
  · rintro ⟨⟨c, ds⟩, hmem, rfl⟩
    exact ⟨ds, hmem⟩
  · rintro ⟨ds, hmem⟩
    exact ⟨_, hmem, rfl⟩

theorem leads_of_edge {c : BlockId} (h : f.Edge b c) : leads f b c = true := by
  obtain ⟨data, hdata, hc, _⟩ := h
  simp [leads, hdata, hc]

/-- On every way to a listed block lie the blocks named for it. -/
theorem covers_path (h : s.covers f = true) {p : List BlockId} (hp : f.Path p b) :
    s.lists b = true ∧ ∀ ds, (b, ds) ∈ s → ∀ a ∈ ds, a ∈ p := by
  simp only [covers, Bool.and_eq_true, List.all_eq_true, Option.all_eq_true] at h
  obtain ⟨hentry, hall⟩ := h
  induction hp with
  | @entry e he _ =>
    refine ⟨(hentry e he).2, fun ds hmem a ha => ?_⟩
    have hnil := (hall _ hmem).1.2
    simp only [he, bne_self_eq_false, Bool.false_or, List.isEmpty_iff] at hnil
    rw [hnil] at ha
    cases ha
  | @step p a b hp hedge ih =>
    obtain ⟨data, hdata, hsucc, _⟩ := hedge
    obtain ⟨das, hdas⟩ := lists_iff.1 ih.1
    obtain ⟨hlists, hnamed⟩ := (hall _ hdas).2 data hdata b hsucc
    refine ⟨hlists, fun ds hmem d hd => List.mem_cons_of_mem _ ?_⟩
    have hcases := hnamed (b, ds) hmem
    simp only [bne_self_eq_false, Bool.false_or, List.all_eq_true, Bool.or_eq_true,
      decide_eq_true_eq] at hcases
    rcases hcases d hd with rfl | hda
    · exact hp.last_mem
    · exact ih.2 das hdas d hda

theorem lists_of_reachable (h : s.covers f = true) (hb : f.Reachable b) : s.lists b = true := by
  obtain ⟨p, hp⟩ := hb
  exact (covers_path h hp).1

theorem available_of_sees (h : s.covers f = true) {before : List InstId} {j : InstId}
    (hsees : s.sees f b before (.inst j) = true) : f.Available b before j := by
  simp only [sees, Bool.or_eq_true, decide_eq_true_eq, List.any_eq_true, Bool.and_eq_true] at hsees
  rcases hsees with hmem | ⟨⟨b', ds⟩, hx, rfl, c, hc, hj⟩
  · exact .inl hmem
  · obtain ⟨data, hdata, hid⟩ := Func.exists_block_of_mem hj
    refine .inr ⟨c, data, ⟨?_, fun p hp => (covers_path h hp).2 ds hx c hc⟩, hdata, hid⟩
    rintro rfl
    simp only [covers, Bool.and_eq_true, List.all_eq_true] at h
    have hnot := (h.2 _ hx).1.1
    simp [hc] at hnot

theorem consistent_of_accepts (htidy : ∀ b data, f.block? b = some data → s.tidy f b data = true)
    (hhoused : housed f = true) : f.Consistent := by
  have hlisted : ∀ id b, f.instBlock id = some b → id ∈ f.instsOf b := by
    intro id b hb
    obtain ⟨slot, hslot, hblock⟩ := Option.bind_eq_some_iff.1 hb
    simp only [housed, List.all_eq_true, Option.all_eq_true, decide_eq_true_eq] at hhoused
    refine hhoused (slot, id.index) ?_ b hblock
    rw [List.mem_zipIdx_iff_getElem?, Array.getElem?_toList]
    exact hslot
  simp only [tidy, Bool.and_eq_true, List.all_eq_true, decide_eq_true_eq] at htidy
  refine ⟨fun b data hdata id => ⟨(htidy b data hdata).1.1.1.2 id, fun hid => ?_⟩, fun id b hb => ?_,
    fun b data hdata => (htidy b data hdata).1.1.1.1⟩
  · rw [← Func.instsOf_eq hdata]
    exact hlisted id b hid
  · obtain ⟨data, hdata, _⟩ := Func.exists_block_of_mem (hlisted id b hb)
    exact Func.containsBlock_iff.2 ⟨data, hdata⟩

/-- An accepted function is well formed. -/
theorem wellFormed_of_accepts (h : s.accepts f = true) : f.WellFormed := by
  simp only [accepts, Bool.and_eq_true, List.all_eq_true, Option.all_eq_true] at h
  obtain ⟨⟨⟨hcovers, hhoused⟩, hlive⟩, hfed⟩ := h
  have htidy : ∀ b data, f.block? b = some data → s.tidy f b data = true :=
    fun b data hdata => hlive _ (Func.mem_liveBlocks.2 hdata)
  have hreach : ∀ b data, f.Reachable b → f.block? b = some data → s.fed f b data = true := by
    intro b data hb hdata
    obtain ⟨ds, hmem⟩ := lists_iff.1 (lists_of_reachable hcovers hb)
    exact hfed _ hmem data hdata
  have hcon := consistent_of_accepts htidy hhoused
  simp only [tidy, Bool.and_eq_true, List.all_eq_true, decide_eq_true_eq, Option.all_eq_true,
    Bool.not_eq_true'] at htidy
  simp only [fed, Bool.and_eq_true, List.all_eq_true, Option.all_eq_true] at hreach
  refine ⟨hcon, fun e he => ?_, fun b data hdata => (htidy b data hdata).1.1.2,
    fun b data hdata => (htidy b data hdata).1.2, fun b data id inc ty hdata hid hi => ?_,
    fun b data id inc ty hb hdata hid hi q j hj hq qdata hqdata => ?_,
    fun b data before id after i hb hdata hsplit hi hphi j hj => ?_,
    fun b data hb hdata j hj => available_of_sees hcovers ((hreach b data hb hdata).2 _ hj)⟩
  · simp only [covers, Bool.and_eq_true, Option.all_eq_true] at hcovers
    exact (hcovers.1 e he).1
  · have harranged := (htidy b data hdata).2 id hid _ hi
    simp only [arranged, Bool.and_eq_true, List.all_eq_true, Bool.or_eq_true, Bool.not_eq_true',
      decide_eq_true_eq] at harranged
    refine ⟨fun q hq hedge => ?_, fun e he => ?_⟩
    · obtain ⟨ds, hmem⟩ := lists_iff.1 (lists_of_reachable hcovers hq)
      rcases harranged.1 _ hmem with hnot | hcount
      · rw [leads_of_edge hedge] at hnot
        cases hnot
      · exact hcount
    · have hleads := harranged.2 e he
      simp only [leads, Option.any_eq_true, decide_eq_true_eq] at hleads
      obtain ⟨qdata, hqdata, hsucc⟩ := hleads
      exact ⟨qdata, hqdata, hsucc, Func.containsBlock_iff.2 ⟨data, hdata⟩⟩
  · obtain ⟨n, hn⟩ := List.mem_iff_getElem?.1 hid
    have hsupplied := (hreach b data hb hdata).1 (id, n) (List.mem_zipIdx_iff_getElem?.2 hn) _ hi
    simp only [supplied, List.all_eq_true, Bool.or_eq_true, Bool.not_eq_true'] at hsupplied
    rcases hsupplied _ hj with hnot | hsees
    · rw [lists_of_reachable hcovers hq] at hnot
      cases hnot
    · rw [Func.instsOf_eq hqdata] at hsees
      exact available_of_sees hcovers hsees
  · have hmem : (id, before.length) ∈ data.insts.zipIdx := by
      rw [List.mem_zipIdx_iff_getElem?, hsplit]
      simp
    have hsupplied := (hreach b data hb hdata).1 _ hmem i hi
    have htake : data.insts.take before.length = before := by
      rw [hsplit]
      exact List.take_left
    rw [htake] at hsupplied
    refine available_of_sees hcovers ?_
    obtain ⟨kind, o⟩ := i
    cases kind with
    | phi inc => cases hphi
    | _ => exact List.all_eq_true.1 hsupplied _ hj

end Survey

namespace Func

/-- A slot that is written before an indirect jump and read behind a direct one; both lead to the
last block. -/
def storeThenJump : Func where
  name := "sample"
  params := [⟨"flag", .i1⟩, ⟨"stack", .ptr⟩, ⟨"memory", .ptr⟩]
  ret := some .i64
  arena := #[
    ⟨⟨.alloca 8, some .ptr⟩, some ⟨0⟩⟩,
    ⟨⟨.store (.inst ⟨0⟩) (.int 5 .i64), none⟩, some ⟨1⟩⟩,
    ⟨⟨.load (.inst ⟨0⟩), some .i64⟩, some ⟨3⟩⟩]
  blocks := #[
    some { insts := [⟨0⟩], term := .branch (.arg 0) ⟨1⟩ ⟨2⟩ },
    some { insts := [⟨1⟩], term := .indirect (.int 0x1000 .i64) },
    some { term := .jump ⟨3⟩ },
    some { address := some 0x1000, insts := [⟨2⟩], term := .ret (some (.inst ⟨2⟩)) }]
  entry := some ⟨0⟩

theorem storeThenJump_wellTyped : storeThenJump.WellTyped := by decide

theorem storeThenJump_wellFormed : storeThenJump.WellFormed := by
  have haccepts : Survey.accepts
      [(⟨0⟩, []), (⟨1⟩, [⟨0⟩]), (⟨2⟩, [⟨0⟩]), (⟨3⟩, [⟨0⟩])] storeThenJump = true := by decide
  exact Survey.wellFormed_of_accepts haccepts

end Func

end BinaryLift
