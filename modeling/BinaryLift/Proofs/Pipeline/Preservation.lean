import BinaryLift.Proofs.Pipeline.Fixpoint
import BinaryLift.Proofs.Pipeline.MatchedSteps
import BinaryLift.Proofs.Run.Surveys

/-!
# What optimization preserves

Rounds of the standard schedule keep what functions do, in every execution that the steps of each
round permit. Where control comes to all blocks from the start, optimization is sure to return. Two
things go wrong otherwise: an indirect jump to a block of the function becomes an edge after slots have
been promoted as if it were an exit, and a region that only the stack parameter leads to is reached by
another pointer once combination knows it to be the one that is meant.
-/

namespace BinaryLift

open Func Schedule BinaryLift.Module

variable {img : Image} {p : ScheduleParams} {m m' m₁ : Module} {f g : Func} {id : FuncId}
variable {whole : Bool} {act : Activation} {memory : Memory} {region : Word → Prop}

/-! ### Functions to begin with -/

namespace Func

/-- A function in SSA form that is typed, whose indirect jumps leave it and whose slots are only
accessed. Pointers become full words, and terminators name what has a type. -/
structure Admissible (f : Func) : Prop where
  wellFormed : f.WellFormed
  wellTyped : f.WellTyped
  unlinked : f.Unlinked
  slots : ∀ s, f.isLive s = true → f.isSlot s = true → f.confines s = true
  words : ∀ id i, f.isLive id = true → f.inst? id = some i → i.kind.WholeWords f i.ty
  results : ∀ b data v, f.Reachable b → f.block? b = some data → v ∈ data.term.operands →
    (f.typeOf v).isSome = true

/-- Nothing comes in at the entry. -/
def EntryPlain (f : Func) : Prop :=
  ∀ e id, f.entry = some e → id ∈ f.instsOf e → f.isPhi id = false

theorem term_notMem_of_confines {s : InstId} (h : f.confines s = true) {b : BlockId} {data : Block}
    (hdata : f.block? b = some data) : .inst s ∉ data.term.operands := by
  intro hmem
  simp only [confines, Bool.and_eq_true] at h
  have hacc := List.all_eq_true.1 h.2 (.term b) (mem_usersOf.2 ⟨b, data, hdata, .inr ⟨hmem, rfl⟩⟩)
  cases hacc

theorem Admissible.settled (hf : f.Admissible) (hentry : f.EntryPlain) : f.Settled := by
  have hown : ∀ s, (f.isLive s && f.isSlot s) = true → f.confines s = true := by
    intro s hs
    rw [Bool.and_eq_true] at hs
    exact hf.slots s hs.1 hs.2
  have hlive : ∀ {b : BlockId} {id : InstId}, id ∈ f.instsOf b → f.isLive id = true :=
    fun hid => hf.wellFormed.consistent.isLive_of_mem hid
  refine settled_of (orderly_of_wellTyped hf.wellFormed hf.wellTyped hown) ?_ hf.unlinked.leaves
  exact {
    slots := fun b id i _ hid hi halloca => by rw [hlive hid, isSlot_inst hi, halloca]; rfl
    words := fun b id i _ hid hi => hf.words id i (hlive hid) hi
    terms := fun s hs b data _ hdata => term_notMem_of_confines (hown s hs) hdata
    results := hf.results
    entry := hentry }

theorem Admissible.fit (hf : f.Admissible) (hentry : f.EntryPlain) : f.Fit false :=
  ⟨hf.settled hentry, fun hwhole => nomatch hwhole⟩

/-- A function with phis at its entry does not execute. -/
theorem matchedBy_of_not_entryPlain (hwf : f.WellFormed) (hentry : ¬ f.EntryPlain) :
    f.MatchedBy act memory region g := by
  simp only [EntryPlain, not_forall, Bool.not_eq_false] at hentry
  obtain ⟨e, id, he, hid, hphi⟩ := hentry
  intro n x m hrun
  rw [run_of_entry_phi hwf he hid hphi] at hrun
  cases hrun

end Func

/-! ### One schedule -/

namespace Schedule

theorem permits_append {s₁ s₂ : Schedule} (h₁ : s₁.Permits img act memory region id m)
    (h₂ : ∀ m₁, s₁.stepwise img m = .ok m₁ → s₂.Permits img act memory region id m₁) :
    Permits img act memory region id (s₁ ++ s₂) m := by
  induction s₁ generalizing m with
  | nil => exact h₂ m rfl
  | cons e rest ih =>
    obtain ⟨phase, step⟩ := e
    refine ⟨h₁.1, fun m₁ hfirst => ih (h₁.2 m₁ hfirst) fun m₂ hrest => ?_⟩
    exact h₂ m₂ (stepwise_cons.2 ⟨m₁, hfirst, hrest⟩)

/-- Steps that permit the execution of whatever function. -/
theorem permits_of_forall {s : Schedule}
    (hs : ∀ e ∈ s, ∀ f, e.2.Permits act memory region id f) :
    s.Permits img act memory region id m := by
  induction s generalizing m with
  | nil => trivial
  | cons e rest ih =>
    exact ⟨fun f _ => hs e List.mem_cons_self f, fun m₁ _ =>
      ih fun e he => hs e (List.mem_cons_of_mem _ he)⟩

/-- The steps before stack memory is turned into slots. -/
def direct (p : ScheduleParams) : Schedule := (build p).take 7

end Schedule

/-- What is asked of an execution of the function at the handle `id`. If it is the one that has the
stack parameter, nothing but that parameter leads to the region when stack memory is turned into
slots, in each of the rounds; that this is so in the function as it comes is not enough, see
`reserves_lost`. If it is the one that has the memory parameter, that one is zero. -/
structure Permitted (img : Image) (p : ScheduleParams) (m : Module) (rounds : Nat) (id : FuncId)
    (act : Activation) (memory : Memory) (region : Word → Prop) : Prop where
  reserved : id = p.stack.func → ∀ k < rounds, ∀ m₁ m₂ f,
    afterRounds (Pass.runAll img (build p).passes) m k = .ok m₁ →
    (direct p).stepwise img m₁ = .ok m₂ → m₂.func? id = some f →
    f.Reserves (act.withSlots f) memory p.stack.value region
  zero : id = p.memory.func → act.args p.memory.index = 0

theorem Permitted.mono {rounds n : Nat} (h : Permitted img p m rounds id act memory region)
    (hn : n ≤ rounds) : Permitted img p m n id act memory region :=
  ⟨fun hid k hk => h.reserved hid k (by omega), h.zero⟩

theorem Permitted.permits {k : Nat} (h : Permitted img p m (k + 1) id act memory region)
    (hround : afterRounds (Pass.runAll img (build p).passes) m k = .ok m₁) :
    (build p).Permits img act memory region id m₁ := by
  have hsplit : build p = direct p ++ (build p).drop 7 := rfl
  rw [hsplit]
  refine permits_append (permits_of_forall ?_) fun m₂ hdirect =>
    ⟨fun f hf hid => ?_, fun m₃ _ => permits_of_forall ?_⟩
  · intro e he f
    simp only [direct, build, List.take_succ_cons, List.take_zero, List.mem_cons,
      List.not_mem_nil, or_false] at he
    rcases he with rfl | rfl | rfl | rfl | rfl | rfl | rfl <;> trivial
  · exact h.reserved hid k (Nat.lt_succ_self k) m₁ m₂ f hround hdirect hf
  · intro e he f
    simp only [List.mem_cons, List.not_mem_nil, or_false] at he
    rcases he with rfl | rfl | rfl | rfl | rfl | rfl | rfl
    · exact h.zero
    all_goals trivial

theorem ready_build (hpolicy : p.policy = .never) (whole : Bool) : (build p).Ready whole :=
  ⟨trivial, trivial, trivial, trivial, trivial, hpolicy, rfl, rfl, trivial, trivial, trivial,
    trivial, trivial, trivial, trivial, trivial⟩

/-! ### Rounds -/

theorem round_evolves (hpolicy : p.policy = .never)
    (h : Pass.runAll img (build p).passes m = .ok m') :
    m.Evolves (fun id f g => f.TurnsInto whole whole
      (fun act memory region => (build p).Permits img act memory region id m) g) m' := by
  have hsteps := (runAll_passes (phased_build p)).1 h
  refine (stepwise_evolves (ready_build hpolicy whole) hsteps).mono fun id f g hfg => ?_
  have hwhole : (build p).leavesWhole whole = true := leavesWhole_true
  rw [hwhole] at hfg
  exact hfg.weaken

/-- What any number of rounds make of a module. -/
theorem afterRounds_evolves (hpolicy : p.policy = .never) {k : Nat}
    (h : afterRounds (Pass.runAll img (build p).passes) m k = .ok m') :
    m.Evolves (fun id f g => f.TurnsInto whole whole (Permitted img p m k id) g) m' := by
  induction k generalizing m' with
  | zero =>
    cases h
    exact evolves_self fun _ _ _ => turnsInto_self id
  | succ k ih =>
    obtain ⟨m₁, hbefore, hround⟩ := bind_eq_ok.1 h
    refine (ih hbefore).trans (round_evolves hpolicy hround) fun id f g e _ hfg
      (hge : g.TurnsInto whole whole _ e) => ?_
    exact hfg.trans hge fun act memory region hpermitted =>
      ⟨hpermitted.mono (Nat.le_succ k), hpermitted.permits hbefore⟩

/-- Where all functions are fit and whole, every round returns. -/
theorem afterRounds_returns (hpolicy : p.policy = .never)
    (hall : ∀ id f, m.func? id = some f → f.Fit true) (k : Nat) :
    ∃ m', afterRounds (Pass.runAll img (build p).passes) m k = .ok m' := by
  induction k with
  | zero => exact ⟨m, rfl⟩
  | succ k ih =>
    obtain ⟨m₁, hbefore⟩ := ih
    have hfit : ∀ id g, m₁.func? id = some g → g.Fit true := by
      intro id g hg
      obtain ⟨f, hf, hfg⟩ := (afterRounds_evolves hpolicy hbefore).origin id g hg
      exact hfg.fit (hall id f hf)
    obtain ⟨m', hsteps⟩ : ∃ m', (build p).stepwise img m₁ = .ok m' :=
      stepwise_returns (ready_build hpolicy true) hfit
    exact ⟨m', bind_eq_ok.2 ⟨m₁, hbefore, (runAll_passes (phased_build p)).2 hsteps⟩⟩

theorem optimize_returns (hpolicy : p.policy = .never)
    (hall : ∀ id f, m.func? id = some f → f.Fit true) (limit : Nat) :
    ∃ m' report, optimize img p limit m = .ok (m', report) := by
  cases hrun : optimize img p limit m with
  | ok r => exact ⟨r.1, r.2, rfl⟩
  | error e =>
    have hobeys := shrink_obeys (Pass.runAll img (build p).passes) Module.instructionCount limit m
    obtain ⟨k, _, _, hfails⟩ := (hobeys.fails e).1 hrun
    obtain ⟨m', hround⟩ : ∃ m', afterRounds (Pass.runAll img (build p).passes) m (k + 1) = .ok m' :=
      afterRounds_returns hpolicy hall (k + 1)
    rw [hfails] at hround
    cases hround

/-- Nothing of the image is folded in, indirect jumps leave, and the slots of each function are its
own. Whatever optimization returns has all visible definitions, and each of its functions does what
the one with its handle did: in every execution that is permitted in all rounds and ends without an
undefined operation, it ends with the same exit, the same calls and the same memory outside the
reserved region. Where control comes to all blocks of every function and nothing comes in at an
entry, optimization is sure to return. -/
theorem optimize_preserves (img : Image) (p : ScheduleParams) (hpolicy : p.policy = .never)
    (limit : Nat) (m : Module) :
    (∀ m' report, optimize img p limit m = .ok (m', report) →
      (∀ id f, m.func? id = some f → f.linkage = .visible → f.isDeclaration = false →
        ∃ g, m'.func? id = some g ∧ g.head = f.head) ∧
      ∀ id g, m'.func? id = some g → ∃ f, m.func? id = some f ∧ g.head = f.head ∧
        (f.Admissible → ∀ act memory region,
          Permitted img p m report.iterations id act memory region →
          f.MatchedBy act memory region g)) ∧
    ((∀ id f, m.func? id = some f →
        f.Admissible ∧ f.EntryPlain ∧ (f.isDeclaration = false → f.Whole)) →
      ∃ m' report, optimize img p limit m = .ok (m', report)) := by
  constructor
  · intro m' report hrun
    have hobeys := shrink_obeys (Pass.runAll img (build p).passes) Module.instructionCount limit m
    have hevolves : m.Evolves (fun id f g =>
        f.TurnsInto false false (Permitted img p m report.iterations id) g) m' :=
      afterRounds_evolves hpolicy ((hobeys.returns m' report).1 hrun).left
    refine ⟨hevolves.stays, fun id g hg => ?_⟩
    obtain ⟨f, hf, hfg⟩ := hevolves.origin id g hg
    refine ⟨f, hf, hfg.head, fun hadmissible act memory region hpermitted => ?_⟩
    by_cases hentry : f.EntryPlain
    · exact hfg.matched (hadmissible.fit hentry) act memory region hpermitted
    · exact matchedBy_of_not_entryPlain hadmissible.wellFormed hentry
  · intro hall
    refine optimize_returns hpolicy (fun id f hf => ?_) limit
    obtain ⟨hadmissible, hentry, hwhole⟩ := hall id f hf
    exact ⟨hadmissible.settled hentry, fun _ => hwhole⟩

/-! ### Jumps to recorded addresses -/

/-- An activation of the sample function in which indirect jumps to recorded addresses are
followed. -/
def flagSet : Activation where
  args := fun n => if n = 0 then 1 else 0
  answer := fun _ _ memory => (0, memory)
  base := fun _ => 0
  own := Func.storeThenJump.confines
  linked := true

/-- The sample function after the standard pipeline. -/
def optimizedSample : Option Func :=
  match optimize {} { stack := ⟨⟨0⟩, 1⟩, memory := ⟨⟨0⟩, 2⟩, policy := .never } maxIterations
    { name := "sample", arena := #[some .storeThenJump] } with
  | .ok (m, _) => m.func? ⟨0⟩
  | .error _ => none

/-- Promotion takes an indirect jump for an exit, so a store before it reaches nobody. Simplification
then turns it into an edge. Five is returned before optimization and nothing but zero after it. -/
theorem optimize_loses_store :
    Func.storeThenJump.WellFormed ∧ Func.storeThenJump.WellTyped ∧
    (∃ m, Func.storeThenJump.run flagSet (fun _ => 0) 3 = some (.ret (some 5), m)) ∧
    ∃ g, optimizedSample = some g ∧
      ∀ n e m, g.run flagSet (fun _ => 0) n = some (e, m) → e = .ret (some 0) := by
  refine ⟨Func.storeThenJump_wellFormed, Func.storeThenJump_wellTyped, ?_, ?_⟩
  · have hexit : (Func.storeThenJump.run flagSet (fun _ => 0) 3).map (·.1) =
        some (.ret (some 5)) := by cbv
    obtain ⟨⟨e, m⟩, hrun, he⟩ := Option.map_eq_some_iff.1 hexit
    cases he
    exact ⟨m, hrun⟩
  · have hexit : (optimizedSample.bind fun g => (g.run flagSet (fun _ => 0) 1).map (·.1)) =
        some (.ret (some 0)) := by cbv
    obtain ⟨g, hg, hrun⟩ := Option.bind_eq_some_iff.1 hexit
    obtain ⟨⟨e, m⟩, hrun, he⟩ := Option.map_eq_some_iff.1 hrun
    cases he
    refine ⟨g, hg, fun n e' m' h => ?_⟩
    cases Func.run_unique hrun h
    rfl

/-! ### A word that is handed on -/

/-- A word goes from a slot to the stack, and from there to a fixed place in memory and to the
caller. -/
def stackTransfer : Func where
  name := "sample"
  params := [⟨"stack", .ptr⟩, ⟨"memory", .ptr⟩]
  ret := some .i64
  arena := #[
    ⟨⟨.alloca 8, some .ptr⟩, some ⟨0⟩⟩,
    ⟨⟨.store (.inst ⟨0⟩) (.int 5 .i64), none⟩, some ⟨0⟩⟩,
    ⟨⟨.ptrAdd (.arg 0) (.int 8 .i64), some .ptr⟩, some ⟨0⟩⟩,
    ⟨⟨.load (.inst ⟨0⟩), some .i64⟩, some ⟨0⟩⟩,
    ⟨⟨.store (.inst ⟨2⟩) (.inst ⟨3⟩), none⟩, some ⟨0⟩⟩,
    ⟨⟨.ptrAdd (.arg 0) (.int 8 .i64), some .ptr⟩, some ⟨1⟩⟩,
    ⟨⟨.load (.inst ⟨5⟩), some .i64⟩, some ⟨1⟩⟩,
    ⟨⟨.ptrAdd (.arg 1) (.int 0x2000 .i64), some .ptr⟩, some ⟨1⟩⟩,
    ⟨⟨.store (.inst ⟨7⟩) (.inst ⟨6⟩), none⟩, some ⟨1⟩⟩]
  blocks := #[
    some { insts := [⟨0⟩, ⟨1⟩, ⟨2⟩, ⟨3⟩, ⟨4⟩], term := .jump ⟨1⟩ },
    some { insts := [⟨5⟩, ⟨6⟩, ⟨7⟩, ⟨8⟩], term := .ret (some (.inst ⟨6⟩)) }]
  entry := some ⟨0⟩

/-- The sample function when its stack accesses have become direct. -/
def directTransfer : Func where
  name := "sample"
  params := [⟨"stack", .ptr⟩, ⟨"memory", .ptr⟩]
  ret := some .i64
  arena := #[
    ⟨⟨.alloca 8, some .ptr⟩, none⟩,
    ⟨⟨.store (.inst ⟨0⟩) (.int 5 .i64), none⟩, none⟩,
    ⟨⟨.ptrAdd (.arg 0) (.int 8 .i64), some .ptr⟩, some ⟨0⟩⟩,
    ⟨⟨.load (.inst ⟨0⟩), some .i64⟩, none⟩,
    ⟨⟨.store (.inst ⟨2⟩) (.int 5 .i64), none⟩, some ⟨0⟩⟩,
    ⟨⟨.ptrAdd (.arg 0) (.int 8 .i64), some .ptr⟩, none⟩,
    ⟨⟨.load (.inst ⟨2⟩), some .i64⟩, none⟩,
    ⟨⟨.ptrAdd (.arg 1) (.int 0x2000 .i64), some .ptr⟩, some ⟨0⟩⟩,
    ⟨⟨.store (.inst ⟨7⟩) (.int 5 .i64), none⟩, some ⟨0⟩⟩]
  blocks := #[
    some { insts := [⟨2⟩, ⟨4⟩, ⟨7⟩, ⟨8⟩], term := .ret (some (.int 5 .i64)) }, none]
  entry := some ⟨0⟩

def transferParams : ScheduleParams := { stack := ⟨⟨0⟩, 0⟩, memory := ⟨⟨0⟩, 1⟩, policy := .never }

def transferModule : Module := { name := "sample", arena := #[some stackTransfer] }

/-- The stack begins at 0x1000, and memory at zero. -/
def transferCall : Activation where
  args := fun n => if n = 0 then 0x1000 else 0
  answer := fun _ _ memory => (0, memory)
  base := fun _ => 0
  own := fun _ => false
  linked := true

theorem stackTransfer_wellFormed : stackTransfer.WellFormed := by
  have haccepts : Survey.accepts [(⟨0⟩, []), (⟨1⟩, [⟨0⟩])] stackTransfer = true := by decide
  exact Survey.wellFormed_of_accepts haccepts

theorem stackTransfer_admissible : stackTransfer.Admissible where
  wellFormed := stackTransfer_wellFormed
  wellTyped := by decide
  unlinked := unlinked_of_addresses (by decide)
  slots := by
    rintro ⟨n⟩ hlive
    have hall : ∀ n < 9, stackTransfer.isSlot ⟨n⟩ = true → stackTransfer.confines ⟨n⟩ = true := by
      decide
    exact hall n (index_lt_of_isLive hlive)
  words := by
    rintro ⟨n⟩ i _ hi
    have hlt : n < 9 := index_lt_of_inst? hi
    interval_cases n <;> cases hi <;> trivial
  results := by
    intro b data v _ hdata
    have hall : ∀ e ∈ stackTransfer.liveBlocks, ∀ v ∈ e.2.term.operands,
        (stackTransfer.typeOf v).isSome = true := by decide
    exact hall (b, data) (mem_liveBlocks.2 hdata) v

theorem stackTransfer_entryPlain : stackTransfer.EntryPlain := by
  intro e id he
  cases he
  have hall : ∀ id ∈ stackTransfer.instsOf ⟨0⟩, stackTransfer.isPhi id = false := by decide
  exact hall id

theorem stackTransfer_whole : stackTransfer.Whole := by
  intro b hb
  have hentry : stackTransfer.Reachable ⟨0⟩ := .entry rfl rfl
  have hall : ∀ b ∈ stackTransfer.blockIds, b = ⟨0⟩ ∨ b = ⟨1⟩ := by decide
  rcases hall b (mem_blockIds.2 hb) with rfl | rfl
  · exact hentry
  · exact hentry.step ⟨_, rfl, List.mem_singleton_self _, rfl⟩

theorem transferModule_func? {id : FuncId} {f : Func} (hf : transferModule.func? id = some f) :
    f = stackTransfer := by
  obtain ⟨n⟩ := id
  match n with
  | 0 => exact (Option.some.inj hf).symm
  | n + 1 => cases hf

theorem directTransfer_wellFormed : directTransfer.WellFormed := by
  have haccepts : Survey.accepts [(⟨0⟩, [])] directTransfer = true := by decide
  exact Survey.wellFormed_of_accepts haccepts

theorem directTransfer_leaves {act : Activation} : act.Leaves directTransfer :=
  (unlinked_of_addresses (by decide)).leaves act

/-- The eight bytes of the stack that are accessed. -/
def transferBytes (a : Word) : Prop := ∃ i < 8, a = 0x1008 + BitVec.ofNat 64 i

theorem directTransfer_access? {id : InstId} {v : Value} {ty : Ty}
    (hlive : directTransfer.isLive id = true) (h : directTransfer.access? id = some (v, ty)) :
    ty = .i64 ∧ (v = .inst ⟨2⟩ ∨ v = .inst ⟨7⟩) := by
  obtain ⟨n⟩ := id
  have hall : ∀ n < 9, directTransfer.isLive ⟨n⟩ = true → n = 2 ∨ n = 4 ∨ n = 7 ∨ n = 8 := by
    decide
  rcases hall n (index_lt_of_isLive hlive) hlive with rfl | rfl | rfl | rfl
  · cases h
  · cases h
    exact ⟨rfl, .inl rfl⟩
  · cases h
  · cases h
    exact ⟨rfl, .inr rfl⟩

theorem directTransfer_touches {v : Value} {ty : Ty} {a : Word}
    (h : directTransfer.Touches (transferCall.withSlots directTransfer) (fun _ => 0) v ty a) :
    ty = .i64 ∧ (v = .inst ⟨2⟩ ∧ a = 0x1008 ∨ v = .inst ⟨7⟩ ∧ a = 0x2000) := by
  have hplace := h
  obtain ⟨b, pre, id, post, m, _, hsplit, haccess, _⟩ := h
  have hlive := directTransfer_wellFormed.consistent.isLive_of_mem (mem_of_split hsplit)
  obtain ⟨hty, rfl | rfl⟩ := directTransfer_access? hlive haccess
  · exact ⟨hty, .inl ⟨rfl, hplace.address directTransfer_wellFormed directTransfer_leaves rfl rfl
      fun _ => rfl⟩⟩
  · exact ⟨hty, .inr ⟨rfl, hplace.address directTransfer_wellFormed directTransfer_leaves rfl rfl
      fun _ => rfl⟩⟩

theorem not_transferBytes {i : Nat} (hi : i < 8) :
    ¬ transferBytes (0x2000 + BitVec.ofNat 64 i) := by
  have hne : ∀ i < 8, ∀ j < 8,
      (0x2000 : Word) + BitVec.ofNat 64 i ≠ 0x1008 + BitVec.ofNat 64 j := by decide
  rintro ⟨j, hj, heq⟩
  exact hne i hi j hj heq

theorem directTransfer_reserves :
    directTransfer.Reserves (transferCall.withSlots directTransfer) (fun _ => 0) (.arg 0)
      transferBytes where
  zero := fun _ _ => rfl
  reached := by
    intro v ty a i htouch hi hregion
    obtain ⟨rfl, ⟨rfl, _⟩ | ⟨_, rfl⟩⟩ := directTransfer_touches htouch
    · have hmem : ⟨2⟩ ∈ directTransfer.instsOf ⟨0⟩ := List.mem_cons_self
      exact .inl (.step hmem rfl rfl List.mem_cons_self .self)
    · exact absurd hregion (not_transferBytes hi)
  within := by
    intro j c o ty a i htouch hinst hi
    obtain ⟨rfl, ⟨hj, rfl⟩ | ⟨hj, _⟩⟩ := directTransfer_touches htouch
    · exact ⟨i, hi, rfl⟩
    · cases hj
      cases hinst
  calls := by
    intro b pre id post m callee args o ws _ _ hi
    exact absurd hi (inst?_ne_call (by decide))

/-- The sample function when the first round is over and the steps before stack memory have been taken
once more. -/
def keptTransfer : Func where
  name := "sample"
  params := [⟨"stack", .ptr⟩, ⟨"memory", .ptr⟩]
  ret := some .i64
  arena := #[
    ⟨⟨.alloca 8, some .ptr⟩, none⟩,
    ⟨⟨.store (.inst ⟨0⟩) (.int 5 .i64), none⟩, none⟩,
    ⟨⟨.ptrAdd (.arg 0) (.int 8 .i64), some .ptr⟩, none⟩,
    ⟨⟨.load (.inst ⟨0⟩), some .i64⟩, none⟩,
    ⟨⟨.store (.inst ⟨9⟩) (.int 5 .i64), none⟩, none⟩,
    ⟨⟨.ptrAdd (.arg 0) (.int 8 .i64), some .ptr⟩, none⟩,
    ⟨⟨.load (.inst ⟨2⟩), some .i64⟩, none⟩,
    ⟨⟨.cast .inttoptr (.int 0x2000 .i64), some .ptr⟩, some ⟨0⟩⟩,
    ⟨⟨.store (.inst ⟨7⟩) (.int 5 .i64), none⟩, some ⟨0⟩⟩,
    ⟨⟨.alloca 8, some .ptr⟩, none⟩]
  blocks := #[some { insts := [⟨7⟩, ⟨8⟩], term := .ret (some (.int 5 .i64)) }, none]
  entry := some ⟨0⟩

theorem keptTransfer_wellFormed : keptTransfer.WellFormed := by
  have haccepts : Survey.accepts [(⟨0⟩, [])] keptTransfer = true := by decide
  exact Survey.wellFormed_of_accepts haccepts

theorem keptTransfer_leaves {act : Activation} : act.Leaves keptTransfer :=
  (unlinked_of_addresses (by decide)).leaves act

theorem keptTransfer_touches {v : Value} {ty : Ty} {a : Word}
    (h : keptTransfer.Touches (transferCall.withSlots keptTransfer) (fun _ => 0) v ty a) :
    ty = .i64 ∧ v = .inst ⟨7⟩ ∧ a = 0x2000 := by
  have hplace := h
  obtain ⟨b, pre, id, post, m, _, hsplit, haccess, _⟩ := h
  have hlive := keptTransfer_wellFormed.consistent.isLive_of_mem (mem_of_split hsplit)
  have hall : ∀ n < 10, keptTransfer.isLive ⟨n⟩ = true → n = 7 ∨ n = 8 := by decide
  obtain ⟨n⟩ := id
  rcases hall n (index_lt_of_isLive hlive) hlive with rfl | rfl <;> cases haccess
  exact ⟨rfl, rfl, hplace.address keptTransfer_wellFormed keptTransfer_leaves rfl rfl fun _ => rfl⟩

theorem keptTransfer_reserves :
    keptTransfer.Reserves (transferCall.withSlots keptTransfer) (fun _ => 0) (.arg 0)
      transferBytes where
  zero := fun _ _ => rfl
  reached := by
    intro v ty a i htouch hi hregion
    obtain ⟨rfl, _, rfl⟩ := keptTransfer_touches htouch
    exact absurd hregion (not_transferBytes hi)
  within := by
    intro j c o ty a i htouch hinst hi
    obtain ⟨_, hj, _⟩ := keptTransfer_touches htouch
    cases hj
    cases hinst
  calls := by
    intro b pre id post m callee args o ws _ _ hi
    exact absurd hi (inst?_ne_call (by decide))

/-- Nothing but the stack parameter leads to the bytes of the stack, in both of the rounds. -/
theorem stackTransfer_permitted :
    Permitted {} transferParams transferModule 2 ⟨0⟩ transferCall (fun _ => 0) transferBytes where
  zero := fun _ => rfl
  reserved := by
    intro _ k hk m₁ m₂ f hbefore hdirect hf
    match k, hk with
    | 0, _ =>
      cases hbefore
      have hfunc : ((direct transferParams).stepwise {} transferModule).toOption.bind
          (·.func? ⟨0⟩) = some directTransfer := by cbv
      rw [hdirect] at hfunc
      obtain rfl : f = directTransfer := Option.some.inj (hf.symm.trans hfunc)
      exact directTransfer_reserves
    | 1, _ =>
      have hfunc : (afterRounds (Pass.runAll {} (build transferParams).passes)
          transferModule 1).toOption.bind (fun m => ((direct transferParams).stepwise {} m).toOption.bind
            (·.func? ⟨0⟩)) = some keptTransfer := by cbv
      rw [hbefore] at hfunc
      change ((direct transferParams).stepwise {} m₁).toOption.bind _ = _ at hfunc
      rw [hdirect] at hfunc
      obtain rfl : f = keptTransfer := Option.some.inj (hf.symm.trans hfunc)
      exact keptTransfer_reserves

/-- Two rounds are made of it. The word is returned and stands in memory, before and after. -/
theorem stackTransfer_optimized :
    ∃ m g report, optimize {} transferParams maxIterations transferModule = .ok (m, report) ∧
      report.iterations = 2 ∧ m.func? ⟨0⟩ = some g ∧
      ∃ k s, g.run (transferCall.withSlots g) (fun _ => 0) k = some (.ret (some 5), s) ∧
        s.calls = [] ∧ s.memory 0x2000 = 5 := by
  obtain ⟨hkeeps, hreturns⟩ := optimize_preserves {} transferParams rfl maxIterations transferModule
  obtain ⟨m, report, hrun⟩ := hreturns fun id f hf => by
    rw [transferModule_func? hf]
    exact ⟨stackTransfer_admissible, stackTransfer_entryPlain, fun _ => stackTransfer_whole⟩
  obtain ⟨hstays, horigin⟩ := hkeeps m report hrun
  obtain ⟨g, hg, _⟩ := hstays ⟨0⟩ stackTransfer rfl rfl rfl
  obtain ⟨f, hf, _, hmatched⟩ := horigin ⟨0⟩ g hg
  obtain rfl := transferModule_func? hf
  have hrounds : report.iterations = 2 := by
    have hsome : (optimize {} transferParams maxIterations transferModule).toOption.map
        (·.2.iterations) = some 2 := by cbv
    rw [hrun] at hsome
    exact Option.some.inj hsome
  rw [hrounds] at hmatched
  have hexit : (stackTransfer.run (transferCall.withSlots stackTransfer) (fun _ => 0) 2).map
      (fun r => (r.1, r.2.calls.length, r.2.memory 0x2000)) = some (.ret (some 5), 0, 5) := by cbv
  obtain ⟨⟨e, s⟩, hold, heq⟩ := Option.map_eq_some_iff.1 hexit
  simp only [Prod.mk.injEq] at heq
  obtain ⟨rfl, hcalls, hword⟩ := heq
  obtain ⟨k, s', hnew, hcalls', hmemory⟩ := hmatched stackTransfer_admissible transferCall _
    transferBytes stackTransfer_permitted 2 _ s hold
  refine ⟨m, g, report, hrun, hrounds, hg, k, s', hnew,
    hcalls'.trans (List.length_eq_zero_iff.1 hcalls), ?_⟩
  rw [hmemory 0x2000 (not_transferBytes (Nat.zero_lt_succ 7)), hword]

/-! ### A pointer that is not chosen -/

/-- A word is stored through a choice between a place on the stack and another parameter, which is
never the former, and loaded again from the stack. -/
def chosenPointer : Func where
  name := "sample"
  params := [⟨"stack", .ptr⟩, ⟨"memory", .ptr⟩, ⟨"p", .ptr⟩]
  ret := some .i64
  arena := #[
    ⟨⟨.ptrAdd (.arg 0) (.int 8 .i64), some .ptr⟩, some ⟨0⟩⟩,
    ⟨⟨.select (.int 0 .i1) (.inst ⟨0⟩) (.arg 2), some .ptr⟩, some ⟨0⟩⟩,
    ⟨⟨.store (.inst ⟨1⟩) (.int 5 .i64), none⟩, some ⟨0⟩⟩,
    ⟨⟨.load (.inst ⟨0⟩), some .i64⟩, some ⟨0⟩⟩]
  blocks := #[some { insts := [⟨0⟩, ⟨1⟩, ⟨2⟩, ⟨3⟩], term := .ret (some (.inst ⟨3⟩)) }]
  entry := some ⟨0⟩

def chosenModule : Module := { name := "sample", arena := #[some chosenPointer] }

/-- The other parameter is the place on the stack as well. -/
def chosenCall : Activation where
  args := fun n => if n = 0 then 0x1000 else if n = 2 then 0x1008 else 0
  answer := fun _ _ memory => (0, memory)
  base := fun _ => 0
  own := fun _ => false
  linked := true

theorem chosenPointer_wellFormed : chosenPointer.WellFormed := by
  have haccepts : Survey.accepts [(⟨0⟩, [])] chosenPointer = true := by decide
  exact Survey.wellFormed_of_accepts haccepts

theorem chosenPointer_leaves {act : Activation} : act.Leaves chosenPointer :=
  (unlinked_of_addresses (by decide)).leaves act

theorem chosenPointer_touches {v : Value} {ty : Ty} {a : Word}
    (h : chosenPointer.Touches chosenCall (fun _ => 0) v ty a) :
    ty = .i64 ∧ (v = .inst ⟨1⟩ ∨ v = .inst ⟨0⟩ ∧ a = 0x1008) := by
  have hplace := h
  obtain ⟨b, pre, ⟨n⟩, post, m, _, hsplit, haccess, _⟩ := h
  have hlt := index_lt_of_isLive
    (chosenPointer_wellFormed.consistent.isLive_of_mem (mem_of_split hsplit))
  change n < 4 at hlt
  interval_cases n <;> cases haccess
  · exact ⟨rfl, .inl rfl⟩
  · exact ⟨rfl, .inr ⟨rfl, hplace.address chosenPointer_wellFormed chosenPointer_leaves rfl rfl
      fun _ => rfl⟩⟩

theorem chosenPointer_reserves :
    chosenPointer.Reserves chosenCall (fun _ => 0) (.arg 0) transferBytes where
  zero := fun _ _ => rfl
  reached := by
    intro v ty a i htouch hi _
    have hplace : ⟨0⟩ ∈ chosenPointer.instsOf ⟨0⟩ := List.mem_cons_self
    have hsum : chosenPointer.ComesFrom (.arg 0) (.inst ⟨0⟩) :=
      .step hplace rfl rfl List.mem_cons_self .self
    obtain ⟨_, rfl | ⟨rfl, _⟩⟩ := chosenPointer_touches htouch
    · have hchoice : ⟨1⟩ ∈ chosenPointer.instsOf ⟨0⟩ := List.mem_cons_of_mem _ List.mem_cons_self
      exact .inl (.step hchoice rfl rfl (List.mem_cons_of_mem _ List.mem_cons_self) hsum)
    · exact .inl hsum
  within := by
    intro j c o ty a i htouch hinst hi
    obtain ⟨rfl, hj | ⟨hj, rfl⟩⟩ := chosenPointer_touches htouch
    · cases hj
      cases hinst
    · exact ⟨i, hi, rfl⟩
  calls := by
    intro b pre id post m callee args o ws _ _ hi
    exact absurd hi (inst?_ne_call (by decide))

/-- It does not do to ask of the function itself that nothing but the stack parameter leads to the
region. Here nothing else does, until combination finds which pointer is chosen. -/
theorem reserves_lost :
    chosenPointer.Reserves chosenCall (fun _ => 0) (.arg 0) transferBytes ∧
    (∃ s, chosenPointer.run chosenCall (fun _ => 0) 1 = some (.ret (some 5), s)) ∧
    ∃ m g report, optimize {} transferParams maxIterations chosenModule = .ok (m, report) ∧
      m.func? ⟨0⟩ = some g ∧
      ∀ n e s, g.run chosenCall (fun _ => 0) n = some (e, s) → e = .ret (some 0) := by
  refine ⟨chosenPointer_reserves, ?_, ?_⟩
  · have hexit : (chosenPointer.run chosenCall (fun _ => 0) 1).map (·.1) =
        some (.ret (some 5)) := by cbv
    obtain ⟨⟨e, s⟩, hrun, rfl⟩ := Option.map_eq_some_iff.1 hexit
    exact ⟨s, hrun⟩
  · have hexit : ((optimize {} transferParams maxIterations chosenModule).toOption.bind fun r =>
        (r.1.func? ⟨0⟩).bind fun g => (g.run chosenCall (fun _ => 0) 1).map (·.1)) =
        some (.ret (some 0)) := by cbv
    obtain ⟨⟨m, report⟩, hopt, hfunc⟩ := Option.bind_eq_some_iff.1 hexit
    obtain ⟨g, hg, hrun⟩ := Option.bind_eq_some_iff.1 hfunc
    obtain ⟨⟨e, s⟩, hrun, rfl⟩ := Option.map_eq_some_iff.1 hrun
    refine ⟨m, g, report, ok_of_toOption hopt, hg, fun n e' s' h => ?_⟩
    cases run_unique hrun h
    rfl

end BinaryLift
