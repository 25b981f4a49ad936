import BinaryLift.Proofs.Lift.Discovery
import Mathlib

/-!
# What a session lifts

The search stops in one of three ways: nothing is pending, the limit is reached while something is,
or a visit fails. Together with what every visit keeps this says which addresses the lifter is asked
for, in which order, and what the lifted function looks like.
-/

namespace BinaryLift

namespace Progress

open BlockMap

variable {σ : Type} {lifter : BlockLifter σ} {r : Resolver} {name : String} {limit : Nat}

/-- The next visit fails with `e` and leaves `q`. -/
def Fails (lifter : BlockLifter σ) (r : Resolver) (p q : Progress σ) (e : LiftFailure) : Prop :=
  ∃ m a b, p.blocks.next = (m, some (a, b)) ∧
    liftBlock lifter r { p with blocks := m } b a = (q, .error e)

/-- How the search ends, after which visits. -/
def Ends (lifter : BlockLifter σ) (r : Resolver) (name : String) (limit n : Nat) (vs : List Visit)
    (p : Progress σ) (q : Progress σ) (res : Except LiftFailure Unit) : Prop :=
  (p.blocks.pending = [] ∧ q = p ∧ res = .ok ()) ∨
    (vs.length = n ∧ ∃ m e, p.blocks.next = (m, some e) ∧ q = { p with blocks := m } ∧
      res = .error (.error (.blockLimitExceeded name limit))) ∨
    (vs.length < n ∧ ∃ e, Fails lifter r p q e ∧ res = .error e)

theorem visits_of_liftBlock {p q : Progress σ} {m : BlockMap} {a : Word} {b : BlockId}
    (hnext : p.blocks.next = (m, some (a, b)))
    (h : liftBlock lifter r { p with blocks := m } b a = (q, .ok ())) :
    ∃ v, Visits lifter r p v q := by
  cases hl : lifter.lift p.lifter p.func b a with
  | mk s res =>
    cases res with
    | error e =>
      simp only [liftBlock, hl] at h
      cases h
    | ok pair => exact ⟨⟨a, b, pair.2, pair.1⟩, m, s, hnext, hl, h⟩

theorem discover_cases (lifter : BlockLifter σ) (r : Resolver) (name : String) (limit n : Nat)
    (p : Progress σ) :
    ∃ vs p', Runs lifter r p vs p' ∧ vs.length ≤ n ∧
      Ends lifter r name limit n vs p' (p.discover lifter r name limit n).1
        (p.discover lifter r name limit n).2 := by
  induction n generalizing p with
  | zero =>
    refine ⟨[], p, .nil p, Nat.le_refl _, ?_⟩
    unfold discover
    cases hn : p.blocks.next with
    | mk m o =>
      cases o with
      | none => exact .inl ⟨next_eq_none hn, rfl, rfl⟩
      | some e => exact .inr (.inl ⟨rfl, m, e, hn, rfl, rfl⟩)
  | succ n ih =>
    unfold discover
    cases hn : p.blocks.next with
    | mk m o =>
      cases o with
      | none => exact ⟨[], p, .nil p, Nat.zero_le _, .inl ⟨next_eq_none hn, rfl, rfl⟩⟩
      | some e =>
        obtain ⟨a, b⟩ := e
        cases hl : liftBlock lifter r { p with blocks := m } b a with
        | mk q res =>
          simp only [hl]
          cases res with
          | error e =>
            exact ⟨[], p, .nil p, Nat.zero_le _,
              .inr (.inr ⟨Nat.succ_pos n, e, ⟨m, a, b, hn, hl⟩, rfl⟩)⟩
          | ok u =>
            obtain ⟨v, hv⟩ := visits_of_liftBlock hn hl
            obtain ⟨vs, p', hruns, hle, hends⟩ := ih q
            refine ⟨v :: vs, p', .cons hv hruns, Nat.succ_le_succ hle, ?_⟩
            rcases hends with hdone | ⟨hlen, hlimit⟩ | ⟨hlt, hfail⟩
            · exact .inl hdone
            · exact .inr (.inl ⟨congrArg Nat.succ hlen, hlimit⟩)
            · exact .inr (.inr ⟨Nat.succ_lt_succ hlt, hfail⟩)

theorem discover_of_runs {p q : Progress σ} {vs : List Visit} (h : Runs lifter r p vs q) (k : Nat) :
    p.discover lifter r name limit (vs.length + k) = q.discover lifter r name limit k := by
  induction h with
  | nil p => rw [List.length_nil, Nat.zero_add]
  | @cons p q s v vs hv hrest ih =>
    obtain ⟨m, t, hnext, _, hblock⟩ := hv
    have hlen : (v :: vs).length + k = (vs.length + k) + 1 := by
      rw [List.length_cons]
      omega
    rw [hlen, ← ih]
    conv_lhs => unfold discover
    simp only [hnext, hblock]

theorem discover_of_fails {p q : Progress σ} {e : LiftFailure} (h : Fails lifter r p q e) (k : Nat) :
    p.discover lifter r name limit (k + 1) = (q, .error e) := by
  obtain ⟨m, a, b, hnext, hblock⟩ := h
  unfold discover
  simp only [hnext, hblock]

theorem discover_of_pending {p : Progress σ} (h : p.blocks.pending ≠ []) :
    (p.discover lifter r name limit 0).2 = .error (.error (.blockLimitExceeded name limit)) := by
  unfold discover
  cases hn : p.blocks.next with
  | mk m o =>
    cases o with
    | none => exact absurd (next_eq_none hn) h
    | some e => rfl

theorem Runs.le {p q : Progress σ} {vs : List Visit} {n : Nat} (h : Runs lifter r p vs q)
    (hle : vs.length ≤ n) : p.discover lifter r name limit n =
      q.discover lifter r name limit (n - vs.length) := by
  rw [← discover_of_runs h, Nat.add_sub_cancel' hle]

theorem finishBlock_asked {p q : Progress σ} {b : BlockId} {a : Word} {exit : BlockExit}
    {res : Except LiftFailure Unit} (h : p.finishBlock r b a exit = (q, res))
    (hreg : p.blocks.Registered r.isValid p.func) : p.trace.asked = q.trace.asked := by
  have hsame := materialize_history r p b a exit hreg
  unfold finishBlock at h
  cases hmat : p.materialize r b a exit with
  | mk p₁ o =>
    rw [hmat] at h hsame
    cases o with
    | error e =>
      cases h
      exact hsame.asked.symm
    | ok t =>
      simp only at h
      split at h <;> cases h <;> exact hsame.asked.symm

theorem Fails.asked (happ : lifter.Appends) {p q : Progress σ} {e : LiftFailure}
    (hreg : p.blocks.Registered r.isValid p.func) (h : Fails lifter r p q e) :
    ∃ a rest, p.blocks.pending.map (·.1) = a :: rest ∧ q.trace.asked = p.trace.asked ++ [a] := by
  obtain ⟨m, a, b, hnext, hblock⟩ := h
  obtain ⟨hpending, _⟩ := next_eq_some hnext
  obtain ⟨hregm, hat⟩ := registered_of_next hreg hnext
  refine ⟨a, m.pending.map (·.1), by rw [hpending]; rfl, ?_⟩
  cases hl : lifter.lift p.lifter p.func b a with
  | mk s res =>
    cases res with
    | error e =>
      simp only [liftBlock, hl] at hblock
      cases hblock
      rfl
    | ok pair =>
      obtain ⟨f, exit⟩ := pair
      obtain ⟨insts, hinsts⟩ := happ _ _ _ _ _ _ _ hl
      obtain ⟨data, hdata, _⟩ := hreg.carries a b hat
      have hregf := hregm.of_extendsAt (Func.appendInsts_extends insts hdata hinsts)
      simp only [liftBlock, hl] at hblock
      rw [← finishBlock_asked hblock hregf]

theorem Fails.lift {p q : Progress σ} {e : LiftError} (h : Fails lifter r p q (.error e)) :
    ∃ m a b t, p.blocks.next = (m, some (a, b)) ∧
      lifter.lift p.lifter p.func b a = (t, .error (.error e)) := by
  obtain ⟨m, a, b, hnext, hblock⟩ := h
  cases hl : lifter.lift p.lifter p.func b a with
  | mk t res =>
    refine ⟨m, a, b, t, hnext, ?_⟩
    cases res with
    | error e' =>
      simp only [liftBlock, hl] at hblock
      cases hblock
      exact hl
    | ok pair =>
      simp only [liftBlock, hl, finishBlock] at hblock
      split at hblock
      · cases hblock
      · split at hblock <;> cases hblock

theorem fails_of_lift {p : Progress σ} {m : BlockMap} {a : Word} {b : BlockId} {t : σ}
    {e : LiftFailure} (hnext : p.blocks.next = (m, some (a, b)))
    (hlift : lifter.lift p.lifter p.func b a = (t, .error e)) : ∃ q, Fails lifter r p q e := by
  refine ⟨(liftBlock lifter r { p with blocks := m } b a).1, m, a, b, hnext, ?_⟩
  simp only [liftBlock, hlift]

end Progress

namespace Session

open BlockMap

variable {σ : Type}

/-- The visits `vs` from the beginning lead to `p`. -/
def Searched (s : Session σ) (name : String) (entry : Word) (vs : List Visit) (p : Progress σ) :
    Prop :=
  Progress.Runs s.lifter s.resolver (.start s.state s.lifter.signature name entry) vs p

/-- One address more than the limit is taken from the queue. -/
def Overflows (s : Session σ) (name : String) (entry : Word) : Prop :=
  ∃ vs p, s.Searched name entry vs p ∧ vs.length = s.config.maxBlocks ∧ p.blocks.pending ≠ []

/-- The lifter itself reports an error, before the limit. -/
def LifterFails (s : Session σ) (name : String) (entry : Word) (e : LiftError) : Prop :=
  ∃ vs p m a b t, s.Searched name entry vs p ∧ vs.length < s.config.maxBlocks ∧
    p.blocks.next = (m, some (a, b)) ∧ s.lifter.lift p.lifter p.func b a = (t, .error (.error e))

variable {s : Session σ} {name : String} {entry : Word}

theorem Searched.explored (happ : s.lifter.Appends) (hvalid : s.resolver.isValid entry = true)
    {vs : List Visit} {p : Progress σ} (h : s.Searched name entry vs p) :
    p.Explored s.resolver entry vs :=
  (Progress.Explored.start s.resolver hvalid s.state s.lifter.signature name).run happ h

theorem liftFunction_of_invalid (h : s.resolver.isValid entry = false) :
    s.liftFunction name entry = ⟨s, {}, .error (.error (.entryOutsideImage entry))⟩ := by
  simp only [liftFunction, h, Bool.false_eq_true, if_false]

theorem liftFunction_cases (name : String) (hvalid : s.resolver.isValid entry = true) :
    ∃ vs p q res, s.Searched name entry vs p ∧ vs.length ≤ s.config.maxBlocks ∧
      Progress.Ends s.lifter s.resolver name s.config.maxBlocks s.config.maxBlocks vs p q res ∧
      (s.liftFunction name entry).trace = q.trace ∧
      ((∃ e, res = .error e ∧ (s.liftFunction name entry).result = .error e) ∨
        (res = .ok () ∧ ∃ e, (s.liftFunction name entry).result = .error (.fault e)) ∨
        (res = .ok () ∧ ∃ l, (s.liftFunction name entry).result = .ok l ∧
          { s with state := q.lifter }.finish name entry q = .ok l)) := by
  obtain ⟨vs, p, hruns, hle, hends⟩ := Progress.discover_cases s.lifter s.resolver name
    s.config.maxBlocks s.config.maxBlocks (.start s.state s.lifter.signature name entry)
  refine ⟨vs, p, _, _, hruns, hle, hends, ?_⟩
  simp only [liftFunction, hvalid, if_true]
  cases hd : (Progress.start s.state s.lifter.signature name entry).discover s.lifter s.resolver
      name s.config.maxBlocks s.config.maxBlocks with
  | mk q res =>
    cases res with
    | error e => exact ⟨rfl, .inl ⟨e, rfl, rfl⟩⟩
    | ok u =>
      cases hf : { s with state := q.lifter }.finish name entry q with
      | error e =>
        exact ⟨rfl, .inr (.inl ⟨rfl, e, rfl⟩)⟩
      | ok l =>
        exact ⟨rfl, .inr (.inr ⟨rfl, l, rfl, rfl⟩)⟩

theorem liftFunction_of_error (hvalid : s.resolver.isValid entry = true) {e : LiftFailure}
    (h : (Progress.discover s.lifter s.resolver name s.config.maxBlocks s.config.maxBlocks
      (.start s.state s.lifter.signature name entry)).2 = .error e) :
    (s.liftFunction name entry).result = .error e := by
  simp only [liftFunction, hvalid, if_true]
  rw [h]

/-- The three sources of an error that is not a fault. -/
theorem liftFunction_eq_error_iff (e : LiftError) :
    (s.liftFunction name entry).result = .error (.error e) ↔
      (s.resolver.isValid entry = false ∧ e = .entryOutsideImage entry) ∨
      (s.resolver.isValid entry = true ∧ e = .blockLimitExceeded name s.config.maxBlocks ∧
        s.Overflows name entry) ∨
      (s.resolver.isValid entry = true ∧ s.LifterFails name entry e) := by
  cases hvalid : s.resolver.isValid entry with
  | false =>
    rw [liftFunction_of_invalid hvalid]
    constructor
    · intro h
      cases h
      exact .inl ⟨rfl, rfl⟩
    · rintro (⟨_, rfl⟩ | ⟨h, _⟩ | ⟨h, _⟩)
      · rfl
      · cases h
      · cases h
  | true =>
    constructor
    · intro h
      obtain ⟨vs, p, q, res, hsearch, _, hends, _, hres⟩ := liftFunction_cases name hvalid
      have herr : res = .error (.error e) := by
        rcases hres with ⟨e', hres, hr⟩ | ⟨_, e', hr⟩ | ⟨_, l, hr, _⟩
        · rw [hr] at h
          cases h
          exact hres
        · rw [hr] at h
          cases h
        · rw [hr] at h
          cases h
      rcases hends with ⟨_, _, hok⟩ | ⟨hlen, m, x, hnext, _, hlimit⟩ | ⟨hlt, e', hfail, hres'⟩
      · rw [hok] at herr
        cases herr
      · rw [hlimit] at herr
        cases herr
        refine .inr (.inl ⟨rfl, rfl, vs, p, hsearch, hlen, ?_⟩)
        rw [(Progress.next_eq_some hnext).1]
        exact List.cons_ne_nil _ _
      · rw [hres'] at herr
        cases herr
        obtain ⟨m, a, b, t, hnext, hlift⟩ := hfail.lift
        exact .inr (.inr ⟨rfl, vs, p, m, a, b, t, hsearch, hlt, hnext, hlift⟩)
    · rintro (⟨h, _⟩ | ⟨_, rfl, vs, p, hsearch, hlen, hpending⟩ |
        ⟨_, vs, p, m, a, b, t, hsearch, hlt, hnext, hlift⟩)
      · cases h
      · apply liftFunction_of_error hvalid
        rw [Progress.Runs.le hsearch (Nat.le_of_eq hlen), hlen, Nat.sub_self]
        exact Progress.discover_of_pending hpending
      · apply liftFunction_of_error hvalid
        obtain ⟨q, hfail⟩ := Progress.fails_of_lift (r := s.resolver) hnext hlift
        obtain ⟨k, hk⟩ := Nat.exists_eq_add_of_lt hlt
        rw [Progress.Runs.le hsearch (Nat.le_of_lt hlt)]
        rw [show s.config.maxBlocks - vs.length = k + 1 by omega, Progress.discover_of_fails hfail]

/-- The addresses the lifter was asked for are the first ones discovered, in order. -/
theorem liftFunction_asked (name : String) (happ : s.lifter.Appends)
    (hvalid : s.resolver.isValid entry = true) :
    ∃ vs p, s.Searched name entry vs p ∧
      vs.map (·.address) <+: (s.liftFunction name entry).trace.asked ∧
      (s.liftFunction name entry).trace.asked.length ≤ vs.length + 1 ∧
      (s.liftFunction name entry).trace.asked.length ≤ s.config.maxBlocks ∧
      (s.liftFunction name entry).trace.asked <+: p.blocks.known ∧
      p.blocks.known = fresh [] (entry :: vs.flatMap (·.found s.resolver)) ∧
      p.blocks.known.Nodup := by
  obtain ⟨vs, p, q, res, hsearch, hle, hends, htrace, _⟩ := liftFunction_cases name hvalid
  have hex := hsearch.explored happ hvalid
  refine ⟨vs, p, hsearch, ?_⟩
  rw [htrace]
  have hcase : q.trace.asked = vs.map (·.address) ∨ (vs.length < s.config.maxBlocks ∧
      ∃ a rest, p.blocks.pending.map (·.1) = a :: rest ∧
        q.trace.asked = vs.map (·.address) ++ [a]) := by
    rcases hends with ⟨_, rfl, _⟩ | ⟨_, m, e, _, rfl, _⟩ | ⟨hlt, e, hfail, _⟩
    · exact .inl hex.asked
    · exact .inl hex.asked
    · obtain ⟨a, rest, hpending, hasked⟩ := hfail.asked happ hex.registered
      exact .inr ⟨hlt, a, rest, hpending, by rw [hasked, hex.asked]⟩
  rcases hcase with hasked | ⟨hlt, a, rest, hpending, hasked⟩
  · rw [hasked, hex.queue]
    refine ⟨List.prefix_refl _, ?_, ?_, List.prefix_append _ _, ?_, ?_⟩
    · simp
    · simpa using hle
    · rw [← hex.queue]
      exact hex.known
    · rw [← hex.queue]
      exact hex.registered.nodup
  · rw [hasked]
    refine ⟨List.prefix_append _ _, ?_, ?_, ?_, hex.known, hex.registered.nodup⟩
    · simp
    · rw [List.length_append, List.length_map, List.length_singleton]
      exact hlt
    · rw [hex.queue, hpending, List.append_cons _ a rest]
      exact List.prefix_append _ _

theorem liftFunction_ok (happ : s.lifter.Appends) {l : LiftedFunction}
    (h : (s.liftFunction name entry).result = .ok l) (hopt : s.config.optimize = false) :
    ∃ vs p, s.Searched name entry vs p ∧ p.Explored s.resolver entry vs ∧
      p.blocks.pending = [] ∧ l.blocks = p.blocks ∧ l.function? = some p.func ∧
      l.report = { p.report with optimize := none } ∧
      (s.liftFunction name entry).trace = p.trace := by
  cases hvalid : s.resolver.isValid entry with
  | false =>
    rw [liftFunction_of_invalid hvalid] at h
    cases h
  | true =>
    obtain ⟨vs, p, q, res, hsearch, _, hends, htrace, hres⟩ := liftFunction_cases name hvalid
    rcases hres with ⟨e, _, hr⟩ | ⟨_, e, hr⟩ | ⟨hok, l', hr, hfinish⟩
    · rw [h] at hr
      cases hr
    · rw [h] at hr
      cases hr
    · rw [h] at hr
      cases hr
      rcases hends with ⟨hpending, rfl, _⟩ | ⟨_, _, _, _, _, hlimit⟩ | ⟨_, _, _, hfail⟩
      · refine ⟨vs, q, hsearch, hsearch.explored happ hvalid, hpending, ?_⟩
        rw [htrace]
        have hnone : { s with state := q.lifter }.optimizeLifted
            (({ name := name } : Module).addFunc q.func).1 (({ name := name } : Module).addFunc q.func).2 =
            .ok ((({ name := name } : Module).addFunc q.func).1, none) := by
          simp only [optimizeLifted, hopt, Bool.false_eq_true, if_false]
          rfl
        simp only [finish, hnone] at hfinish
        cases hfinish
        exact ⟨rfl, rfl, rfl, rfl⟩
      · rw [hlimit] at hok
        cases hok
      · rw [hfail] at hok
        cases hok

/-- A session lifts the addresses it discovers, in the order of their discovery and once each. It
refuses an entry outside the range, and a queue that goes on beyond the limit; an error that the
lifter reports before is handed on. What it returns is complete: the known addresses are the lifted
ones, and each block ends as the exit that the lifter gave for its address prescribes. -/
theorem liftFunction_lifts_each_once (s : Session σ) (happ : s.lifter.Appends) (name : String)
    (entry : Word) :
    (s.resolver.isValid entry = false →
      (s.liftFunction name entry).result = .error (.error (.entryOutsideImage entry)) ∧
        (s.liftFunction name entry).trace.asked = []) ∧
    (s.resolver.isValid entry = true → ∀ e, s.LifterFails name entry e →
      (s.liftFunction name entry).result = .error (.error e)) ∧
    (∀ e, ¬ s.LifterFails name entry (.entryOutsideImage e) →
      ((s.liftFunction name entry).result = .error (.error (.entryOutsideImage e)) ↔
        s.resolver.isValid entry = false ∧ e = entry)) ∧
    (∀ n k, ¬ s.LifterFails name entry (.blockLimitExceeded n k) →
      ((s.liftFunction name entry).result = .error (.error (.blockLimitExceeded n k)) ↔
        s.resolver.isValid entry = true ∧ (n = name ∧ k = s.config.maxBlocks) ∧
          s.Overflows name entry)) ∧
    (s.liftFunction name entry).trace.asked.Nodup ∧
    (s.liftFunction name entry).trace.asked.length ≤ s.config.maxBlocks ∧
    (s.resolver.isValid entry = true → ∃ vs p, s.Searched name entry vs p ∧
      vs.map (·.address) <+: (s.liftFunction name entry).trace.asked ∧
      (s.liftFunction name entry).trace.asked.length ≤ vs.length + 1 ∧
      (s.liftFunction name entry).trace.asked <+:
        fresh [] (entry :: vs.flatMap (·.found s.resolver))) ∧
    (∀ l, (s.liftFunction name entry).result = .ok l → s.config.optimize = false →
      ∃ vs p f, s.Searched name entry vs p ∧ l.function? = some f ∧
        (∀ a ∈ l.blocks.known, s.resolver.isValid a = true) ∧
        l.report.blocksLifted = l.blocks.size ∧
        vs.map (·.address) = l.blocks.known ∧
        (s.liftFunction name entry).trace.asked = l.blocks.known ∧
        (∀ v ∈ vs, ∃ data, l.blocks.blockAt v.address = some v.block ∧
          f.block? v.block = some data ∧ v.Prescribes s.resolver l.blocks f data.term) ∧
        ∀ b data, f.block? b = some data → ∀ c ∈ data.term.successors,
          f.containsBlock c = true) := by
  have hnothing : s.resolver.isValid entry = false →
      (s.liftFunction name entry).result = .error (.error (.entryOutsideImage entry)) ∧
        (s.liftFunction name entry).trace.asked = [] := by
    intro hbad
    rw [liftFunction_of_invalid hbad]
    exact ⟨rfl, rfl⟩
  have horder : (s.liftFunction name entry).trace.asked.Nodup ∧
      (s.liftFunction name entry).trace.asked.length ≤ s.config.maxBlocks := by
    cases hvalid : s.resolver.isValid entry with
    | false =>
      rw [(hnothing hvalid).2]
      exact ⟨List.nodup_nil, Nat.zero_le _⟩
    | true =>
      obtain ⟨_, _, _, _, _, hle, hprefix, _, hnodup⟩ :=
        liftFunction_asked name happ hvalid
      exact ⟨hnodup.sublist hprefix.sublist, hle⟩
  refine ⟨hnothing, fun hvalid e hfails => ?_, fun e hown => ?_, fun n k hown => ?_, horder.1,
    horder.2, ?_, ?_⟩
  · exact (liftFunction_eq_error_iff e).2 (.inr (.inr ⟨hvalid, hfails⟩))
  · rw [liftFunction_eq_error_iff]
    simp [hown]
  · rw [liftFunction_eq_error_iff]
    simp [hown]
  · intro hvalid
    obtain ⟨vs, p, hsearch, hvisited, hlen, _, hprefix, hknown, _⟩ :=
      liftFunction_asked name happ hvalid
    rw [hknown] at hprefix
    exact ⟨vs, p, hsearch, hvisited, hlen, hprefix⟩
  · intro l hl hopt
    obtain ⟨vs, p, hsearch, hex, hpending, hblocks, hfunc, hreport, htrace⟩ :=
      liftFunction_ok happ hl hopt
    have hall : vs.map (·.address) = p.blocks.known := by
      rw [hex.queue, hpending]
      simp
    rw [hblocks, hreport, htrace]
    refine ⟨vs, p, p.func, hsearch, hfunc, hex.registered.valid, ?_, hall, ?_, ?_, hex.live⟩
    · have hlen := congrArg List.length hall
      rw [List.length_map, known, Table.keys, List.length_map] at hlen
      rw [hex.lifted, hlen, BlockMap.size]
    · rw [hex.asked, hall]
    · intro v hv
      obtain ⟨data, hdata, hpre⟩ := hex.terms v hv
      exact ⟨data, hex.visited v hv, hdata, hpre⟩

/-- A lifter that fills blocks from a script. -/
def scripted (script : Word → List Inst × BlockExit) : BlockLifter Unit where
  lift _ f b a :=
    match f.appendInsts b (script a).1 with
    | .error e => ((), .error (.fault e))
    | .ok f => ((), .ok (f, (script a).2))

theorem scripted_appends (script : Word → List Inst × BlockExit) : (scripted script).Appends := by
  intro s f b a s' f' exit h
  simp only [scripted] at h
  split at h
  · cases h
  · rename_i g hg
    cases h
    exact ⟨_, hg⟩

theorem not_lifterFails_of_scripted {s : Session Unit} {script : Word → List Inst × BlockExit}
    (h : s.lifter = scripted script) (e : LiftError) : ¬ s.LifterFails name entry e := by
  rintro ⟨vs, p, m, a, b, t, _, _, _, hlift⟩
  rw [h, scripted] at hlift
  simp only at hlift
  split at hlift <;> cases hlift

/-- A loop of two blocks that can also be left for an address outside the image. -/
def twoBlockLoop : Session Unit :=
  { Session.new (.ofCode 0x1000 #[0, 0, 0, 0]) (scripted fun a =>
      if a = 0x1000 then
        ([⟨.load (.arg 0), some .i1⟩], .branch (.inst ⟨0⟩) 0x1002 0x9000)
      else ([], .jump 0x1000)) () with
    config := { optimize := false } }

/-- The same loop under a limit of one block. -/
def cutLoop : Session Unit := { twoBlockLoop with config := { maxBlocks := 1 } }

/-- Both blocks of the loop are lifted, and the limit of one is met. -/
theorem twoBlockLoop_lifted :
    twoBlockLoop.lifter.Appends ∧
    (∃ l, (twoBlockLoop.liftFunction "loop" 0x1000).result = .ok l ∧
      twoBlockLoop.config.optimize = false ∧ l.blocks.known = [0x1000, 0x1002] ∧
      (twoBlockLoop.liftFunction "loop" 0x1000).trace.asked = [0x1000, 0x1002]) ∧
    ¬ cutLoop.LifterFails "loop" 0x1000 (.blockLimitExceeded "loop" 1) ∧
      cutLoop.Overflows "loop" 0x1000 := by
  have happ : twoBlockLoop.lifter.Appends := scripted_appends _
  obtain ⟨_, _, _, _, _, _, _, hcomplete⟩ :=
    liftFunction_lifts_each_once twoBlockLoop happ "loop" 0x1000
  have hasked : (twoBlockLoop.liftFunction "loop" 0x1000).trace.asked = [0x1000, 0x1002] := by cbv
  have hok : ∃ l, (twoBlockLoop.liftFunction "loop" 0x1000).result = .ok l := by
    cbv
    exact ⟨_, rfl⟩
  obtain ⟨l, hl⟩ := hok
  obtain ⟨_, _, _, _, _, _, _, _, hl', _⟩ := hcomplete l hl rfl
  have hown : ¬ cutLoop.LifterFails "loop" 0x1000 (.blockLimitExceeded "loop" 1) :=
    not_lifterFails_of_scripted rfl _
  have hlimit : (cutLoop.liftFunction "loop" 0x1000).result =
      .error (.error (.blockLimitExceeded "loop" 1)) := by cbv
  obtain ⟨_, _, _, hexceeds, _⟩ := liftFunction_lifts_each_once cutLoop happ "loop" 0x1000
  exact ⟨happ, ⟨l, hl, rfl, hl'.symm.trans hasked, hasked⟩, hown,
    ((hexceeds "loop" 1 hown).1 hlimit).2.2⟩

end Session

end BinaryLift
