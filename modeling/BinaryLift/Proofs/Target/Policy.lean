import BinaryLift.Metrics.Summary
import BinaryLift.Proofs.Target.Settling

/-!
# The policy of a resolver

What a call schedules, rejects and answers depends on the class of its destination and on which
addresses lie in the loaded range. The policy is stated about calls, one after another, on one
function and one map: the oracles may answer differently each time and may meet a fault, and the map
need not be in step with the function, so nothing is assumed about the state a call starts in.
-/

namespace BinaryLift

namespace Resolver

open BlockMap

/-- The destination is exactly `a`: it is that literal, or the solver says so. -/
inductive Pinned (r : Resolver) (f : Func) : Value → Word → Reason → Prop where
  | literal (c : Constant) : Pinned r f (.const c) c.bits .solvedConstant
  | solver {dest : Value} {a : Word} (hdest : ∀ c, dest ≠ .const c)
      (hsolver : r.solver f dest = .ok (some a)) : Pinned r f dest a .solved

/-- The destination is not pinned down, and the enumerator lists the candidates `s`. -/
structure Speculative (r : Resolver) (f : Func) (dest : Value) (s : AddressSet) : Prop where
  notLiteral : ∀ c, dest ≠ .const c
  solver : r.solver f dest = .ok none
  enumerator : r.enumerator f dest = .ok s

/-- What a class says about a destination. -/
def Class.Of (r : Resolver) (f : Func) (dest : Value) : Class → Prop
  | .literal a => r.Pinned f dest a .solvedConstant
  | .solved a => r.Pinned f dest a .solved
  | .candidates s => r.Speculative f dest s

theorem classify_of_ne {r : Resolver} {f : Func} {dest : Value} (h : ∀ c, dest ≠ .const c) :
    r.classify f dest = (do
      match (← r.solver f dest) with
      | some a => return .solved a
      | none => return .candidates (← r.enumerator f dest)) := by
  cases dest with
  | const c => exact absurd rfl (h c)
  | arg n => rfl
  | inst id => rfl

theorem classify_eq_ok {r : Resolver} {f : Func} {dest : Value} {c : Class} :
    r.classify f dest = .ok c ↔ c.Of r f dest := by
  constructor
  · intro h
    by_cases hdest : ∃ k, dest = .const k
    · obtain ⟨k, rfl⟩ := hdest
      cases h
      exact .literal k
    · have hne : ∀ k, dest ≠ .const k := fun k hk => hdest ⟨k, hk⟩
      rw [classify_of_ne hne] at h
      cases hs : r.solver f dest with
      | error e =>
        rw [hs] at h
        cases h
      | ok o =>
        rw [hs] at h
        cases o with
        | some a =>
          cases h
          exact .solver hne hs
        | none =>
          cases he : r.enumerator f dest with
          | error e =>
            simp only [he] at h
            cases h
          | ok s =>
            simp only [he] at h
            cases h
            exact ⟨hne, hs, he⟩
  · intro h
    cases c with
    | literal a =>
      cases h
      rfl
    | solved a =>
      cases h with
      | solver hdest hsolver =>
        rw [classify_of_ne hdest, hsolver]
        rfl
    | candidates s =>
      rw [classify_of_ne h.notLiteral, h.solver]
      simp only [h.enumerator]
      rfl

theorem Pinned.unique {r : Resolver} {f : Func} {dest : Value} {a a' : Word} {why why' : Reason}
    (h : r.Pinned f dest a why) (h' : r.Pinned f dest a' why') : a' = a ∧ why' = why := by
  cases h with
  | literal c =>
    cases h' with
    | literal => exact ⟨rfl, rfl⟩
    | solver hdest => exact absurd rfl (hdest c)
  | solver hdest hsolver =>
    cases h' with
    | literal c => exact absurd rfl (hdest c)
    | solver _ hsolver' =>
      rw [hsolver] at hsolver'
      cases hsolver'
      exact ⟨rfl, rfl⟩

theorem Speculative.unique {r : Resolver} {f : Func} {dest : Value} {s s' : AddressSet}
    (h : r.Speculative f dest s) (h' : r.Speculative f dest s') : s' = s := by
  have henum := h'.enumerator
  rw [h.enumerator] at henum
  exact (Except.ok.inj henum).symm

theorem Speculative.not_pinned {r : Resolver} {f : Func} {dest : Value} {s : AddressSet} {a : Word}
    {why : Reason} (h : r.Speculative f dest s) : ¬ r.Pinned f dest a why := by
  intro hp
  cases hp with
  | literal c => exact h.notLiteral c rfl
  | solver _ hsolver =>
    rw [h.solver] at hsolver
    cases hsolver

/-- What a call answers for a destination. -/
structure Answers (r : Resolver) (f : Func) (dest : Value) (res : Resolution) : Prop where
  dest_iff : ∀ a, res.dest = some a ↔ ∃ why, r.Pinned f dest a why
  pinned : ∀ a why, r.Pinned f dest a why → r.isValid a = true →
    res.targets.map (fun t => (t.address, t.reason)) = [(a, why)]
  single : ∀ s c, r.Speculative f dest s → s.toList = [c] → r.isValid c = true →
    res.targets.map (fun t => (t.address, t.reason)) = [(c, .singleCandidate)]
  pair : ∀ s c c', r.Speculative f dest s → s.toList = [c, c'] → c < c' ∧
    (r.isValid c = true → r.isValid c' = true →
      res.targets.map (fun t => (t.address, t.reason)) = [(c, .trueEdge), (c', .falseEdge)])
  /-- In every other case nothing is scheduled. -/
  nothing : (∀ a why, r.Pinned f dest a why → r.isValid a = false) →
    (∀ s, r.Speculative f dest s →
      s.toList = [] ∨ 3 ≤ s.toList.length ∨ ∃ c ∈ s.toList, r.isValid c = false) →
    res.targets = []
  rejected_pinned : ∀ a why, r.Pinned f dest a why → res.rejected = r.outside [a]
  rejected_few : ∀ s, r.Speculative f dest s → s.toList.length < 3 →
    res.rejected = r.outside s.toList
  rejected_many : ∀ s, r.Speculative f dest s → 3 ≤ s.toList.length → res.rejected = []

theorem answers_of_pinned {r : Resolver} {f : Func} {dest : Value} {res : Resolution} {a : Word}
    {why : Reason} (h : r.Pinned f dest a why) (hdest : res.dest = some a)
    (hrejected : res.rejected = r.outside [a])
    (htargets : res.targets.map (fun t => (t.address, t.reason)) =
      if res.rejected = [] then [(a, why)] else []) : r.Answers f dest res := by
  have hspec : ∀ s, ¬ r.Speculative f dest s := fun s hs => hs.not_pinned h
  have hvalid : res.rejected = [] ↔ r.isValid a = true := by
    rw [hrejected, outside_eq_nil_iff]
    simp
  constructor
  case dest_iff =>
    intro a'
    rw [hdest]
    constructor
    · rintro ⟨⟩
      exact ⟨why, h⟩
    · rintro ⟨why', h'⟩
      rw [(h.unique h').1]
  case pinned =>
    intro a' why' h' ha'
    obtain ⟨rfl, rfl⟩ := h.unique h'
    rw [htargets, if_pos (hvalid.2 ha')]
  case single => exact fun s _ hs => absurd hs (hspec s)
  case pair => exact fun s _ _ hs => absurd hs (hspec s)
  case nothing =>
    intro hout _
    have hnot : res.rejected ≠ [] := by
      rw [ne_eq, hvalid, hout a why h]
      simp
    rw [if_neg hnot] at htargets
    exact List.map_eq_nil_iff.1 htargets
  case rejected_pinned =>
    intro a' why' h'
    rw [hrejected, (h.unique h').1]
  case rejected_few => exact fun s hs => absurd hs (hspec s)
  case rejected_many => exact fun s hs => absurd hs (hspec s)

theorem Class.addresses_candidates (s : AddressSet) :
    (s.toList.length < 3 → (Class.candidates s).addresses.map (·.1) = s.toList) ∧
      (3 ≤ s.toList.length → (Class.candidates s).addresses = []) := by
  obtain ⟨cs, hcs⟩ := s
  match cs with
  | [] => simp [addresses]
  | [c] => simp [addresses]
  | [c, c'] => simp [addresses]
  | c :: c' :: c'' :: rest => simp [addresses]

theorem answers_of_speculative {r : Resolver} {f : Func} {dest : Value} {res : Resolution}
    {s : AddressSet} (h : r.Speculative f dest s) (hdest : res.dest = none)
    (hrejected : res.rejected = r.outside ((Class.candidates s).addresses.map (·.1)))
    (htargets : res.targets.map (fun t => (t.address, t.reason)) =
      if res.rejected = [] then (Class.candidates s).addresses else []) :
    r.Answers f dest res := by
  have hpin : ∀ a why, ¬ r.Pinned f dest a why := fun a why => h.not_pinned
  obtain ⟨hfew, hmany⟩ := Class.addresses_candidates s
  have hall : s.toList.length < 3 → (∀ c ∈ s.toList, r.isValid c = true) →
      res.targets.map (fun t => (t.address, t.reason)) = (Class.candidates s).addresses := by
    intro hlen hvalid
    rw [htargets, if_pos]
    rwa [hrejected, hfew hlen, outside_eq_nil_iff]
  constructor
  case dest_iff =>
    intro a
    rw [hdest]
    constructor
    · rintro ⟨⟩
    · rintro ⟨why, hp⟩
      exact absurd hp (hpin a why)
  case pinned => exact fun a why hp => absurd hp (hpin a why)
  case single =>
    intro s' c hs' hc hvalid
    rw [h.unique hs'] at hc
    rw [hall (by simp [hc]) (by simpa [hc] using hvalid)]
    simp [Class.addresses, hc]
  case pair =>
    intro s' c c' hs' hc
    rw [h.unique hs'] at hc
    have hlt := s.ordered
    rw [hc, List.pairwise_pair] at hlt
    refine ⟨hlt, fun hvalid hvalid' => ?_⟩
    rw [hall (by simp [hc]) (by simp [hc, hvalid, hvalid'])]
    simp [Class.addresses, hc]
  case nothing =>
    intro _ hout
    suffices hnil : res.targets.map (fun t => (t.address, t.reason)) = [] from
      List.map_eq_nil_iff.1 hnil
    rw [htargets]
    by_cases hlen : 3 ≤ s.toList.length
    · rw [hmany hlen, ite_self]
    · rcases hout s h with hnil | hlong | ⟨c, hc, hbad⟩
      · simp [Class.addresses, hnil]
      · exact absurd hlong hlen
      · rw [if_neg]
        rw [hrejected, hfew (Nat.lt_of_not_le hlen), outside_eq_nil_iff]
        intro hvalid
        rw [hvalid c hc] at hbad
        cases hbad
  case rejected_pinned => exact fun a why hp => absurd hp (hpin a why)
  case rejected_few =>
    intro s' hs' hlen
    rw [h.unique hs'] at hlen ⊢
    rw [hrejected, hfew hlen]
  case rejected_many =>
    intro s' hs' hlen
    rw [h.unique hs'] at hlen
    rw [hrejected, hmany hlen]
    rfl

/-- What one call does, if the oracles answer and if they do not. -/
structure Follows (r : Resolver) (f : Func) (m : BlockMap) (dest : Value) (x : Resolved) : Prop where
  returns : (∃ res, x.result = .ok res) ↔
    (∃ a why, r.Pinned f dest a why) ∨ ∃ s, r.Speculative f dest s
  fails : ∀ e, x.result = .error e → x.blocks = m ∧ x.func = f
  answers : ∀ res, x.result = .ok res → r.Answers f dest res
  takes : ∀ res, x.result = .ok res →
    m.Takes f (res.targets.map (·.address)) x.blocks x.func
  blocks : ∀ res, x.result = .ok res → ∀ t ∈ res.targets, x.blocks.blockAt t.address = some t.block

theorem exists_class_iff {r : Resolver} {f : Func} {dest : Value} :
    (∃ c : Class, c.Of r f dest) ↔
      (∃ a why, r.Pinned f dest a why) ∨ ∃ s, r.Speculative f dest s := by
  constructor
  · rintro ⟨c, hc⟩
    cases c with
    | literal a => exact .inl ⟨a, _, hc⟩
    | solved a => exact .inl ⟨a, _, hc⟩
    | candidates s => exact .inr ⟨s, hc⟩
  · rintro (⟨a, why, hp⟩ | ⟨s, hs⟩)
    · cases hp with
      | literal c => exact ⟨.literal c.bits, .literal c⟩
      | solver hdest hsolver => exact ⟨.solved a, .solver hdest hsolver⟩
    · exact ⟨.candidates s, hs⟩

theorem resolve_follows (r : Resolver) (f : Func) (m : BlockMap) (dest : Value) :
    r.Follows f m dest (r.resolve f m dest) := by
  cases hc : r.classify f dest with
  | error e =>
    have hnone : ¬ ∃ c : Class, c.Of r f dest := by
      rintro ⟨c, hof⟩
      rw [classify_eq_ok.2 hof] at hc
      cases hc
    simp only [resolve, hc]
    refine ⟨?_, fun _ _ => ⟨rfl, rfl⟩, by simp, by simp, by simp⟩
    rw [← exists_class_iff]
    simp [hnone]
  | ok c =>
    have hof := classify_eq_ok.1 hc
    cases hs : r.settle f m c with
    | mk m' p =>
      obtain ⟨f', res⟩ := p
      obtain ⟨htakes, hdest, hrejected, htargets, hblocks⟩ := settle_takes hs
      simp only [resolve, hc, hs]
      constructor
      case returns =>
        rw [← exists_class_iff]
        exact ⟨fun _ => ⟨c, hof⟩, fun _ => ⟨res, rfl⟩⟩
      case fails => simp
      case answers =>
        rintro _ ⟨⟩
        cases c with
        | literal a => exact answers_of_pinned hof hdest hrejected htargets
        | solved a => exact answers_of_pinned hof hdest hrejected htargets
        | candidates s => exact answers_of_speculative hof hdest hrejected htargets
      case takes =>
        rintro _ ⟨⟩
        exact htakes
      case blocks =>
        rintro _ ⟨⟩
        exact hblocks

/-- The call is counted with an outcome: it returns, and not with three or more candidates. -/
def Decided (r : Resolver) (f : Func) (dest : Value) : Prop :=
  (∃ a why, r.Pinned f dest a why) ∨ ∃ s, r.Speculative f dest s ∧ s.toList.length < 3

theorem Class.event?_ne_call (c : Class) : c.event? ≠ some .call := by
  unfold event?
  split
  · simp
  · simp
  · split <;> simp

theorem Class.event?_candidates (s : AddressSet) :
    (Class.candidates s).event?.isSome = true ↔ s.toList.length < 3 := by
  obtain ⟨cs, hcs⟩ := s
  match cs with
  | [] => simp [event?]
  | [c] => simp [event?]
  | [c, c'] => simp [event?]
  | c :: c' :: c'' :: rest => simp [event?]

theorem resolve_events (r : Resolver) (f : Func) (m : BlockMap) (dest : Value) :
    ∃ outcome : Option ResolveEvent, (r.resolve f m dest).events = .call :: outcome.toList ∧
      outcome ≠ some .call ∧ (outcome.isSome = true ↔ r.Decided f dest) := by
  cases hc : r.classify f dest with
  | error e =>
    have hnone : ¬ ∃ c : Class, c.Of r f dest := by
      rintro ⟨c, hof⟩
      rw [classify_eq_ok.2 hof] at hc
      cases hc
    refine ⟨none, by simp [resolve, hc], by simp, ?_⟩
    rw [exists_class_iff] at hnone
    simp only [Option.isSome_none, Bool.false_eq_true, false_iff]
    rintro (hp | ⟨s, hs, _⟩)
    · exact hnone (.inl hp)
    · exact hnone (.inr ⟨s, hs⟩)
  | ok c =>
    have hof := classify_eq_ok.1 hc
    refine ⟨c.event?, by simp [resolve, hc], c.event?_ne_call, ?_⟩
    cases c with
    | literal a => simpa [Class.event?] using .inl ⟨a, _, hof⟩
    | solved a => simpa [Class.event?] using .inl ⟨a, _, hof⟩
    | candidates s =>
      rw [Class.event?_candidates]
      constructor
      · exact fun hlen => .inr ⟨s, hof, hlen⟩
      · rintro (⟨a, why, hp⟩ | ⟨s', hs', hlen⟩)
        · exact absurd hp hof.not_pinned
        · rwa [hof.unique hs'] at hlen

end Resolver

/-- All counts but the number of calls. -/
def Counters.outcomes (c : Counters) : Nat :=
  c.solvedConstant + c.solvedConstraint + c.zeroCandidates + c.oneCandidate + c.twoCandidates

theorem Counters.calls_record (c : Counters) (e : ResolveEvent) :
    (c.record e).calls = c.calls + if e = .call then 1 else 0 := by
  cases e <;> rfl

theorem Counters.outcomes_record (c : Counters) (e : ResolveEvent) :
    (c.record e).outcomes = c.outcomes + if e = .call then 0 else 1 := by
  cases e <;> simp [record, outcomes] <;> omega

/-- A destination to resolve, and what the oracles answer at that time. -/
structure Query where
  dest : Value
  solver : Func → Value → Checked (Option Word)
  enumerator : Func → Value → Checked AddressSet

/-- What calls have in common: the function, the map and the counters they are counted by. -/
structure Ledger where
  func : Func
  blocks : BlockMap := {}
  counters : Counters := {}

namespace Resolver

/-- The resolver at the time of a query. -/
def asked (r : Resolver) (q : Query) : Resolver :=
  { r with solver := q.solver, enumerator := q.enumerator }

def call (r : Resolver) (l : Ledger) (q : Query) : Ledger × Checked Resolution :=
  let x := (r.asked q).resolve l.func l.blocks q.dest
  ({ func := x.func, blocks := x.blocks, counters := x.events.foldl Counters.record l.counters },
    x.result)

/-- The state after some calls. -/
def serve (r : Resolver) (l : Ledger) (qs : List Query) : Ledger :=
  qs.foldl (fun l q => (r.call l q).1) l

/-- Each query together with the state it is asked in. -/
def turns (r : Resolver) : Ledger → List Query → List (Ledger × Query)
  | _, [] => []
  | l, q :: qs => (l, q) :: turns r (r.call l q).1 qs

/-- The addresses a call hands to the map. -/
def handed (res : Checked Resolution) : List Word :=
  match res with
  | .ok res => res.targets.map (·.address)
  | .error _ => []

theorem call_takes (r : Resolver) (l : Ledger) (q : Query) :
    l.blocks.Takes l.func (handed (r.call l q).2) (r.call l q).1.blocks (r.call l q).1.func := by
  have h := resolve_follows (r.asked q) l.func l.blocks q.dest
  unfold handed
  split
  · rename_i res hres
    exact h.takes res hres
  · rename_i e he
    obtain ⟨hblocks, hfunc⟩ := h.fails e he
    simp only [call, hblocks, hfunc]
    exact .refl _ _

theorem call_counters (r : Resolver) (l : Ledger) (q : Query) :
    (r.call l q).1.counters.calls = l.counters.calls + 1 ∧
      ∃ n, (r.call l q).1.counters.outcomes = l.counters.outcomes + n ∧
        (n = 1 ∧ (r.asked q).Decided l.func q.dest ∨
          n = 0 ∧ ¬ (r.asked q).Decided l.func q.dest) := by
  obtain ⟨outcome, hevents, hcall, hdecided⟩ :=
    resolve_events (r.asked q) l.func l.blocks q.dest
  simp only [call, hevents]
  cases outcome with
  | none =>
    simp only [Option.isSome_none, Bool.false_eq_true, false_iff] at hdecided
    refine ⟨by simp [Counters.calls_record], 0, ?_, .inr ⟨rfl, hdecided⟩⟩
    simp [Counters.outcomes_record]
  | some e =>
    have hne : e ≠ .call := fun he => hcall (by rw [he])
    refine ⟨by simp [Counters.calls_record, hne], 1, ?_, .inl ⟨rfl, hdecided.1 rfl⟩⟩
    simp [Counters.outcomes_record, hne]

/-- A run of calls hands to the map what its calls do, one after another. -/
theorem serve_takes (r : Resolver) (l : Ledger) (qs : List Query) :
    l.blocks.Takes l.func ((r.turns l qs).flatMap fun t => handed (r.call t.1 t.2).2)
      (r.serve l qs).blocks (r.serve l qs).func := by
  induction qs generalizing l with
  | nil => exact .refl _ _
  | cons q qs ih => exact (call_takes r l q).trans (ih (r.call l q).1)

open Classical in
theorem serve_counters (r : Resolver) (l : Ledger) (qs : List Query) :
    (r.serve l qs).counters.calls = l.counters.calls + qs.length ∧
      (r.serve l qs).counters.outcomes = l.counters.outcomes +
        (r.turns l qs).countP fun t => (r.asked t.2).Decided t.1.func t.2.dest := by
  induction qs generalizing l with
  | nil => exact ⟨rfl, rfl⟩
  | cons q qs ih =>
    obtain ⟨hcalls, n, houtcomes, hn⟩ := call_counters r l q
    obtain ⟨ihcalls, ihoutcomes⟩ := ih (r.call l q).1
    simp only [serve, List.foldl_cons, turns, List.countP_cons] at ihcalls ihoutcomes ⊢
    refine ⟨by rw [ihcalls, hcalls, List.length_cons]; omega, ?_⟩
    rw [ihoutcomes, houtcomes]
    rcases hn with ⟨rfl, hd⟩ | ⟨rfl, hd⟩
    · simp only [hd, decide_true, if_true]
      omega
    · simp only [hd, decide_false, Bool.false_eq_true, if_false]
      omega

open Classical in
/-- Every call of a run follows the policy, the run as a whole only adds empty blocks, and the
counters add up. -/
theorem serve_follows (r : Resolver) (l : Ledger) (qs : List Query) :
    (∀ t ∈ r.turns l qs, (r.asked t.2).Follows t.1.func t.1.blocks t.2.dest
        ((r.asked t.2).resolve t.1.func t.1.blocks t.2.dest)) ∧
      l.blocks.Takes l.func ((r.turns l qs).flatMap fun t => handed (r.call t.1 t.2).2)
        (r.serve l qs).blocks (r.serve l qs).func ∧
      (r.serve l qs).counters.calls = l.counters.calls + qs.length ∧
      (r.serve l qs).counters.outcomes = l.counters.outcomes +
        (r.turns l qs).countP fun t => (r.asked t.2).Decided t.1.func t.2.dest :=
  ⟨fun t _ => resolve_follows (r.asked t.2) t.1.func t.1.blocks t.2.dest, serve_takes r l qs,
    serve_counters r l qs⟩

/-- A literal outside the range, a pair inside it and three candidates, one after another. -/
example :
    let r : Resolver := { range := ⟨0x1000, 0x2000⟩ }
    let ask := fun (dest : Value) (cs : List Word) =>
      ({ dest := dest, solver := fun _ _ => .ok none
         enumerator := fun _ _ => .ok (.ofList cs) } : Query)
    let e := r.serve { func := { name := "f" } }
      [ask (.const (.ofWord 0x3000 .i64)) [], ask (.arg 0) [0x1800, 0x1400], ask (.arg 0) [1, 2, 3]]
    e.blocks.pending = [(0x1400, ⟨0⟩), (0x1800, ⟨1⟩)] ∧
      e.counters = { calls := 3, solvedConstant := 1, twoCandidates := 1 } := by
  decide

end Resolver

end BinaryLift
