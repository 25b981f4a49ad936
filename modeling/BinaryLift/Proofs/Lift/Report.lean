import BinaryLift.Proofs.Lift.Session
import BinaryLift.Proofs.Target.Policy

/-!
# What a report accounts for

A computed destination has one of three fates: it is known, it is guessed from one or two candidates,
or it stays open. A visit adds to the report what the fate of its exit calls for and the targets
outside the range, so the report of a whole search can be read off its visits. The terminators of the
lifted blocks tell the fates apart, which connects the report with the function it came with.
-/

namespace BinaryLift

/-- What becomes of a computed destination. -/
inductive Fate where
  | solved
  | guessed
  | unresolved
deriving DecidableEq

def BlockExit.isIndirect : BlockExit → Bool
  | .indirect _ => true
  | _ => false

theorem BlockExit.isIndirect_iff {exit : BlockExit} :
    exit.isIndirect = true ↔ ∃ dest, exit = .indirect dest := by
  cases exit <;> simp [isIndirect]

/-- The addresses an exit names. -/
def BlockExit.targets : BlockExit → List Word
  | .jump target => [target]
  | .branch _ taken fallthrough => [taken, fallthrough]
  | .indirect _ | .ret _ => []

namespace Terminator

def isIndirect : Terminator → Bool
  | .indirect _ => true
  | _ => false

/-- Control goes on to a block that is known, or to one of two. -/
def goesOn : Terminator → Bool
  | .jump _ | .branch .. => true
  | _ => false

end Terminator

namespace Resolver

/-- A class that pins no address down is guessed if its addresses are scheduled. -/
def Class.fate (r : Resolver) (c : Class) : Fate :=
  if c.dest?.isSome then .solved else if c.accepted r = [] then .unresolved else .guessed

theorem mem_outside {r : Resolver} {as : List Word} {a : Word} :
    a ∈ r.outside as ↔ a ∈ as ∧ r.isValid a = false := by
  simp [outside]

theorem Pinned.classify {r : Resolver} {f : Func} {dest : Value} {a : Word} {why : Reason}
    (h : r.Pinned f dest a why) :
    ∃ c, r.classify f dest = .ok c ∧ c.fate r = .solved ∧ c.addresses.map (·.1) = [a] := by
  cases h with
  | literal c => exact ⟨.literal c.bits, rfl, rfl, rfl⟩
  | solver hdest hsolver =>
    exact ⟨.solved a, classify_eq_ok.2 (.solver hdest hsolver), rfl, rfl⟩

theorem Class.fate_candidates (r : Resolver) (s : AddressSet) :
    (Class.candidates s).fate r =
      if (Class.candidates s).accepted r = [] then .unresolved else .guessed := rfl

/-- A class speaks of two addresses at most. -/
theorem Class.length_accepted_le (r : Resolver) (c : Class) : (c.accepted r).length ≤ 2 := by
  have haddr : c.addresses.length ≤ 2 := by
    cases c with
    | literal a => exact Nat.le_succ 1
    | solved a => exact Nat.le_succ 1
    | candidates s =>
      unfold addresses
      dsimp only
      split <;> simp
  unfold accepted
  split
  · rw [List.length_map]
    exact haddr
  · exact Nat.zero_le 2

end Resolver

namespace Visit

/-- The fate of the destination, if the exit has a computed one and its class is known. -/
def fate? (r : Resolver) (v : Visit) : Option Fate :=
  match v.exit with
  | .indirect dest =>
    match r.classify v.filled dest with
    | .error _ => none
    | .ok c => some (c.fate r)
  | _ => none

/-- The targets of the exit that lie outside the range. -/
def refused (r : Resolver) (v : Visit) : List Word :=
  match v.exit with
  | .indirect dest =>
    match r.classify v.filled dest with
    | .error _ => []
    | .ok c => r.outside (c.addresses.map (·.1))
  | exit => r.outside exit.targets

variable {r : Resolver} {v : Visit} {dest : Value} {c : Resolver.Class}

theorem fate?_of_indirect (hexit : v.exit = .indirect dest) (hc : r.classify v.filled dest = .ok c) :
    v.fate? r = some (c.fate r) := by
  simp only [fate?, hexit, hc]

theorem refused_of_indirect (hexit : v.exit = .indirect dest)
    (hc : r.classify v.filled dest = .ok c) :
    v.refused r = r.outside (c.addresses.map (·.1)) := by
  simp only [refused, hexit, hc]

theorem fate?_of_not_indirect (h : v.exit.isIndirect = false) : v.fate? r = none := by
  unfold fate?
  split
  · rename_i dest hexit
    rw [hexit] at h
    cases h
  · rfl

theorem refused_of_not_indirect (h : v.exit.isIndirect = false) :
    v.refused r = r.outside v.exit.targets := by
  unfold refused
  split
  · rename_i dest hexit
    rw [hexit] at h
    cases h
  · rfl

theorem not_isValid_of_mem_refused {a : Word} (h : a ∈ v.refused r) : r.isValid a = false := by
  unfold refused at h
  split at h
  · split at h
    · cases h
    · exact (Resolver.mem_outside.1 h).2
  · exact (Resolver.mem_outside.1 h).2

theorem mem_refused_of_target {a : Word} (h : a ∈ v.exit.targets) (hbad : r.isValid a = false) :
    a ∈ v.refused r := by
  have hexit : v.exit.isIndirect = false := by
    cases hv : v.exit with
    | indirect dest =>
      rw [hv] at h
      cases h
    | _ => rfl
  rw [refused_of_not_indirect hexit]
  exact Resolver.mem_outside.2 ⟨h, hbad⟩

theorem mem_refused_of_pinned {a : Word} {why : Reason} (hexit : v.exit = .indirect dest)
    (h : r.Pinned v.filled dest a why) (hbad : r.isValid a = false) : a ∈ v.refused r := by
  obtain ⟨c, hc, _, haddr⟩ := h.classify
  rw [refused_of_indirect hexit hc, haddr]
  exact Resolver.mem_outside.2 ⟨List.mem_singleton.2 rfl, hbad⟩

end Visit

/-! ### The report of a search -/

namespace LiftReport

/-- The report with one more exit on record. -/
def record (r : Resolver) (rep : LiftReport) (v : Visit) : LiftReport :=
  { rep with
    unresolved := rep.unresolved ++ if v.fate? r = some .unresolved then [v.address] else []
    speculative := rep.speculative ++ if v.fate? r = some .guessed then [v.address] else []
    rejected := rep.rejected ++ (v.refused r).map (v.address, ·) }

theorem record_of_indirect (rep : LiftReport) {r : Resolver} {v : Visit} {dest : Value}
    {c : Resolver.Class} (hexit : v.exit = .indirect dest) (hc : r.classify v.filled dest = .ok c) :
    rep.record r v = { rep with
      unresolved := rep.unresolved ++ if c.fate r = .unresolved then [v.address] else []
      speculative := rep.speculative ++ if c.fate r = .guessed then [v.address] else []
      rejected := rep.rejected ++
        (r.outside (c.addresses.map (·.1))).map (v.address, ·) } := by
  simp only [record, Visit.fate?_of_indirect hexit hc, Visit.refused_of_indirect hexit hc,
    Option.some.injEq]

theorem record_of_not_indirect (rep : LiftReport) {r : Resolver} {v : Visit}
    (h : v.exit.isIndirect = false) :
    rep.record r v = { rep with
      rejected := rep.rejected ++ (r.outside v.exit.targets).map (v.address, ·) } := by
  simp [record, Visit.fate?_of_not_indirect h, Visit.refused_of_not_indirect h]

/-- The report of a search that made the given visits. -/
def ofVisits (r : Resolver) (vs : List Visit) : LiftReport where
  blocksLifted := vs.length
  unresolved := (vs.filter fun v => v.fate? r = some .unresolved).map (·.address)
  speculative := (vs.filter fun v => v.fate? r = some .guessed).map (·.address)
  rejected := vs.flatMap fun v => (v.refused r).map (v.address, ·)

theorem ofVisits_append (r : Resolver) (vs : List Visit) (v : Visit) :
    ofVisits r (vs ++ [v]) =
      ({ ofVisits r vs with blocksLifted := (ofVisits r vs).blocksLifted + 1 }).record r v := by
  simp only [ofVisits, record, List.length_append, List.length_singleton, List.filter_append,
    List.filter_singleton, List.map_append, List.flatMap_append, List.flatMap_singleton,
    Bool.cond_decide]
  congr 2 <;> split <;> rfl

end LiftReport

namespace Progress

open Resolver

variable {σ : Type} {r : Resolver} {p q s : Progress σ} {site : Word}

/-- The addresses outside the range go on record, and nothing else is reported or observed. -/
structure Refuses (r : Resolver) (p : Progress σ) (site : Word) (as : List Word) (q : Progress σ) :
    Prop where
  report : q.report =
    { p.report with rejected := p.report.rejected ++ (r.outside as).map (site, ·) }
  events : q.trace.events = p.trace.events

theorem Refuses.trans {as bs : List Word} (h : Refuses r p site as q) (h' : Refuses r q site bs s) :
    Refuses r p site (as ++ bs) s where
  report := by
    rw [h'.report, h.report]
    simp [outside]
  events := h'.events.trans h.events

theorem direct_refuses (r : Resolver) (p : Progress σ) (site target : Word) :
    Refuses r p site [target] (p.direct r site target).1 := by
  unfold direct
  split
  · rename_i hvalid
    exact ⟨by simp [outside, hvalid], rfl⟩
  · rename_i hbad
    exact ⟨by simp [outside, hbad, reject], rfl⟩

theorem arm_refuses (r : Resolver) (p : Progress σ) (site target : Word) :
    Refuses r p site [target] (p.arm r site target).1 := by
  have h := direct_refuses r p site target
  unfold arm
  cases hd : p.direct r site target with
  | mk p₁ o =>
    rw [hd] at h
    cases o with
    | some b => exact h
    | none => exact ⟨h.report, h.events⟩

/-- A consultation refuses the addresses of the class and is observed as one call. -/
theorem consult_report {dest : Value} {res : Resolution} {c : Resolver.Class}
    (h : p.consult r site dest = (q, .ok res)) (hc : r.classify p.func dest = .ok c) :
    q.report = { p.report with
        rejected := p.report.rejected ++ (r.outside (c.addresses.map (·.1))).map (site, ·) } ∧
      q.trace.events.count .call = p.trace.events.count .call + 1 := by
  obtain ⟨outcome, hevents, hcall, _⟩ := Resolver.resolve_events r p.func p.blocks dest
  have hcount : (r.resolve p.func p.blocks dest).events.count .call = 1 := by
    rw [hevents, List.count_cons_self, List.count_eq_zero_of_not_mem]
    simpa using hcall
  unfold consult at h
  rw [← hcount, ← List.count_append]
  unfold Resolver.resolve at h ⊢
  cases hs : r.settle p.func p.blocks c with
  | mk m pair =>
    obtain ⟨f, res'⟩ := pair
    simp only [hc, hs] at h ⊢
    cases h
    rw [← (Resolver.settle_takes hs).2.2.1]
    exact ⟨rfl, rfl⟩

/-- What is scheduled for a class are its accepted addresses. -/
theorem consult_targets {dest : Value} {res : Resolution} {c : Resolver.Class}
    (h : p.consult r site dest = (q, .ok res)) (hc : r.classify p.func dest = .ok c) :
    res.dest = c.dest? ∧ res.targets.map (·.address) = c.accepted r := by
  obtain ⟨c', hc', hsettle⟩ := consult_ok h
  rw [hc] at hc'
  cases hc'
  obtain ⟨_, hdest, hrejected, htargets, _⟩ := Resolver.settle_takes hsettle
  refine ⟨hdest, ?_⟩
  rw [Resolver.Class.accepted_eq, ← hrejected]
  have haddr := congrArg (List.map Prod.fst) htargets
  rw [List.map_map] at haddr
  refine haddr.trans ?_
  split <;> rfl

/-- A computed destination is put on record as its fate calls for. -/
theorem indirect_report {block : BlockId} {dest : Value} {t : Terminator}
    (h : p.indirect r block site dest = (q, .ok t)) :
    q.report = p.report.record r ⟨site, block, .indirect dest, p.func⟩ ∧
      q.trace.events.count .call = p.trace.events.count .call + 1 := by
  cases hcons : p.consult r site dest with
  | mk p₁ o =>
    cases o with
    | error e =>
      simp only [indirect, hcons] at h
      cases h
    | ok res =>
      obtain ⟨c, hc, _⟩ := consult_ok hcons
      obtain ⟨hreport, hcalls⟩ := consult_report hcons hc
      obtain ⟨hdest, htargets⟩ := consult_targets hcons hc
      have hfate : c.fate r = if res.dest.isSome then .solved
          else if res.targets = [] then .unresolved else .guessed := by
        simp only [Resolver.Class.fate, ← hdest, ← htargets, List.map_eq_nil_iff]
      have hlen : res.targets.length ≤ 2 := by
        have hle := c.length_accepted_le r
        rwa [← htargets, List.length_map] at hle
      have hrecord := p.report.record_of_indirect (v := ⟨site, block, .indirect dest, p.func⟩) rfl hc
      simp only [indirect, hcons] at h
      split at h
      · rename_i hd _
        cases h
        simp [hrecord, hreport, hfate, hd, hcalls]
      · rename_i hd _
        cases h
        simp [hrecord, hreport, hfate, hd, hcalls]
      · rename_i hd hl
        cases h
        simp [hrecord, hreport, hfate, hd, hl, hcalls]
      · rename_i hd hl
        split at h
        · cases h
        · cases h
          simp [hrecord, hreport, hfate, hd, hl, hcalls]
      · rename_i hd hone htwo
        have hl : res.targets = [] := by
          rcases hl : res.targets with _ | ⟨first, _ | ⟨second, _ | ⟨third, rest⟩⟩⟩
          · rfl
          · exact absurd hl (hone first)
          · exact absurd hl (htwo first second)
          · rw [hl] at hlen
            simp at hlen
        cases h
        simp [hrecord, hreport, hfate, hd, hl, hcalls]

/-- An exit to known targets only refuses those outside the range. -/
theorem Refuses.records {exit : BlockExit} {block : BlockId} (hexit : exit.isIndirect = false)
    (h : Refuses r p site exit.targets q) :
    q.report = p.report.record r ⟨site, block, exit, p.func⟩ ∧
      q.trace.events.count .call =
        p.trace.events.count .call + if exit.isIndirect then 1 else 0 := by
  constructor
  · rw [LiftReport.record_of_not_indirect _ (v := ⟨site, block, exit, p.func⟩) hexit]
    exact h.report
  · simp [h.events, hexit]

/-- Every exit that is carried out goes on record, a computed destination with one call. -/
theorem materialize_report {block : BlockId} {exit : BlockExit} {t : Terminator}
    (h : p.materialize r block site exit = (q, .ok t)) :
    q.report = p.report.record r ⟨site, block, exit, p.func⟩ ∧
      q.trace.events.count .call =
        p.trace.events.count .call + if exit.isIndirect then 1 else 0 := by
  cases exit with
  | ret value =>
    cases h
    exact Refuses.records rfl ⟨by simp [BlockExit.targets, outside], rfl⟩
  | jump target =>
    have href := direct_refuses r p site target
    cases hd : p.direct r site target with
    | mk p₁ o =>
      rw [hd] at href
      simp only [materialize, hd] at h
      cases o <;> cases h <;> exact Refuses.records rfl href
  | branch cond taken fallthrough =>
    have hfirst := arm_refuses r p site taken
    cases h₁ : p.arm r site taken with
    | mk p₁ x =>
      rw [h₁] at hfirst
      have hsecond := arm_refuses r p₁ site fallthrough
      cases h₂ : p₁.arm r site fallthrough with
      | mk p₂ y =>
        rw [h₂] at hsecond
        simp only [materialize, h₁, h₂] at h
        cases h
        exact Refuses.records rfl (hfirst.trans hsecond)
  | indirect dest => exact indirect_report h

/-- After the visits `vs`, the report is theirs, and each computed destination has taken one call. -/
structure Accounted (r : Resolver) (vs : List Visit) (q : Progress σ) : Prop where
  report : q.report = .ofVisits r vs
  calls : q.trace.events.count .call = vs.countP (·.exit.isIndirect)

theorem Accounted.step {lifter : BlockLifter σ} {vs : List Visit} {v : Visit}
    (h : Accounted r vs p) (hv : Visits lifter r p v q) : Accounted r (vs ++ [v]) q := by
  obtain ⟨m, t, _, hlift, hblock⟩ := hv
  obtain ⟨p₁, p₂, t, g, hfunc, _, hreport, htrace, hmat, _, rfl⟩ :=
    liftBlock_eq_ok (p := { p with blocks := m }) hlift hblock
  obtain ⟨hrecord, hcalls⟩ := materialize_report hmat
  rw [hfunc] at hrecord
  constructor
  · rw [LiftReport.ofVisits_append, ← h.report]
    exact hrecord.trans (by rw [hreport])
  · rw [List.countP_append, ← h.calls]
    refine hcalls.trans ?_
    rw [htrace, List.countP_singleton]

theorem Accounted.run {lifter : BlockLifter σ} {vs ws : List Visit} (h : Accounted r vs p)
    (hrun : Runs lifter r p ws q) : Accounted r (vs ++ ws) q := by
  induction hrun generalizing vs with
  | nil p =>
    rw [List.append_nil]
    exact h
  | cons hv _ ih =>
    rw [List.append_cons]
    exact ih (h.step hv)

theorem Accounted.start (r : Resolver) (s : σ) (sig : Signature) (name : String) (entry : Word) :
    Accounted r [] (start s sig name entry) := ⟨rfl, rfl⟩

end Progress

/-! ### Fates and terminators -/

/-- The terminators that go with a fate. -/
def Fate.Allows : Fate → Terminator → Prop
  | .solved, t => (∃ b, t = .jump b) ∨ t = .unreachable
  | .guessed, t => t.goesOn = true
  | .unresolved, t => t.isIndirect = true

theorem Fate.Allows.isIndirect_iff {fate : Fate} {t : Terminator} (h : fate.Allows t) :
    t.isIndirect = true ↔ fate = .unresolved := by
  cases fate with
  | solved => rcases h with ⟨b, rfl⟩ | rfl <;> simp [Terminator.isIndirect]
  | guessed => cases t <;> simp_all [Allows, Terminator.goesOn, Terminator.isIndirect]
  | unresolved => exact ⟨fun _ => rfl, fun _ => h⟩

theorem Fate.Allows.goesOn_iff {fate : Fate} {t : Terminator} (h : fate.Allows t)
    (hne : fate ≠ .solved) : t.goesOn = true ↔ fate = .guessed := by
  cases fate with
  | solved => exact absurd rfl hne
  | guessed => exact ⟨fun _ => rfl, fun _ => h⟩
  | unresolved => cases t <;> simp_all [Allows, Terminator.goesOn, Terminator.isIndirect]

namespace Visit

variable {r : Resolver} {v : Visit} {m : BlockMap} {g : Func} {t : Terminator}

theorem JumpsTo.allows {a : Word} (h : JumpsTo r m a t) : Fate.solved.Allows t := by
  unfold JumpsTo at h
  split at h
  · obtain ⟨b, _, rfl⟩ := h
    exact .inl ⟨b, rfl⟩
  · exact .inr h

theorem Computes.allows {dest : Value} {c : Resolver.Class} (h : Computes r m g v dest c t) :
    (c.fate r).Allows t := by
  cases c with
  | literal a => exact JumpsTo.allows h
  | solved a => exact JumpsTo.allows h
  | candidates s =>
    unfold Computes at h
    dsimp only at h
    rw [Resolver.Class.fate_candidates]
    split at h
    · rename_i a hs
      simp only [Resolver.Class.accepted, Resolver.Class.addresses, hs]
      split at h
      · rename_i hvalid
        obtain ⟨b, _, rfl⟩ := h
        simp [hvalid, Fate.Allows, Terminator.goesOn]
      · rename_i hbad
        subst h
        simp [hbad, Fate.Allows, Terminator.isIndirect]
    · rename_i a a' hs
      simp only [Resolver.Class.accepted, Resolver.Class.addresses, hs]
      split at h
      · rename_i hvalid
        obtain ⟨x, y, cond, data, _, _, rfl, _⟩ := h
        simp [hvalid, Fate.Allows, Terminator.goesOn]
      · rename_i hbad
        subst h
        simp [hbad, Fate.Allows, Terminator.isIndirect]
    · subst h
      simp [Resolver.Class.accepted, Resolver.Class.addresses, Fate.Allows, Terminator.isIndirect]

/-- The terminator of a computed destination shows its fate. -/
theorem Prescribes.fate {dest : Value} (h : v.Prescribes r m g t) (hexit : v.exit = .indirect dest) :
    ∃ fate, v.fate? r = some fate ∧ fate.Allows t := by
  unfold Prescribes at h
  rw [hexit] at h
  obtain ⟨c, hc, hcomputes⟩ := h
  exact ⟨c.fate r, fate?_of_indirect hexit hc, hcomputes.allows⟩

/-- Only a computed destination leaves an indirect terminator. -/
theorem Prescribes.not_isIndirect (h : v.Prescribes r m g t) (hexit : v.exit.isIndirect = false) :
    t.isIndirect = false := by
  unfold Prescribes at h
  split at h
  · rw [h]
    rfl
  · rcases JumpsTo.allows h with ⟨b, rfl⟩ | rfl <;> rfl
  · obtain ⟨x, y, rfl, _⟩ := h
    rfl
  · rename_i dest hdest
    rw [hdest] at hexit
    cases hexit

theorem fate?_eq_some_iff {fate : Fate} : v.fate? r = some fate ↔
    ∃ dest c, v.exit = .indirect dest ∧ r.classify v.filled dest = .ok c ∧ c.fate r = fate := by
  constructor
  · intro h
    unfold fate? at h
    split at h
    · rename_i dest hexit
      split at h
      · cases h
      · rename_i c hc
        exact ⟨dest, c, hexit, hc, Option.some.inj h⟩
    · cases h
  · rintro ⟨dest, c, hexit, hc, rfl⟩
    exact fate?_of_indirect hexit hc

theorem solved_iff : v.fate? r = some .solved ↔
    ∃ dest a why, v.exit = .indirect dest ∧ r.Pinned v.filled dest a why := by
  rw [fate?_eq_some_iff]
  constructor
  · rintro ⟨dest, c, hexit, hc, hfate⟩
    have hof := Resolver.classify_eq_ok.1 hc
    cases c with
    | literal a => exact ⟨dest, a, _, hexit, hof⟩
    | solved a => exact ⟨dest, a, _, hexit, hof⟩
    | candidates s =>
      rw [Resolver.Class.fate_candidates] at hfate
      split at hfate <;> cases hfate
  · rintro ⟨dest, a, why, hexit, hpinned⟩
    obtain ⟨c, hc, hfate, _⟩ := hpinned.classify
    exact ⟨dest, c, hexit, hc, hfate⟩

theorem Prescribes.unresolved_iff (h : v.Prescribes r m g t) :
    v.fate? r = some .unresolved ↔ t.isIndirect = true := by
  cases hexit : v.exit.isIndirect with
  | false => simp [fate?_of_not_indirect hexit, h.not_isIndirect hexit]
  | true =>
    obtain ⟨dest, hdest⟩ := BlockExit.isIndirect_iff.1 hexit
    obtain ⟨fate, hfate, hallows⟩ := h.fate hdest
    rw [hfate, Option.some.injEq, hallows.isIndirect_iff]

/-- A destination that is not pinned down is guessed if the block goes on. -/
theorem Prescribes.guessed_iff (h : v.Prescribes r m g t) :
    v.fate? r = some .guessed ↔ (∃ dest s, v.exit = .indirect dest ∧
      r.Speculative v.filled dest s) ∧ t.goesOn = true := by
  constructor
  · intro hguessed
    obtain ⟨dest, c, hexit, hc, hfate⟩ := fate?_eq_some_iff.1 hguessed
    obtain ⟨fate, hfate', hallows⟩ := h.fate hexit
    obtain rfl : .guessed = fate := Option.some.inj (hguessed.symm.trans hfate')
    cases c with
    | literal a => cases hfate
    | solved a => cases hfate
    | candidates s => exact ⟨⟨dest, s, hexit, Resolver.classify_eq_ok.1 hc⟩, hallows⟩
  · rintro ⟨⟨dest, s, hexit, hspec⟩, ht⟩
    obtain ⟨fate, hfate, hallows⟩ := h.fate hexit
    have hne : fate ≠ .solved := by
      rintro rfl
      obtain ⟨dest', a, why, hexit', hpinned⟩ := solved_iff.1 hfate
      obtain rfl : dest = dest' := BlockExit.indirect.inj (hexit.symm.trans hexit')
      exact hspec.not_pinned hpinned
    rw [hfate, (hallows.goesOn_iff hne).1 ht]

/-- Each computed destination has exactly one fate. -/
theorem countP_isIndirect {vs : List Visit}
    (h : ∀ v ∈ vs, v.exit.isIndirect = true → ∃ fate, v.fate? r = some fate) :
    vs.countP (·.exit.isIndirect) = vs.countP (fun v => v.fate? r = some .solved) +
      vs.countP (fun v => v.fate? r = some .guessed) +
      vs.countP (fun v => v.fate? r = some .unresolved) := by
  induction vs with
  | nil => rfl
  | cons v vs ih =>
    have hrest := ih fun w hw => h w (List.mem_cons_of_mem _ hw)
    simp only [List.countP_cons, hrest]
    cases hexit : v.exit.isIndirect with
    | false =>
      simp [fate?_of_not_indirect hexit]
    | true =>
      obtain ⟨fate, hfate⟩ := h v List.mem_cons_self hexit
      rw [hfate]
      cases fate <;> simp <;> omega

end Visit

/-! ### The report of a lifted function -/

/-- The terminator of the block at an address. -/
def LiftedFunction.terminator? (l : LiftedFunction) (a : Word) : Option Terminator := do
  let f ← l.function?
  let b ← l.blocks.blockAt a
  return (← f.block? b).term

/-- The report of a function says what became of the exits of its blocks. -/
structure LiftedFunction.Accounts (r : Resolver) (vs : List Visit) (events : List ResolveEvent)
    (l : LiftedFunction) : Prop where
  terminated : ∀ v ∈ vs, ∃ t, l.terminator? v.address = some t
  /-- The blocks that end in an indirect jump, in the order they were lifted in. -/
  unresolved : l.report.unresolved =
    (vs.map (·.address)).filter fun a => (l.terminator? a).any (·.isIndirect)
  unresolved_nodup : l.report.unresolved.Nodup
  /-- The blocks that go on although the destination is not pinned down. -/
  mem_speculative : ∀ a, a ∈ l.report.speculative ↔ ∃ v ∈ vs, v.address = a ∧
    (∃ dest s, v.exit = .indirect dest ∧ r.Speculative v.filled dest s) ∧
    ∃ t, l.terminator? a = some t ∧ t.goesOn = true
  speculative_nodup : l.report.speculative.Nodup
  /-- One call for each computed destination, -/
  calls : events.count .call = vs.countP (·.exit.isIndirect)
  /-- which is solved or on one of the two lists. -/
  calls_eq : events.count .call = vs.countP (fun v => v.fate? r = some .solved) +
    l.report.speculative.length + l.report.unresolved.length
  solved_iff : ∀ v ∈ vs, v.fate? r = some .solved ↔
    ∃ dest a why, v.exit = .indirect dest ∧ r.Pinned v.filled dest a why
  rejected : ∀ e ∈ l.report.rejected, e.1 ∈ vs.map (·.address) ∧ r.isValid e.2 = false
  rejected_known : ∀ v ∈ vs, ∀ a ∈ v.exit.targets, r.isValid a = false →
    (v.address, a) ∈ l.report.rejected
  rejected_solved : ∀ v ∈ vs, ∀ dest a why, v.exit = .indirect dest →
    r.Pinned v.filled dest a why → r.isValid a = false → (v.address, a) ∈ l.report.rejected

theorem LiftedFunction.accounts_of_prescribes {r : Resolver} {vs : List Visit}
    {events : List ResolveEvent} {l : LiftedFunction} (hreport : l.report = .ofVisits r vs)
    (hcalls : events.count .call = vs.countP (·.exit.isIndirect))
    (hnodup : (vs.map (·.address)).Nodup)
    (hterm : ∀ v ∈ vs, ∃ t m g, l.terminator? v.address = some t ∧ v.Prescribes r m g t) :
    l.Accounts r vs events := by
  have hsublist : ∀ keep : Visit → Bool, ((vs.filter keep).map (·.address)).Nodup := fun keep =>
    hnodup.sublist (List.filter_sublist.map _)
  have hrejected : ∀ v ∈ vs, ∀ a ∈ v.refused r, (v.address, a) ∈ l.report.rejected := by
    intro v hv a ha
    rw [hreport]
    exact List.mem_flatMap.2 ⟨v, hv, List.mem_map_of_mem ha⟩
  constructor
  case terminated =>
    intro v hv
    obtain ⟨t, _, _, ht, _⟩ := hterm v hv
    exact ⟨t, ht⟩
  case unresolved =>
    rw [hreport, List.filter_map]
    refine congrArg (List.map _) (List.filter_congr fun v hv => ?_)
    obtain ⟨t, m, g, ht, hpre⟩ := hterm v hv
    simp [ht, hpre.unresolved_iff]
  case unresolved_nodup =>
    rw [hreport]
    exact hsublist _
  case mem_speculative =>
    intro a
    rw [hreport]
    simp only [LiftReport.ofVisits, List.mem_map, List.mem_filter, decide_eq_true_eq]
    refine exists_congr fun v => ⟨?_, ?_⟩
    · rintro ⟨⟨hv, hguessed⟩, rfl⟩
      obtain ⟨t, m, g, ht, hpre⟩ := hterm v hv
      obtain ⟨hspec, hgoes⟩ := hpre.guessed_iff.1 hguessed
      exact ⟨hv, rfl, hspec, t, ht, hgoes⟩
    · rintro ⟨hv, rfl, hspec, t, ht, hgoes⟩
      obtain ⟨t', m, g, ht', hpre⟩ := hterm v hv
      rw [ht] at ht'
      cases ht'
      exact ⟨⟨hv, hpre.guessed_iff.2 ⟨hspec, hgoes⟩⟩, rfl⟩
  case speculative_nodup =>
    rw [hreport]
    exact hsublist _
  case calls => exact hcalls
  case calls_eq =>
    rw [hcalls, hreport]
    simp only [LiftReport.ofVisits, List.length_map, ← List.countP_eq_length_filter]
    refine Visit.countP_isIndirect fun v hv hexit => ?_
    obtain ⟨t, m, g, _, hpre⟩ := hterm v hv
    obtain ⟨dest, hdest⟩ := BlockExit.isIndirect_iff.1 hexit
    obtain ⟨fate, hfate, _⟩ := hpre.fate hdest
    exact ⟨fate, hfate⟩
  case solved_iff => exact fun v _ => Visit.solved_iff
  case rejected =>
    intro e he
    rw [hreport] at he
    obtain ⟨v, hv, he⟩ := List.mem_flatMap.1 he
    obtain ⟨a, ha, rfl⟩ := List.mem_map.1 he
    exact ⟨List.mem_map_of_mem hv, Visit.not_isValid_of_mem_refused ha⟩
  case rejected_known =>
    exact fun v hv a ha hbad => hrejected v hv a (Visit.mem_refused_of_target ha hbad)
  case rejected_solved =>
    exact fun v hv dest a why hexit hpinned hbad =>
      hrejected v hv a (Visit.mem_refused_of_pinned hexit hpinned hbad)

namespace Session

variable {σ : Type} {s : Session σ} {name : String} {entry : Word}

/-- The report of a function that is not optimized accounts for every exit. A computed destination is
resolved with one call, and then it is solved, or its block is listed as speculative or as unresolved,
once and in accordance with the terminator. The rejected targets are outside the range, and known and
solved targets outside the range are all among them. -/
theorem liftFunction_accounts (s : Session σ) (happ : s.lifter.Appends) (name : String)
    (entry : Word) {l : LiftedFunction} (h : (s.liftFunction name entry).result = .ok l)
    (hopt : s.config.optimize = false) :
    ∃ vs p, s.Searched name entry vs p ∧ l.blocks.known = vs.map (·.address) ∧
      (s.liftFunction name entry).trace.asked = vs.map (·.address) ∧
      l.Accounts s.resolver vs (s.liftFunction name entry).trace.events := by
  obtain ⟨vs, p, hsearch, hex, hpending, hblocks, hfunc, hreport, htrace⟩ :=
    liftFunction_ok happ h hopt
  have hacc : p.Accounted s.resolver vs :=
    (Progress.Accounted.start s.resolver s.state s.lifter.signature name entry).run hsearch
  have hall : p.blocks.known = vs.map (·.address) := by
    rw [hex.queue, hpending, List.map_nil, List.append_nil]
  rw [hblocks, htrace]
  refine ⟨vs, p, hsearch, hall, hex.asked, LiftedFunction.accounts_of_prescribes ?_ hacc.calls ?_ ?_⟩
  · rw [hreport, hacc.report]
    rfl
  · rw [← hall]
    exact hex.registered.nodup
  · intro v hv
    obtain ⟨data, hdata, hpre⟩ := hex.terms v hv
    refine ⟨data.term, p.blocks, p.func, ?_, hpre⟩
    rw [LiftedFunction.terminator?, hfunc, hblocks]
    simp [hex.visited v hv, hdata]

/-- Two arguments to jump to, one with two known candidates and one with none. -/
def twoDispatches : Session Unit :=
  let img := Image.ofCode 0x1000 #[0, 0, 0, 0]
  let lifter := scripted fun a =>
    if a = 0x1000 then
      ([⟨.load (.arg 0), some .i1⟩], .branch (.inst ⟨0⟩) 0x1001 0x9000)
    else if a = 0x1001 then ([], .indirect (.arg 0))
    else if a = 0x1002 then ([], .indirect (.int 0x9001 .i64))
    else ([], .indirect (.arg 1))
  { Session.new img lifter () with
    config := { optimize := false }
    custom := true
    resolver := {
      range := img.range
      solver := fun _ _ => .ok none
      enumerator := fun _ dest =>
        .ok (.ofList (if dest = .arg 0 then [0x1002, 0x1003] else [])) } }

theorem twoDispatches_accounts :
    twoDispatches.lifter.Appends ∧ ∃ l, (twoDispatches.liftFunction "main" 0x1000).result = .ok l ∧
      twoDispatches.config.optimize = false ∧ l.report.unresolved = [0x1003] ∧
      l.report.speculative = [0x1001] ∧
      l.report.rejected = [(0x1000, 0x9000), (0x1002, 0x9001)] ∧
      ∃ vs, l.Accounts twoDispatches.resolver vs
        (twoDispatches.liftFunction "main" 0x1000).trace.events := by
  have happ : twoDispatches.lifter.Appends := scripted_appends _
  have hok : ∃ l, (twoDispatches.liftFunction "main" 0x1000).result = .ok l ∧
      l.report.unresolved = [0x1003] ∧ l.report.speculative = [0x1001] ∧
      l.report.rejected = [(0x1000, 0x9000), (0x1002, 0x9001)] := by
    cbv
    exact ⟨_, rfl, rfl, rfl, rfl⟩
  obtain ⟨l, hl, hunresolved, hspeculative, hrejected⟩ := hok
  obtain ⟨vs, _, _, _, _, haccounts⟩ :=
    liftFunction_accounts twoDispatches happ "main" 0x1000 hl rfl
  exact ⟨happ, l, hl, rfl, hunresolved, hspeculative, hrejected, vs, haccounts⟩

end Session

end BinaryLift
