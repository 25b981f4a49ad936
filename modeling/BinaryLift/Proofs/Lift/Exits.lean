import BinaryLift.Lift.Session
import BinaryLift.Proofs.Target.Settling

/-!
# Exits and terminators

What an exit prescribes: a known target inside the range is the block registered for it, one outside
is nothing or an empty block of its own, and a computed destination follows its class. Carrying out
an exit schedules the targets inside the range, in order, and gives the prescribed terminator.
-/

namespace BinaryLift

/-- One block that was lifted: where, into which block, how it is left, and the function as the
lifter left it. -/
structure Visit where
  address : Word
  block : BlockId
  exit : BlockExit
  filled : Func

/-- The addresses that an exit schedules. -/
def Resolver.found (r : Resolver) (f : Func) : BlockExit → List Word
  | .ret _ => []
  | .jump target => [target].filter r.isValid
  | .branch _ taken fallthrough => [taken].filter r.isValid ++ [fallthrough].filter r.isValid
  | .indirect dest =>
    match r.classify f dest with
    | .error _ => []
    | .ok c => c.accepted r

/-- The addresses that a visit scheduled. -/
def Visit.found (r : Resolver) (v : Visit) : List Word := r.found v.filled v.exit

namespace Visit

/-- A jump to a known address. -/
def JumpsTo (r : Resolver) (m : BlockMap) (target : Word) (t : Terminator) : Prop :=
  if r.isValid target then ∃ b, m.blockAt target = some b ∧ t = .jump b else t = .unreachable

/-- One arm of a branch; outside the range it is an empty block made after the visit's `filled`. -/
def ArmTo (r : Resolver) (m : BlockMap) (f g : Func) (target : Word) (b : BlockId) : Prop :=
  if r.isValid target then m.blockAt target = some b
  else f.blocks.size ≤ b.index ∧ g.block? b = some {}

/-- A branch on the comparison of a computed destination with the first of two candidates. -/
def BranchesOn (m : BlockMap) (g : Func) (v : Visit) (dest : Value) (first second : Word)
    (t : Terminator) : Prop :=
  ∃ x y cond data, m.blockAt first = some x ∧ m.blockAt second = some y ∧
    t = .branch (.inst cond) x y ∧ g.block? v.block = some data ∧
    data.insts.getLast? = some cond ∧
    g.inst? cond = some ⟨.icmp .eq dest (.int first (v.filled.wordTy dest)), some .i1⟩

/-- The terminator of a computed destination of a class. -/
def Computes (r : Resolver) (m : BlockMap) (g : Func) (v : Visit) (dest : Value) :
    Resolver.Class → Terminator → Prop
  | .literal a, t => JumpsTo r m a t
  | .solved a, t => JumpsTo r m a t
  | .candidates s, t =>
    match s.toList with
    | [a] => if r.isValid a then ∃ b, m.blockAt a = some b ∧ t = .jump b else t = .indirect dest
    | [a, c] =>
      if r.isValid a ∧ r.isValid c then BranchesOn m g v dest a c t else t = .indirect dest
    | _ => t = .indirect dest

/-- The terminator that the exit of a visit prescribes, in the function `g` with the blocks of
`m`. -/
def Prescribes (r : Resolver) (m : BlockMap) (g : Func) (v : Visit) (t : Terminator) : Prop :=
  match v.exit with
  | .ret value => t = .ret value
  | .jump target => JumpsTo r m target t
  | .branch cond taken fallthrough =>
    ∃ x y, t = .branch cond x y ∧ ArmTo r m v.filled g taken x ∧ ArmTo r m v.filled g fallthrough y ∧
      (¬ r.isValid taken → ¬ r.isValid fallthrough → x ≠ y)
  | .indirect dest => ∃ c, r.classify v.filled dest = .ok c ∧ Computes r m g v dest c t

theorem ArmTo.mono {r : Resolver} {m m' : BlockMap} {f f' g g' : Func} {target : Word}
    {b : BlockId} {found : List Word} (h : ArmTo r m f' g target b)
    (hdisc : m.Discovers g found m' g') (hsize : f.blocks.size ≤ f'.blocks.size) :
    ArmTo r m' f g' target b := by
  unfold ArmTo at h ⊢
  split at h
  · rename_i hvalid
    rw [if_pos hvalid]
    exact hdisc.keeps target b h
  · rename_i hbad
    rw [if_neg hbad]
    exact ⟨Nat.le_trans hsize h.1, hdisc.grows.block? h.2⟩

end Visit

namespace Progress

open BlockMap Visit

variable {σ : Type} {r : Resolver} {p q : Progress σ} {site : Word}

/-- What has been lifted and asked for so far is the same. -/
structure SameHistory (p q : Progress σ) : Prop where
  lifter : q.lifter = p.lifter
  lifted : q.report.blocksLifted = p.report.blocksLifted
  asked : q.trace.asked = p.trace.asked

theorem SameHistory.trans {p q s : Progress σ} (h : p.SameHistory q) (h' : q.SameHistory s) :
    p.SameHistory s where
  lifter := h'.lifter.trans h.lifter
  lifted := h'.lifted.trans h.lifted
  asked := h'.asked.trans h.asked

/-! ### Known targets -/

theorem direct_some {target : Word} {b : BlockId} (hreg : p.blocks.Registered r.isValid p.func)
    (h : p.direct r site target = (q, some b)) :
    r.isValid target = true ∧ q.blocks.Registered r.isValid q.func ∧
      p.blocks.Discovers p.func [target] q.blocks q.func ∧ q.blocks.blockAt target = some b ∧
      p.SameHistory q := by
  unfold direct at h
  split at h
  · rename_i hvalid
    cases hs : p.blocks.schedule p.func target .direct with
    | mk m pair =>
      obtain ⟨f, c⟩ := pair
      rw [hs] at h
      cases h
      obtain ⟨hreg', hdisc, hat⟩ := schedule_spec hreg hvalid hs
      exact ⟨hvalid, hreg', hdisc, hat, rfl, rfl, rfl⟩
  · cases h

theorem direct_none {target : Word} (h : p.direct r site target = (q, none)) :
    r.isValid target = false ∧ q.blocks = p.blocks ∧ q.func = p.func ∧ p.SameHistory q := by
  unfold direct at h
  split at h
  · cases hs : p.blocks.schedule p.func target .direct with
    | mk m pair =>
      rw [hs] at h
      cases h
  · rename_i hvalid
    cases h
    exact ⟨by simpa using hvalid, rfl, rfl, rfl, rfl, rfl⟩

theorem arm_spec {target : Word} {b : BlockId} (hreg : p.blocks.Registered r.isValid p.func)
    (h : p.arm r site target = (q, b)) :
    q.blocks.Registered r.isValid q.func ∧
      p.blocks.Discovers p.func ([target].filter r.isValid) q.blocks q.func ∧
      ArmTo r q.blocks p.func q.func target b ∧ q.func.containsBlock b = true ∧
      p.SameHistory q := by
  unfold arm at h
  cases hd : p.direct r site target with
  | mk p₁ o =>
    rw [hd] at h
    cases o with
    | some c =>
      cases h
      obtain ⟨hvalid, hreg', hdisc, hat, hsame⟩ := direct_some hreg hd
      obtain ⟨data, hdata, _⟩ := hreg'.carries target b hat
      refine ⟨hreg', ?_, ?_, Func.containsBlock_iff.2 ⟨data, hdata⟩, hsame⟩
      · simpa [hvalid] using hdisc
      · simpa [ArmTo, hvalid] using hat
    | none =>
      cases h
      obtain ⟨hbad, hblocks, hfunc, hsame⟩ := direct_none hd
      have hgrow := Func.Grows.addBlock p₁.func none
      have hnew : (p₁.func.addBlock none).1.block? ⟨p₁.func.blocks.size⟩ = some {} := by
        rw [Func.block?_addBlock, if_pos rfl]
      rw [← hblocks, ← hfunc] at hreg
      refine ⟨hreg.grows hgrow, ?_, ?_, Func.containsBlock_iff.2 ⟨{}, hnew⟩, ?_⟩
      · have hfilter : [target].filter r.isValid = [] := by simp [hbad]
        rw [← hblocks, ← hfunc, hfilter]
        exact Discovers.addBlock p₁.blocks p₁.func none
      · have hsize : p.func.blocks.size ≤ p₁.func.blocks.size := Nat.le_of_eq (by rw [hfunc])
        simpa [ArmTo, hbad] using ⟨hsize, hnew⟩
      · exact ⟨hsame.lifter, hsame.lifted, hsame.asked⟩

/-! ### Computed destinations -/

/-- A carried out exit: the map is in step, the found addresses were scheduled and the terminator is
the prescribed one. The function may have got one more comparison in the visited block. -/
structure CarriesOut (r : Resolver) (p : Progress σ) (v : Visit) (q : Progress σ) (t : Terminator) :
    Prop where
  registered : q.blocks.Registered r.isValid q.func
  discovers : ∃ g, p.blocks.Discovers p.func (v.found r) q.blocks g ∧ g.ExtendsAt v.block q.func
  prescribes : v.Prescribes r q.blocks q.func t
  live : ∀ s ∈ t.successors, q.func.containsBlock s = true

theorem consult_history (r : Resolver) (p : Progress σ) (site : Word) (dest : Value) :
    p.SameHistory (p.consult r site dest).1 := by
  unfold consult
  dsimp only
  split <;> exact ⟨rfl, rfl, rfl⟩

theorem consult_ok {dest : Value} {res : Resolution} (h : p.consult r site dest = (q, .ok res)) :
    ∃ c, r.classify p.func dest = .ok c ∧
      r.settle p.func p.blocks c = (q.blocks, q.func, res) := by
  unfold consult Resolver.resolve at h
  cases hc : r.classify p.func dest with
  | error e =>
    simp only [hc] at h
    cases h
  | ok c =>
    cases hs : r.settle p.func p.blocks c with
    | mk m pair =>
      obtain ⟨f, res'⟩ := pair
      simp only [hc, hs] at h
      cases h
      exact ⟨c, rfl, hs⟩

theorem branchOn_ok {f g : Func} {block : BlockId} {dest : Value} {first second : Scheduled}
    {t : Terminator} (h : branchOn f block dest first second = .ok (g, t)) :
    ∃ cond, t = .branch (.inst cond) first.block second.block ∧
      f.appendInst block ⟨.icmp .eq dest (.int first.address (f.wordTy dest)), some .i1⟩ =
        .ok (g, cond) := by
  unfold branchOn at h
  cases hty : f.valueTy dest with
  | error e =>
    rw [hty] at h
    cases h
  | ok o =>
    rw [hty] at h
    have hword : o.getD .i64 = f.wordTy dest := by
      rw [Func.wordTy, ← Func.valueTy_eq_ok hty]
    simp only [bind, Except.bind, hword] at h
    cases ha : f.appendInst block
        ⟨.icmp .eq dest (.int first.address (f.wordTy dest)), some .i1⟩ with
    | error e =>
      rw [ha] at h
      cases h
    | ok pair =>
      rw [ha] at h
      cases h
      exact ⟨pair.2, rfl, rfl⟩

theorem indirect_history (r : Resolver) (p : Progress σ) (block : BlockId) (site : Word)
    (dest : Value) : p.SameHistory (p.indirect r block site dest).1 := by
  have hconsult := consult_history r p site dest
  unfold indirect
  cases hc : p.consult r site dest with
  | mk p₁ o =>
    rw [hc] at hconsult
    cases o with
    | error e => exact hconsult
    | ok res =>
      simp only
      split
      · exact hconsult
      · exact hconsult
      · exact ⟨hconsult.lifter, hconsult.lifted, hconsult.asked⟩
      · split <;> exact ⟨hconsult.lifter, hconsult.lifted, hconsult.asked⟩
      · exact ⟨hconsult.lifter, hconsult.lifted, hconsult.asked⟩

theorem carriesOut_of_discovers {v : Visit} {data : Block} {t : Terminator}
    (hreg : q.blocks.Registered r.isValid q.func) (hblock : p.func.block? v.block = some data)
    (hdisc : p.blocks.Discovers p.func (v.found r) q.blocks q.func)
    (hpre : v.Prescribes r q.blocks q.func t)
    (hlive : ∀ s ∈ t.successors, q.func.containsBlock s = true) : p.CarriesOut r v q t :=
  ⟨hreg, ⟨q.func, hdisc, .refl (hdisc.grows.block? hblock)⟩, hpre, hlive⟩

theorem live_of_blockAt (hreg : q.blocks.Registered r.isValid q.func) {a : Word} {b : BlockId}
    (h : q.blocks.blockAt a = some b) : q.func.containsBlock b = true := by
  obtain ⟨data, hd, _⟩ := hreg.carries a b h
  exact Func.containsBlock_iff.2 ⟨data, hd⟩

theorem indirect_solved {block : BlockId} {dest : Value} {c : Resolver.Class} {a : Word}
    {reason : Reason} {t : Terminator} {data : Block}
    (hreg : p.blocks.Registered r.isValid p.func) (hblock : p.func.block? block = some data)
    (hclass : r.classify p.func dest = .ok c) (hc : c.addresses = [(a, reason)])
    (hdest : c.dest? = some a)
    (hcomputes : ∀ v : Visit, ∀ m g, v.Computes r m g dest c t = JumpsTo r m a t)
    (h : p.indirect r block site dest = (q, .ok t)) :
    p.CarriesOut r ⟨site, block, .indirect dest, p.func⟩ q t := by
  have hfound : r.found p.func (.indirect dest) = c.accepted r := by
    simp only [Resolver.found, hclass]
  unfold indirect at h
  cases hcons : p.consult r site dest with
  | mk p₁ o =>
    rw [hcons] at h
    cases o with
    | error e => cases h
    | ok res =>
      obtain ⟨c', hc', hsettle⟩ := consult_ok hcons
      rw [hclass] at hc'
      cases hc'
      obtain ⟨hreg', hdisc, hres, htargets⟩ := Resolver.settle_single hreg hc hsettle
      rw [hdest] at hres
      rcases htargets with ⟨hvalid, b, htargets, hat⟩ | ⟨hbad, htargets⟩
      · simp only [hres, htargets] at h
        cases h
        refine carriesOut_of_discovers hreg' hblock ?_ ?_ ?_
        · rw [Visit.found, hfound]
          exact hdisc
        · refine ⟨c, hclass, ?_⟩
          rw [hcomputes, JumpsTo, if_pos hvalid]
          exact ⟨b, hat, rfl⟩
        · intro s hs
          rw [List.mem_singleton.1 hs]
          exact live_of_blockAt hreg' hat
      · simp only [hres, htargets] at h
        cases h
        refine carriesOut_of_discovers hreg' hblock ?_ ?_ ?_
        · rw [Visit.found, hfound]
          exact hdisc
        · refine ⟨c, hclass, ?_⟩
          rw [hcomputes, JumpsTo, if_neg (by simp [hbad])]
        · intro s hs
          cases hs

theorem indirect_open {block : BlockId} {dest : Value} {c : Resolver.Class} {t : Terminator}
    {data : Block} {res : Resolution} {p₁ : Progress σ}
    (hblock : p.func.block? block = some data) (hclass : r.classify p.func dest = .ok c)
    (hcons : p.consult r site dest = (p₁, .ok res))
    (hreg : p₁.blocks.Registered r.isValid p₁.func)
    (hdisc : p.blocks.Discovers p.func (c.accepted r) p₁.blocks p₁.func)
    (hdest : res.dest = none) (htargets : res.targets = [])
    (hcomputes : ∀ m g, Visit.Computes r m g ⟨site, block, .indirect dest, p.func⟩ dest c
      (.indirect dest))
    (h : p.indirect r block site dest = (q, .ok t)) :
    p.CarriesOut r ⟨site, block, .indirect dest, p.func⟩ q t := by
  simp only [indirect, hcons, hdest, htargets] at h
  cases h
  refine carriesOut_of_discovers hreg hblock ?_ ⟨c, hclass, hcomputes _ _⟩ ?_
  · rw [Visit.found, Resolver.found, hclass]
    exact hdisc
  · intro s hs
    cases hs

theorem indirect_one {block : BlockId} {dest : Value} {s : AddressSet} {a : Word} {b : BlockId}
    {reason : Reason} {t : Terminator} {data : Block} {res : Resolution} {p₁ : Progress σ}
    (hblock : p.func.block? block = some data)
    (hclass : r.classify p.func dest = .ok (.candidates s)) (hs : s.toList = [a])
    (hcons : p.consult r site dest = (p₁, .ok res))
    (hreg : p₁.blocks.Registered r.isValid p₁.func)
    (hdisc : p.blocks.Discovers p.func (Resolver.Class.accepted r (.candidates s)) p₁.blocks p₁.func)
    (hdest : res.dest = none) (hvalid : r.isValid a = true)
    (htargets : res.targets = [⟨a, reason, b⟩]) (hat : p₁.blocks.blockAt a = some b)
    (h : p.indirect r block site dest = (q, .ok t)) :
    p.CarriesOut r ⟨site, block, .indirect dest, p.func⟩ q t := by
  simp only [indirect, hcons, hdest, htargets] at h
  cases h
  refine carriesOut_of_discovers hreg hblock ?_ ⟨.candidates s, hclass, ?_⟩ ?_
  · rw [Visit.found, Resolver.found, hclass]
    exact hdisc
  · simp only [Computes, hs, hvalid, if_true]
    exact ⟨b, hat, rfl⟩
  · intro c hc
    rw [List.mem_singleton.1 hc]
    exact live_of_blockAt hreg hat

/-- A destination with two candidates inside the range: the comparison goes to the end of the
visited block. -/
theorem indirect_two {block : BlockId} {dest : Value} {s : AddressSet} {a a' : Word}
    {b b' : BlockId} {reason reason' : Reason} {t : Terminator} {res : Resolution}
    {p₁ : Progress σ} (hclass : r.classify p.func dest = .ok (.candidates s)) (hs : s.toList = [a, a'])
    (hcons : p.consult r site dest = (p₁, .ok res))
    (hreg : p₁.blocks.Registered r.isValid p₁.func)
    (hdisc : p.blocks.Discovers p.func (Resolver.Class.accepted r (.candidates s)) p₁.blocks p₁.func)
    (hdest : res.dest = none) (hvalid : r.isValid a ∧ r.isValid a')
    (htargets : res.targets = [⟨a, reason, b⟩, ⟨a', reason', b'⟩])
    (hat : p₁.blocks.blockAt a = some b) (hat' : p₁.blocks.blockAt a' = some b')
    (h : p.indirect r block site dest = (q, .ok t)) :
    p.CarriesOut r ⟨site, block, .indirect dest, p.func⟩ q t := by
  simp only [indirect, hcons, hdest, htargets] at h
  split at h
  · cases h
  · rename_i g t' hbranch
    cases h
    obtain ⟨cond, ht, happend⟩ := branchOn_ok hbranch
    subst ht
    have hext := Func.ExtendsAt.appendInst happend
    have hreg' : p₁.blocks.Registered r.isValid g := hreg.of_extendsAt hext
    obtain ⟨hcond, harena, _, _, d, hd, hblocks⟩ := Func.appendInst_eq_ok happend
    have hword : p₁.func.wordTy dest = p.func.wordTy dest := by
      rw [Func.wordTy, Func.wordTy, hdisc.grows.typeOf]
    refine ⟨hreg', ⟨p₁.func, ?_, hext⟩, ⟨.candidates s, hclass, ?_⟩, ?_⟩
    · rw [Visit.found, Resolver.found, hclass]
      exact hdisc
    · simp only [Computes, hs, hvalid, and_self, if_true]
      refine ⟨b, b', cond, { d with insts := d.insts ++ [cond] }, hat, hat', rfl, ?_, ?_, ?_⟩
      · rw [hblocks block, if_pos rfl]
      · simp
      · rw [Func.inst?_push harena, hcond, if_pos rfl, hword]
    · intro c hc
      simp only [Terminator.successors, List.mem_cons, List.not_mem_nil, or_false] at hc
      rcases hc with rfl | rfl
      · exact live_of_blockAt (q := { p₁ with func := g }) hreg' hat
      · exact live_of_blockAt (q := { p₁ with func := g }) hreg' hat'

theorem indirect_candidates {block : BlockId} {dest : Value} {s : AddressSet} {t : Terminator}
    {data : Block} (hreg : p.blocks.Registered r.isValid p.func)
    (hblock : p.func.block? block = some data)
    (hclass : r.classify p.func dest = .ok (.candidates s))
    (h : p.indirect r block site dest = (q, .ok t)) :
    p.CarriesOut r ⟨site, block, .indirect dest, p.func⟩ q t := by
  cases hcons : p.consult r site dest with
  | mk p₁ o =>
    cases o with
    | error e =>
      simp only [indirect, hcons] at h
      cases h
    | ok res =>
      obtain ⟨c, hc, hsettle⟩ := consult_ok hcons
      rw [hclass] at hc
      cases hc
      match hs : s.toList with
      | [] =>
        have haddr : Resolver.Class.addresses (.candidates s) = [] := by
          simp only [Resolver.Class.addresses, hs]
        obtain ⟨hreg', hdisc, hdest, htargets⟩ := Resolver.settle_nothing hreg haddr hsettle
        refine indirect_open hblock hclass hcons hreg' hdisc hdest htargets ?_ h
        intro m g
        simp only [Computes, hs]
      | [a] =>
        have haddr : Resolver.Class.addresses (.candidates s) = [(a, .singleCandidate)] := by
          simp only [Resolver.Class.addresses, hs]
        obtain ⟨hreg', hdisc, hdest, hcase⟩ := Resolver.settle_single hreg haddr hsettle
        rcases hcase with ⟨hvalid, b, htargets, hat⟩ | ⟨hbad, htargets⟩
        · exact indirect_one hblock hclass hs hcons hreg' hdisc hdest hvalid htargets hat h
        · refine indirect_open hblock hclass hcons hreg' hdisc hdest htargets ?_ h
          intro m g
          simp only [Computes, hs, hbad, Bool.false_eq_true, if_false]
      | [a, a'] =>
        have haddr : Resolver.Class.addresses (.candidates s) =
            [(a, .trueEdge), (a', .falseEdge)] := by
          simp only [Resolver.Class.addresses, hs]
        obtain ⟨hreg', hdisc, hdest, hcase⟩ := Resolver.settle_pair hreg haddr hsettle
        rcases hcase with ⟨hvalid, b, b', htargets, hat, hat'⟩ | ⟨hbad, htargets⟩
        · exact indirect_two hclass hs hcons hreg' hdisc hdest hvalid htargets hat hat' h
        · refine indirect_open hblock hclass hcons hreg' hdisc hdest htargets ?_ h
          intro m g
          simp only [Computes, hs, hbad, if_false]
      | a :: a' :: a'' :: rest =>
        have haddr : Resolver.Class.addresses (.candidates s) = [] := by
          simp only [Resolver.Class.addresses, hs]
        obtain ⟨hreg', hdisc, hdest, htargets⟩ := Resolver.settle_nothing hreg haddr hsettle
        refine indirect_open hblock hclass hcons hreg' hdisc hdest htargets ?_ h
        intro m g
        simp only [Computes, hs]

theorem indirect_carriesOut {block : BlockId} {dest : Value} {t : Terminator} {data : Block}
    (hreg : p.blocks.Registered r.isValid p.func) (hblock : p.func.block? block = some data)
    (h : p.indirect r block site dest = (q, .ok t)) :
    p.CarriesOut r ⟨site, block, .indirect dest, p.func⟩ q t := by
  cases hclass : r.classify p.func dest with
  | error e =>
    simp only [indirect, consult, Resolver.resolve, hclass] at h
    cases h
  | ok c =>
    cases c with
    | literal a => exact indirect_solved hreg hblock hclass rfl rfl (fun _ _ _ => rfl) h
    | solved a => exact indirect_solved hreg hblock hclass rfl rfl (fun _ _ _ => rfl) h
    | candidates s => exact indirect_candidates hreg hblock hclass h

/-! ### All exits -/

theorem materialize_history (r : Resolver) (p : Progress σ) (block : BlockId) (site : Word)
    (exit : BlockExit) (hreg : p.blocks.Registered r.isValid p.func) :
    p.SameHistory (p.materialize r block site exit).1 := by
  cases exit with
  | ret v => exact ⟨rfl, rfl, rfl⟩
  | jump target =>
    cases hd : p.direct r site target with
    | mk p₁ o =>
      simp only [materialize, hd]
      cases o with
      | some b => exact (direct_some hreg hd).2.2.2.2
      | none => exact (direct_none hd).2.2.2
  | branch cond taken fallthrough =>
    cases h₁ : p.arm r site taken with
    | mk p₁ x =>
      cases h₂ : p₁.arm r site fallthrough with
      | mk p₂ y =>
        obtain ⟨hreg₁, _, _, _, hsame₁⟩ := arm_spec hreg h₁
        obtain ⟨_, _, _, _, hsame₂⟩ := arm_spec hreg₁ h₂
        simp only [materialize, h₁, h₂]
        exact hsame₁.trans hsame₂
  | indirect dest => exact indirect_history r p block site dest

theorem materialize_carriesOut {block : BlockId} {exit : BlockExit} {t : Terminator} {data : Block}
    (hreg : p.blocks.Registered r.isValid p.func) (hblock : p.func.block? block = some data)
    (h : p.materialize r block site exit = (q, .ok t)) :
    p.CarriesOut r ⟨site, block, exit, p.func⟩ q t := by
  cases exit with
  | ret v =>
    cases h
    refine carriesOut_of_discovers hreg hblock (.refl _ _) rfl ?_
    intro s hs
    cases hs
  | jump target =>
    cases hd : p.direct r site target with
    | mk p₁ o =>
      simp only [materialize, hd] at h
      cases o with
      | some b =>
        cases h
        obtain ⟨hvalid, hreg', hdisc, hat, _⟩ := direct_some hreg hd
        refine carriesOut_of_discovers hreg' hblock ?_ ?_ ?_
        · simpa [Visit.found, Resolver.found, hvalid] using hdisc
        · simp only [Prescribes, JumpsTo, hvalid, if_true]
          exact ⟨b, hat, rfl⟩
        · intro s hs
          rw [List.mem_singleton.1 hs]
          exact live_of_blockAt hreg' hat
      | none =>
        cases h
        obtain ⟨hbad, hblocks, hfunc, _⟩ := direct_none hd
        rw [← hblocks, ← hfunc] at hreg
        refine carriesOut_of_discovers hreg hblock ?_ ?_ ?_
        · rw [hblocks, hfunc]
          simpa [Visit.found, Resolver.found, hbad] using Discovers.refl p.blocks p.func
        · simp only [Prescribes, JumpsTo, hbad, Bool.false_eq_true, if_false]
        · intro s hs
          cases hs
  | branch cond taken fallthrough =>
    cases h₁ : p.arm r site taken with
    | mk p₁ x =>
      cases h₂ : p₁.arm r site fallthrough with
      | mk p₂ y =>
        simp only [materialize, h₁, h₂] at h
        cases h
        obtain ⟨hreg₁, hdisc₁, harm₁, hlive₁, _⟩ := arm_spec hreg h₁
        obtain ⟨hreg₂, hdisc₂, harm₂, hlive₂, _⟩ := arm_spec hreg₁ h₂
        obtain ⟨dx, hdx⟩ := Func.containsBlock_iff.1 hlive₁
        refine carriesOut_of_discovers hreg₂ hblock (hdisc₁.trans hdisc₂) ?_ ?_
        · refine ⟨x, y, rfl, harm₁.mono hdisc₂ (Nat.le_refl _), ?_, ?_⟩
          · exact harm₂.mono (.refl _ _) hdisc₁.grows.size_le
          · intro _ hbad heq
            rw [ArmTo, if_neg hbad] at harm₂
            have hlt := Func.index_lt_of_block? hdx
            rw [heq] at hlt
            omega
        · intro s hs
          simp only [Terminator.successors, List.mem_cons, List.not_mem_nil, or_false] at hs
          rcases hs with rfl | rfl
          · exact Func.containsBlock_iff.2 ⟨dx, hdisc₂.grows.block? hdx⟩
          · exact hlive₂
  | indirect dest => exact indirect_carriesOut hreg hblock h

end Progress

end BinaryLift
