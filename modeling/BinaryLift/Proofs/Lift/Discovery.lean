import BinaryLift.Proofs.Lift.Exits

/-!
# Discovery

The search for blocks as a sequence of visits. `Explored` holds of every state of the search: the
known addresses are those found so far in order of discovery, the visited ones first and the pending
ones after them, and each visited block ends as its exit prescribes. One visit keeps it, hence a
whole run does.
-/

namespace BinaryLift

/-- Append instructions one after another. -/
def Func.appendInsts (f : Func) (b : BlockId) (insts : List Inst) : Checked Func :=
  insts.foldlM (fun g i => return (← g.appendInst b i).1) f

/-- The lifter only appends instructions to the block it is given. -/
def BlockLifter.Appends {σ : Type} (lifter : BlockLifter σ) : Prop :=
  ∀ s f b a s' f' exit, lifter.lift s f b a = (s', .ok (f', exit)) →
    ∃ insts, f.appendInsts b insts = .ok f'

theorem Func.appendInsts_extends {f g : Func} {b : BlockId} {data : Block} (insts : List Inst)
    (hb : f.block? b = some data) (h : f.appendInsts b insts = .ok g) : f.ExtendsAt b g := by
  induction insts generalizing f data with
  | nil =>
    cases h
    exact .refl hb
  | cons i rest ih =>
    simp only [appendInsts, List.foldlM_cons] at h
    cases ha : f.appendInst b i with
    | error e =>
      rw [ha] at h
      cases h
    | ok pair =>
      rw [ha] at h
      have hext := ExtendsAt.appendInst ha
      obtain ⟨_, _, _, hb'⟩ := hext.here
      exact hext.trans (ih hb' h)

namespace Visit

theorem JumpsTo.mono {r : Resolver} {m m' : BlockMap} {a : Word} {t : Terminator}
    (h : JumpsTo r m a t) (hkeeps : ∀ a b, m.blockAt a = some b → m'.blockAt a = some b) :
    JumpsTo r m' a t := by
  unfold JumpsTo at h ⊢
  split
  · rename_i hvalid
    rw [if_pos hvalid] at h
    obtain ⟨b, hb, ht⟩ := h
    exact ⟨b, hkeeps a b hb, ht⟩
  · rename_i hbad
    rw [if_neg hbad] at h
    exact h

/-- What later changes may not touch for a prescription to stay fulfilled. -/
structure Keeps (v : Visit) (m : BlockMap) (g : Func) (m' : BlockMap) (g' : Func) : Prop where
  blockAt : ∀ a b, m.blockAt a = some b → m'.blockAt a = some b
  empty : ∀ b, g.block? b = some {} → g'.block? b = some {}
  body : ∀ data, g.block? v.block = some data →
    ∃ data', g'.block? v.block = some data' ∧ data'.insts = data.insts
  insts : ∀ id i, g.inst? id = some i → g'.inst? id = some i

theorem ArmTo.keep {r : Resolver} {v : Visit} {m m' : BlockMap} {f g g' : Func} {a : Word}
    {b : BlockId} (h : ArmTo r m f g a b) (hkeep : v.Keeps m g m' g') : ArmTo r m' f g' a b := by
  unfold ArmTo at h ⊢
  split
  · rename_i hvalid
    rw [if_pos hvalid] at h
    exact hkeep.blockAt a b h
  · rename_i hbad
    rw [if_neg hbad] at h
    exact ⟨h.1, hkeep.empty b h.2⟩

theorem BranchesOn.keep {v : Visit} {m m' : BlockMap} {g g' : Func} {dest : Value}
    {first second : Word} {t : Terminator} (h : BranchesOn m g v dest first second t)
    (hkeep : v.Keeps m g m' g') : BranchesOn m' g' v dest first second t := by
  obtain ⟨x, y, cond, data, hx, hy, ht, hdata, hlast, hcond⟩ := h
  obtain ⟨data', hdata', hinsts⟩ := hkeep.body data hdata
  exact ⟨x, y, cond, data', hkeep.blockAt _ _ hx, hkeep.blockAt _ _ hy, ht, hdata',
    by rw [hinsts, hlast], hkeep.insts cond _ hcond⟩

theorem Computes.keep {r : Resolver} {v : Visit} {m m' : BlockMap} {g g' : Func} {dest : Value}
    {c : Resolver.Class} {t : Terminator} (h : Computes r m g v dest c t)
    (hkeep : v.Keeps m g m' g') : Computes r m' g' v dest c t := by
  cases c with
  | literal a => exact JumpsTo.mono h hkeep.blockAt
  | solved a => exact JumpsTo.mono h hkeep.blockAt
  | candidates s =>
    simp only [Computes] at h ⊢
    split at h
    · rename_i a ha
      split
      · rename_i hvalid
        rw [if_pos hvalid] at h
        obtain ⟨b, hb, ht⟩ := h
        exact ⟨b, hkeep.blockAt a b hb, ht⟩
      · rename_i hbad
        rw [if_neg hbad] at h
        exact h
    · rename_i a a' ha
      split
      · rename_i hvalid
        rw [if_pos hvalid] at h
        exact h.keep hkeep
      · rename_i hbad
        rw [if_neg hbad] at h
        exact h
    · exact h

theorem Prescribes.keep {r : Resolver} {v : Visit} {m m' : BlockMap} {g g' : Func} {t : Terminator}
    (h : v.Prescribes r m g t) (hkeep : v.Keeps m g m' g') : v.Prescribes r m' g' t := by
  unfold Prescribes at h ⊢
  split
  · rename_i value hexit
    rw [hexit] at h
    exact h
  · rename_i target hexit
    rw [hexit] at h
    exact JumpsTo.mono h hkeep.blockAt
  · rename_i cond taken fallthrough hexit
    rw [hexit] at h
    obtain ⟨x, y, ht, hx, hy, hne⟩ := h
    exact ⟨x, y, ht, hx.keep hkeep, hy.keep hkeep, hne⟩
  · rename_i dest hexit
    rw [hexit] at h
    obtain ⟨c, hc, hcomp⟩ := h
    exact ⟨c, hc, hcomp.keep hkeep⟩

end Visit

namespace Progress

open BlockMap

variable {σ : Type}

/-- The address that has waited longest is lifted into its block, without an error. -/
def Visits (lifter : BlockLifter σ) (r : Resolver) (p : Progress σ) (v : Visit) (q : Progress σ) :
    Prop :=
  ∃ m s, p.blocks.next = (m, some (v.address, v.block)) ∧
    lifter.lift p.lifter p.func v.block v.address = (s, .ok (v.filled, v.exit)) ∧
    liftBlock lifter r { p with blocks := m } v.block v.address = (q, .ok ())

/-- Visits one after another. -/
inductive Runs (lifter : BlockLifter σ) (r : Resolver) :
    Progress σ → List Visit → Progress σ → Prop
  | nil (p : Progress σ) : Runs lifter r p [] p
  | cons {p q s : Progress σ} {v : Visit} {vs : List Visit} :
    Visits lifter r p v q → Runs lifter r q vs s → Runs lifter r p (v :: vs) s

/-- What holds after the visits `vs` of a search that started at `entry`. -/
structure Explored (r : Resolver) (entry : Word) (vs : List Visit) (q : Progress σ) : Prop where
  registered : q.blocks.Registered r.isValid q.func
  known : q.blocks.known = fresh [] (entry :: vs.flatMap (·.found r))
  queue : q.blocks.known = vs.map (·.address) ++ q.blocks.pending.map (·.1)
  visited : ∀ v ∈ vs, q.blocks.blockAt v.address = some v.block
  asked : q.trace.asked = vs.map (·.address)
  lifted : q.report.blocksLifted = vs.length
  terms : ∀ v ∈ vs, ∃ data, q.func.block? v.block = some data ∧
    v.Prescribes r q.blocks q.func data.term
  live : ∀ b data, q.func.block? b = some data →
    ∀ s ∈ data.term.successors, q.func.containsBlock s = true

theorem next_eq_some {m m' : BlockMap} {e : Word × BlockId} (h : m.next = (m', some e)) :
    m.pending = e :: m'.pending ∧ m' = { m with pending := m'.pending } := by
  unfold BlockMap.next at h
  cases hp : m.pending with
  | nil =>
    rw [hp] at h
    cases h
  | cons x rest =>
    rw [hp] at h
    cases h
    exact ⟨rfl, rfl⟩

theorem next_eq_none {m m' : BlockMap} (h : m.next = (m', none)) : m.pending = [] := by
  unfold BlockMap.next at h
  cases hp : m.pending with
  | nil => rfl
  | cons x rest =>
    rw [hp] at h
    cases h

theorem known_of_next {m m' : BlockMap} {e : Word × BlockId} (h : m.next = (m', some e)) :
    m'.known = m.known := by
  rw [(next_eq_some h).2]

theorem blockAt_of_next {m m' : BlockMap} {e : Word × BlockId} (h : m.next = (m', some e))
    (a : Word) : m'.blockAt a = m.blockAt a := by
  rw [(next_eq_some h).2]
  rfl

theorem registered_of_next {valid : Word → Bool} {m m' : BlockMap} {f : Func} {a : Word}
    {b : BlockId} (hreg : m.Registered valid f) (h : m.next = (m', some (a, b))) :
    m'.Registered valid f ∧ m.blockAt a = some b := by
  obtain ⟨hpending, hm⟩ := next_eq_some h
  refine ⟨⟨?_, ?_, ?_, ?_, ?_⟩, ?_⟩
  · rw [known_of_next h]
    exact hreg.nodup
  · intro c
    rw [known_of_next h, ← hreg.scheduled c, hm]
  · rw [known_of_next h]
    exact hreg.valid
  · intro c d hcd
    rw [blockAt_of_next h] at hcd
    exact hreg.carries c d hcd
  · intro e he
    rw [blockAt_of_next h]
    refine hreg.waiting e ?_
    rw [hpending]
    exact List.mem_cons_of_mem _ he
  · refine hreg.waiting (a, b) ?_
    rw [hpending]
    exact List.mem_cons_self

theorem liftBlock_eq_ok {lifter : BlockLifter σ} {r : Resolver} {p q : Progress σ} {b : BlockId}
    {a : Word} {s : σ} {f : Func} {exit : BlockExit}
    (hlift : lifter.lift p.lifter p.func b a = (s, .ok (f, exit)))
    (h : liftBlock lifter r p b a = (q, .ok ())) :
    ∃ (p₁ p₂ : Progress σ) (t : Terminator) (g : Func), p₁.func = f ∧ p₁.blocks = p.blocks ∧
      p₁.report = { p.report with blocksLifted := p.report.blocksLifted + 1 } ∧
      p₁.trace = { p.trace with asked := p.trace.asked ++ [a] } ∧
      p₁.materialize r b a exit = (p₂, .ok t) ∧ p₂.func.setTerm b t = .ok g ∧
      q = { p₂ with func := g } := by
  simp only [liftBlock, hlift, finishBlock] at h
  split at h
  · cases h
  · rename_i p₂ t hmat
    split at h
    · cases h
    · rename_i g hset
      cases h
      refine ⟨_, p₂, t, g, ?_, ?_, ?_, ?_, hmat, hset, rfl⟩
      all_goals rfl

theorem setTerm_block? {f g : Func} {b : BlockId} {t : Terminator} (h : f.setTerm b t = .ok g)
    (c : BlockId) :
    g.block? c = if c = b then (f.block? b).map ({ · with term := t }) else f.block? c :=
  Func.block?_of_modifyBlock h c

theorem setTerm_inst? {f g : Func} {b : BlockId} {t : Terminator} (h : f.setTerm b t = .ok g)
    (id : InstId) : g.inst? id = f.inst? id := by
  obtain ⟨_, _, rfl⟩ := Func.modifyBlock_eq_ok.1 h
  rfl

theorem setTerm_keeps {f g : Func} {b c : BlockId} {t : Terminator} {data : Block}
    (h : f.setTerm b t = .ok g) (hc : f.block? c = some data) :
    ∃ data', g.block? c = some data' ∧ data'.insts = data.insts ∧ data'.address = data.address := by
  rw [setTerm_block? h]
  split
  · rename_i hcb
    subst hcb
    rw [hc]
    exact ⟨_, rfl, rfl, rfl⟩
  · exact ⟨data, hc, rfl, rfl⟩

/-- What is the same after a visit apart from the visited block. -/
structure Moves (r : Resolver) (p : Progress σ) (v : Visit) (t : Terminator) (q : Progress σ) :
    Prop where
  at_block : p.blocks.blockAt v.address = some v.block
  pending : ∃ rest, p.blocks.pending = (v.address, v.block) :: rest ∧
    q.blocks.pending.map (·.1) = rest.map (·.1) ++ fresh p.blocks.known (v.found r)
  known : q.blocks.known = p.blocks.known ++ fresh p.blocks.known (v.found r)
  blockAt : ∀ a b, p.blocks.blockAt a = some b → q.blocks.blockAt a = some b
  registered : q.blocks.Registered r.isValid q.func
  asked : q.trace.asked = p.trace.asked ++ [v.address]
  lifted : q.report.blocksLifted = p.report.blocksLifted + 1
  extends_at : ∃ g, p.func.ExtendsAt v.block g ∧ g.setTerm v.block t = .ok q.func
  prescribes : v.Prescribes r q.blocks q.func t
  live : ∀ s ∈ t.successors, q.func.containsBlock s = true

theorem Visits.moves {lifter : BlockLifter σ} (happ : lifter.Appends) {r : Resolver}
    {p q : Progress σ} {v : Visit} (hreg : p.blocks.Registered r.isValid p.func)
    (h : Visits lifter r p v q) : ∃ t, Moves r p v t q := by
  obtain ⟨m, s, hnext, hlift, hblock⟩ := h
  obtain ⟨hpending, hm⟩ := next_eq_some hnext
  have hknown : m.known = p.blocks.known := known_of_next hnext
  have hblockAt := blockAt_of_next hnext
  obtain ⟨hregm, hat⟩ := registered_of_next hreg hnext
  obtain ⟨p₁, p₂, t, g, hfunc, hblocks, hreport, htrace, hmat, hset, rfl⟩ :=
    liftBlock_eq_ok (p := { p with blocks := m }) hlift hblock
  obtain ⟨insts, hinsts⟩ := happ _ _ _ _ _ _ _ hlift
  obtain ⟨data, hdata, haddr⟩ := hreg.carries _ _ hat
  have hfill := Func.appendInsts_extends insts hdata hinsts
  have hreg₁ : p₁.blocks.Registered r.isValid p₁.func := by
    rw [hfunc, hblocks]
    exact hregm.of_extendsAt hfill
  obtain ⟨data₁, hdata₁, _⟩ := hfill.term hdata
  rw [← hfunc] at hdata₁
  have hout := materialize_carriesOut hreg₁ hdata₁ hmat
  have hsame := materialize_history r p₁ v.block v.address v.exit hreg₁
  rw [hmat] at hsame
  rw [hfunc] at hout
  obtain ⟨g', hdisc, hext⟩ := hout.discovers
  rw [hblocks] at hdisc
  obtain ⟨_, more, _, hfilled⟩ := hfill.here
  have hfull : p.func.ExtendsAt v.block p₂.func := by
    rw [hfunc] at hdisc
    exact (hfill.trans (.of_grows hdisc.grows hfilled)).trans hext
  have hkeepTerm : ∀ b d, p₂.func.block? b = some d →
      ∃ d', g.block? b = some d' ∧ d'.insts = d.insts ∧ d'.address = d.address :=
    fun b d hd => setTerm_keeps hset hd
  refine ⟨t, hat, ⟨m.pending, hpending, ?_⟩, ?_, ?_, ?_, ?_, ?_, ⟨p₂.func, hfull, hset⟩, ?_, ?_⟩
  · rw [← hknown]
    exact hdisc.queue
  · rw [← hknown]
    exact hdisc.known
  · intro a b hab
    exact hdisc.keeps a b (by rw [hblockAt]; exact hab)
  · refine hout.registered.of_keeps fun b d hd => ?_
    obtain ⟨d', hd', _, haddr'⟩ := hkeepTerm b d hd
    exact ⟨d', hd', haddr'⟩
  · exact hsame.asked.trans (congrArg LiftTrace.asked htrace)
  · exact hsame.lifted.trans (congrArg LiftReport.blocksLifted hreport)
  · refine hout.prescribes.keep ⟨fun _ _ hab => hab, ?_, ?_, ?_⟩
    · intro b hb
      rw [setTerm_block? hset, if_neg, hb]
      -- the visited block carries an address, an empty block does not
      rintro rfl
      obtain ⟨d, hd, _, haddr'⟩ := hfull.term hdata
      rw [hb] at hd
      cases hd
      rw [haddr] at haddr'
      cases haddr'
    · intro d hd
      obtain ⟨d', hd', hinsts', _⟩ := hkeepTerm _ d hd
      exact ⟨d', hd', hinsts'⟩
    · intro id i hi
      rw [setTerm_inst? hset]
      exact hi
  · intro b hb
    obtain ⟨d, hd⟩ := Func.containsBlock_iff.1 (hout.live b hb)
    obtain ⟨d', hd', _⟩ := hkeepTerm b d hd
    exact Func.containsBlock_iff.2 ⟨d', hd'⟩

theorem Moves.contains {r : Resolver} {p q : Progress σ} {v : Visit} {t : Terminator}
    (h : Moves r p v t q) {b : BlockId} (hb : p.func.containsBlock b = true) :
    q.func.containsBlock b = true := by
  obtain ⟨g, hext, hset⟩ := h.extends_at
  obtain ⟨d, hd⟩ := Func.containsBlock_iff.1 hb
  obtain ⟨d₁, hd₁, _⟩ := hext.term hd
  obtain ⟨d₂, hd₂, _⟩ := setTerm_keeps hset hd₁
  exact Func.containsBlock_iff.2 ⟨d₂, hd₂⟩

/-- The visited block gets the terminator, other blocks keep theirs, new ones have none. -/
theorem Moves.term_cases {r : Resolver} {p q : Progress σ} {v : Visit} {t : Terminator}
    (h : Moves r p v t q) {b : BlockId} {data : Block} (hb : q.func.block? b = some data) :
    (b = v.block ∧ data.term = t) ∨ (b ≠ v.block ∧ p.func.block? b = some data) ∨
      data.term = .unreachable := by
  obtain ⟨g, hext, hset⟩ := h.extends_at
  rw [setTerm_block? hset] at hb
  split at hb
  · rename_i hbv
    obtain ⟨d, _, rfl⟩ := Option.map_eq_some_iff.1 hb
    exact .inl ⟨hbv, rfl⟩
  · rename_i hbv
    by_cases hold : b.index < p.func.blocks.size
    · rw [hext.other b hbv hold] at hb
      exact .inr (.inl ⟨hbv, hb⟩)
    · obtain ⟨a, ha⟩ := hext.new b (Nat.le_of_not_lt hold) (Func.index_lt_of_block? hb)
      rw [ha] at hb
      cases hb
      exact .inr (.inr rfl)

theorem Moves.other {r : Resolver} {p q : Progress σ} {v : Visit} {t : Terminator}
    (h : Moves r p v t q) {b : BlockId} {data : Block} (hbv : b ≠ v.block)
    (hb : p.func.block? b = some data) : q.func.block? b = some data := by
  obtain ⟨g, hext, hset⟩ := h.extends_at
  rw [setTerm_block? hset, if_neg hbv, hext.other b hbv (Func.index_lt_of_block? hb), hb]

theorem Moves.keeps {r : Resolver} {p q : Progress σ} {v w : Visit} {t : Terminator}
    (h : Moves r p v t q) (hreg : p.blocks.Registered r.isValid p.func)
    (hwv : w.block ≠ v.block) : w.Keeps p.blocks p.func q.blocks q.func where
  blockAt := h.blockAt
  empty := by
    intro b hb
    refine h.other ?_ hb
    rintro rfl
    obtain ⟨data, hdata, haddr⟩ := hreg.carries _ _ h.at_block
    rw [hb] at hdata
    cases hdata
    cases haddr
  body := fun data hd => ⟨data, h.other hwv hd, rfl⟩
  insts := by
    intro id i hi
    obtain ⟨g, hext, hset⟩ := h.extends_at
    rw [setTerm_inst? hset]
    exact hext.insts id i hi

theorem Moves.prescribed {r : Resolver} {p q : Progress σ} {v : Visit} {t : Terminator}
    (h : Moves r p v t q) :
    ∃ data, q.func.block? v.block = some data ∧ v.Prescribes r q.blocks q.func data.term := by
  obtain ⟨g, hext, hset⟩ := h.extends_at
  obtain ⟨data, more, _, hg⟩ := hext.here
  refine ⟨{ data with insts := data.insts ++ more, term := t }, ?_, h.prescribes⟩
  rw [setTerm_block? hset, if_pos rfl, hg]
  rfl

theorem Explored.step {lifter : BlockLifter σ} (happ : lifter.Appends) {r : Resolver}
    {entry : Word} {vs : List Visit} {p q : Progress σ} {v : Visit}
    (h : Explored r entry vs p) (hv : Visits lifter r p v q) :
    Explored r entry (vs ++ [v]) q := by
  obtain ⟨t, hmove⟩ := hv.moves happ h.registered
  obtain ⟨rest, hrest, hpending⟩ := hmove.pending
  have hqueue : p.blocks.known = vs.map (·.address) ++ v.address :: rest.map (·.1) := by
    rw [h.queue, hrest]
    rfl
  have hapart : ∀ w ∈ vs, w.block ≠ v.block := by
    intro w hw heq
    have hat := h.visited w hw
    rw [heq] at hat
    have haddr := h.registered.injective hat hmove.at_block
    have hnodup := h.registered.nodup
    rw [hqueue] at hnodup
    have hmem : w.address ∈ vs.map (·.address) := List.mem_map_of_mem hw
    exact (List.nodup_append.1 hnodup).2.2 _ hmem _ List.mem_cons_self haddr
  refine ⟨hmove.registered, ?_, ?_, ?_, ?_, ?_, ?_, ?_⟩
  · rw [hmove.known, h.known, List.flatMap_append, ← List.cons_append, fresh_append]
    simp
  · rw [hmove.known, hpending, hqueue]
    simp
  · intro w hw
    rcases List.mem_append.1 hw with hw | hw
    · exact hmove.blockAt _ _ (h.visited w hw)
    · rw [List.mem_singleton.1 hw]
      exact hmove.blockAt _ _ hmove.at_block
  · rw [hmove.asked, h.asked]
    simp
  · rw [hmove.lifted, h.lifted]
    simp
  · intro w hw
    rcases List.mem_append.1 hw with hw | hw
    · obtain ⟨data, hdata, hpre⟩ := h.terms w hw
      exact ⟨data, hmove.other (hapart w hw) hdata, hpre.keep (hmove.keeps h.registered (hapart w hw))⟩
    · rw [List.mem_singleton.1 hw]
      exact hmove.prescribed
  · intro b data hb s hs
    rcases hmove.term_cases hb with ⟨_, ht⟩ | ⟨_, hold⟩ | hnone
    · rw [ht] at hs
      exact hmove.live s hs
    · exact hmove.contains (h.live b data hold s hs)
    · rw [hnone] at hs
      cases hs

theorem Explored.run {lifter : BlockLifter σ} (happ : lifter.Appends) {r : Resolver}
    {entry : Word} {vs ws : List Visit} {p q : Progress σ} (h : Explored r entry vs p)
    (hrun : Runs lifter r p ws q) : Explored r entry (vs ++ ws) q := by
  induction hrun generalizing vs with
  | nil p =>
    rw [List.append_nil]
    exact h
  | cons hv hrest ih =>
    rw [List.append_cons]
    exact ih (h.step happ hv)

theorem Explored.start (r : Resolver) {entry : Word} (hvalid : r.isValid entry = true) (s : σ)
    (sig : Signature) (name : String) : Explored r entry [] (start s sig name entry) where
  registered := by
    have hempty : Registered r.isValid {} { name := name, params := sig.params, ret := sig.ret } := by
      refine ⟨by simp [Table.keys], by simp [Table.keys], ?_, ?_, ?_⟩
      all_goals simp [Table.keys, BlockMap.blockAt, Table.get?]
    exact (schedule_spec hempty hvalid (rfl : ({} : BlockMap).schedule _ entry .entry = _)).1
  known := rfl
  queue := rfl
  visited := by simp
  asked := rfl
  lifted := rfl
  terms := by simp
  live := by
    intro b data hb c hc
    have hblock := Func.block?_addBlock { name := name, params := sig.params, ret := sig.ret }
      (some entry) b
    rw [show (Progress.start s sig name entry).func =
      (Func.addBlock { name := name, params := sig.params, ret := sig.ret } (some entry)).1 from rfl,
      hblock] at hb
    split at hb
    · cases hb
      cases hc
    · cases hb

end Progress

end BinaryLift
