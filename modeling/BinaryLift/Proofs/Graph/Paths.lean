import BinaryLift.Proofs.Program.Arenas

/-!
# Paths and dominance

Dominance is a statement about all ways from the entry. On reachable blocks it is a partial order.
-/

namespace BinaryLift.Func

/-- Control can pass from `a` to `b`. -/
def Edge (f : Func) (a b : BlockId) : Prop :=
  ∃ data, f.block? a = some data ∧ b ∈ data.term.successors ∧ f.containsBlock b = true

/-- The blocks on a way from the entry to `b`, the last one first. -/
inductive Path (f : Func) : List BlockId → BlockId → Prop
  | entry {e : BlockId} : f.entry = some e → f.containsBlock e = true → Path f [e] e
  | step {p : List BlockId} {a b : BlockId} : Path f p a → f.Edge a b → Path f (b :: p) b

def Reachable (f : Func) (b : BlockId) : Prop := ∃ p, f.Path p b

/-- Every way from the entry to `b` passes `a`. -/
def Dominates (f : Func) (a b : BlockId) : Prop := ∀ p, f.Path p b → a ∈ p

def StrictlyDominates (f : Func) (a b : BlockId) : Prop := a ≠ b ∧ f.Dominates a b

variable {f : Func} {a b c d e : BlockId} {p : List BlockId}

theorem Path.last_mem (h : f.Path p b) : b ∈ p := by
  cases h with
  | entry _ _ => exact List.mem_singleton_self _
  | step _ _ => exact List.mem_cons_self

theorem Path.entry_mem (h : f.Path p b) (he : f.entry = some e) : e ∈ p := by
  induction h with
  | entry he' _ =>
    rw [he] at he'
    cases he'
    exact List.mem_singleton_self _
  | step _ _ ih => exact List.mem_cons_of_mem _ ih

theorem Path.entry_ne_none (h : f.Path p b) : f.entry ≠ none := by
  induction h with
  | entry he _ =>
    rw [he]
    exact Option.some_ne_none _
  | step _ _ ih => exact ih

theorem Edge.live_left (h : f.Edge a b) : f.containsBlock a = true := by
  obtain ⟨data, hdata, _⟩ := h
  exact containsBlock_iff.2 ⟨data, hdata⟩

theorem Edge.live_right (h : f.Edge a b) : f.containsBlock b = true := by
  obtain ⟨_, _, _, hlive⟩ := h
  exact hlive

theorem Path.live (h : f.Path p b) : f.containsBlock b = true := by
  cases h with
  | entry _ hlive => exact hlive
  | step _ hedge => exact hedge.live_right

theorem Reachable.live (h : f.Reachable b) : f.containsBlock b = true := by
  obtain ⟨p, hp⟩ := h
  exact hp.live

theorem Reachable.step (h : f.Reachable a) (hedge : f.Edge a b) : f.Reachable b := by
  obtain ⟨p, hp⟩ := h
  exact ⟨b :: p, hp.step hedge⟩

theorem Reachable.entry (he : f.entry = some e) (hlive : f.containsBlock e = true) :
    f.Reachable e :=
  ⟨[e], .entry he hlive⟩

theorem Path.upTo (h : f.Path p b) (ha : a ∈ p) :
    ∃ q, f.Path q a ∧ q <:+ p ∧ (a ≠ b → q.length < p.length) := by
  induction h with
  | entry he hlive =>
    rw [List.mem_singleton] at ha
    subst ha
    exact ⟨_, .entry he hlive, List.suffix_refl _, fun hne => absurd rfl hne⟩
  | @step p c b hp hedge ih =>
    by_cases hab : a = b
    · subst hab
      exact ⟨_, hp.step hedge, List.suffix_refl _, fun hne => absurd rfl hne⟩
    · obtain ⟨q, hq, hsuffix, _⟩ := ih ((List.mem_cons.1 ha).resolve_left hab)
      refine ⟨q, hq, hsuffix.trans (List.suffix_cons _ _), fun _ => ?_⟩
      have hle := hsuffix.length_le
      rw [List.length_cons]
      omega

theorem Path.reachable (h : f.Path p b) (ha : a ∈ p) : f.Reachable a := by
  obtain ⟨q, hq, _⟩ := h.upTo ha
  exact ⟨q, hq⟩

theorem Dominates.refl (f : Func) (b : BlockId) : f.Dominates b b := fun _ hp => hp.last_mem

theorem Dominates.reachable (h : f.Dominates a b) (hb : f.Reachable b) : f.Reachable a := by
  obtain ⟨p, hp⟩ := hb
  exact hp.reachable (h p hp)

theorem Dominates.trans (hab : f.Dominates a b) (hbc : f.Dominates b c) : f.Dominates a c := by
  intro p hp
  obtain ⟨q, hq, hsuffix, _⟩ := hp.upTo (hbc p hp)
  exact hsuffix.subset (hab q hq)

theorem dominates_entry (he : f.entry = some e) (b : BlockId) : f.Dominates e b :=
  fun _ hp => hp.entry_mem he

/-- Two blocks that dominate each other would give shorter and shorter ways. -/
theorem Dominates.antisymm (hb : f.Reachable b) (hab : f.Dominates a b) (hba : f.Dominates b a) :
    a = b := by
  by_contra hne
  obtain ⟨p, hp⟩ := hb
  induction hn : p.length using Nat.strongRecOn generalizing p with
  | ind n ih =>
    obtain ⟨q, hq, _, hlt⟩ := hp.upTo (hab p hp)
    obtain ⟨r, hr, hsuffix, _⟩ := hq.upTo (hba q hq)
    have hle := hsuffix.length_le
    have hlt' := hlt hne
    exact ih r.length (by omega) r hr rfl

theorem StrictlyDominates.trans_dominates (hc : f.Reachable c) (hab : f.StrictlyDominates a b)
    (hbc : f.Dominates b c) : f.StrictlyDominates a c := by
  refine ⟨?_, hab.2.trans hbc⟩
  rintro rfl
  exact hab.1 (Dominates.antisymm (hbc.reachable hc) hab.2 hbc)

theorem Dominates.trans_strictly (hc : f.Reachable c) (hab : f.Dominates a b)
    (hbc : f.StrictlyDominates b c) : f.StrictlyDominates a c := by
  refine ⟨?_, hab.trans hbc.2⟩
  rintro rfl
  exact hbc.1 (Dominates.antisymm hc hbc.2 hab)

theorem StrictlyDominates.of_edge (h : f.StrictlyDominates a b) (hedge : f.Edge c b) :
    f.Dominates a c := by
  intro p hp
  rcases List.mem_cons.1 (h.2 (b :: p) (hp.step hedge)) with heq | hmem
  · exact absurd heq h.1
  · exact hmem

/-- Every way to a block with one predecessor passes it. -/
theorem strictly_of_sole (hne : a ≠ b) (hentry : f.entry ≠ some b) (hsole : ∀ c, f.Edge c b → c = a) :
    f.StrictlyDominates a b := by
  refine ⟨hne, fun p hp => ?_⟩
  cases hp with
  | entry he _ => exact absurd he hentry
  | step hp hedge =>
    rw [← hsole _ hedge]
    exact List.mem_cons_of_mem _ hp.last_mem

/-- A block that can be reached can be reached without passing it before. -/
theorem Reachable.first_edge (hb : f.Reachable b) (hentry : f.entry ≠ some b) :
    ∃ q p, f.Path p q ∧ b ∉ p ∧ f.Edge q b := by
  obtain ⟨p, hp⟩ := hb
  induction hn : p.length using Nat.strongRecOn generalizing p with
  | ind n ih =>
    cases hp with
    | entry he _ => exact absurd he hentry
    | @step p q b hq hedge =>
      by_cases hmem : b ∈ p
      · obtain ⟨r, hr, hsuffix, _⟩ := hq.upTo hmem
        have hle := hsuffix.length_le
        rw [List.length_cons] at hn
        exact ih r.length (by omega) r hr rfl
      · exact ⟨q, p, hq, hmem, hedge⟩

/-! ### Fewer ways -/

variable {g : Func}

/-- The graph of `g` has no more blocks and edges than that of `f`. -/
structure Subgraph (f g : Func) : Prop where
  entry : g.entry = f.entry
  live : ∀ b, g.containsBlock b = true → f.containsBlock b = true
  edge : ∀ a b, g.Edge a b → f.Edge a b

namespace Subgraph

theorem path (h : f.Subgraph g) (hp : g.Path p b) : f.Path p b := by
  induction hp with
  | entry he hlive => exact .entry (h.entry ▸ he) (h.live _ hlive)
  | step _ hedge ih => exact ih.step (h.edge _ _ hedge)

theorem reachable (h : f.Subgraph g) (hb : g.Reachable b) : f.Reachable b := by
  obtain ⟨p, hp⟩ := hb
  exact ⟨p, h.path hp⟩

theorem strictly (h : f.Subgraph g) (hab : f.StrictlyDominates a b) : g.StrictlyDominates a b :=
  ⟨hab.1, fun p hp => hab.2 p (h.path hp)⟩

end Subgraph

/-! ### The same ways -/

/-- The blocks of `g` are those of `f` and go to the same places. -/
structure SameGraph (f g : Func) : Prop where
  entry : g.entry = f.entry
  block : ∀ b, (g.block? b).map (·.term.successors) = (f.block? b).map (·.term.successors)

namespace SameGraph

theorem refl (f : Func) : f.SameGraph f := ⟨rfl, fun _ => rfl⟩

theorem trans {h : Func} (hfg : f.SameGraph g) (hgh : g.SameGraph h) : f.SameGraph h :=
  ⟨hgh.entry.trans hfg.entry, fun b => (hgh.block b).trans (hfg.block b)⟩

theorem symm (h : f.SameGraph g) : g.SameGraph f where
  entry := h.entry.symm
  block := fun b => (h.block b).symm

theorem containsBlock (h : f.SameGraph g) (b : BlockId) : g.containsBlock b = f.containsBlock b := by
  have hmap := congrArg Option.isSome (h.block b)
  rwa [Option.isSome_map, Option.isSome_map] at hmap

/-- A block and where it goes, in the other function. -/
theorem old (h : f.SameGraph g) {data' : Block} (hdata' : g.block? b = some data') :
    ∃ data, f.block? b = some data ∧ data.term.successors = data'.term.successors := by
  have hmap := h.block b
  rw [hdata', Option.map_some] at hmap
  exact Option.map_eq_some_iff.1 hmap.symm

theorem edge_of (h : f.SameGraph g) (hab : g.Edge a b) : f.Edge a b := by
  obtain ⟨data', hdata', hs, hlive⟩ := hab
  obtain ⟨data, hdata, hsucc⟩ := h.old hdata'
  exact ⟨data, hdata, hsucc ▸ hs, h.containsBlock b ▸ hlive⟩

theorem edge (h : f.SameGraph g) : g.Edge a b ↔ f.Edge a b :=
  ⟨h.edge_of, h.symm.edge_of⟩

theorem subgraph (h : f.SameGraph g) : f.Subgraph g where
  entry := h.entry
  live := fun b hb => h.containsBlock b ▸ hb
  edge := fun _ _ hab => h.edge_of hab

theorem reachable (h : f.SameGraph g) : g.Reachable b ↔ f.Reachable b :=
  ⟨h.subgraph.reachable, h.symm.subgraph.reachable⟩

theorem strictly (h : f.SameGraph g) : g.StrictlyDominates a b ↔ f.StrictlyDominates a b :=
  ⟨h.symm.subgraph.strictly, h.subgraph.strictly⟩

end SameGraph

end BinaryLift.Func
