import BinaryLift.Proofs.Graph.ExactFrontiers
import BinaryLift.Proofs.Program.Checks

/-!
# Where several values meet

The blocks found by taking frontiers again and again are the least set that holds the frontiers of the
given blocks and of its own members. They suffice as places for phis: on every way that leaves the
immediate dominator of a block outside the set and does not come back to it, neither a given block nor
one of the set lies in between.
-/

namespace BinaryLift

section

variable {α : Type} [DecidableEq α] {step : α → Checked (List α)} {T : Set α}

/-- A walk that starts in a set which no step leaves stays there. -/
theorem closureFrom_subset (hT : ∀ x ∈ T, ∀ ys, step x = .ok ys → ∀ y ∈ ys, y ∈ T) (n : Nat) :
    ∀ work seen out : List α, (∀ x ∈ work, x ∈ T) → (∀ x ∈ seen, x ∈ T) →
      closureFrom step n work seen = .ok out → ∀ x ∈ out, x ∈ T := by
  induction n with
  | zero =>
    intro work seen out _ hseen h
    cases work with
    | nil =>
      cases h
      exact hseen
    | cons x work => cases h
  | succ n ih =>
    intro work seen out hwork hseen h
    cases work with
    | nil =>
      cases h
      exact hseen
    | cons x work =>
      unfold closureFrom at h
      cases hx : step x with
      | error e =>
        rw [hx] at h
        cases h
      | ok ys =>
        rw [hx] at h
        have hnew : ∀ y ∈ fresh seen ys, y ∈ T := fun y hy =>
          hT x (hwork x List.mem_cons_self) ys hx y (mem_fresh.1 hy).1
        refine ih _ _ out ?_ ?_ h
        · intro y hy
          exact (List.mem_append.1 hy).elim (hnew y) fun hy => hwork y (List.mem_cons_of_mem _ hy)
        · intro y hy
          exact (List.mem_append.1 hy).elim (hseen y) (hnew y)

theorem closure_subset {start out : List α} {bound : Nat}
    (hT : ∀ x ∈ T, ∀ ys, step x = .ok ys → ∀ y ∈ ys, y ∈ T) (hstart : ∀ x ∈ start, x ∈ T)
    (h : closure step bound start = .ok out) : ∀ x ∈ out, x ∈ T := by
  have hfirst : ∀ x ∈ fresh [] start, x ∈ T := fun x hx => hstart x (mem_fresh.1 hx).1
  exact closureFrom_subset hT bound _ _ out hfirst hfirst h

end

namespace Func

variable {f : Func} {a b p z : BlockId} {ys : List BlockId}

/-- What strictly dominates the end of a way that does not pass it strictly dominates each block on
the way. -/
theorem StrictlyDominates.along (hz : f.StrictlyDominates p z) (hp : p ∉ ys)
    (hway : (ys ++ [z]).IsChain f.Edge) : ∀ y ∈ ys, f.StrictlyDominates p y := by
  induction ys with
  | nil =>
    intro y hy
    cases hy
  | cons y ys ih =>
    obtain ⟨hy, hys⟩ := not_or.1 (List.mem_cons.not.1 hp)
    obtain ⟨hfirst, hrest⟩ := List.isChain_cons.1 (List.cons_append ▸ hway)
    have hbehind := ih hys hrest
    -- the dominance of the next block passes back over the edge
    have hnext : ∃ c, f.Edge y c ∧ f.StrictlyDominates p c := by
      cases ys with
      | nil => exact ⟨z, hfirst z rfl, hz⟩
      | cons c ys => exact ⟨c, hfirst c rfl, hbehind c List.mem_cons_self⟩
    obtain ⟨c, hedge, hc⟩ := hnext
    intro x hx
    rcases List.mem_cons.1 hx with rfl | hx
    · exact ⟨hy, hc.of_edge hedge⟩
    · exact hbehind x hx

theorem StrictlyDominates.ne_entry (h : f.StrictlyDominates a b) (hb : f.Reachable b) :
    f.entry ≠ some b := by
  intro he
  obtain ⟨path, hpath⟩ := hb
  have hmem := h.2 [b] (.entry he hpath.live)
  exact h.1 (List.mem_singleton.1 hmem)

theorem Reachable.along (ha : f.Reachable a) (hway : (a :: ys).IsChain f.Edge) :
    ∀ y ∈ ys, f.Reachable y := by
  induction ys generalizing a with
  | nil =>
    intro y hy
    cases hy
  | cons c ys ih =>
    obtain ⟨hedge, hrest⟩ := List.isChain_cons_cons.1 hway
    have hc := ha.step hedge
    intro y hy
    rcases List.mem_cons.1 hy with rfl | hy
    · exact hc
    · exact ih hc hrest y hy

end Func

namespace DomTree

variable {f : Func} {e : BlockId} {d : DomTree} {bs out : List BlockId}

/-- The blocks whose frontiers are taken: the given ones and those found. -/
def Taken (bs out : List BlockId) (x : BlockId) : Prop := x ∈ bs ∨ x ∈ out

/-- Following a way from a block that `x` dominates towards a block that neither is found nor has `x`
between itself and its immediate dominator `p`: where the dominance of `x` ends, a block is found that
takes its place, and so on up to the end of the way. -/
theorem Correct.not_taken_before (h : d.Correct f e)
    (habove : ∀ a b, f.Reachable b → f.Dominates a b → d.Upward a b)
    (hclosed : ∀ x ∈ d.rpo, Taken bs out x → d.frontier x ⊆ out) {z p : BlockId} (hz : z ∉ out)
    (hp : d.idom z = some p) (ys : List BlockId) : ∀ x y, f.Reachable y → f.Dominates x y →
      p ∉ y :: ys → (y :: ys ++ [z]).IsChain f.Edge → f.StrictlyDominates p x → ¬ Taken bs out x := by
  have hzr := h.reachable_of_idom hp
  have hpz := h.idom_strictly hp
  have hfound : ∀ x y c, f.Reachable y → f.Dominates x y → f.Edge y c → f.StrictlyDominates p c →
      Taken bs out x → ¬ f.StrictlyDominates x c → c ∈ out := by
    intro x y c hy hxy hedge hpc hx hnot
    have hc := hy.step hedge
    have hxr : x ∈ d.rpo := (h.ordered.mem_iff x).2 (hxy.reachable hy)
    exact hclosed x hxr hx ((h.mem_frontier habove hc (hpc.ne_entry hc)).2 ⟨⟨y, hy, hedge, hxy⟩, hnot⟩)
  induction ys with
  | nil =>
    intro x y hy hxy _ hway hpx hx
    have hedge : f.Edge y z := (List.isChain_cons_cons.1 hway).1
    by_cases hxz : f.StrictlyDominates x z
    · -- `x` would lie strictly below and not below the immediate dominator
      have hxp := ((h.idom_iff habove).1 hp).2.2 x hxz
      exact (hpx.trans_dominates (h.idom_lt z p hp).1 hxp).1 rfl
    · exact hz (hfound x y z hy hxy hedge hpz hx hxz)
  | cons c ys ih =>
    intro x y hy hxy hpys hway hpx hx
    obtain ⟨hedge, hrest⟩ := List.isChain_cons_cons.1 hway
    have hnotp : p ∉ c :: ys := fun hmem => hpys (List.mem_cons_of_mem _ hmem)
    have hpc := hpz.along hnotp hrest c List.mem_cons_self
    have hc := hy.step hedge
    by_cases hxc : f.StrictlyDominates x c
    · exact ih x c hc hxc.2 hnotp hrest hpx hx
    · exact ih c c hc (.refl f c) hnotp hrest hpc (.inr (hfound x y c hy hxy hedge hpc hx hxc))

/-- Between the immediate dominator of a block that is not found and the block itself nothing is
given or found. -/
theorem Correct.not_taken_between (h : d.Correct f e)
    (habove : ∀ a b, f.Reachable b → f.Dominates a b → d.Upward a b)
    (hclosed : ∀ x ∈ d.rpo, Taken bs out x → d.frontier x ⊆ out) {z p : BlockId} (hz : z ∉ out)
    (hp : d.idom z = some p) {inner : List BlockId} (hway : (p :: inner ++ [z]).IsChain f.Edge)
    (hinner : p ∉ inner) : ∀ x ∈ inner, ¬ Taken bs out x := by
  intro x hx
  obtain ⟨before, behind, rfl⟩ := List.append_of_mem hx
  have hchain : (before ++ x :: behind ++ [z]).IsChain f.Edge := (List.isChain_cons.1 hway).2
  have hreach : f.Reachable x :=
    (h.idom_lt z p hp).1.along hway x (List.mem_append_left _ hx)
  have hstrict := (h.idom_strictly hp).along hinner hchain x hx
  rw [List.append_assoc] at hchain
  have hsuffix := List.IsChain.right_of_append hchain
  have hnot : p ∉ x :: behind := fun hmem => hinner (List.mem_append_right _ hmem)
  exact h.not_taken_before habove hclosed hz hp behind x x hreach (.refl f x) hnot hsuffix hstrict

/-! ### The least set -/

/-- A set of blocks that contains the frontiers of the given blocks and of its own members. -/
def HoldsFrontiers (d : DomTree) (bs : List BlockId) (T : Set BlockId) : Prop :=
  ∀ x, x ∈ bs ∨ x ∈ T → ∀ y ∈ d.frontier x, y ∈ T

/-- The found set lies in every such set. -/
theorem iteratedFrontier_subset {T : Set BlockId} (hout : d.iteratedFrontier bs = .ok out)
    (hT : d.HoldsFrontiers bs T) : ∀ y ∈ out, y ∈ T := by
  rw [iteratedFrontier_eq] at hout
  obtain ⟨all, hall, hsorted⟩ := bind_eq_ok.1 hout
  cases hsorted
  intro y hy
  rw [List.mem_mergeSort] at hy
  refine closure_subset ?_ ?_ hall y hy
  · intro x hx ys hys
    cases hys
    exact fun y hy => hT x (.inr hx) y (d.keptFrontier_subset x hy)
  · intro x hx
    obtain ⟨b, hb, hxb⟩ := List.mem_flatMap.1 hx
    exact hT b (.inl hb) x (d.keptFrontier_subset b hxb)

theorem iteratedFrontier_isLeast (hbs : ∀ b ∈ bs, b ∈ d.rpo) :
    ∃ out, d.iteratedFrontier bs = .ok out ∧
      (∀ x ∈ d.rpo, Taken bs out x → d.frontier x ⊆ out) ∧
      IsLeast {T | d.HoldsFrontiers bs T} {y | y ∈ out} := by
  obtain ⟨out, hout, _, hfound, hclosed⟩ := d.iteratedFrontier_spec bs
  refine ⟨out, hout, hclosed, ?_, ?_⟩
  · intro x hx y hy
    have hxr : x ∈ d.rpo := hx.elim (hbs x) fun hx => (hfound x hx).1
    exact hclosed x hxr hx hy
  · intro T hT y hy
    exact iteratedFrontier_subset hout hT y hy

/-- For reachable blocks `bs` a set of blocks is found, the least one that holds the frontiers of `bs`
and of its own members, and no way from the immediate dominator of a block outside it to that block,
unless it comes back to the dominator, has a block of either kind in between. -/
theorem iteratedFrontier_suffices (f : Func)
    (hentry : ∀ e, f.entry = some e → f.containsBlock e = true) (bs : List BlockId)
    (hbs : ∀ b ∈ bs, f.Reachable b) :
    ∃ d out, compute f = .ok d ∧ d.iteratedFrontier bs = .ok out ∧
      (∀ z, f.Reachable z → f.entry ≠ some z → z ∉ out → ∃ p, d.idom z = some p ∧
        ∀ inner, (p :: inner ++ [z]).IsChain f.Edge → p ∉ inner → ∀ x ∈ inner, x ∉ bs ∧ x ∉ out) ∧
      IsLeast {T | d.HoldsFrontiers bs T} {y | y ∈ out} := by
  cases he : f.entry with
  | none =>
    have hnone : ∀ b, ¬ f.Reachable b := by
      rintro b ⟨path, hpath⟩
      exact hpath.entry_ne_none he
    obtain ⟨d, hd, _⟩ := Func.compute_of_no_entry he
    obtain ⟨out, hout, _, hleast⟩ :=
      iteratedFrontier_isLeast (d := d) fun b hb => absurd (hbs b hb) (hnone b)
    exact ⟨d, out, hd, hout, fun z hz => absurd hz (hnone z), hleast⟩
  | some e =>
    obtain ⟨d, hd, h, habove⟩ := compute_dominators he (hentry e he)
    obtain ⟨out, hout, hclosed, hleast⟩ :=
      iteratedFrontier_isLeast fun b hb => (h.ordered.mem_iff b).2 (hbs b hb)
    refine ⟨d, out, hd, hout, ?_, hleast⟩
    intro z hz hze hzout
    obtain ⟨p, hp⟩ := h.idom z hz fun heq => hze (heq ▸ rfl)
    refine ⟨p, hp, ?_⟩
    intro inner hway hinner x hx
    exact not_or.1 (h.not_taken_between habove hclosed hzout hp hway hinner x hx)

/-- Behind a branch two blocks lead to each other and on to a common block; that and the other way of
the first branch end in the same block. -/
def crossedArm : Func where
  name := "sample"
  params := [⟨"flag", .i1⟩]
  blocks := #[
    some { term := .branch (.arg 0) ⟨1⟩ ⟨2⟩ },
    some { term := .branch (.arg 0) ⟨3⟩ ⟨4⟩ },
    some { term := .jump ⟨6⟩ },
    some { term := .branch (.arg 0) ⟨4⟩ ⟨5⟩ },
    some { term := .branch (.arg 0) ⟨3⟩ ⟨5⟩ },
    some { term := .jump ⟨6⟩ },
    some { term := .ret none }]
  entry := some ⟨0⟩

/-- What both arms of the first branch set meets only at the end: it is not set again on the way
through the crossing. -/
theorem crossedArm_meets :
    (∀ e, crossedArm.entry = some e → crossedArm.containsBlock e = true) ∧
    (∀ b ∈ [(⟨1⟩ : BlockId), ⟨2⟩], crossedArm.Reachable b) ∧
    ∃ d, compute crossedArm = .ok d ∧ d.iteratedFrontier [⟨1⟩, ⟨2⟩] = .ok [⟨6⟩] ∧
      d.idom ⟨5⟩ = some ⟨1⟩ ∧
      ([(⟨1⟩ : BlockId), ⟨3⟩, ⟨4⟩, ⟨5⟩] : List BlockId).IsChain crossedArm.Edge ∧
      (∀ x ∈ [(⟨3⟩ : BlockId), ⟨4⟩], x ∉ [(⟨1⟩ : BlockId), ⟨2⟩] ∧ x ∉ [(⟨6⟩ : BlockId)]) ∧
      IsLeast {T | d.HoldsFrontiers [⟨1⟩, ⟨2⟩] T} {y | y ∈ [(⟨6⟩ : BlockId)]} := by
  have hentry : ∀ e, crossedArm.entry = some e → crossedArm.containsBlock e = true := by
    intro e he
    cases he
    rfl
  have hedge₁ : crossedArm.Edge ⟨0⟩ ⟨1⟩ := ⟨_, rfl, by decide, rfl⟩
  have hedge₂ : crossedArm.Edge ⟨0⟩ ⟨2⟩ := ⟨_, rfl, by decide, rfl⟩
  have hedge₃ : crossedArm.Edge ⟨1⟩ ⟨3⟩ := ⟨_, rfl, by decide, rfl⟩
  have hedge₄ : crossedArm.Edge ⟨3⟩ ⟨4⟩ := ⟨_, rfl, by decide, rfl⟩
  have hedge₅ : crossedArm.Edge ⟨4⟩ ⟨5⟩ := ⟨_, rfl, by decide, rfl⟩
  have hroot : crossedArm.Reachable ⟨0⟩ := .entry rfl rfl
  have hway : ([(⟨1⟩ : BlockId), ⟨3⟩, ⟨4⟩, ⟨5⟩] : List BlockId).IsChain crossedArm.Edge :=
    .cons_cons hedge₃ (.cons_cons hedge₄ (.cons_cons hedge₅ (.singleton _)))
  have hbs : ∀ b ∈ [(⟨1⟩ : BlockId), ⟨2⟩], crossedArm.Reachable b := by
    intro b hb
    simp only [List.mem_cons, List.not_mem_nil, or_false] at hb
    rcases hb with rfl | rfl
    · exact hroot.step hedge₁
    · exact hroot.step hedge₂
  have h₅ : crossedArm.Reachable ⟨5⟩ :=
    (hroot.step hedge₁).along hway ⟨5⟩ (by decide)
  obtain ⟨d, out, hd, hout, hclear, hleast⟩ :=
    iteratedFrontier_suffices crossedArm hentry [⟨1⟩, ⟨2⟩] hbs
  have hresult : ((compute crossedArm).toOption.map fun d =>
      ((d.iteratedFrontier [⟨1⟩, ⟨2⟩]).toOption, d.idom ⟨5⟩)) = some (some [⟨6⟩], some ⟨1⟩) := by
    cbv
  rw [hd] at hresult
  obtain ⟨hset, hidom⟩ := by
    simpa only [Except.toOption, Option.map_some, Option.some.injEq, Prod.mk.injEq, hout] using hresult
  subst hset
  obtain ⟨p, hp, hbetween⟩ := hclear ⟨5⟩ h₅ (by decide) (by decide)
  rw [hidom] at hp
  cases hp
  exact ⟨hentry, hbs, d, hd, hout, hidom, hway, hbetween [⟨3⟩, ⟨4⟩] hway (by decide), hleast⟩

end DomTree

end BinaryLift
