import BinaryLift.Proofs.Target.BlockMaps
import BinaryLift.Target.Resolve

/-!
# What a resolver schedules

A classified destination is settled in one of two ways: all its addresses are valid and each of them
is scheduled, or none is.
-/

namespace BinaryLift.Resolver

open BlockMap

theorem scheduleAll_takes (l : List (Word × Reason)) {m m' : BlockMap} {f f' : Func}
    {targets : List Scheduled} (h : scheduleAll m f l = (m', f', targets)) :
    m.Takes f (l.map (·.1)) m' f' ∧ targets.map (fun t => (t.address, t.reason)) = l ∧
      ∀ t ∈ targets, m'.blockAt t.address = some t.block := by
  induction l generalizing m f targets with
  | nil =>
    cases h
    exact ⟨.refl _ _, rfl, by simp⟩
  | cons e rest ih =>
    obtain ⟨a, reason⟩ := e
    cases hs : m.schedule f a reason with
    | mk m₁ p =>
      obtain ⟨f₁, b⟩ := p
      cases hr : scheduleAll m₁ f₁ rest with
      | mk m₂ p₂ =>
        obtain ⟨f₂, more⟩ := p₂
        simp only [scheduleAll, hs, hr] at h
        cases h
        obtain ⟨htakes, hat⟩ := schedule_takes hs
        obtain ⟨hrest, hlist, hblocks⟩ := ih hr
        refine ⟨htakes.trans hrest, by rw [List.map_cons, hlist], ?_⟩
        intro t ht
        rcases List.mem_cons.1 ht with rfl | ht
        · exact hrest.keeps a b hat
        · exact hblocks t ht

/-- The addresses of a list that lie outside the range. -/
def outside (r : Resolver) (as : List Word) : List Word := as.filter fun a => !r.isValid a

theorem outside_eq_nil_iff {r : Resolver} {as : List Word} :
    r.outside as = [] ↔ ∀ a ∈ as, r.isValid a = true := by
  simp [outside, List.filter_eq_nil_iff]

theorem settle_of_outside {r : Resolver} {m : BlockMap} {f : Func} {c : Class}
    (h : r.outside (c.addresses.map (·.1)) ≠ []) :
    r.settle f m c =
      (m, f, { dest := c.dest?, rejected := r.outside (c.addresses.map (·.1)) }) := by
  have hsome : (r.outside (c.addresses.map (·.1))).isEmpty = false := List.isEmpty_eq_false_iff.2 h
  simp only [outside] at hsome
  simp only [settle, hsome, Bool.false_eq_true, if_false]
  rfl

/-- A class is settled as a whole: its addresses are all scheduled, or some are rejected. -/
theorem settle_takes {r : Resolver} {m m' : BlockMap} {f f' : Func} {c : Class} {res : Resolution}
    (h : r.settle f m c = (m', f', res)) :
    m.Takes f (res.targets.map (·.address)) m' f' ∧ res.dest = c.dest? ∧
      res.rejected = r.outside (c.addresses.map (·.1)) ∧
      res.targets.map (fun t => (t.address, t.reason)) =
        (if res.rejected = [] then c.addresses else []) ∧
      ∀ t ∈ res.targets, m'.blockAt t.address = some t.block := by
  by_cases hnone : r.outside (c.addresses.map (·.1)) = []
  · cases hs : scheduleAll m f c.addresses with
    | mk m₁ p =>
      obtain ⟨f₁, targets⟩ := p
      have hempty : (r.outside (c.addresses.map (·.1))).isEmpty = true := by
        rw [hnone]
        rfl
      simp only [outside] at hempty
      simp only [settle, hempty, if_true, hs] at h
      cases h
      obtain ⟨htakes, hlist, hat⟩ := scheduleAll_takes c.addresses hs
      have haddr : targets.map (·.address) = c.addresses.map (·.1) := by
        rw [← hlist, List.map_map]
        rfl
      refine ⟨by rw [haddr]; exact htakes, rfl, hnone.symm, ?_, hat⟩
      rw [if_pos rfl, hlist]
  · rw [settle_of_outside hnone] at h
    cases h
    exact ⟨.refl _ _, rfl, rfl, (if_neg hnone).symm, by simp⟩

/-- The addresses of a class that are scheduled: all of them or none. -/
def Class.accepted (r : Resolver) (c : Class) : List Word :=
  if (c.addresses.map (·.1)).all r.isValid then c.addresses.map (·.1) else []

theorem Class.accepted_eq (r : Resolver) (c : Class) :
    c.accepted r = if r.outside (c.addresses.map (·.1)) = [] then c.addresses.map (·.1) else [] := by
  unfold accepted
  congr 1
  rw [outside_eq_nil_iff, List.all_eq_true]

theorem settle_valid {r : Resolver} {m m' : BlockMap} {f f' : Func} {c : Class} {res : Resolution}
    (hreg : m.Registered r.isValid f) (hall : ∀ e ∈ c.addresses, r.isValid e.1 = true)
    (h : r.settle f m c = (m', f', res)) :
    m'.Registered r.isValid f' ∧ m.Discovers f (c.accepted r) m' f' ∧ res.dest = c.dest? ∧
      res.targets.map (fun t => (t.address, t.reason)) = c.addresses ∧
      ∀ t ∈ res.targets, m'.blockAt t.address = some t.block := by
  obtain ⟨htakes, hdest, hrejected, htargets, hat⟩ := settle_takes h
  have hgood : ∀ a ∈ c.addresses.map (·.1), r.isValid a = true := by
    intro a ha
    obtain ⟨e, he, rfl⟩ := List.mem_map.1 ha
    exact hall e he
  have hnone := outside_eq_nil_iff.2 hgood
  rw [if_pos (hrejected.trans hnone)] at htargets
  have haddr : res.targets.map (·.address) = c.addresses.map (·.1) := by
    rw [← htargets, List.map_map]
    rfl
  rw [haddr] at htakes
  rw [Class.accepted_eq, if_pos hnone]
  exact ⟨htakes.registered hreg hgood, htakes.discovers hreg, hdest, htargets, hat⟩

theorem settle_invalid {r : Resolver} {m m' : BlockMap} {f f' : Func} {c : Class} {res : Resolution}
    {e : Word × Reason} (he : e ∈ c.addresses) (hbad : r.isValid e.1 = false)
    (h : r.settle f m c = (m', f', res)) :
    m' = m ∧ f' = f ∧ c.accepted r = [] ∧ res.dest = c.dest? ∧ res.targets = [] := by
  have hsome : r.outside (c.addresses.map (·.1)) ≠ [] := by
    rw [ne_eq, outside_eq_nil_iff]
    intro hall
    rw [hall e.1 (List.mem_map_of_mem he)] at hbad
    cases hbad
  rw [settle_of_outside hsome] at h
  cases h
  exact ⟨rfl, rfl, by rw [Class.accepted_eq, if_neg hsome], rfl, rfl⟩

/-- A class with one address: it is scheduled if it is valid, and else nothing happens. -/
theorem settle_single {r : Resolver} {m m' : BlockMap} {f f' : Func} {c : Class} {a : Word}
    {reason : Reason} {res : Resolution} (hreg : m.Registered r.isValid f)
    (hc : c.addresses = [(a, reason)]) (h : r.settle f m c = (m', f', res)) :
    m'.Registered r.isValid f' ∧ m.Discovers f (c.accepted r) m' f' ∧ res.dest = c.dest? ∧
      ((r.isValid a = true ∧ ∃ b, res.targets = [⟨a, reason, b⟩] ∧ m'.blockAt a = some b) ∨
        (r.isValid a = false ∧ res.targets = [])) := by
  by_cases hvalid : r.isValid a = true
  · have hall : ∀ e ∈ c.addresses, r.isValid e.1 = true := by
      intro e he
      rw [hc, List.mem_singleton] at he
      rw [he, hvalid]
    obtain ⟨hreg', hdisc, hdest, hlist, hat⟩ := settle_valid hreg hall h
    rw [hc] at hlist
    obtain ⟨target, htargets, hpair⟩ := List.map_eq_singleton_iff.1 hlist
    cases hpair
    refine ⟨hreg', hdisc, hdest, .inl ⟨hvalid, target.block, htargets, ?_⟩⟩
    exact hat target (by rw [htargets]; exact List.mem_singleton.2 rfl)
  · have hbad : r.isValid a = false := by simpa using hvalid
    have hmem : (a, reason) ∈ c.addresses := by rw [hc]; exact List.mem_singleton.2 rfl
    obtain ⟨rfl, rfl, hacc, hdest, htargets⟩ := settle_invalid hmem hbad h
    refine ⟨hreg, ?_, hdest, .inr ⟨hbad, htargets⟩⟩
    rw [hacc]
    exact .refl _ _

theorem settle_nothing {r : Resolver} {m m' : BlockMap} {f f' : Func} {c : Class} {res : Resolution}
    (hreg : m.Registered r.isValid f) (hc : c.addresses = []) (h : r.settle f m c = (m', f', res)) :
    m'.Registered r.isValid f' ∧ m.Discovers f (c.accepted r) m' f' ∧ res.dest = c.dest? ∧
      res.targets = [] := by
  have hall : ∀ e ∈ c.addresses, r.isValid e.1 = true := by
    rw [hc]
    simp
  obtain ⟨hreg', hdisc, hdest, hlist, _⟩ := settle_valid hreg hall h
  rw [hc] at hlist
  exact ⟨hreg', hdisc, hdest, List.map_eq_nil_iff.1 hlist⟩

theorem settle_pair {r : Resolver} {m m' : BlockMap} {f f' : Func} {c : Class} {a a' : Word}
    {reason reason' : Reason} {res : Resolution} (hreg : m.Registered r.isValid f)
    (hc : c.addresses = [(a, reason), (a', reason')]) (h : r.settle f m c = (m', f', res)) :
    m'.Registered r.isValid f' ∧ m.Discovers f (c.accepted r) m' f' ∧ res.dest = c.dest? ∧
      (((r.isValid a ∧ r.isValid a') ∧ ∃ b b', res.targets = [⟨a, reason, b⟩, ⟨a', reason', b'⟩] ∧
          m'.blockAt a = some b ∧ m'.blockAt a' = some b') ∨
        (¬ (r.isValid a ∧ r.isValid a') ∧ res.targets = [])) := by
  by_cases hvalid : r.isValid a ∧ r.isValid a'
  · have hall : ∀ e ∈ c.addresses, r.isValid e.1 = true := by
      intro e he
      rw [hc, List.mem_cons, List.mem_singleton] at he
      rcases he with rfl | rfl
      · exact hvalid.1
      · exact hvalid.2
    obtain ⟨hreg', hdisc, hdest, hlist, hat⟩ := settle_valid hreg hall h
    rw [hc] at hlist
    obtain ⟨first, rest, htargets, hfirst, hrest⟩ := List.map_eq_cons_iff.1 hlist
    obtain ⟨second, hsecond, hpair⟩ := List.map_eq_singleton_iff.1 hrest
    cases hfirst
    cases hpair
    subst hsecond
    refine ⟨hreg', hdisc, hdest, .inl ⟨hvalid, first.block, second.block, htargets, ?_, ?_⟩⟩
    · exact hat first (by rw [htargets]; simp)
    · exact hat second (by rw [htargets]; simp)
  · have hbad : ∃ e ∈ c.addresses, r.isValid e.1 = false := by
      rw [hc]
      by_cases ha : r.isValid a = true
      · refine ⟨(a', reason'), by simp, ?_⟩
        simpa using fun ha' => hvalid ⟨ha, ha'⟩
      · exact ⟨(a, reason), by simp, by simpa using ha⟩
    obtain ⟨e, he, hbad⟩ := hbad
    obtain ⟨rfl, rfl, hacc, hdest, htargets⟩ := settle_invalid he hbad h
    refine ⟨hreg, ?_, hdest, .inr ⟨hvalid, htargets⟩⟩
    rw [hacc]
    exact .refl _ _

end BinaryLift.Resolver
