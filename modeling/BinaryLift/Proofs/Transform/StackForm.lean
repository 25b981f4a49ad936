import BinaryLift.Proofs.Transform.Insertion
import BinaryLift.Proofs.Transform.PromotedForm
import BinaryLift.Proofs.Transform.StackSlots

/-!
# Slots of its own

Each stack slot becomes a local slot at the start of the entry block, and its addresses are replaced
by it. The local slot is at hand wherever an address was, so the function stays well formed.
-/

namespace BinaryLift.Func

variable {f g g₁ : Func} {e b c : BlockId} {made : List (InstId × StackSlot)} {stack : Value}
  {slots : StackSlots} {id j s : InstId} {pre : List InstId} {v : Value}

/-! ### Local slots at the start -/

/-- The function `g` is `f` with the local slots `made` behind the phis of block `e`. -/
structure Allotted (f : Func) (e : BlockId) (made : List (InstId × StackSlot)) (g : Func) : Prop where
  wellFormed : g.WellFormed
  params : g.params = f.params
  entry : g.entry = f.entry
  phisOf : g.phisOf e = f.phisOf e
  block : ∀ c, g.block? c = (f.block? c).map fun data => if c = e then { data with
    insts := f.phisOf e ++ (made.map (·.1)).reverse ++ (f.instsOf e).dropWhile f.isPhi } else data
  size : f.arena.size ≤ g.arena.size
  old : ∀ j, j.index < f.arena.size → g.inst? j = f.inst? j ∧ g.instBlock j = f.instBlock j
  new : ∀ x ∈ made, f.arena.size ≤ x.1.index ∧ x.1.index < g.arena.size ∧
    g.inst? x.1 = some ⟨.alloca x.2.width, some .ptr⟩
  nodup : (made.map (·.1)).Nodup

theorem allotted_nil (hwf : f.WellFormed) : f.Allotted e [] f where
  wellFormed := hwf
  params := rfl
  entry := rfl
  phisOf := rfl
  block := by
    intro c
    cases hdata : f.block? c with
    | none => rfl
    | some data =>
      rw [Option.map_some]
      split
      · rename_i hc
        subst hc
        rw [List.map_nil, List.reverse_nil, List.append_nil, Func.phisOf,
          List.takeWhile_append_dropWhile, instsOf_eq hdata]
      · rfl
  size := Nat.le_refl _
  old := fun _ _ => ⟨rfl, rfl⟩
  new := fun _ hx => absurd hx List.not_mem_nil
  nodup := List.nodup_nil

namespace Allotted

theorem sameGraph (h : f.Allotted e made g) : f.SameGraph g where
  entry := h.entry
  block := by
    intro c
    rw [h.block c, Option.map_map]
    congr 1
    funext data
    simp only [Function.comp]
    split <;> rfl

theorem instsOf_self (h : f.Allotted e made g) (he : f.containsBlock e = true) : g.instsOf e =
    f.phisOf e ++ (made.map (·.1)).reverse ++ (f.instsOf e).dropWhile f.isPhi := by
  obtain ⟨data, hdata⟩ := containsBlock_iff.1 he
  rw [Func.instsOf, h.block e, hdata, Option.map_some, if_pos rfl]
  rfl

theorem instsOf_of_ne (h : f.Allotted e made g) (hc : c ≠ e) : g.instsOf c = f.instsOf c := by
  simp only [Func.instsOf, h.block c, if_neg hc, Option.map_id']

theorem mem_instsOf (h : f.Allotted e made g) (he : f.containsBlock e = true) :
    j ∈ g.instsOf c ↔ (c = e ∧ j ∈ made.map (·.1)) ∨ j ∈ f.instsOf c := by
  by_cases hc : c = e
  · subst hc
    have hwhole : j ∈ f.instsOf c ↔ j ∈ f.phisOf c ∨ j ∈ (f.instsOf c).dropWhile f.isPhi := by
      rw [← List.mem_append, Func.phisOf, List.takeWhile_append_dropWhile]
    rw [h.instsOf_self he, hwhole]
    simp only [List.mem_append, List.mem_reverse, true_and]
    rw [or_right_comm, or_comm]
  · simp only [h.instsOf_of_ne hc, hc, false_and, false_or]

theorem leaves (h : f.Allotted e made g) {act : Activation} (hl : act.Leaves f) :
    act.Leaves g := by
  have hold : ∀ b data', g.block? b = some data' → ∃ data, f.block? b = some data ∧
      data'.address = data.address ∧ data'.term = data.term := by
    intro b data' hdata'
    rw [h.block b] at hdata'
    obtain ⟨data, hdata, rfl⟩ := Option.map_eq_some_iff.1 hdata'
    refine ⟨data, hdata, ?_⟩
    split <;> exact ⟨rfl, rfl⟩
  refine hl.of_subset ?_ ?_
  · intro b data' hdata' w hw
    obtain ⟨data, hdata, haddr, _⟩ := hold b data' hdata'
    exact ⟨b, data, hdata, haddr ▸ hw⟩
  · intro b data' v hdata' hv
    obtain ⟨data, hdata, _, hterm⟩ := hold b data' hdata'
    exact ⟨b, data, v, hdata, hterm ▸ hv⟩

/-- The local slots read nothing. -/
theorem reads_of (h : f.Allotted e made g) (he : f.containsBlock e = true) (hc : f.Consistent)
    {drop : InstId → Bool} (hread : g.Reads drop b pre v) : ∃ pre', f.Reads drop b pre' v := by
  have hold : ∀ {c id i}, id ∈ g.instsOf c → g.inst? id = some i → v ∈ i.kind.operands →
      id ∈ f.instsOf c ∧ f.inst? id = some i := by
    intro c id i hid hi hv
    rcases (h.mem_instsOf he).1 hid with ⟨_, hid⟩ | hid
    · obtain ⟨x, hx, rfl⟩ := List.mem_map.1 hid
      rw [(h.new x hx).2.2] at hi
      cases hi
      cases hv
    · obtain ⟨i', hi'⟩ := hc.inst?_of_mem hid
      exact ⟨hid, by rw [← (h.old id (index_lt_of_inst? hi')).1, hi]⟩
  cases hread with
  | inst hb hsplit hkeep hi hphi hv =>
    obtain ⟨hid, hi'⟩ := hold (mem_of_split hsplit) hi hv
    obtain ⟨l, r, hlr⟩ := List.append_of_mem hid
    exact ⟨l, .inst (h.sameGraph.reachable.1 hb) hlr hkeep hi' hphi hv⟩
  | phi hb hid hkeep hi he hq =>
    obtain ⟨hid', hi'⟩ := hold hid hi (List.mem_map.2 ⟨_, he, rfl⟩)
    exact ⟨_, .phi (h.sameGraph.reachable.1 hb) hid' hkeep hi' he (h.sameGraph.reachable.1 hq)⟩
  | term hb hdata hv =>
    rw [h.block _] at hdata
    obtain ⟨data₀, hdata₀, rfl⟩ := Option.map_eq_some_iff.1 hdata
    refine ⟨_, .term (h.sameGraph.reachable.1 hb) hdata₀ ?_⟩
    split at hv <;> exact hv

/-- One more, before the ones that are there. -/
theorem push (h : f.Allotted e made g₁) (he : f.containsBlock e = true) (slot : StackSlot) :
    ∃ g, g₁.insertInst e (g₁.phisOf e).length ⟨.alloca slot.width, some .ptr⟩ =
      .ok (g, g₁.fresh) ∧ f.Allotted e (made ++ [(g₁.fresh, slot)]) g := by
  have hsplit : g₁.instsOf e = g₁.phisOf e ++
      ((made.map (·.1)).reverse ++ (f.instsOf e).dropWhile f.isPhi) := by
    rw [h.instsOf_self he, h.phisOf, List.append_assoc]
  have he₁ : g₁.containsBlock e = true := (h.sameGraph.containsBlock e).trans he
  obtain ⟨g, hg, hins⟩ := insertInst_inserted (i := ⟨.alloca slot.width, some .ptr⟩) he₁ hsplit rfl
    (List.prefix_refl _) rfl
  have hsize : g.arena.size = g₁.arena.size + 1 := by rw [hins.arena, Array.size_push]
  refine ⟨g, hg, hins.wellFormed h.wellFormed (fun _ v hv => absurd hv List.not_mem_nil),
    hins.params.trans h.params, hins.entry.trans h.entry,
    ((hins.phisOf_eq h.wellFormed e).1.trans h.phisOf), ?_, ?_, ?_, ?_, ?_⟩
  · intro c
    rw [hins.block c, h.block c, Option.map_map]
    congr 1
    funext data
    simp only [Function.comp]
    split
    · rw [List.map_append, List.reverse_append, h.phisOf]
      simp
    · rfl
  · rw [hsize]
    exact Nat.le_succ_of_le h.size
  · intro j hj
    have hne : j ≠ g₁.fresh := by
      rintro rfl
      exact absurd h.size (Nat.not_le.2 hj)
    obtain ⟨hinst, hblock⟩ := h.old j hj
    exact ⟨(hins.inst?_of_ne hne).trans hinst, (hins.instBlock j).trans ((if_neg hne).trans hblock)⟩
  · intro x hx
    rcases List.mem_append.1 hx with hx | hx
    · obtain ⟨hle, hlt, hi⟩ := h.new x hx
      have hne : x.1 ≠ g₁.fresh := fun heq => Nat.lt_irrefl _ (heq ▸ hlt)
      exact ⟨hle, by omega, (hins.inst?_of_ne hne).trans hi⟩
    · rw [List.mem_singleton.1 hx]
      exact ⟨h.size, by rw [hsize]; exact Nat.lt_succ_self _, hins.inst?_fresh⟩
  · rw [List.map_append, List.nodup_append]
    refine ⟨h.nodup, by simp, ?_⟩
    rintro s hs s' hs' rfl
    obtain ⟨x, hx, rfl⟩ := List.mem_map.1 hs
    have hfresh : x.1 = g₁.fresh := by simpa using hs'
    exact Nat.lt_irrefl _ (hfresh ▸ (h.new x hx).2.1)

end Allotted

theorem phis_eq_ok (hb : f.containsBlock b = true) : f.phis b = .ok (f.phisOf b) := by
  obtain ⟨data, hdata⟩ := containsBlock_iff.1 hb
  unfold phis
  rw [block_eq_ok.2 hdata, phisOf, instsOf_eq hdata]
  rfl

/-- The local slots are made in the order of the stack slots. -/
theorem addStackAllocas_spec (hwf : f.WellFormed) (he : f.containsBlock e = true)
    (slots : StackSlots) : ∃ g made, f.addStackAllocas e slots = .ok (g, made) ∧
      made.map (·.2) = slots.map (·.2) ∧ f.Allotted e made g := by
  suffices hspec : ∃ r, f.addStackAllocas e slots = .ok r ∧
      r.2.map (·.2) = slots.map (·.2) ∧ f.Allotted e r.2 r.1 by
    obtain ⟨⟨g, made⟩, hg, hmade, h⟩ := hspec
    exact ⟨g, made, hg, hmade, h⟩
  refine foldlM_spec _ (I := fun (pre : StackSlots) (acc : Func × List (InstId × StackSlot)) =>
    acc.2.map (·.2) = pre.map (·.2) ∧ f.Allotted e acc.2 acc.1) ?_ ⟨rfl, allotted_nil hwf⟩
  rintro pre x post ⟨g₁, made⟩ _ ⟨hmade, h⟩
  obtain ⟨g, hg, h'⟩ := h.push he x.2
  refine ⟨(g, made ++ [(g₁.fresh, x.2)]), ?_, ?_, h'⟩
  · simp only [phis_eq_ok ((h.sameGraph.containsBlock e).trans he), hg, bind, Except.bind, pure,
      Except.pure]
  · rw [List.map_append, List.map_append, hmade]
    rfl

/-! ### Addresses replaced -/

/-- Which local slot stands in for which address. -/
def homes (made : List (InstId × StackSlot)) : Table InstId InstId :=
  made.flatMap fun e => e.2.addresses.map fun a => (a, e.1)

/-- An address becomes its local slot. -/
def toLocal (t : Table InstId InstId) : Value → Value
  | .inst id => .inst ((t.get? id).getD id)
  | v => v

theorem mem_homes {a : InstId} : (a, s) ∈ homes made ↔ ∃ x ∈ made, s = x.1 ∧ a ∈ x.2.addresses := by
  simp only [homes, List.mem_flatMap, List.mem_map, Prod.mk.injEq]
  constructor
  · rintro ⟨x, hx, a', ha, rfl, rfl⟩
    exact ⟨x, hx, rfl, ha⟩
  · rintro ⟨x, hx, rfl, ha⟩
    exact ⟨x, hx, a, ha, rfl, rfl⟩

theorem toLocal_of_notMem {t : Table InstId InstId} (h : id ∉ t.keys) :
    toLocal t (.inst id) = .inst id := by
  rw [toLocal, (t.get?_eq_none_iff id).2 h]
  rfl

theorem toLocal_of_ne {t : Table InstId InstId} (h : ∀ a, v = .inst a → a ∉ t.keys) :
    toLocal t v = v := by
  cases v with
  | const c => rfl
  | arg n => rfl
  | inst id => exact toLocal_of_notMem (h id rfl)

/-- The stack slots of `f`, the function `g₁` with local slots for them, and the function `g` in which
these stand in for the addresses. -/
structure Localized (f : Func) (stack : Value) (e : BlockId) (slots : StackSlots)
    (made : List (InstId × StackSlot)) (g₁ g : Func) : Prop where
  wellFormed : f.WellFormed
  entry : f.entry = some e
  split : f.StackSplit stack slots
  aligned : made.map (·.2) = slots.map (·.2)
  allotted : f.Allotted e made g₁
  substituted : g₁.Substituted (fun id => decide (id ∈ (homes made).keys)) (toLocal (homes made)) g

namespace Localized

theorem live (h : f.Localized stack e slots made g₁ g) : f.containsBlock e = true :=
  h.wellFormed.entry e h.entry

/-- An address belongs to a stack slot that has a local slot. -/
theorem address (h : f.Localized stack e slots made g₁ g) {x : InstId × StackSlot} (hx : x ∈ made) :
    ∃ offset, (offset, x.2) ∈ slots := by
  have hmem : x.2 ∈ slots.map (·.2) := by
    rw [← h.aligned]
    exact List.mem_map.2 ⟨x, hx, rfl⟩
  obtain ⟨⟨offset, slot⟩, hy, hslot⟩ := List.mem_map.1 hmem
  exact ⟨offset, hslot ▸ hy⟩

theorem isAddress (h : f.Localized stack e slots made g₁ g) {x : InstId × StackSlot} (hx : x ∈ made)
    {a : InstId} (ha : a ∈ x.2.addresses) : ∃ offset, f.IsAddress stack offset x.2.width a := by
  obtain ⟨offset, hy⟩ := h.address hx
  exact ⟨offset, h.split.address _ hy a ha⟩

/-- An address that is dropped, and the local slot that stands in for it. -/
theorem home (hid : id ∈ (homes made).keys) :
    ∃ x ∈ made, id ∈ x.2.addresses ∧ toLocal (homes made) (.inst id) = .inst x.1 := by
  obtain ⟨s, hs⟩ : ∃ s, (homes made).get? id = some s := by
    rw [← Option.ne_none_iff_exists']
    exact fun hnone => (Table.get?_eq_none_iff _ _).1 hnone hid
  obtain ⟨x, hx, rfl, ha⟩ := mem_homes.1 (Table.mem_of_get? hs)
  exact ⟨x, hx, ha, by rw [toLocal, hs]; rfl⟩

theorem mem_keys {x : InstId × StackSlot} (hx : x ∈ made) {a : InstId} (ha : a ∈ x.2.addresses) :
    a ∈ (homes made).keys :=
  List.mem_map.2 ⟨(a, x.1), mem_homes.2 ⟨x, hx, rfl, ha⟩, rfl⟩

/-- Addresses are old. -/
theorem index_lt (h : f.Localized stack e slots made g₁ g) (hid : id ∈ (homes made).keys) :
    id.index < f.arena.size := by
  obtain ⟨x, hx, ha, _⟩ := home hid
  obtain ⟨offset, haddr⟩ := h.isAddress hx ha
  obtain ⟨c, o, hi, _⟩ := haddr.offset
  exact index_lt_of_inst? hi

theorem notMem_keys (h : f.Localized stack e slots made g₁ g) {x : InstId × StackSlot}
    (hx : x ∈ made) : x.1 ∉ (homes made).keys := fun hmem =>
  absurd (h.allotted.new x hx).1 (Nat.not_le.2 (h.index_lt hmem))

/-- A local slot is at hand wherever something behind it is. -/
theorem available (h : f.Localized stack e slots made g₁ g) {x : InstId × StackSlot} (hx : x ∈ made)
    {before after : List InstId} (hsplit : g₁.instsOf b = before ++ id :: after)
    (hid : id ∈ f.instsOf b) (hphi : f.isPhi id = false) : g₁.Available b before x.1 := by
  have hc := h.allotted.wellFormed.consistent
  have hmem : x.1 ∈ g₁.instsOf e :=
    (h.allotted.mem_instsOf h.live).2 (.inl ⟨rfl, List.mem_map.2 ⟨x, hx, rfl⟩⟩)
  by_cases hbe : b = e
  · subst hbe
    have hrest : id ∈ (f.instsOf b).dropWhile f.isPhi := by
      have hwhole := f.instsOf_eq_phisOf_append b
      rw [hwhole] at hid
      refine (List.mem_append.1 hid).resolve_left fun hmem => ?_
      rw [of_mem_takeWhile hmem] at hphi
      cases hphi
    obtain ⟨l, r, hl⟩ := List.append_of_mem hrest
    have hsplit' : g₁.instsOf b =
        (f.phisOf b ++ (made.map (·.1)).reverse ++ l) ++ id :: r := by
      rw [h.allotted.instsOf_self h.live, hl, List.append_assoc _ l]
    rw [(hc.split_unique hsplit hsplit').2]
    refine .inl (List.mem_append_left _ (List.mem_append_right _ ?_))
    exact List.mem_reverse.2 (List.mem_map.2 ⟨x, hx, rfl⟩)
  · obtain ⟨data, hdata, hs⟩ := exists_block_of_mem hmem
    have hdom : g₁.Dominates e b := dominates_entry (h.allotted.entry.trans h.entry) b
    exact .inr ⟨e, data, ⟨Ne.symm hbe, hdom⟩, hdata, hs⟩

theorem replaceable (h : f.Localized stack e slots made g₁ g) :
    g₁.Replaceable (fun id => decide (id ∈ (homes made).keys)) (toLocal (homes made)) where
  others := by
    intro v hv
    exact toLocal_of_ne fun a ha => of_decide_eq_false (hv a ha)
  atHand := by
    intro b pre id hb hpre hid hdrop
    have hc := h.allotted.wellFormed.consistent
    obtain ⟨x, hx, ha, hlocal⟩ := home (of_decide_eq_true hdrop)
    obtain ⟨offset, haddr⟩ := h.isAddress hx ha
    obtain ⟨k, o, hi, _⟩ := haddr.offset
    obtain ⟨c, hidc, hcreach, _⟩ := hc.home_of_available hb hpre.subset hid
    obtain ⟨before, after, hsplit⟩ := List.append_of_mem (hc.mem_instsOf.2 hidc)
    have hmem : id ∈ f.instsOf c := by
      rw [h.wellFormed.consistent.mem_instsOf, ← (h.allotted.old id (index_lt_of_inst? hi)).2]
      exact hidc
    have hat : g₁.AtHand c before (.inst x.1) := h.available hx
      hsplit hmem (isPhi_inst hi)
    rw [hlocal]
    refine ⟨hc.atHand_of_available hsplit hat hb hpre hid, ?_⟩
    rintro j ⟨⟩
    exact decide_eq_false (h.notMem_keys hx)

theorem wellFormed_local (h : f.Localized stack e slots made g₁ g) : g.WellFormed :=
  h.substituted.wellFormed (h.replaceable.supplied h.allotted.wellFormed) h.allotted.wellFormed

theorem inst?_made (h : f.Localized stack e slots made g₁ g) {x : InstId × StackSlot} (hx : x ∈ made) :
    g.inst? x.1 = some ⟨.alloca x.2.width, some .ptr⟩ :=
  h.substituted.inst e x.1 _
    ((h.allotted.mem_instsOf h.live).2 (.inl ⟨rfl, List.mem_map.2 ⟨x, hx, rfl⟩⟩))
    (h.allotted.new x hx).2.2

theorem allocas (h : f.Localized stack e slots made g₁ g) (hs : s ∈ made.map (·.1)) :
    ∃ size o, g.inst? s = some ⟨.alloca size, o⟩ := by
  obtain ⟨x, hx, rfl⟩ := List.mem_map.1 hs
  exact ⟨_, _, h.inst?_made hx⟩

/-- Local slots are results, and so is what the addresses were not. -/
theorem readsResults (h : f.Localized stack e slots made g₁ g) (hres : f.ReadsResults) :
    g.ReadsResults := by
  intro b pre j hread p w ty hj
  obtain ⟨pre₁, v, hread₁, hv, _⟩ := h.substituted.reads_of h.allotted.wellFormed.consistent hread
  obtain ⟨pre₀, hread₀⟩ := h.allotted.reads_of h.live h.wellFormed.consistent hread₁
  by_cases hdrop : ∃ id, v = .inst id ∧ id ∈ (homes made).keys
  · obtain ⟨id, rfl, hid⟩ := hdrop
    obtain ⟨x, hx, _, hlocal⟩ := home hid
    rw [hlocal] at hv
    cases hv
    rw [h.inst?_made hx] at hj
    cases hj
  · have hsame : v = .inst j := by
      rw [← hv]
      refine (h.replaceable.others v ?_).symm
      rintro id rfl
      exact decide_eq_false fun hid => hdrop ⟨id, rfl, hid⟩
    subst hsame
    obtain ⟨c, hjc, _, _⟩ := h.wellFormed.consistent.home_of_available hread₀.reachable
      hread₀.pre_prefix.subset (hread₀.atHand h.wellFormed)
    have hmem := h.wellFormed.consistent.mem_instsOf.2 hjc
    obtain ⟨i, hi⟩ := h.wellFormed.consistent.inst?_of_mem hmem
    have hi₁ : g₁.inst? j = some i := by rw [(h.allotted.old j (index_lt_of_inst? hi)).1, hi]
    rw [h.substituted.inst c j i ((h.allotted.mem_instsOf h.live).2 (.inr hmem)) hi₁] at hj
    obtain ⟨kind, o⟩ := i
    cases kind with
    | store p' w' =>
      exact hres _ _ j (hread₀.mono fun _ hid => absurd hid Bool.false_ne_true) p' w' o hi
    | _ => cases hj

end Localized

/-! ### The pass -/

/-- Either the function stays as it is, or its stack slots become local slots and these are
promoted. -/
theorem promoteStack_of_slots (hwf : f.WellFormed) {o : Option StackSlots}
    (hslots : f.stackSlots stack = .ok o) :
    f.promoteStack stack = .ok (f, false) ∨
      ∃ e slots made g₁ g₂ g k, f.Localized stack e slots made g₁ g₂ ∧
        g₂.promoteAllocas (made.map (·.1)) = .ok (g, k) ∧ f.promoteStack stack = .ok (g, true) := by
  unfold promoteStack
  cases he : f.entry with
  | none => exact .inl rfl
  | some e =>
    simp only [hslots, bind, Except.bind]
    rcases o with _ | _ | ⟨slot, rest⟩
    · exact .inl rfl
    · exact .inl rfl
    · simp only
      obtain ⟨g₁, made, hadd, hmade, hallot⟩ :=
        addStackAllocas_spec hwf (hwf.entry e he) (slot :: rest)
      obtain ⟨g₂, hremove, hwithout⟩ := removeInsts_spec
        (hallot.wellFormed.consistent.housed.mapOperands (toLocal (homes made))) (homes made).keys
      have hlocal : f.Localized stack e (slot :: rest) made g₁ g₂ :=
        ⟨hwf, he, stackSlots_spec hslots, hmade, hallot,
          substituted_of_without hallot.wellFormed.consistent hwithout⟩
      obtain ⟨g, k, hpromote, _⟩ := promoteAllocas_spec hlocal.wellFormed_local hallot.nodup
        fun s hs => hlocal.allocas hs
      refine .inr ⟨e, _, made, g₁, g₂, g, k, hlocal, hpromote, ?_⟩
      simp only [hadd]
      show ((g₁.mapOperands (toLocal (homes made))).removeInsts (homes made).keys).bind (fun g₂ =>
        (g₂.promoteAllocas (made.map (·.1))).bind fun r => .ok (r.1, true)) = _
      rw [hremove]
      show (g₂.promoteAllocas (made.map (·.1))).bind (fun r => .ok (r.1, true)) = _
      rw [hpromote]
      rfl

theorem promoteStack_of_entry_none (hentry : f.entry = none) :
    f.promoteStack stack = .ok (f, false) := by
  unfold promoteStack
  rw [hentry]
  rfl

theorem promoteStack_returns (hwf : f.WellFormed) (hmade : f.ReadsMade) (stack : Value) :
    ∃ r, f.promoteStack stack = .ok r := by
  obtain ⟨o, hslots⟩ := stackSlots_returns hmade stack
  rcases promoteStack_of_slots hwf hslots with hsame | ⟨_, _, _, _, _, _, _, _, _, hg⟩
  · exact ⟨_, hsame⟩
  · exact ⟨_, hg⟩

theorem promoteStack_wellFormed (hwf : f.WellFormed) (hres : f.ReadsResults) {changed : Bool}
    (h : f.promoteStack stack = .ok (g, changed)) : g.WellFormed := by
  by_cases hentry : f.entry = none
  · rw [promoteStack_of_entry_none hentry] at h
    cases h
    exact hwf
  · obtain ⟨e, he⟩ := Option.ne_none_iff_exists'.1 hentry
    obtain ⟨o, hslots⟩ : ∃ o, f.stackSlots stack = .ok o := by
      cases hslots : f.stackSlots stack with
      | ok o => exact ⟨o, rfl⟩
      | error fault =>
        unfold promoteStack at h
        rw [he] at h
        simp only [hslots, bind, Except.bind] at h
        cases h
    rcases promoteStack_of_slots hwf hslots with hsame | ⟨e, slots, made, g₁, g₂, g', k, hl, hk, hg⟩
    · rw [hsame] at h
      cases h
      exact hwf
    · rw [hg] at h
      cases h
      obtain ⟨g', k', hk', hg'⟩ := promoteAllocas_wellFormed hl.wellFormed_local
        (hl.readsResults hres) hl.allotted.nodup fun s hs => hl.allocas hs
      rw [hk] at hk'
      cases hk'
      exact hg'

end BinaryLift.Func
