import BinaryLift.Proofs.Graph.Dominance
import BinaryLift.Proofs.Transform.StandIns

/-!
# Instructions that repeat a value

An instruction repeats a value if the value is at hand before it, has its type, and is equal to its
result from then on. A table that gives such a value for each of its instructions has no cycles, since
a value comes before whatever repeats it, so the instructions may be replaced all at once.
-/

namespace BinaryLift.Func

variable {f g : Func} {act : Activation} {own : InstId → Bool} {memory : Memory} {b c : BlockId}
  {pre before after : List InstId} {id j : InstId} {u v : Value} {t : Replacements} {m : Machine}

/-- What the instruction `id` computes is the value `v`. -/
structure Repeats (f : Func) (id : InstId) (v : Value) : Prop where
  home : ∃ b before after, f.Reachable b ∧ f.instsOf b = before ++ id :: after ∧
    f.AtHand b before v
  idle : ∀ i, f.inst? id = some i → i.kind.hasSideEffects = false
  ty : f.typeOf v = f.typeOf (.inst id)
  own : ∀ own, f.Orderly own → own id = false ∧ ∀ j, v = .inst j → own j = false
  value : ∀ (act : Activation) memory b pre m w, act.Leaves f → f.Orderly act.own →
    f.Visits act memory b pre m → f.Available b pre id → m.env id = some w →
      m.eval act f v = some w

namespace Repeats

theorem atHand (h : f.Repeats id v) (hc : f.Consistent) (hb : f.Reachable b)
    (hpre : pre <+: f.instsOf b) (hid : f.Available b pre id) : f.AtHand b pre v := by
  obtain ⟨c, before, after, _, hsplit, hv⟩ := h.home
  exact hc.atHand_of_available hsplit hv hb hpre hid

theorem trans (h : f.Repeats id (.inst j)) (h' : f.Repeats j v) (hwf : f.WellFormed) :
    f.Repeats id v where
  home := by
    obtain ⟨b, before, after, hb, hsplit, hj⟩ := h.home
    exact ⟨b, before, after, hb, hsplit, h'.atHand hwf.consistent hb (prefix_of_split hsplit) hj⟩
  idle := h.idle
  ty := h'.ty.trans h.ty
  own := fun own ho => ⟨(h.own own ho).1, (h'.own own ho).2⟩
  value := by
    intro act memory b pre m w hl ho hvisit hid hw
    have hj := h.atHand hwf.consistent (hvisit.reachable hwf hl) hvisit.pre_prefix hid
    exact h'.value act memory b pre m w hl ho hvisit hj
      (h.value act memory b pre m w hl ho hvisit hid hw)

end Repeats

/-! ### Order of instructions -/

theorem Consistent.length_instsOf_le (hc : f.Consistent) (b : BlockId) :
    (f.instsOf b).length ≤ f.arena.size := by
  have hsub : (f.instsOf b).map (·.index) ⊆ List.range f.arena.size := by
    intro n hn
    obtain ⟨id, hid, rfl⟩ := List.mem_map.1 hn
    obtain ⟨i, hi⟩ := hc.inst?_of_mem hid
    exact List.mem_range.2 (index_lt_of_inst? hi)
  have hnodup : ((f.instsOf b).map (·.index)).Nodup :=
    List.Pairwise.map _ (fun _ _ hne h => hne (index_inst_inj.1 h)) (hc.nodup_instsOf b)
  have hle := (List.subperm_of_subset hnodup hsub).length_le
  rwa [List.length_map, List.length_range] at hle

/-- Instructions can be numbered so that what is at hand at an instruction has a smaller number. -/
theorem WellFormed.exists_rank (hwf : f.WellFormed) : ∃ rank : InstId → Nat,
    ∀ b before id after j, f.Reachable b → f.instsOf b = before ++ id :: after →
      f.Available b before j → rank j < rank id := by
  cases he : f.entry with
  | none =>
    refine ⟨fun _ => 0, fun b _ _ _ _ ⟨p, hp⟩ _ _ => ?_⟩
    exact absurd he hp.entry_ne_none
  | some e =>
    have hc := hwf.consistent
    obtain ⟨d, _, hd⟩ := DomTree.compute_correct he (hwf.entry e he)
    -- by block first, then by position within the block
    let rank := fun id => (f.instBlock id).elim 0 fun b =>
      d.rpo.idxOf b * (f.arena.size + 1) + (f.instsOf b).idxOf id
    have hrank : ∀ b id, id ∈ f.instsOf b →
        rank id = d.rpo.idxOf b * (f.arena.size + 1) + (f.instsOf b).idxOf id := by
      intro b id hid
      simp only [rank, hc.mem_instsOf.1 hid, Option.elim_some]
    refine ⟨rank, fun b before id after j hb hsplit hj => ?_⟩
    have hid := mem_of_split hsplit
    have hnot := (hc.notMem_of_split hsplit).1
    rw [hrank b id hid]
    rcases hj with hj | ⟨a, data, hdom, hdata, hj⟩
    · have hjb : j ∈ f.instsOf b := (prefix_of_split hsplit).subset hj
      have hlt : (f.instsOf b).idxOf j < (f.instsOf b).idxOf id := by
        have hpos := List.idxOf_lt_length_of_mem hj
        rw [hsplit, List.idxOf_append_of_mem hj, List.idxOf_append_of_notMem hnot,
          List.idxOf_cons_self]
        omega
      rw [hrank b j hjb]
      omega
    · rw [← instsOf_eq hdata] at hj
      have hblock := hd.idxOf_lt hb hdom
      have hwithin := List.idxOf_lt_length_of_mem hj
      have hsize := hc.length_instsOf_le a
      have hmul := Nat.mul_le_mul_right (f.arena.size + 1) (Nat.succ_le_of_lt hblock)
      rw [Nat.succ_mul] at hmul
      rw [hrank a j hj]
      omega

/-! ### Tables -/

/-- Every instruction of the table repeats the value that it is replaced by. -/
def Repeated (f : Func) (t : Replacements) : Prop := ∀ id v, t.get? id = some v → f.Repeats id v

namespace Repeated

theorem insert (h : f.Repeated t) (hid : f.Repeats id v) : f.Repeated (t.insert id v) := by
  intro j u hu
  rw [Table.get?_insert] at hu
  split at hu
  · rename_i heq
    cases hu
    rwa [← heq]
  · exact h j u hu

theorem leads (h : f.Repeated t) (hwf : f.WellFormed) (v : Value) :
    t.Leads t.length v (t.chase v) := by
  obtain ⟨rank, hrank⟩ := hwf.exists_rank
  have hdown : ∀ i j, t.get? i = some (.inst j) → t.has j = true → rank j < rank i := by
    intro i j hij _
    obtain ⟨b, before, after, hb, hsplit, hj⟩ := (h i _ hij).home
    exact hrank b before i after j hb hsplit hj
  exact Replacements.leads_chase hdown v

theorem resolve (h : f.Repeated t) (hwf : f.WellFormed) (v : Value) :
    t.resolve v = .ok (t.chase v) := by
  simp only [Replacements.resolve, (h.leads hwf v).covers, Bool.false_eq_true, if_false]

theorem eq_or_repeats (h : f.Repeated t) (hwf : f.WellFormed) {n : Nat} (hvu : t.Leads n v u) :
    v = u ∨ ∃ id, v = .inst id ∧ f.Repeats id u := by
  induction hvu with
  | stop _ => exact .inl rfl
  | @link n id next u hget _ ih =>
    refine .inr ⟨id, rfl, ?_⟩
    rcases ih with rfl | ⟨j, rfl, hj⟩
    · exact h id _ hget
    · exact (h id _ hget).trans hj hwf

theorem chase_repeats (h : f.Repeated t) (hwf : f.WellFormed) (hid : t.has id = true) :
    f.Repeats id (t.chase (.inst id)) := by
  rcases h.eq_or_repeats hwf (h.leads hwf (.inst id)) with heq | ⟨j, hj, hrep⟩
  · have hcovers := (h.leads hwf (.inst id)).covers
    rw [← heq, Replacements.covers, hid] at hcovers
    cases hcovers
  · cases hj
    exact hrep

theorem replaceable (h : f.Repeated t) (hwf : f.WellFormed) : f.Replaceable t.has t.chase where
  others := by
    intro v hv
    refine Replacements.chase_of_covers ?_
    cases v with
    | const k => rfl
    | arg n => rfl
    | inst id => exact hv id rfl
  atHand := by
    intro b pre id hb hpre hid hhas
    refine ⟨(h.chase_repeats hwf hhas).atHand hwf.consistent hb hpre hid, fun j hj => ?_⟩
    have hcovers := (h.leads hwf (.inst id)).covers
    rwa [hj] at hcovers

theorem standsIn (h : f.Repeated t) (ho : f.Orderly own) : f.StandsIn own t.has t.chase where
  toReplaceable := h.replaceable ho.wellFormed
  idle := fun _ _ i _ _ hid hi => (h.chase_repeats ho.wellFormed hid).idle i hi
  ty := fun _ _ _ _ hid => (h.chase_repeats ho.wellFormed hid).ty
  own := fun _ _ _ _ hid => (h.chase_repeats ho.wellFormed hid).own own ho

theorem equals (h : f.Repeated t) (hl : act.Leaves f) (ho : f.Orderly act.own) :
    f.Equals act t.has t.chase :=
  fun memory b pre m _ w hvisit hav hid hw =>
    (h.chase_repeats ho.wellFormed hid).value act memory b pre m w hl ho hvisit hav hw

theorem atHand_chase (h : f.Repeated t) (hwf : f.WellFormed) (hb : f.Reachable b)
    (hpre : pre <+: f.instsOf b) (hv : f.AtHand b pre v) : f.AtHand b pre (t.chase v) :=
  ((h.replaceable hwf).rename hb hpre hv).1

theorem eval_chase (h : f.Repeated t) (hl : act.Leaves f) (ho : f.Orderly act.own)
    (hvisit : f.Visits act memory b pre m) (hv : f.AtHand b pre v) {w : Word}
    (hw : m.eval act f v = some w) : m.eval act f (t.chase v) = some w :=
  (h.equals hl ho).eval (h.replaceable ho.wellFormed) hvisit hv hw

theorem typeOf_chase (h : f.Repeated t) (hwf : f.WellFormed) (v : Value) :
    f.typeOf (t.chase v) = f.typeOf v := by
  rcases h.eq_or_repeats hwf (h.leads hwf v) with heq | ⟨id, rfl, hrep⟩
  · rw [← heq]
  · exact hrep.ty

/-- Replacing what is repeated makes no difference to an execution. -/
theorem substitute (h : f.Repeated t) (hwf : f.WellFormed) :
    ∃ g changed, f.substitute t = .ok (g, changed) ∧ f.Keeps g := by
  unfold Func.substitute
  split
  · exact ⟨f, false, rfl, .refl hwf⟩
  · rw [applyReplacements_eq]
    obtain ⟨g, hg, hwithout⟩ :=
      removeInsts_spec (hwf.consistent.housed.mapOperands t.chase) t.keys
    have hhas : (fun id => decide (id ∈ t.keys)) = t.has := by
      funext id
      rw [Bool.eq_iff_iff, decide_eq_true_iff, Table.has, Option.isSome_iff_ne_none, ne_eq,
        Table.get?_eq_none_iff, not_not]
    have hsub := substituted_of_without hwf.consistent hwithout
    rw [hhas] at hsub
    refine ⟨g, true, by rw [hg]; rfl, ?_⟩
    exact hsub.keeps hwf (h.replaceable hwf) (fun _ ho => h.standsIn ho) fun _ hl ho => h.equals hl ho

end Repeated

end BinaryLift.Func
