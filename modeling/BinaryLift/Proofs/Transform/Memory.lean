import BinaryLift.Proofs.Transform.Insertion
import BinaryLift.Proofs.Transform.Recasting
import BinaryLift.Proofs.Transform.Rounds
import BinaryLift.Proofs.Transform.StandIns
import BinaryLift.Transform.Memory

/-!
# SSA form and memory accesses

A constant stands in for a folded load, a converted integer has an operand of the offset that it
replaces, and a narrow load stands directly before the wide one. A wide load may go because it has one
reader; the readers are counted once, so live code must not name an instruction that is yet to be
made.
-/

namespace BinaryLift.Func

variable {f g : Func} {b : BlockId} {pre post : List InstId} {i : Inst} {id j : InstId} {v w : Value}
  {u : User} {drop : InstId → Bool} {ρ : Value → Value} {img : Image} {memory : Nat}
  {policy : MemoryPolicy} {changed : Bool}

/-! ### Constant loads -/

theorem constantLoad_eq_ok (h : f.constantLoad img memory policy id = .ok (some v)) :
    ∃ c, v = .const c := by
  unfold constantLoad at h
  cases hi : f.inst id with
  | error e =>
    rw [hi] at h
    cases h
  | ok i =>
    rw [hi] at h
    simp only [bind, Except.bind] at h
    split at h
    · split at h
      · cases h
      · rename_i p ty _ _ _
        cases ha : f.constantAddress memory p with
        | error e =>
          rw [ha] at h
          cases h
        | ok address =>
          rw [ha] at h
          obtain ⟨word, _, rfl⟩ := Option.map_eq_some_iff.1 (Except.ok.inj h)
          exact ⟨_, rfl⟩
    · cases h

theorem foldImageLoads_wellFormed (hwf : f.WellFormed)
    (h : f.foldImageLoads img memory policy = .ok (g, changed)) : g.WellFormed := by
  refine sweepOver_keeps (I := WellFormed) ?_ hwf h
  intro id f₁ f₂ c hf₁ hstep
  cases hload : f₁.constantLoad img memory policy id with
  | error e =>
    simp only [hload, bind, Except.bind] at hstep
    cases hstep
  | ok o =>
    simp only [hload, bind, Except.bind] at hstep
    cases o with
    | none =>
      cases hstep
      exact hf₁
    | some v =>
      obtain ⟨k, rfl⟩ := constantLoad_eq_ok hload
      obtain ⟨f₃, hremove, hsub⟩ := replace_spec hf₁.consistent id (.const k)
      simp only [hremove] at hstep
      cases hstep
      have hreplaceable : f₁.Replaceable (fun j => decide (j = id)) (replaceResult id (.const k)) :=
        replaceable_of_atHand hf₁.consistent fun _ _ _ _ _ => trivial
      exact hsub.wellFormed (hreplaceable.supplied hf₁) hf₁

/-! ### Offsets from the memory parameter -/

/-- What every conversion of an offset keeps is kept by the sweep. -/
theorem flattenMemory_spec {I : Func → Prop} (hwf : f.WellFormed) (memory : Nat) (hI : I f)
    (hstep : ∀ g id offset o, I g → g.Recast (g.modifyKind id fun _ => .cast .inttoptr offset) id
      ⟨.ptrAdd (.arg memory) offset, o⟩ (.cast .inttoptr offset) →
      I (g.modifyKind id fun _ => .cast .inttoptr offset)) :
    ∃ g changed, f.flattenMemory memory = .ok (g, changed) ∧ g.WellFormed ∧ I g := by
  have hmade : ∀ x ∈ f.liveInsts, ∃ i, f.inst? x = some i := by
    intro x hx
    obtain ⟨b, hb⟩ := mem_liveInsts.1 hx
    exact hwf.consistent.inst?_of_mem hb
  suffices hspec : ∃ g c, f.flattenMemory memory = .ok (g, c) ∧ (g.WellFormed ∧ I g) ∧
      ∀ x ∈ f.liveInsts, ∃ i, g.inst? x = some i by
    obtain ⟨g, c, hg, ⟨hgwf, hgI⟩, _⟩ := hspec
    exact ⟨g, c, hg, hgwf, hgI⟩
  refine sweepOver_spec (I := fun g _ => (g.WellFormed ∧ I g) ∧
    ∀ x ∈ f.liveInsts, ∃ i, g.inst? x = some i) ?_ ⟨⟨hwf, hI⟩, hmade⟩
  rintro id hid g _ ⟨⟨hg, hgI⟩, hmade⟩
  obtain ⟨⟨kind, o⟩, hi⟩ := hmade id hid
  simp only [kind_of_inst? hi, bind, Except.bind]
  cases kind with
  | ptrAdd base offset =>
    simp only
    split
    · rename_i hbase
      subst hbase
      have hrecast : g.Recast (g.modifyKind id fun _ => .cast .inttoptr offset) id
          ⟨.ptrAdd (.arg memory) offset, o⟩ (.cast .inttoptr offset) := by
        refine recast_modifyKind hi rfl rfl rfl ?_
        intro b before after hb hsplit v hv
        refine hg.use hb hsplit hi rfl ?_
        rw [List.mem_singleton.1 hv]
        simp [Kind.operands]
      refine ⟨_, _, rfl, ⟨hrecast.wellFormed hg, hstep g id offset o hgI hrecast⟩, fun x hx => ?_⟩
      obtain ⟨k, hk⟩ := hmade x hx
      rw [inst?_modifyKind, hk]
      split
      · exact ⟨_, rfl⟩
      · exact ⟨_, rfl⟩
    · exact ⟨g, false, rfl, ⟨hg, hgI⟩, hmade⟩
  | _ => exact ⟨g, false, rfl, ⟨hg, hgI⟩, hmade⟩

theorem flattenMemory_wellFormed (hwf : f.WellFormed) (memory : Nat) :
    ∃ g changed, f.flattenMemory memory = .ok (g, changed) ∧ g.WellFormed := by
  obtain ⟨g, c, hg, hgwf, _⟩ := flattenMemory_spec (I := fun _ => True) hwf memory trivial
    fun _ _ _ _ _ _ => trivial
  exact ⟨g, c, hg, hgwf⟩

/-! ### Readers -/

/-- Live code names only instructions that have been made. -/
def NamesMade (f : Func) : Prop := ∀ j u, u ∈ f.usersOf (.inst j) → j.index < f.arena.size

theorem Substituted.mem_usersOf (h : f.Substituted drop ρ g) (hc : f.Consistent)
    (hu : u ∈ g.usersOf w) :
    ∃ v, ρ v = w ∧ u ∈ f.usersOf v ∧ ∀ id, u = .inst id → drop id = false := by
  obtain ⟨b, data', hdata', hread⟩ := Func.mem_usersOf.1 hu
  rw [h.block b] at hdata'
  obtain ⟨data, hdata, rfl⟩ := Option.map_eq_some_iff.1 hdata'
  rcases hread with ⟨id, k, hid, hk, hop, rfl⟩ | ⟨hop, rfl⟩
  · obtain ⟨hmem, hkeep⟩ := List.mem_filter.1 hid
    obtain ⟨i, hi⟩ := hc.inst? hdata hmem
    rw [h.inst b id i (instsOf_eq hdata ▸ hmem) hi] at hk
    cases hk
    rw [Kind.operands_mapOperands] at hop
    obtain ⟨v, hv, rfl⟩ := List.mem_map.1 hop
    refine ⟨v, rfl, Func.mem_usersOf.2 ⟨b, data, hdata, .inl ⟨id, i, hmem, hi, hv, rfl⟩⟩, ?_⟩
    rintro id' heq
    cases heq
    simpa using hkeep
  · rw [Terminator.operands_mapOperands] at hop
    obtain ⟨v, hv, rfl⟩ := List.mem_map.1 hop
    exact ⟨v, rfl, Func.mem_usersOf.2 ⟨b, data, hdata, .inr ⟨hv, rfl⟩⟩, fun _ heq => nomatch heq⟩

theorem Inserted.mem_usersOf (h : f.Inserted b pre post i g) (hc : f.Consistent)
    (hu : u ∈ g.usersOf v) : u ∈ f.usersOf v ∨ (u = .inst f.fresh ∧ v ∈ i.kind.operands) := by
  obtain ⟨c, data', hdata', hread⟩ := Func.mem_usersOf.1 hu
  rcases hread with ⟨id, k, hid, hk, hop, rfl⟩ | ⟨hop, rfl⟩
  · rw [← instsOf_eq hdata', h.mem_instsOf] at hid
    rcases hid with ⟨_, rfl⟩ | hid
    · rw [h.inst?_fresh] at hk
      cases hk
      exact .inr ⟨rfl, hop⟩
    · rw [h.inst?_of_mem hc hid] at hk
      exact .inl (usersOf_of_mem hid hk hop)
  · rw [h.block c] at hdata'
    obtain ⟨data, hdata, rfl⟩ := Option.map_eq_some_iff.1 hdata'
    have hterm : (if c = b then { data with insts := pre ++ f.fresh :: post } else data).term =
        data.term := by split <;> rfl
    rw [hterm] at hop
    exact .inl (Func.mem_usersOf.2 ⟨c, data, hdata, .inr ⟨hop, rfl⟩⟩)

/-! ### Narrow loads -/

/-- What holds between the narrowings of a sweep over `f`: a load with one reader has at most one,
and a narrowing that is gone has taken its load along. -/
structure Narrowing (f g : Func) : Prop where
  wellFormed : g.WellFormed
  made : ∀ x, x.index < f.arena.size → ∃ i, g.inst? x = some i
  single : ∀ x, x.index < f.arena.size → f.useCount x = 1 →
    ∀ u ∈ g.usersOf (.inst x), ∀ u' ∈ g.usersOf (.inst x), u = u'
  settled : ∀ x ∈ f.liveInsts, g.isLive x = false →
    ∀ load ty, g.inst? x = some ⟨.cast .trunc (.inst load), ty⟩ →
      (∃ i, g.inst? load = some i) ∧ g.isLive load = false

theorem narrowing_start (hwf : f.WellFormed) : f.Narrowing f where
  wellFormed := hwf
  made := by
    intro x hx
    rw [inst?, Array.getElem?_eq_getElem hx]
    exact ⟨_, rfl⟩
  single := by
    intro x _ hcount u hu u' hu'
    obtain ⟨w, hw⟩ := List.length_eq_one_iff.1 hcount
    rw [hw, List.mem_singleton] at hu hu'
    rw [hu, hu']
  settled := by
    intro x hx hdead
    obtain ⟨b, hb⟩ := mem_liveInsts.1 hx
    rw [isLive, hwf.consistent.mem_instsOf.1 hb] at hdead
    cases hdead

theorem narrowable?_spec {ty : Option Ty} {k : Kind} (hi : f.inst? id = some ⟨k, ty⟩)
    (hc : f.Consistent) :
    ∃ o, f.narrowable? id = .ok o ∧ ∀ load ptr, o = some (load, ptr) →
      k = .cast .trunc (.inst load) ∧ (∃ b, load ∈ f.instsOf b) ∧
        ∃ t, f.inst? load = some ⟨.load ptr, t⟩ := by
  have hnone : ∃ o, (pure none : Checked (Option (InstId × Value))) = .ok o ∧
      ∀ load ptr, o = some (load, ptr) → k = .cast .trunc (.inst load) ∧
        (∃ b, load ∈ f.instsOf b) ∧ ∃ t, f.inst? load = some ⟨.load ptr, t⟩ := by
    refine ⟨none, rfl, ?_⟩
    rintro load ptr ⟨⟩
  unfold narrowable?
  simp only [kind_of_inst? hi, bind, Except.bind]
  split
  · rename_i load
    by_cases hlive : f.isLive load = true
    · obtain ⟨b, hb⟩ := Option.isSome_iff_exists.1 hlive
      have hmem := hc.mem_instsOf.2 hb
      obtain ⟨⟨kind, o⟩, hload⟩ := hc.inst?_of_mem hmem
      have hinst : f.inst load = .ok ⟨kind, o⟩ := by simp only [inst, hload]
      rw [hlive]
      simp only [Bool.not_true, Bool.false_eq_true, if_false, hinst]
      split
      · rename_i p t heq
        cases heq
        split
        · exact hnone
        · refine ⟨_, rfl, ?_⟩
          rintro load' ptr ⟨⟩
          exact ⟨rfl, ⟨b, hmem⟩, _, hload⟩
      · exact hnone
    · rw [Bool.not_eq_true] at hlive
      rw [hlive]
      exact hnone
  · exact hnone

/-- The wide load and the instruction that cuts it down. -/
structure Cuts (f : Func) (id load : InstId) (ptr : Value) : Prop where
  trunc : ∃ b ty, id ∈ f.instsOf b ∧ f.inst? id = some ⟨.cast .trunc (.inst load), ty⟩
  wide : ∃ b t, load ∈ f.instsOf b ∧ f.inst? load = some ⟨.load ptr, t⟩
  single : ∀ u ∈ f.usersOf (.inst load), u = .inst id

namespace Cuts

variable {load : InstId} {ptr : Value}

theorem ne (h : f.Cuts id load ptr) : load ≠ id := by
  rintro rfl
  obtain ⟨_, _, _, hi⟩ := h.trunc
  obtain ⟨_, _, _, hi'⟩ := h.wide
  rw [hi] at hi'
  cases hi'

/-- The narrow load stands before the wide one, and nothing else reads the wide one. -/
theorem supplied (h : f.Cuts id load ptr) (hwf : f.WellFormed) {before after : List InstId}
    (hsplit : f.instsOf b = before ++ load :: after) {ty : Option Ty} {g : Func}
    (hins : f.Inserted b before (load :: after) ⟨.load ptr, ty⟩ g) (hg : g.WellFormed) :
    g.Supplied (fun x => decide (x ∈ [id, load])) (replaceResult id (.inst f.fresh)) := by
  have hc := hwf.consistent
  obtain ⟨c, o, hid, hi⟩ := h.trunc
  have hidlive : id ∈ g.instsOf c := hins.mem_instsOf.2 (.inr hid)
  have hgi : g.inst? id = some ⟨.cast .trunc (.inst load), o⟩ := by
    rw [hins.inst?_of_mem hc hid, hi]
  have hgload : g.instsOf b = (before ++ [f.fresh]) ++ load :: after := by
    rw [hins.instsOf_self, ← List.append_cons]
  have hfresh : ∀ x ∈ [id, load], x ≠ f.fresh := by
    intro x hx
    rcases List.mem_cons.1 hx with rfl | hx
    · exact Inserted.ne_fresh hc hid
    · rw [List.mem_singleton.1 hx]
      exact Inserted.ne_fresh hc (mem_of_split hsplit)
  intro a pre v hread
  have hat := hread.atHand hg
  by_cases hv : v = .inst id
  · subst hv
    rw [replaceResult, if_pos rfl]
    refine ⟨?_, ?_⟩
    · -- with the result the wide load is at hand, and before it the narrow one
      have hwide : g.AtHand a pre (.inst load) :=
        hg.operand_atHand hread.reachable hread.pre_prefix hat hgi rfl (List.mem_singleton_self _)
      refine hg.consistent.atHand_of_available (v := .inst f.fresh) hgload ?_ hread.reachable
        hread.pre_prefix hwide
      exact .inl (List.mem_append_right _ (List.mem_singleton_self _))
    · rintro x ⟨⟩
      exact decide_eq_false fun hx => hfresh _ hx rfl
  · rw [replaceResult, if_neg hv]
    refine ⟨hat, ?_⟩
    rintro x rfl
    refine decide_eq_false fun hx => ?_
    rcases List.mem_cons.1 hx with rfl | hx
    · exact hv rfl
    -- a reader of the wide load that stays
    rw [List.mem_singleton.1 hx] at hread
    obtain ⟨u, hu, hkept⟩ := hread.user
    rcases hins.mem_usersOf hc hu with hu | ⟨rfl, hop⟩
    · have hnot := of_decide_eq_false (hkept id (h.single u hu))
      exact hnot List.mem_cons_self
    · obtain ⟨d, t, hmem, hl⟩ := h.wide
      have hself := h.single (.inst load) (usersOf_of_mem hmem hl hop)
      cases hself
      exact h.ne rfl

end Cuts

/-- One narrowing: the narrow load `g.fresh` comes in before the wide one, in `g₁`, and takes the
place of the result of `id`, in `g₂`. -/
structure Narrows (g : Func) (id load : InstId) (ptr : Value) (ty : Option Ty) (b : BlockId)
    (before after : List InstId) (g₁ g₂ : Func) : Prop where
  cuts : g.Cuts id load ptr
  trunc : g.inst? id = some ⟨.cast .trunc (.inst load), ty⟩
  split : g.instsOf b = before ++ load :: after
  inserted : g.Inserted b before (load :: after) ⟨.load ptr, ty⟩ g₁
  out : (g₁.mapOperands (replaceResult id (.inst g.fresh))).Without [id, load] g₂

namespace Narrows

variable {g₁ g₂ : Func} {load : InstId} {ptr : Value} {ty : Option Ty} {before after : List InstId}
  {x : InstId}

section

variable (h : g.Narrows id load ptr ty b before after g₁ g₂)

include h

theorem wellFormed_mid (hwf : g.WellFormed) : g₁.WellFormed := by
  obtain ⟨_, _, _, hwide⟩ := h.cuts.wide
  exact h.inserted.wellFormed hwf fun hb v hv => hwf.use hb h.split hwide rfl hv

theorem substituted (hwf : g.WellFormed) : g₁.Substituted (fun x => decide (x ∈ [id, load]))
    (replaceResult id (.inst g.fresh)) g₂ :=
  substituted_of_without (h.wellFormed_mid hwf).consistent h.out

theorem isLive_mid (hx : g.inst? x = some i) : g₁.isLive x = g.isLive x := by
  rw [isLive, h.inserted.instBlock x, if_neg (ne_fresh_of_inst? hx), isLive]

theorem isLive_old (hx : g.inst? x = some i) :
    g₂.isLive x = if x ∈ [id, load] then false else g.isLive x := by
  rw [isLive, h.out.instBlock x, instBlock_mapOperands, h.inserted.instBlock x,
    if_neg (ne_fresh_of_inst? hx)]
  split <;> rfl

theorem inst?_old (hx : g.inst? x = some i) : g₂.inst? x = some
    ⟨if g.isLive x then i.kind.mapOperands (replaceResult id (.inst g.fresh)) else i.kind,
      i.ty⟩ := by
  rw [h.out.inst?, inst?_mapOperands _ (h.inserted.inst?_old hx), h.isLive_mid hx]

/-- A reader afterwards is a reader that stays, or the narrow load in place of the wide one. -/
theorem reader_old (hwf : g.WellFormed) (hx : g.inst? x = some i) (hu : u ∈ g₂.usersOf (.inst x)) :
    (u ∈ g.usersOf (.inst x) ∧ u ≠ .inst load) ∨
      (u = .inst g.fresh ∧ .inst load ∈ g.usersOf (.inst x)) := by
  obtain ⟨v, hv, hu₁, hkeep⟩ := (h.substituted hwf).mem_usersOf (h.wellFormed_mid hwf).consistent hu
  have hvx : v = .inst x := by
    unfold replaceResult at hv
    split at hv
    · cases hv
      exact absurd rfl (ne_fresh_of_inst? hx)
    · exact hv
  subst hvx
  rcases h.inserted.mem_usersOf hwf.consistent hu₁ with hu | ⟨rfl, hop⟩
  · refine .inl ⟨hu, ?_⟩
    rintro rfl
    have hdropped := hkeep load rfl
    simp at hdropped
  · obtain ⟨d, t, hmem, hl⟩ := h.cuts.wide
    exact .inr ⟨rfl, usersOf_of_mem hmem hl hop⟩

/-- What is taken out is gone, and so is what was gone before. -/
theorem gone (hx : g.inst? x = some i) (hdead : x ∉ [id, load] → g.isLive x = false) :
    (∃ k, g₂.inst? x = some k) ∧ g₂.isLive x = false := by
  refine ⟨⟨_, h.inst?_old hx⟩, ?_⟩
  rw [h.isLive_old hx]
  split
  · rfl
  · rename_i hnot
    exact hdead hnot

end

/-- Of one reader there is at most one left. -/
theorem single (h : g.Narrows id load ptr ty b before after g₁ g₂) (hwf : g.WellFormed)
    (hx : g.inst? x = some i)
    (hone : ∀ u ∈ g.usersOf (.inst x), ∀ u' ∈ g.usersOf (.inst x), u = u') :
    ∀ u ∈ g₂.usersOf (.inst x), ∀ u' ∈ g₂.usersOf (.inst x), u = u' := by
  intro u hu u' hu'
  rcases h.reader_old hwf hx hu with ⟨h₁, hne⟩ | ⟨rfl, h₁⟩ <;>
    rcases h.reader_old hwf hx hu' with ⟨h₂, hne'⟩ | ⟨rfl, h₂⟩
  · exact hone u h₁ u' h₂
  · exact absurd (hone u h₁ _ h₂) hne
  · exact absurd (hone u' h₂ _ h₁) hne'
  · rfl

/-- A narrowing that is gone has taken its load along, where those that were gone before had. -/
theorem takesAlong (h : g.Narrows id load ptr ty b before after g₁ g₂) (hwf : g.WellFormed)
    (hx : g.inst? x = some i) (hdead : g₂.isLive x = false)
    (hbefore : g.isLive x = false → ∀ l o, g.inst? x = some ⟨.cast .trunc (.inst l), o⟩ →
      (∃ k, g.inst? l = some k) ∧ g.isLive l = false)
    {l : InstId} {o : Option Ty} (hk : g₂.inst? x = some ⟨.cast .trunc (.inst l), o⟩) :
    (∃ k, g₂.inst? l = some k) ∧ g₂.isLive l = false := by
  rw [h.isLive_old hx] at hdead
  rw [h.inst?_old hx] at hk
  obtain ⟨_, _, hid, htrunc⟩ := h.cuts.trunc
  obtain ⟨_, _, hload, hwide⟩ := h.cuts.wide
  by_cases hxid : x = id
  · subst hxid
    rw [hx] at htrunc
    cases htrunc
    have hsame : replaceResult x (.inst g.fresh) (.inst load) = .inst load :=
      if_neg fun heq => h.cuts.ne (Value.inst.inj heq)
    simp only [hwf.consistent.isLive_of_mem hid, if_true, Kind.mapOperands, hsame] at hk
    cases hk
    exact h.gone hwide fun hnot => absurd (by simp) hnot
  by_cases hxload : x = load
  · subst hxload
    rw [hx] at hwide
    cases hwide
    split at hk <;> cases hk
  · have hnot : x ∉ [id, load] := by simp [hxid, hxload]
    rw [if_neg hnot] at hdead
    rw [hdead] at hk
    cases i
    cases hk
    obtain ⟨⟨k, hl⟩, hgone⟩ := hbefore hdead l _ hx
    exact h.gone hl fun _ => hgone

end Narrows

/-- A narrowing keeps the readers of every other load apart and settles its own. -/
theorem Narrowing.narrow {load : InstId} {ptr : Value} {before after : List InstId} {ty : Option Ty}
    {g₁ g₂ : Func} (h : f.Narrowing g) (hc : f.Consistent)
    (hn : g.Narrows id load ptr ty b before after g₁ g₂) : f.Narrowing g₂ where
  wellFormed := (hn.substituted h.wellFormed).wellFormed
    (hn.cuts.supplied h.wellFormed hn.split hn.inserted (hn.wellFormed_mid h.wellFormed))
    (hn.wellFormed_mid h.wellFormed)
  made := by
    intro x hx
    obtain ⟨i, hi⟩ := h.made x hx
    exact ⟨_, hn.inst?_old hi⟩
  single := by
    intro x hx hcount
    obtain ⟨i, hi⟩ := h.made x hx
    exact hn.single h.wellFormed hi (h.single x hx hcount)
  settled := by
    intro x hx hdead l o hk
    obtain ⟨c, hxc⟩ := mem_liveInsts.1 hx
    obtain ⟨data, hdata, hmem⟩ := exists_block_of_mem hxc
    obtain ⟨i, hi⟩ := h.made x (hc.index_lt hdata hmem)
    exact hn.takesAlong h.wellFormed hi hdead (h.settled x hx) hk

/-- A step of the sweep leaves the function or narrows one load. -/
theorem Narrowing.narrowLoad_cases (hc : f.Consistent) (hnames : f.NamesMade) (h : f.Narrowing g)
    (hid : id ∈ f.liveInsts) :
    narrowLoad f.useCount g id = .ok (g, false) ∨
      ∃ load ptr ty b before after g₁ g₂, narrowLoad f.useCount g id = .ok (g₂, true) ∧
        g.Narrows id load ptr ty b before after g₁ g₂ := by
  obtain ⟨b₀, hid₀⟩ := mem_liveInsts.1 hid
  obtain ⟨data, hdata, hmem⟩ := exists_block_of_mem hid₀
  obtain ⟨⟨k, ty⟩, hi⟩ := h.made id (hc.index_lt hdata hmem)
  obtain ⟨o, ho, hspec⟩ := narrowable?_spec hi h.wellFormed.consistent
  unfold narrowLoad
  simp only [ho, bind, Except.bind]
  cases o with
  | none => exact .inl rfl
  | some r =>
    obtain ⟨load, ptr⟩ := r
    by_cases hcount : f.useCount load = 1
    · obtain ⟨rfl, ⟨b, hb⟩, t, hload⟩ := hspec load ptr rfl
      have hlt : load.index < f.arena.size := by
        obtain ⟨u, hu⟩ := List.length_eq_one_iff.1 hcount
        exact hnames load u (by rw [hu]; exact List.mem_singleton_self u)
      have hlive : g.isLive id = true := by
        cases hdead : g.isLive id with
        | true => rfl
        | false =>
          have hgone := (h.settled id hid hdead load ty hi).2
          rw [isLive, h.wellFormed.consistent.mem_instsOf.1 hb] at hgone
          cases hgone
      obtain ⟨c, hidc⟩ := Option.isSome_iff_exists.1 hlive
      have hidmem := h.wellFormed.consistent.mem_instsOf.2 hidc
      have hcuts : g.Cuts id load ptr := ⟨⟨c, ty, hidmem, hi⟩, ⟨b, t, hb, hload⟩, fun u hu =>
        h.single load hlt hcount u hu _ (usersOf_of_mem hidmem hi (List.mem_singleton_self _))⟩
      obtain ⟨before, after, hsplit⟩ := List.append_of_mem hb
      obtain ⟨g₁, hg₁, hins⟩ := insertBefore_inserted (i := ⟨.load ptr, ty⟩) h.wellFormed hsplit
        (isPhi_inst hload) rfl
      have hg₁wf := hins.wellFormed h.wellFormed fun hb v hv =>
        h.wellFormed.use hb hsplit hload rfl hv
      obtain ⟨g₂, hg₂, hout⟩ := removeInsts_spec
        (hg₁wf.consistent.housed.mapOperands (replaceResult id (.inst g.fresh))) [id, load]
      refine .inr ⟨load, ptr, ty, b, before, after, g₁, g₂, ?_, ⟨hcuts, hi, hsplit, hins, hout⟩⟩
      have hinst : g.inst id = .ok ⟨.cast .trunc (.inst load), ty⟩ := by simp only [inst, hi]
      rw [← replaceAllUses_eq] at hg₂
      simp only [hcount, ne_eq, not_true_eq_false, if_false, hinst, hg₁, hg₂]
      rfl
    · simp only [ne_eq, hcount, not_false_eq_true, if_true]
      exact .inl rfl

theorem Narrowing.step (hc : f.Consistent) (hnames : f.NamesMade) (h : f.Narrowing g)
    (hid : id ∈ f.liveInsts) :
    ∃ g' c, narrowLoad f.useCount g id = .ok (g', c) ∧ f.Narrowing g' := by
  rcases h.narrowLoad_cases hc hnames hid with hsame | ⟨_, _, _, _, _, _, _, g₂, hstep, hn⟩
  · exact ⟨g, false, hsame, h⟩
  · exact ⟨g₂, true, hstep, h.narrow hc hn⟩

theorem narrowLoads_wellFormed (hwf : f.WellFormed) (hnames : f.NamesMade) :
    ∃ g changed, f.narrowLoads = .ok (g, changed) ∧ g.WellFormed := by
  have hspec : ∃ g c, f.narrowLoads = .ok (g, c) ∧ f.Narrowing g :=
    sweepOver_spec (I := fun g _ => f.Narrowing g)
      (fun id hid g _ h => h.step hwf.consistent hnames hid) (narrowing_start hwf)
  obtain ⟨g, c, hg, h⟩ := hspec
  exact ⟨g, c, hg, h.wellFormed⟩

end BinaryLift.Func
