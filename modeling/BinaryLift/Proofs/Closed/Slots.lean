import BinaryLift.Proofs.Closed.Graph
import BinaryLift.Proofs.Closed.Numbering
import BinaryLift.Proofs.Graph.Preorder
import BinaryLift.Proofs.Transform.StackSlots

/-!
# Promoting the slots of closed functions

Accesses stand in reachable blocks, but their operands may be anything that has been made. Phis go into
live blocks, the walk down the dominator tree visits live blocks only, and every value that a slot is
ever said to hold is known. Promotion always comes to its end.
-/

namespace BinaryLift

namespace Func

variable {f g : Func} {P : InstId → Prop} {b e : BlockId} {id : InstId} {v : Value} {s : Prop}
  {slots : List (InstId × Ty)} {phis : SlotPhis} {d : DomTree}

namespace Enclosed

/-! ### Readers -/

theorem knows_of_user (h : f.Enclosed P) (hu : User.inst id ∈ f.usersOf v) : f.Knows P (.inst id) := by
  obtain ⟨b, data, hdata, ⟨j, i, hj, _, _, heq⟩ | ⟨_, heq⟩⟩ := mem_usersOf.1 hu
  · cases heq
    exact h.knows_of_mem (b := b) (by rw [instsOf_eq hdata]; exact hj)
  · cases heq

theorem gives_slotAccess (h : f.Enclosed P) (slot : Value) (hid : f.Knows P (.inst id)) :
    Gives s (fun _ => True) (f.slotAccess slot id) := by
  unfold slotAccess
  refine (h.gives_inst hid).bind fun i hi => ?_
  split
  · split <;> exact .pure trivial
  · rename_i ptr value hk
    split
    · exact gives_valueTy (hi.2 value (by rw [hk]; simp [Kind.operands]))
    · exact .pure trivial
  · exact .pure trivial

theorem gives_accessTy (h : f.Enclosed P) (dom : DomTree) (slot : Value) {users : List User}
    (husers : ∀ id, .inst id ∈ users → f.Knows P (.inst id)) (acc : Option Ty) :
    Gives s (fun _ => True) (f.accessTy dom slot acc users) := by
  induction users generalizing acc with
  | nil => exact .pure trivial
  | cons u users ih =>
    cases u with
    | term b => exact .pure trivial
    | inst id =>
      unfold accessTy
      split
      · exact .pure trivial
      · refine (h.gives_slotAccess slot (husers id List.mem_cons_self)).bind fun o _ => ?_
        split
        · exact .pure trivial
        · split
          · exact ih (fun j hj => husers j (List.mem_cons_of_mem _ hj)) _
          · exact .pure trivial

theorem gives_promotable (h : f.Enclosed P) (dom : DomTree) (allocas : List InstId) :
    Gives s (fun _ => True) (f.promotable dom allocas) := by
  unfold promotable
  refine (Gives.filterMapM (R := fun _ => True) fun id _ => ?_).mono fun _ _ => trivial
  refine Gives.bind (P := fun _ => True) ?_ fun _ _ => .pure fun _ _ => trivial
  unfold promotableTy
  split
  · exact h.gives_accessTy dom _ (fun j hj => h.knows_of_user hj) none
  · exact .pure trivial

/-! ### Instructions that come -/

theorem gives_insertInst (h : f.Enclosed P) (hb : f.containsBlock b = true) (n : Nat) {i : Inst}
    (hi : ∀ v ∈ i.kind.operands, f.Knows P v) :
    Gives s (fun r => f.Abides P r.1 ∧ r.1.Knows P (.inst r.2)) (f.insertInst b n i) := by
  obtain ⟨data, hdata⟩ := containsBlock_iff.1 hb
  obtain ⟨g, hg, _⟩ := insertInst_of_block n i hdata
  have hgains := (insertInst_gains hg).2
  refine .of_ok hg ⟨⟨h.stays_gains hgains hi, hgains.entry, hgains.live⟩, ?_⟩
  rintro j ⟨⟩
  refine ⟨h.fresh _ (Nat.le_refl _), ?_⟩
  rw [hgains.arena, Array.size_push]
  exact Nat.lt_succ_self _

end Enclosed

/-- The phis made for slots are known. -/
def KnowsPhis (f : Func) (P : InstId → Prop) (phis : SlotPhis) : Prop :=
  ∀ b, ∀ p ∈ phis.ofBlock b, f.Knows P (.inst p.2)

theorem KnowsPhis.mono (h : f.KnowsPhis P phis) (hle : f.arena.size ≤ g.arena.size) :
    g.KnowsPhis P phis := fun b p hp => (h b p hp).mono hle

theorem KnowsPhis.add (h : f.KnowsPhis P phis) (b : BlockId) {p : Nat × InstId}
    (hp : f.Knows P (.inst p.2)) : f.KnowsPhis P (phis.update b [] (· ++ [p])) := by
  intro c q hq
  unfold SlotPhis.ofBlock Table.update at hq
  rw [Table.get?_insert] at hq
  split at hq
  · rcases List.mem_append.1 hq with hq | hq
    · exact h b q hq
    · rw [List.mem_singleton.1 hq]
      exact hp
  · exact h c q hq

namespace Enclosed

theorem gives_placeSlotPhis {acc : Func × SlotPhis} (hacc : f.Abides P acc.1)
    (hphis : acc.1.KnowsPhis P acc.2) (slot : Nat) (ty : Ty) {blocks : List BlockId}
    (hblocks : ∀ b ∈ blocks, f.containsBlock b = true) :
    Gives s (fun r => f.Abides P r.1 ∧ r.1.KnowsPhis P r.2) (placeSlotPhis slot ty acc blocks) := by
  refine Gives.foldlM (I := fun r : Func × SlotPhis => f.Abides P r.1 ∧ r.1.KnowsPhis P r.2)
    (fun b hb r hr => ?_) ⟨hacc, hphis⟩
  obtain ⟨hr, hphis⟩ := hr
  have hlive := (hr.live b).trans (hblocks b hb)
  refine (gives_phis hlive).bind fun ids _ => ?_
  refine (hr.within.gives_insertInst hlive ids.length (i := ⟨.phi [], some ty⟩) nofun).bind ?_
  rintro ⟨g, phi⟩ ⟨hg, hphi⟩
  exact .pure ⟨hr.trans hg, (hphis.mono hg.size).add b hphi⟩

theorem gives_placePhis (h : f.Enclosed P) (slots : List (InstId × Ty))
    (hrpo : ∀ b ∈ d.rpo, f.containsBlock b = true) :
    Gives s (fun r => f.Abides P r.1 ∧ r.1.KnowsPhis P r.2) (f.placePhis d slots) := by
  refine Gives.foldlM (I := fun r : Func × SlotPhis => f.Abides P r.1 ∧ r.1.KnowsPhis P r.2)
    (fun x _ r hr => ?_) ⟨h.abides, fun _ _ hp => nomatch hp⟩
  obtain ⟨blocks, hblocks, _, hin, _⟩ := d.iteratedFrontier_spec (f.storeBlocks x.1.1)
  refine .bind_ok hblocks ?_
  exact gives_placeSlotPhis hr.1 hr.2 x.2 x.1.2 fun b hb => hrpo b (hin b hb).1

end Enclosed

/-! ### The walk -/

/-- A state of the walk within `f`. -/
structure Renaming.Known (f : Func) (P : InstId → Prop) (r : Renaming) : Prop where
  func : f.Abides P r.func
  replaced : r.func.KnowsEntries P r.replaced
  current : ∀ v ∈ r.current, r.func.Knows P v

theorem knows_valueOf {current : List Value} (h : ∀ v ∈ current, f.Knows P v) (n : Nat) :
    f.Knows P (valueOf current n) := by
  unfold valueOf
  cases hv : current[n]? with
  | none => exact knows_int _ _
  | some v => exact h v (List.mem_of_getElem? hv)

namespace Renaming.Known

variable {r : Renaming}

theorem gives_removeInst (hr : r.Known f P) (id : InstId) :
    Gives s (fun g => r.func.Abides P g) (r.func.removeInst id) := by
  obtain ⟨g, hg, hw⟩ := removeInst_spec hr.func.within.consistent.housed id
  exact .of_ok hg ⟨hr.func.within.stays_without hw, hw.entry, hw.sameGraph.containsBlock⟩

theorem gives_inst (hr : r.Known f P) (slots : List (InstId × Ty)) (hid : f.Knows P (.inst id)) :
    Gives s (Renaming.Known f P) (Renaming.inst slots r id) := by
  unfold Renaming.inst
  refine (hr.func.within.gives_kind (hr.func.knows hid)).bind fun k hk => ?_
  split
  · rename_i ptr
    split
    · exact .pure hr
    · rename_i n _
      refine (hr.gives_removeInst id).bind fun g hg => .pure ?_
      have hvalue := knows_valueOf hr.current n
      exact ⟨hr.func.trans hg, (hr.replaced.insert id hvalue).mono hg.size,
        fun v hv => (hr.current v hv).mono hg.size⟩
  · rename_i ptr value
    split
    · exact .pure hr
    · rename_i n _
      refine (hr.gives_removeInst id).bind fun g hg => .pure ?_
      refine ⟨hr.func.trans hg, hr.replaced.mono hg.size, fun v hv => ?_⟩
      rcases List.mem_or_eq_of_mem_set hv with hv | rfl
      · exact (hr.current v hv).mono hg.size
      · exact (hk.2 _ (by simp [Kind.operands])).mono hg.size
  · exact .pure hr

theorem enter (hr : r.Known f P) {ps : List (Nat × InstId)}
    (hps : ∀ p ∈ ps, f.Knows P (.inst p.2)) :
    ∀ v ∈ ps.foldl (fun cur p => cur.set p.1 (.inst p.2)) r.current, r.func.Knows P v := by
  have hset : ∀ (ps : List (Nat × InstId)) (cur : List Value),
      (∀ p ∈ ps, f.Knows P (.inst p.2)) → (∀ v ∈ cur, r.func.Knows P v) →
      ∀ v ∈ ps.foldl (fun cur p => cur.set p.1 (.inst p.2)) cur, r.func.Knows P v := by
    intro ps
    induction ps with
    | nil => exact fun _ _ hcur => hcur
    | cons p ps ih =>
      intro cur hps hcur
      refine ih _ (fun q hq => hps q (List.mem_cons_of_mem _ hq)) fun v hv => ?_
      rcases List.mem_or_eq_of_mem_set hv with hv | rfl
      · exact hcur v hv
      · exact hr.func.knows (hps p List.mem_cons_self)
  exact hset ps r.current hps hr.current

end Renaming.Known

theorem Enclosed.abides_addIncoming (h : f.Enclosed P) (b : BlockId) {current : List Value}
    (hcurrent : ∀ v ∈ current, f.Knows P v) (phi : Nat × InstId) :
    f.Abides P (f.addIncoming b current phi) := by
  refine ⟨h.stays_modifyKind phi.2 fun i _ hops v hv => ?_, rfl, fun _ => rfl⟩
  cases hk : i.kind with
  | phi inc =>
    rw [hk] at hops hv
    simp only [Kind.mapIncoming] at hv
    split at hv
    · exact hops v hv
    · obtain ⟨x, hx, rfl⟩ := List.mem_map.1 hv
      rcases List.mem_append.1 hx with hx | hx
      · exact hops _ (List.mem_map.2 ⟨x, hx, rfl⟩)
      · rw [List.mem_singleton.1 hx]
        exact knows_valueOf hcurrent phi.1
  | _ =>
    rw [hk] at hops hv
    exact hops v hv

theorem Abides.foldl {α : Type} {step : Func → α → Func} {l : List α}
    (hstep : ∀ g x, f.Abides P g → g.Abides P (step g x)) (hg : f.Abides P g) :
    f.Abides P (l.foldl step g) := by
  induction l generalizing g with
  | nil => exact hg
  | cons x l ih => exact ih (hg.trans (hstep g x hg))

theorem Renaming.Known.gives_block {r : Renaming} (hr : r.Known f P) (slots : List (InstId × Ty))
    (hphis : f.KnowsPhis P phis) (hb : f.containsBlock b = true) :
    Gives s (Renaming.Known f P) (Renaming.block slots phis r b) := by
  obtain ⟨data, hdata⟩ := containsBlock_iff.1 ((hr.func.live b).trans hb)
  unfold Renaming.block
  dsimp only
  refine .bind_ok (block_eq_ok.2 hdata) ?_
  refine Gives.bind (Gives.foldlM (I := fun r' => Renaming.Known r.func P r')
    (fun id hid r' hr' => ?_) ?_) fun r' hr' => ?_
  · have hmem : id ∈ r.func.instsOf b := by
      rw [instsOf_eq hdata]
      exact hid
    exact hr'.gives_inst slots (hr.func.within.knows_of_mem hmem)
  · exact ⟨hr.func.within.abides, hr.replaced, hr.enter (hphis b)⟩
  · have hfunc := hr.func.trans hr'.func
    obtain ⟨data', hdata'⟩ := containsBlock_iff.1 ((hfunc.live b).trans hb)
    refine .bind_ok (successors_eq_ok hdata') (.pure ?_)
    -- the phis behind the block are told what arrives
    have htold : r'.func.Abides P (data'.term.successors.eraseReps.foldl
        (fun f s => (phis.ofBlock s).foldl (fun f p => f.addIncoming b r'.current p) f) r'.func) := by
      refine Abides.foldl (fun g c hg => Abides.foldl (fun g' p hg' => ?_) hg.within.abides)
        hr'.func.within.abides
      exact hg'.within.abides_addIncoming b
        (fun v hv => hg'.knows (hg.knows (hr'.current v hv))) p
    exact ⟨hfunc.trans htold, hr'.replaced.mono htold.size, fun v hv => htold.knows (hr'.current v hv)⟩

theorem gives_renameFrom (hd : d.Correct f e) (hphis : g.KnowsPhis P phis)
    (hlive : ∀ b, f.containsBlock b = true → g.containsBlock b = true)
    (slots : List (InstId × Ty)) (n : Nat) :
    ∀ {h : Func} {replaced : Replacements} {done : List BlockId} {work : List (BlockId × List Value)},
      g.Abides P h → h.KnowsEntries P replaced → (∀ w ∈ work, ∀ v ∈ w.2, h.Knows P v) →
      d.Descent f e done (work.map (·.1)) → d.rpo.length ≤ done.length + n →
      Gives s (fun r => g.Abides P r.1 ∧ r.1.KnowsEntries P r.2)
        (renameFrom d slots phis n h replaced work) := by
  induction n with
  | zero =>
    intro h replaced done work hg hreplaced _ hdescent hn
    cases work with
    | nil => exact .pure ⟨hg, hreplaced⟩
    | cons w work =>
      have hle := hdescent.length_le hd
      simp only [List.map_cons, List.length_cons] at hle
      omega
  | succ n ih =>
    intro h replaced done work hg hreplaced hwork hdescent hn
    cases work with
    | nil => exact .pure ⟨hg, hreplaced⟩
    | cons w work =>
      obtain ⟨b, current⟩ := w
      have hb : h.containsBlock b = true :=
        (hg.live b).trans (hlive b (hdescent.reachable b (by simp)).live)
      have hstart : Renaming.Known h P ⟨h, replaced, current⟩ :=
        ⟨hg.within.abides, hreplaced, hwork _ List.mem_cons_self⟩
      unfold renameFrom
      refine (hstart.gives_block slots (hphis.mono hg.size) hb).bind fun r hr => ?_
      have hvisit := hdescent.visit hd (List.reverse_perm (d.children b))
      refine @ih _ _ (done ++ [b]) _ (hg.trans hr.func) hr.replaced (fun w hw v hv => ?_) ?_ ?_
      · rcases List.mem_append.1 hw with hw | hw
        · obtain ⟨c, _, rfl⟩ := List.mem_map.1 hw
          exact hr.current v hv
        · exact hr.func.knows (hwork w (List.mem_cons_of_mem _ hw) v hv)
      · rw [List.map_append, List.map_map]
        simpa [Function.comp_def] using hvisit
      · rw [List.length_append, List.length_singleton]
        omega

namespace Enclosed

theorem gives_promoteAllocas (h : f.Enclosed P) (allocas : List InstId) :
    Gives s (fun r => f.Stays P r.1) (f.promoteAllocas allocas) := by
  unfold promoteAllocas
  split
  · exact .pure h.stays
  · cases hentry : f.entry with
    | none =>
      obtain ⟨d, hd, hnone⟩ := compute_of_no_entry hentry
      refine .bind_ok hd ?_
      simp only [hnone]
      exact .pure h.stays
    | some e =>
      obtain ⟨d, hd, hcorrect⟩ := DomTree.compute_correct hentry (h.entry e hentry)
      have hrpo : ∀ b ∈ d.rpo, f.containsBlock b = true := fun b hb =>
        ((hcorrect.ordered.mem_iff b).1 hb).live
      have hhead : d.entry = some e := hcorrect.ordered.head
      refine .bind_ok hd ?_
      simp only [hhead]
      split
      · exact .pure h.stays
      · refine (h.gives_promotable d allocas).bind fun slots _ => ?_
        split
        · exact .pure h.stays
        · refine (h.gives_placePhis slots hrpo).bind ?_
          rintro ⟨g, phis⟩ ⟨hg, hphis⟩
          refine (gives_renameFrom hcorrect hphis (fun b hb => (hg.live b).trans hb) slots
            d.rpo.length hg.within.abides knowsEntries_nil ?_ (.start hcorrect (h.entry e hentry))
            (Nat.le_add_left _ _)).bind ?_
          · intro w hw v hv
            rw [List.mem_singleton.1 hw] at hv
            obtain ⟨x, _, rfl⟩ := List.mem_map.1 hv
            exact knows_int _ _
          · rintro ⟨g₁, replaced⟩ ⟨hg₁, hreplaced⟩
            refine (hg₁.within.gives_removeInsts _).bind fun g₂ hg₂ => .pure ?_
            have hg₃ := hg₂.within.stays_applyReplacements (hreplaced.mono hg₂.size)
            exact hg.toStays.trans (hg₁.toStays.trans (hg₂.trans hg₃))

theorem gives_promoteSlots (h : f.Enclosed P) : Gives s (fun r => f.Stays P r.1) f.promoteSlots := by
  unfold promoteSlots
  refine (Gives.filterM fun id hid => ?_).bind fun allocas _ => ?_
  · exact (h.gives_kind (h.knows_of_mem_liveInsts hid)).bind fun _ _ => .pure trivial
  · exact (h.gives_promoteAllocas allocas).bind fun r hr => .pure hr

/-! ### Slots of the stack -/

theorem gives_accessWidth (h : f.Enclosed P) (address : Value) {users : List User}
    (husers : ∀ id, .inst id ∈ users → f.Knows P (.inst id)) (acc : Option Nat) :
    Gives s (fun _ => True) (f.accessWidth address acc users) := by
  induction users generalizing acc with
  | nil => exact .pure trivial
  | cons u users ih =>
    cases u with
    | term b => exact .pure trivial
    | inst id =>
      unfold accessWidth
      refine (h.gives_slotAccess address (husers id List.mem_cons_self)).bind fun o _ => ?_
      split
      · exact .pure trivial
      · split
        · exact ih (fun j hj => husers j (List.mem_cons_of_mem _ hj)) _
        · exact .pure trivial

theorem gives_addStackUse (h : f.Enclosed P) (stack : Value) (slots : StackSlots) {u : User}
    (hu : ∀ id, u = .inst id → f.Knows P (.inst id)) :
    Gives s (fun _ => True) (f.addStackUse stack slots u) := by
  cases u with
  | term b => exact .pure trivial
  | inst id =>
    unfold addStackUse
    refine (h.gives_kind (hu id rfl)).bind fun k _ => ?_
    split
    · split
      · exact .pure trivial
      · refine (h.gives_accessWidth (.inst id) (fun j hj => h.knows_of_user hj) none).bind
          fun o _ => ?_
        split
        · exact .pure trivial
        · exact .pure trivial
        · dsimp only
          split <;> exact .pure trivial
    · exact .pure trivial

theorem gives_stackSlots (h : f.Enclosed P) (stack : Value) :
    Gives s (fun _ => True) (f.stackSlots stack) := by
  have huses : ∀ (users : List User) (slots : StackSlots),
      (∀ id, .inst id ∈ users → f.Knows P (.inst id)) →
      Gives s (fun _ => True) (f.addStackUses stack slots users) := by
    intro users
    induction users with
    | nil => exact fun _ _ => .pure trivial
    | cons u users ih =>
      intro slots husers
      unfold addStackUses
      refine (h.gives_addStackUse stack slots fun id hu =>
        husers id (hu ▸ List.mem_cons_self)).bind fun o _ => ?_
      split
      · exact .pure trivial
      · exact ih _ fun id hid => husers id (List.mem_cons_of_mem _ hid)
  unfold stackSlots
  refine (huses _ _ fun id hid => h.knows_of_user hid).bind fun o _ => ?_
  split <;> exact .pure trivial

theorem gives_addStackAllocas (h : f.Enclosed P) (he : f.containsBlock e = true)
    (slots : StackSlots) :
    Gives s (fun r => f.Abides P r.1 ∧ ∀ x ∈ r.2, r.1.Knows P (.inst x.1))
      (f.addStackAllocas e slots) := by
  refine Gives.foldlM (I := fun r : Func × List (InstId × StackSlot) =>
    f.Abides P r.1 ∧ ∀ x ∈ r.2, r.1.Knows P (.inst x.1)) (fun x _ r hr => ?_) ⟨h.abides, nofun⟩
  have hlive := (hr.1.live e).trans he
  refine (gives_phis hlive).bind fun ids _ => ?_
  refine (hr.1.within.gives_insertInst hlive ids.length
    (i := ⟨.alloca x.2.width, some .ptr⟩) nofun).bind ?_
  rintro ⟨g, id⟩ ⟨hg, hid⟩
  refine .pure ⟨hr.1.trans hg, fun y hy => ?_⟩
  rcases List.mem_append.1 hy with hy | hy
  · exact (hr.2 y hy).mono hg.size
  · rw [List.mem_singleton.1 hy]
    exact hid

theorem gives_promoteStack (h : f.Enclosed P) (stack : Value) :
    Gives s (fun r => f.Stays P r.1) (f.promoteStack stack) := by
  unfold promoteStack
  split
  · exact .pure h.stays
  · rename_i e he
    refine (h.gives_stackSlots stack).bind fun o _ => ?_
    split
    · exact .pure h.stays
    · exact .pure h.stays
    · rename_i slots _
      refine (h.gives_addStackAllocas (h.entry e he) slots).bind ?_
      rintro ⟨g, made⟩ ⟨hg, hmade⟩
      dsimp only
      generalize htable : (made.flatMap fun x : InstId × StackSlot =>
        x.2.addresses.map fun a => (a, x.1)) = table
      have hvalues : ∀ a j, Table.get? table a = some j → g.Knows P (.inst j) := by
        intro a j hget
        have hmem := Table.mem_of_get? hget
        rw [← htable] at hmem
        obtain ⟨x, hx, hmem⟩ := List.mem_flatMap.1 hmem
        obtain ⟨_, _, heq⟩ := List.mem_map.1 hmem
        cases heq
        exact hmade x hx
      have hrest : ∀ ρ : Value → Value, (∀ v, g.Knows P v → g.Knows P (ρ v)) →
          Gives s (fun r => f.Stays P r.1) (do
            let h ← (g.mapOperands ρ).removeInsts (Table.keys table)
            return ((← h.promoteAllocas (made.map (·.1))).1, true)) := by
        intro ρ hρ
        have hmapped := hg.within.stays_mapOperands hρ
        refine (hmapped.within.gives_removeInsts _).bind fun g₂ hg₂ => ?_
        refine (hg₂.within.gives_promoteAllocas _).bind fun r hr => .pure ?_
        exact hg.toStays.trans (hmapped.trans (hg₂.trans hr))
      refine hrest _ fun v hv => ?_
      cases v with
      | inst id =>
        show g.Knows P (.inst ((Table.get? table id).getD id))
        cases hget : Table.get? table id with
        | none => exact hv
        | some j => exact hvalues id j hget
      | const c => exact hv
      | arg n => exact hv

end Enclosed

end Func

end BinaryLift
