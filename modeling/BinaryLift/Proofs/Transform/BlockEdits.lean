import BinaryLift.Proofs.Run.Availability
import BinaryLift.Transform.ControlFlow

/-!
# Edits of whole blocks

What is where after incomings of phis have been changed, after blocks have been removed and after a
block has been appended to another one.
-/

namespace BinaryLift

/-- Incomings of a phi. -/
abbrev Incomings := List (BlockId × Value)

theorem Kind.mapIncoming_mapIncoming (k k' : Incomings → Incomings) (kind : Kind) :
    (kind.mapIncoming k).mapIncoming k' = kind.mapIncoming fun inc => k' (k inc) := by
  cases kind <;> rfl

theorem Kind.mapIncoming_of_isPhi {kind : Kind} (h : kind.isPhi = false) (k : Incomings → Incomings) :
    kind.mapIncoming k = kind := by
  cases kind with
  | phi inc => cases h
  | _ => rfl

namespace Func

variable {f g h : Func} {κ κ' : BlockId → Incomings → Incomings} {b q s pred : BlockId}
  {id j : InstId}

/-- In `g` the incomings of the phis of each block have been changed. -/
structure Relabeled (f g : Func) (κ : BlockId → Incomings → Incomings) : Prop where
  params : g.params = f.params
  entry : g.entry = f.entry
  blocks : g.blocks = f.blocks
  instBlock : ∀ id, g.instBlock id = f.instBlock id
  inst? : ∀ id, g.inst? id = (f.inst? id).map fun i =>
    ⟨(f.instBlock id).elim i.kind fun s => i.kind.mapIncoming (κ s), i.ty⟩

namespace Relabeled

theorem refl (f : Func) : f.Relabeled f fun _ inc => inc where
  params := rfl
  entry := rfl
  blocks := rfl
  instBlock := fun _ => rfl
  inst? := by
    intro id
    have hsame : ∀ i : Inst, (⟨(f.instBlock id).elim i.kind fun _ =>
        i.kind.mapIncoming fun inc => inc, i.ty⟩ : Inst) = i := by
      rintro ⟨kind, o⟩
      cases f.instBlock id with
      | none => rfl
      | some s => cases kind <;> rfl
    cases hi : f.inst? id with
    | none => rfl
    | some i => rw [Option.map_some, hsame i]

theorem trans (hfg : f.Relabeled g κ) (hgh : g.Relabeled h κ') :
    f.Relabeled h fun s inc => κ' s (κ s inc) where
  params := hgh.params.trans hfg.params
  entry := hgh.entry.trans hfg.entry
  blocks := hgh.blocks.trans hfg.blocks
  instBlock := fun id => (hgh.instBlock id).trans (hfg.instBlock id)
  inst? := by
    intro id
    rw [hgh.inst? id, hfg.inst? id, hfg.instBlock id, Option.map_map]
    cases f.instBlock id with
    | none => rfl
    | some s =>
      congr 1
      funext i
      simp only [Function.comp_def, Option.elim_some, Kind.mapIncoming_mapIncoming]

theorem block? (h : f.Relabeled g κ) (b : BlockId) : g.block? b = f.block? b := by
  rw [Func.block?, Func.block?, h.blocks]

theorem instsOf (h : f.Relabeled g κ) (b : BlockId) : g.instsOf b = f.instsOf b := by
  rw [Func.instsOf, Func.instsOf, h.block?]

theorem containsBlock (h : f.Relabeled g κ) (b : BlockId) :
    g.containsBlock b = f.containsBlock b := by
  rw [Func.containsBlock, Func.containsBlock, h.block?]

theorem consistent (h : f.Relabeled g κ) (hc : f.Consistent) : g.Consistent :=
  hc.congr h.instsOf h.instBlock

theorem ty (h : f.Relabeled g κ) (id : InstId) :
    (g.inst? id).map (·.ty) = (f.inst? id).map (·.ty) := by
  rw [h.inst? id, Option.map_map]
  rfl

theorem isPhi (h : f.Relabeled g κ) (id : InstId) : g.isPhi id = f.isPhi id := by
  unfold Func.isPhi
  rw [h.inst? id]
  cases f.inst? id with
  | none => rfl
  | some i =>
    obtain ⟨kind, o⟩ := i
    cases f.instBlock id with
    | none => rfl
    | some s => cases kind <;> rfl

theorem inst (h : f.Relabeled g κ) (hc : f.Consistent) (hid : id ∈ f.instsOf b) {i : Inst}
    (hi : f.inst? id = some i) : g.inst? id = some ⟨i.kind.mapIncoming (κ b), i.ty⟩ := by
  rw [h.inst? id, hi, hc.mem_instsOf.1 hid]
  rfl

end Relabeled

/-! ### Phis of one block -/

theorem foldl_modifyKind (k : Kind → Kind) {ids : List InstId} (hnodup : ids.Nodup) (f : Func) :
    (ids.foldl (fun f id => f.modifyKind id k) f).params = f.params ∧
    (ids.foldl (fun f id => f.modifyKind id k) f).entry = f.entry ∧
    (ids.foldl (fun f id => f.modifyKind id k) f).blocks = f.blocks ∧
    (∀ j, (ids.foldl (fun f id => f.modifyKind id k) f).instBlock j = f.instBlock j) ∧
    ∀ j, (ids.foldl (fun f id => f.modifyKind id k) f).inst? j =
      if j ∈ ids then (f.inst? j).map fun i => ⟨k i.kind, i.ty⟩ else f.inst? j := by
  induction ids generalizing f with
  | nil => simp
  | cons id ids ih =>
    obtain ⟨hid, hnodup'⟩ := List.nodup_cons.1 hnodup
    obtain ⟨hparams, hentry, hblocks, hinstBlock, hinst⟩ := ih hnodup' (f.modifyKind id k)
    rw [List.foldl_cons]
    refine ⟨hparams, hentry, hblocks, fun j => ?_, fun j => ?_⟩
    · rw [hinstBlock j, instBlock_modifyKind]
    · rw [hinst j, inst?_modifyKind]
      by_cases hj : j ∈ ids
      · have hne : id ≠ j := by
          rintro rfl
          exact hid hj
        rw [if_pos hj, if_pos (List.mem_cons_of_mem _ hj), if_neg hne]
      · by_cases hne : id = j
        · subst hne
          rw [if_neg hj, if_pos rfl, if_pos List.mem_cons_self]
        · rw [if_neg hj, if_neg hne, if_neg]
          intro hmem
          rcases List.mem_cons.1 hmem with heq | hmem
          · exact hne heq.symm
          · exact hj hmem

/-- The change of one block. -/
def onBlock (b : BlockId) (k : Incomings → Incomings) (s : BlockId) : Incomings → Incomings :=
  if s = b then k else fun inc => inc

theorem relabeled_of_phis {ids : List InstId} (hnodup : ids.Nodup) (k : Incomings → Incomings)
    (hmem : ∀ id ∈ ids, f.instBlock id = some b)
    (hphi : ∀ id, f.instBlock id = some b → f.isPhi id = true → id ∈ ids) :
    f.Relabeled (ids.foldl (fun f id => f.modifyKind id (Kind.mapIncoming k)) f) (onBlock b k) := by
  obtain ⟨hparams, hentry, hblocks, hinstBlock, hinst⟩ := foldl_modifyKind (Kind.mapIncoming k) hnodup f
  refine ⟨hparams, hentry, hblocks, hinstBlock, fun id => ?_⟩
  rw [hinst id]
  cases hi : f.inst? id with
  | none => simp
  | some i =>
    by_cases hid : id ∈ ids
    · rw [if_pos hid, hmem id hid]
      simp [onBlock]
    · rw [if_neg hid]
      cases hb : f.instBlock id with
      | none => rfl
      | some s =>
        have hsame : i.kind.mapIncoming (onBlock b k s) = i.kind := by
          unfold onBlock
          split
          · rename_i hs
            rw [hs] at hb
            refine Kind.mapIncoming_of_isPhi ?_ k
            cases hk : i.kind.isPhi with
            | false => rfl
            | true =>
              refine absurd (hphi id hb ?_) hid
              rw [isPhi_inst hi, hk]
          · cases i.kind <;> rfl
        rw [Option.map_some, Option.elim_some, hsame]

theorem removePhiIncoming_spec (hc : f.Consistent) (hb : f.containsBlock b = true) (pred : BlockId) :
    ∃ g, f.removePhiIncoming b pred = .ok g ∧
      f.Relabeled g (onBlock b fun inc => inc.filter (·.1 ≠ pred)) := by
  obtain ⟨data, hdata⟩ := containsBlock_iff.1 hb
  have hdata' := instsOf_eq hdata
  refine ⟨_, by unfold removePhiIncoming; rw [block_eq_ok.2 hdata]; rfl, ?_⟩
  refine relabeled_of_phis (hc.nodup b data hdata) _ (fun id hid => ?_) fun id hid _ => ?_
  · exact (hc.mem_iff b data hdata id).1 hid
  · exact (hc.mem_iff b data hdata id).2 hid

theorem phis_eq (hb : f.containsBlock b = true) : f.phis b = .ok (f.phisOf b) := by
  obtain ⟨data, hdata⟩ := containsBlock_iff.1 hb
  unfold phis
  rw [block_eq_ok.2 hdata, phisOf, instsOf_eq hdata]
  rfl

/-- The phis that stand in a block are those at its head. -/
structure Headed (f : Func) (b : BlockId) : Prop where
  nodup : (f.phisOf b).Nodup
  mem : ∀ id ∈ f.phisOf b, f.instBlock id = some b
  phi : ∀ id, f.instBlock id = some b → f.isPhi id = true → id ∈ f.phisOf b

theorem WellFormed.headed (h : f.WellFormed) (b : BlockId) : f.Headed b where
  nodup := (h.consistent.nodup_instsOf b).sublist (f.phisOf_prefix b).sublist
  mem := fun _ hid => h.consistent.mem_instsOf.1 ((f.phisOf_prefix b).subset hid)
  phi := fun _ hid hphi => h.mem_phisOf (h.consistent.mem_instsOf.2 hid) hphi

theorem Relabeled.headed (h : f.Relabeled g κ) (hf : f.Headed b) : g.Headed b := by
  have hphis : g.phisOf b = f.phisOf b := by
    rw [phisOf, phisOf, h.instsOf, funext h.isPhi]
  refine ⟨hphis ▸ hf.nodup, fun id hid => ?_, fun id hid hphi => ?_⟩
  · rw [hphis] at hid
    rw [h.instBlock, hf.mem id hid]
  · rw [h.instBlock] at hid
    rw [h.isPhi] at hphi
    rw [hphis]
    exact hf.phi id hid hphi

theorem renamePhiPred_spec (hh : f.Headed b) (hb : f.containsBlock b = true) (old new : BlockId) :
    ∃ g, f.renamePhiPred b old new = .ok g ∧
      f.Relabeled g (onBlock b fun inc =>
        inc.map fun e => (if e.1 = old then new else e.1, e.2)) := by
  refine ⟨_, by unfold renamePhiPred; rw [phis_eq hb]; rfl, ?_⟩
  exact relabeled_of_phis hh.nodup _ hh.mem hh.phi

/-! ### Blocks that go -/

theorem foldl_place (ids : List InstId) (dest : Option BlockId) (f : Func) :
    (ids.foldl (fun f id => f.place id dest) f).params = f.params ∧
    (ids.foldl (fun f id => f.place id dest) f).entry = f.entry ∧
    (ids.foldl (fun f id => f.place id dest) f).blocks = f.blocks ∧
    (∀ j, (ids.foldl (fun f id => f.place id dest) f).inst? j = f.inst? j) ∧
    ∀ j, (ids.foldl (fun f id => f.place id dest) f).instBlock j =
      if j ∈ ids ∧ (f.inst? j).isSome then dest else f.instBlock j := by
  induction ids generalizing f with
  | nil => simp
  | cons id ids ih =>
    obtain ⟨hparams, hentry, hblocks, hinst, hinstBlock⟩ := ih (f.place id dest)
    have hplace : ∀ j, (f.place id dest).instBlock j =
        if id = j ∧ (f.inst? j).isSome then dest else f.instBlock j := by
      intro j
      have hslot : ∀ o : Option Slot,
          (if id = j then o.map fun s => { s with block := dest } else o).bind (·.block) =
            if id = j ∧ (o.map (·.inst)).isSome then dest else o.bind (·.block) := by
        intro o
        cases o <;> by_cases hj : id = j <;> simp [hj]
      simp only [place, instBlock, inst?, Array.getElem?_modify, index_inst_inj]
      exact hslot _
    rw [List.foldl_cons]
    refine ⟨hparams, hentry, hblocks, fun j => ?_, fun j => ?_⟩
    · rw [hinst j, inst?_place]
    · rw [hinstBlock j, inst?_place, hplace j]
      by_cases hsome : (f.inst? j).isSome
      · by_cases hj : j ∈ ids
        · simp [hj, hsome]
        · simp [hj, hsome, eq_comm]
      · simp [hsome]

/-- The function `g` is `f` without some blocks and the instructions in them. -/
structure Removed (f : Func) (bs : List BlockId) (g : Func) : Prop where
  params : g.params = f.params
  entry : g.entry = f.entry
  inst? : ∀ id, g.inst? id = f.inst? id
  block? : ∀ x, g.block? x = if x ∈ bs then none else f.block? x
  instBlock : ∀ id, g.instBlock id = (f.instBlock id).filter (· ∉ bs)

theorem removeBlock_spec (hc : f.Consistent) (he : f.entry ≠ some b) :
    f.Removed [b] (f.removeBlock b) := by
  have hoption : ∀ o : Option BlockId, (o.filter (· ∉ [b])) = if o = some b then none else o := by
    intro o
    cases o with
    | none => rfl
    | some s => simp [Option.filter]
  unfold removeBlock
  rw [if_neg he]
  cases hb : f.block? b with
  | none =>
    show f.Removed [b] f
    refine ⟨rfl, rfl, fun _ => rfl, fun x => ?_, fun id => ?_⟩
    · split
      · rename_i hx
        rw [List.mem_singleton.1 hx, hb]
      · rfl
    · rw [hoption]
      split
      · rename_i hid
        have hlive := hc.live id b hid
        rw [containsBlock, hb] at hlive
        cases hlive
      · rfl
  | some data =>
    obtain ⟨hparams, hentry, hblocks, hinst, hinstBlock⟩ :=
      foldl_place data.insts none (f.putBlock b none)
    refine ⟨hparams, hentry, hinst, fun x => ?_, fun id => ?_⟩
    · have hput : (data.insts.foldl (fun f id => f.place id none) (f.putBlock b none)).block? x =
          (f.putBlock b none).block? x := by
        rw [Func.block?, Func.block?, hblocks]
      rw [hput, block?_putBlock f b x none (index_lt_of_block? hb)]
      simp only [List.mem_singleton]
    · rw [hinstBlock id, hoption]
      by_cases hid : id ∈ data.insts
      · obtain ⟨i, hi⟩ := hc.inst? hb hid
        have hi' : ((f.putBlock b none).inst? id).isSome = true := by
          rw [show (f.putBlock b none).inst? id = f.inst? id from rfl, hi]
          rfl
        rw [if_pos ⟨hid, hi'⟩, if_pos ((hc.mem_iff b data hb id).1 hid)]
      · rw [if_neg fun h => hid h.1, if_neg fun h => hid ((hc.mem_iff b data hb id).2 h)]
        rfl

theorem Removed.consistent {bs : List BlockId} (h : f.Removed bs g) (hc : f.Consistent) :
    g.Consistent := by
  have hold : ∀ {x data}, g.block? x = some data → x ∉ bs ∧ f.block? x = some data := by
    intro x data hdata
    rw [h.block? x] at hdata
    split at hdata
    · cases hdata
    · exact ⟨‹_›, hdata⟩
  refine ⟨?_, ?_, ?_⟩
  · intro x data hdata id
    obtain ⟨hx, hdata'⟩ := hold hdata
    rw [h.instBlock id, hc.mem_iff x data hdata' id, Option.filter_eq_some_iff, decide_eq_true_eq,
      and_iff_left hx]
  · intro id x hx
    rw [h.instBlock id, Option.filter_eq_some_iff, decide_eq_true_eq] at hx
    rw [containsBlock, h.block? x, if_neg hx.2]
    exact hc.live id x hx.1
  · intro x data hdata
    exact hc.nodup x data (hold hdata).2

theorem removeBlocks_spec {bs : List BlockId} (hc : f.Consistent)
    (he : ∀ e, f.entry = some e → e ∉ bs) : f.Removed bs (f.removeBlocks bs) := by
  induction bs generalizing f with
  | nil =>
    refine ⟨rfl, rfl, fun _ => rfl, fun x => by simp [removeBlocks], fun id => ?_⟩
    cases hid : f.instBlock id with
    | none => simp [removeBlocks, hid]
    | some s => simp [removeBlocks, hid, Option.filter]
  | cons b bs ih =>
    have hb : f.entry ≠ some b := fun heq => he b heq List.mem_cons_self
    have hfirst := removeBlock_spec hc hb
    have hrest := ih (hfirst.consistent hc) fun e heq hmem =>
      he e (hfirst.entry ▸ heq) (List.mem_cons_of_mem _ hmem)
    refine ⟨hrest.params.trans hfirst.params, hrest.entry.trans hfirst.entry,
      fun id => (hrest.inst? id).trans (hfirst.inst? id), fun x => ?_, fun id => ?_⟩
    · refine (hrest.block? x).trans ?_
      rw [hfirst.block? x]
      by_cases hx : x ∈ bs <;> by_cases hxb : x = b <;> simp [hx, hxb]
    · refine (hrest.instBlock id).trans ?_
      rw [hfirst.instBlock id, Option.filter_filter]
      congr 1
      funext s
      simp [not_or]

end Func

end BinaryLift
