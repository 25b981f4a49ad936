import BinaryLift.Proofs.Closed.Rewrites
import BinaryLift.Transform.Numbering

/-!
# Value numbering of closed functions

The tables of a scan hold nothing but known values, whatever the order of the blocks and whether or
not a definition comes before its uses. A chain of replacements that comes back to itself is followed
without end; nothing else keeps a scan from its end.
-/

namespace BinaryLift

namespace Func

variable {κ : Type} [DecidableEq κ] {f g : Func} {P : InstId → Prop} {id : InstId} {v : Value}
  {t : Replacements}

/-- All entries of a table are known. -/
def KnowsEntries (f : Func) (P : InstId → Prop) (t : Table κ Value) : Prop :=
  ∀ key v, t.get? key = some v → f.Knows P v

theorem knowsEntries_nil : f.KnowsEntries P ([] : Table κ Value) := nofun

theorem KnowsEntries.insert {t : Table κ Value} (ht : f.KnowsEntries P t) (key : κ)
    (hv : f.Knows P v) : f.KnowsEntries P (t.insert key v) := by
  intro other w hw
  rw [Table.get?_insert] at hw
  split at hw
  · cases hw
    exact hv
  · exact ht other w hw

theorem KnowsEntries.mono {t : Table κ Value} (ht : f.KnowsEntries P t)
    (hle : f.arena.size ≤ g.arena.size) : g.KnowsEntries P t :=
  fun key v hv => (ht key v hv).mono hle

theorem KnowsEntries.follow (ht : f.KnowsEntries P t) (n : Nat) (hv : f.Knows P v) :
    f.Knows P (t.follow n v) := by
  induction n generalizing v with
  | zero => exact hv
  | succ n ih =>
    cases v with
    | const c => exact hv
    | arg k => exact hv
    | inst id =>
      unfold Replacements.follow
      split
      · exact ih (ht id _ ‹_›)
      · exact hv

theorem KnowsEntries.gives_resolve (ht : f.KnowsEntries P t) (hv : f.Knows P v) :
    Gives True (f.Knows P) (t.resolve v) := by
  unfold Replacements.resolve
  dsimp only
  split
  · exact .inr ⟨trivial, rfl⟩
  · exact .of_ok rfl (ht.follow _ hv)

theorem Enclosed.stays_applyReplacements (h : f.Enclosed P) (ht : f.KnowsEntries P t) :
    f.Stays P (f.applyReplacements t) := by
  rw [applyReplacements_eq]
  exact h.stays_mapOperands fun _ hv => ht.follow _ hv

theorem Enclosed.gives_substitute {s : Prop} (h : f.Enclosed P) (ht : f.KnowsEntries P t) :
    Gives s (fun r => f.Stays P r.1) (f.substitute t) := by
  unfold substitute
  split
  · exact .pure h.stays
  · have hg := h.stays_applyReplacements ht
    exact (hg.within.gives_removeInsts t.keys).bind fun g' hg' => .pure (hg.trans hg')

/-- Replacing operands with known values gives known operands. -/
theorem gives_traverse {s : Prop} {k : Kind} {σ : Value → Checked Value}
    (hops : ∀ v ∈ k.operands, Gives s (f.Knows P) (σ v)) :
    Gives s (fun k' => ∀ v ∈ k'.operands, f.Knows P v) (k.traverse σ) := by
  have hone : ∀ {x : Value}, f.Knows P x → ∀ v ∈ [x], f.Knows P v := by
    intro x hx v hv
    rw [List.mem_singleton.1 hv]
    exact hx
  have hmore : ∀ {x : Value} {xs : List Value}, f.Knows P x → (∀ v ∈ xs, f.Knows P v) →
      ∀ v ∈ x :: xs, f.Knows P v := fun hx hxs v hv => by
    rcases List.mem_cons.1 hv with rfl | hv
    · exact hx
    · exact hxs v hv
  cases k with
  | alloca n => exact .pure nofun
  | load p => exact (hops p (by simp [Kind.operands])).bind fun p' hp => .pure (hone hp)
  | store p w =>
    refine (hops p (by simp [Kind.operands])).bind fun p' hp => ?_
    exact (hops w (by simp [Kind.operands])).bind fun w' hw => .pure (hmore hp (hone hw))
  | binary op x y =>
    refine (hops x (by simp [Kind.operands])).bind fun x' hx => ?_
    exact (hops y (by simp [Kind.operands])).bind fun y' hy => .pure (hmore hx (hone hy))
  | icmp p x y =>
    refine (hops x (by simp [Kind.operands])).bind fun x' hx => ?_
    exact (hops y (by simp [Kind.operands])).bind fun y' hy => .pure (hmore hx (hone hy))
  | cast op x => exact (hops x (by simp [Kind.operands])).bind fun x' hx => .pure (hone hx)
  | ptrAdd x y =>
    refine (hops x (by simp [Kind.operands])).bind fun x' hx => ?_
    exact (hops y (by simp [Kind.operands])).bind fun y' hy => .pure (hmore hx (hone hy))
  | select c x y =>
    refine (hops c (by simp [Kind.operands])).bind fun c' hc => ?_
    refine (hops x (by simp [Kind.operands])).bind fun x' hx => ?_
    exact (hops y (by simp [Kind.operands])).bind fun y' hy => .pure (hmore hc (hmore hx (hone hy)))
  | phi inc =>
    refine (Gives.mapM (R := fun e : BlockId × Value => f.Knows P e.2) fun e he => ?_).bind
      fun inc' hinc => .pure fun v hv => ?_
    · exact (hops e.2 (List.mem_map.2 ⟨e, he, rfl⟩)).bind fun w hw => .pure hw
    · obtain ⟨e, he, rfl⟩ := List.mem_map.1 hv
      exact hinc e he
  | call callee args => exact (Gives.mapM hops).bind fun args' hargs => .pure hargs

end Func

/-! ### What a scan knows -/

structure Numbering.Known (f : Func) (P : InstId → Prop) (s : Numbering) : Prop where
  leaders : ∀ key group, s.leaders.get? key = some group → ∀ e ∈ group, f.Knows P (.inst e.2)
  replaced : f.KnowsEntries P s.replaced
  availableOut : ∀ b t, s.availableOut.get? b = some t → f.KnowsEntries P t

structure BlockNumbering.Known (f : Func) (P : InstId → Prop) (s : BlockNumbering) : Prop extends
    s.toNumbering.Known f P where
  available : f.KnowsEntries P s.available
  phis : ∀ key id, s.phis.get? key = some id → f.Knows P (.inst id)

open Func

variable {f g : Func} {P : InstId → Prop} {id : InstId} {v : Value} {b : BlockId}

namespace BlockNumbering

variable {s : BlockNumbering}

theorem Known.replace (hs : s.Known f P) (id : InstId) (hv : f.Knows P v) :
    (s.replace id v).Known f P where
  leaders := hs.leaders
  replaced := hs.replaced.insert id hv
  availableOut := hs.availableOut
  available := hs.available
  phis := hs.phis

theorem Known.pure (hs : s.Known f P) (dom : DomTree) (b : BlockId) (hid : f.Knows P (.inst id))
    (key : Kind × Option Ty) : (s.pure dom b id key).Known f P := by
  have hgroup : ∀ e ∈ (s.leaders.get? key).getD [], f.Knows P (.inst e.2) := by
    cases hget : s.leaders.get? key with
    | none => exact nofun
    | some group => exact hs.leaders key group hget
  unfold BlockNumbering.pure
  dsimp only
  split
  · rename_i leader hfind
    exact hs.replace id (hgroup _ (List.mem_of_find?_eq_some hfind))
  · refine ⟨⟨fun other group hget => ?_, hs.replaced, hs.availableOut⟩, hs.available, hs.phis⟩
    rw [Table.get?_insert] at hget
    split at hget
    · cases hget
      intro e he
      rcases List.mem_append.1 he with he | he
      · exact hgroup e he
      · rw [List.mem_singleton.1 he]
        exact hid
    · exact hs.leaders other group hget

theorem Known.insertPhi (hs : s.Known f P) (key : List (BlockId × Value))
    (hid : f.Knows P (.inst id)) :
    ({ s with phis := s.phis.insert key id } : BlockNumbering).Known f P := by
  refine ⟨hs.toKnown, hs.available, fun other j hj => ?_⟩
  rw [Table.get?_insert] at hj
  split at hj
  · cases hj
    exact hid
  · exact hs.phis other j hj

theorem Known.gives_phi (hs : s.Known f P) (hf : f.Enclosed P) (hid : f.Knows P (.inst id))
    (ty : Option Ty) (inc : List (BlockId × Value)) :
    Gives True (fun s' => s'.Known f P) (s.phi f id ty inc) := by
  unfold BlockNumbering.phi
  dsimp only
  split
  · rename_i leader hget
    have hleader := hs.phis _ leader hget
    refine (hf.gives_inst hleader).bind fun i _ => ?_
    split
    · exact .pure (hs.replace id hleader)
    · exact .pure (hs.insertPhi _ hid)
  · exact .pure (hs.insertPhi _ hid)

theorem Known.withAvailable (hs : s.Known f P) {t : Available} (ht : f.KnowsEntries P t) :
    ({ s with available := t } : BlockNumbering).Known f P :=
  ⟨hs.toKnown, ht, hs.phis⟩

theorem Known.load (hs : s.Known f P) (hid : f.Knows P (.inst id)) (ptr : Value) (ty : Option Ty) :
    (s.load id ptr ty).Known f P := by
  unfold BlockNumbering.load
  split
  · exact hs
  · split
    · exact hs.replace id (hs.available _ _ ‹_›)
    · exact hs.withAvailable (hs.available.insert _ hid)

theorem Known.gives_store (hs : s.Known f P) (ptr : Value) (hv : f.Knows P v) :
    Gives True (fun s' => s'.Known f P) (s.store f ptr v) := by
  unfold BlockNumbering.store
  refine (gives_valueTy hv).bind fun o _ => ?_
  cases o with
  | none => exact .pure (hs.withAvailable knowsEntries_nil)
  | some ty => exact .pure (hs.withAvailable (knowsEntries_nil.insert (ptr, ty) hv))

theorem Known.gives_inst (hs : s.Known f P) (hf : f.Enclosed P) (p : NumberingPolicy) (dom : DomTree)
    (b : BlockId) (hid : f.Knows P (.inst id)) :
    Gives True (fun s' => s'.Known f P) (inst p dom f b s id) := by
  unfold inst
  refine (hf.gives_inst hid).bind fun i hi => ?_
  refine (gives_traverse fun v hv => hs.replaced.gives_resolve (hi.2 v hv)).bind fun k hk => ?_
  cases k with
  | phi inc =>
    dsimp only
    split
    · exact hs.gives_phi hf hid i.ty inc
    · exact .pure hs
  | load ptr =>
    dsimp only
    split
    · exact .pure hs
    · exact .pure (hs.load hid ptr i.ty)
  | store ptr w =>
    dsimp only
    split
    · exact .pure hs
    · exact hs.gives_store ptr (hk w (by simp [Kind.operands]))
  | call callee args => exact .pure (hs.withAvailable knowsEntries_nil)
  | alloca n => exact .pure hs
  | _ => exact .pure (hs.pure dom b hid _)

end BlockNumbering

namespace Numbering

variable {s : Numbering}

theorem Known.availableIn (hs : s.Known f P) (p : NumberingPolicy) (dom : DomTree) (b : BlockId) :
    f.KnowsEntries P (s.availableIn p dom b) := by
  unfold Numbering.availableIn
  split
  · exact knowsEntries_nil
  · split
    · rename_i pred idom _ _
      split
      · cases hget : s.availableOut.get? idom with
        | none => exact knowsEntries_nil
        | some t => exact hs.availableOut idom t hget
      · exact knowsEntries_nil
    · exact knowsEntries_nil

theorem Known.gives_block (hs : s.Known f P) (hf : f.Enclosed P) (p : NumberingPolicy) (dom : DomTree)
    (hb : f.containsBlock b = true) :
    Gives True (fun s' => s'.Known f P) (block p dom f s b) := by
  obtain ⟨data, hdata⟩ := containsBlock_iff.1 hb
  have hstart : BlockNumbering.Known f P { s with available := s.availableIn p dom b } :=
    ⟨hs, hs.availableIn p dom b, nofun⟩
  unfold block
  refine .bind_ok (block_eq_ok.2 hdata) ?_
  refine Gives.bind (Gives.foldlM (I := BlockNumbering.Known f P) (fun id hid s' hs' => ?_) hstart)
    fun done hdone => .pure ?_
  · exact hs'.gives_inst hf p dom b (hf.knows_of_mem (by rw [instsOf_eq hdata]; exact hid))
  · refine ⟨hdone.leaders, hdone.replaced, fun c t ht => ?_⟩
    rw [Table.get?_insert] at ht
    split at ht
    · cases ht
      exact hdone.available
    · exact hdone.availableOut c t ht

end Numbering

/-- Value numbering, whatever it compares. -/
theorem Func.Enclosed.gives_number (h : f.Enclosed P) (p : NumberingPolicy) :
    Gives True (fun r => f.Stays P r.1) (f.number p) := by
  obtain ⟨dom, hdom⟩ := DomTree.compute_returns h.entry
  have hexact := DomTree.exact_of_compute h.entry hdom
  have hlive : ∀ b ∈ dom.rpo, f.containsBlock b = true := fun b hb =>
    ((hexact.isReachable b).1 (List.contains_iff_mem.2 hb)).live
  have hstart : Numbering.Known f P {} :=
    { leaders := fun key group hget => by cases hget
      replaced := knowsEntries_nil
      availableOut := fun b t hget => by cases hget }
  unfold Func.number
  refine .bind_ok hdom ?_
  refine Gives.bind (Gives.foldlM (I := Numbering.Known f P) (fun b hb s hs => ?_) hstart)
    fun done (hdone : Numbering.Known f P done) => h.gives_substitute hdone.replaced
  exact hs.gives_block h p dom (hlive b hb)

end BinaryLift
