import BinaryLift.Proofs.Graph.Preorder
import BinaryLift.Proofs.Transform.Sources
import Mathlib.Data.List.Nodup

/-!
# The renaming walk

The walk takes every access of a promoted slot out, notes the current value for each load and tells
each phi the values that leave the predecessors of its block. What the function and the table are at
any moment depends only on the instructions and edges that have been visited. The work list goes down the
dominator tree, and with each block it holds the values that leave the immediate dominator.
-/

namespace BinaryLift.Promotion

open Func

variable {f : Func} {P : Promotion f}

/-! ### Placed phis -/

theorem Sound.instBlock_old (h : P.Sound) {id : InstId} (hid : id.index < f.arena.size) :
    P.placed.instBlock id = f.instBlock id := by
  rw [instBlock, instBlock, h.placed.old id.index hid]

theorem Sound.instBlock_phi (h : P.Sound) {b : BlockId} {n : Nat} {p : InstId}
    (hp : (n, p) ∈ P.phis.ofBlock b) : P.placed.instBlock p = some b := by
  obtain ⟨_, _, _, _, hget⟩ := h.placed.new b n p hp
  rw [instBlock, hget]
  rfl

theorem Sound.block_placed (h : P.Sound) {b : BlockId} {data : Block} (hdata : f.block? b = some data) :
    P.placed.block? b = some { data with
      insts := data.insts.takeWhile f.isPhi ++ (P.phis.ofBlock b).map (·.2) ++
        data.insts.dropWhile f.isPhi } := by
  rw [h.placed.block b, hdata]
  rfl

theorem Sound.index_lt (h : P.Sound) {b : BlockId} {id : InstId} (hid : id ∈ f.instsOf b) :
    id.index < f.arena.size := by
  obtain ⟨data, hdata, hmem⟩ := exists_block_of_mem hid
  exact h.wellFormed.consistent.index_lt hdata hmem

theorem Sound.housed_placed (h : P.Sound) : P.placed.Housed where
  live := by
    intro id b hb
    have hlive : f.containsBlock b = true := by
      by_cases hold : id.index < f.arena.size
      · rw [h.instBlock_old hold] at hb
        exact h.wellFormed.consistent.live id b hb
      · have hlt : id.index < P.placed.arena.size := by
          by_contra hge
          rw [instBlock, Array.getElem?_eq_none (Nat.le_of_not_lt hge)] at hb
          cases hb
        obtain ⟨c, n, hp⟩ := h.placed.fresh id (Nat.le_of_not_lt hold) hlt
        rw [h.instBlock_phi hp] at hb
        cases hb
        obtain ⟨x, _, hfront⟩ := (h.placed.mem_iff n b).1 ⟨id, hp⟩
        obtain ⟨p, hp⟩ := Option.isSome_iff_exists.1 (h.joins x.1 b hfront)
        exact (h.correct.reachable_of_idom hp).live
    obtain ⟨data, hdata⟩ := containsBlock_iff.1 hlive
    exact containsBlock_iff.2 ⟨_, h.block_placed hdata⟩
  mem := by
    intro b data hdata id hid
    rw [h.placed.block b] at hdata
    obtain ⟨d, hd, rfl⟩ := Option.map_eq_some_iff.1 hdata
    have hold : id ∈ d.insts → P.placed.instBlock id = some b := by
      intro hmem
      rw [h.instBlock_old (h.wellFormed.consistent.index_lt hd hmem)]
      exact (h.wellFormed.consistent.mem_iff b d hd id).1 hmem
    rcases List.mem_append.1 hid with hid | hid
    · rcases List.mem_append.1 hid with hid | hid
      · exact hold ((List.takeWhile_prefix f.isPhi).subset hid)
      · obtain ⟨⟨n, p⟩, hp, rfl⟩ := List.mem_map.1 hid
        exact h.instBlock_phi hp
    · exact hold ((List.dropWhile_suffix f.isPhi).subset hid)

theorem Sound.phi_unique (h : P.Sound) {b c : BlockId} {n m : Nat} {p : InstId}
    (hn : (n, p) ∈ P.phis.ofBlock b) (hm : (m, p) ∈ P.phis.ofBlock c) : b = c ∧ n = m := by
  have hbc := h.instBlock_phi hn
  rw [h.instBlock_phi hm] at hbc
  cases hbc
  refine ⟨rfl, ?_⟩
  have heq := List.inj_on_of_nodup_map (h.placed.phis b) hn hm rfl
  exact congrArg Prod.fst heq

/-! ### What has been renamed -/

/-- A load or store of a promoted slot. -/
def isAccess (P : Promotion f) (id : InstId) : Bool :=
  match f.inst? id with
  | some ⟨.load p, _⟩ => (slotNumber? P.slots p).isSome
  | some ⟨.store p _, _⟩ => (slotNumber? P.slots p).isSome
  | _ => false

/-- The state of the walk when the instructions in `seen` have been visited and `fed q p` says that
phi `p` knows what comes from `q`. -/
structure Renamed (P : Promotion f) (seen : List InstId) (fed : BlockId → InstId → Prop) (g : Func)
    (t : Replacements) : Prop where
  params : g.params = f.params
  entry : g.entry = f.entry
  housed : g.Housed
  block : ∀ b, g.block? b = (P.placed.block? b).map fun data =>
    { data with insts := data.insts.filter fun id => !(P.isAccess id && decide (id ∈ seen)) }
  instBlock : ∀ id, g.instBlock id =
    if P.isAccess id = true ∧ id ∈ seen then none else P.placed.instBlock id
  old : ∀ id, id.index < f.arena.size → g.inst? id = f.inst? id
  phi : ∀ b n p, (n, p) ∈ P.phis.ofBlock b → ∃ s ty inc, P.slots[n]? = some (s, ty) ∧
    g.inst? p = some ⟨.phi inc, some ty⟩ ∧ (inc.map (·.1)).Nodup ∧
      ∀ q v, (q, v) ∈ inc ↔ fed q p ∧ v = valueOf (P.out q) n
  replaced : ∀ id v, t.get? id = some v ↔ id ∈ seen ∧ P.Loads id v

theorem Sound.isAccess_cases (h : P.Sound) {id : InstId} (hid : P.isAccess id = true) :
    ∃ (n : Nat) (s : InstId) (ty : Ty) (o : Option Ty), P.slots[n]? = some (s, ty) ∧
      (f.inst? id = some ⟨.load (.inst s), o⟩ ∨
        ∃ v, f.inst? id = some ⟨.store (.inst s) v, o⟩) := by
  unfold isAccess at hid
  split at hid
  · rename_i p o hi
    obtain ⟨n, hn⟩ := Option.isSome_iff_exists.1 hid
    obtain ⟨s, ty, rfl, hs⟩ := h.slotNumber?_iff.1 hn
    exact ⟨n, s, ty, o, hs, .inl hi⟩
  · rename_i p v o hi
    obtain ⟨n, hn⟩ := Option.isSome_iff_exists.1 hid
    obtain ⟨s, ty, rfl, hs⟩ := h.slotNumber?_iff.1 hn
    exact ⟨n, s, ty, o, hs, .inr ⟨v, hi⟩⟩
  · cases hid

theorem Sound.renamed_start (h : P.Sound) : P.Renamed [] (fun _ _ => False) P.placed [] where
  params := h.placed.params
  entry := h.placed.entry
  housed := h.housed_placed
  block := by
    intro b
    cases P.placed.block? b with
    | none => rfl
    | some data => simp [List.filter_eq_self.2]
  instBlock := fun id => by simp
  old := fun id hid => h.placed.inst?_old hid
  phi := by
    intro b n p hp
    obtain ⟨_, s, ty, hs, hget⟩ := h.placed.new b n p hp
    refine ⟨s, ty, [], hs, ?_, List.nodup_nil, fun q v => by simp⟩
    rw [inst?, hget]
    rfl
  replaced := by
    intro id v
    simp [Table.get?]

variable {seen : List InstId} {fed : BlockId → InstId → Prop} {g : Func} {t : Replacements}

theorem isAccess_of_loads {id : InstId} {v : Value} (h : P.Sound) (hl : P.Loads id v) :
    P.isAccess id = true := by
  obtain ⟨_, _, _, s, o, n, ty, _, _, hi, hs, _⟩ := hl
  simp [isAccess, hi, h.slotNumber?_inst hs]

theorem Renamed.skip (hr : P.Renamed seen fed g t) (h : P.Sound) {id : InstId}
    (hid : P.isAccess id = false) : P.Renamed (seen ++ [id]) fed g t where
  params := hr.params
  entry := hr.entry
  housed := hr.housed
  block := by
    intro b
    rw [hr.block b]
    congr 1
    funext data
    congr 1
    refine List.filter_congr fun j _ => ?_
    by_cases hj : j = id
    · rw [hj, hid]
      rfl
    · simp [hj]
  instBlock := by
    intro j
    rw [hr.instBlock j]
    by_cases hj : j = id
    · rw [hj, hid]
      simp
    · simp [hj]
  old := hr.old
  phi := hr.phi
  replaced := by
    intro j v
    rw [hr.replaced j v, List.mem_append, List.mem_singleton]
    refine and_congr_left fun hl => ⟨.inl, fun hj => hj.resolve_right ?_⟩
    rintro rfl
    rw [isAccess_of_loads h hl] at hid
    cases hid

theorem Renamed.remove (hr : P.Renamed seen fed g t) {id : InstId}
    (hid : P.isAccess id = true) {t' : Replacements}
    (ht : ∀ j v, t'.get? j = some v ↔ j ∈ seen ++ [id] ∧ P.Loads j v) :
    ∃ g', g.removeInst id = .ok g' ∧ P.Renamed (seen ++ [id]) fed g' t' := by
  obtain ⟨g', hg', hwo⟩ := removeInst_spec hr.housed id
  refine ⟨g', hg', hwo.params.trans hr.params, hwo.entry.trans hr.entry, hwo.housed hr.housed, ?_,
    ?_, ?_, ?_, ht⟩
  · intro b
    rw [hwo.block? b, hr.block b, Option.map_map]
    congr 1
    funext data
    simp only [Function.comp, List.filter_filter]
    congr 1
    refine List.filter_congr fun j _ => ?_
    by_cases hj : j = id
    · simp [hj, hid]
    · simp [hj]
  · intro j
    rw [hwo.instBlock j, hr.instBlock j]
    by_cases hj : j = id
    · simp [hj, hid]
    · simp [hj]
  · intro j hj
    rw [hwo.inst? j]
    exact hr.old j hj
  · intro b n p hp
    rw [hwo.inst? p]
    exact hr.phi b n p hp

/-- The table learns what a load reads. -/
theorem Renamed.load (h : P.Sound) (hr : P.Renamed seen fed g t) {b : BlockId}
    (hb : f.Reachable b) {before after : List InstId} {id s : InstId}
    (hsplit : f.instsOf b = before ++ id :: after) {o : Option Ty}
    (hi : f.inst? id = some ⟨.load (.inst s), o⟩) {n : Nat} {ty : Ty}
    (hs : P.slots[n]? = some (s, ty)) :
    ∃ g', g.removeInst id = .ok g' ∧
      P.Renamed (seen ++ [id]) fed g' (t.insert id (valueOf (P.current b before) n)) := by
  have hloads : P.Loads id (valueOf (P.current b before) n) :=
    ⟨b, before, after, s, o, n, ty, hb, hsplit, hi, hs, rfl⟩
  refine hr.remove (isAccess_of_loads h hloads) fun j v => ?_
  rw [Table.get?_insert, List.mem_append, List.mem_singleton]
  split
  · rename_i hj
    subst hj
    rw [Option.some.injEq]
    constructor
    · rintro rfl
      exact ⟨.inr rfl, hloads⟩
    · rintro ⟨_, hl⟩
      exact h.loads_unique hloads hl
  · rename_i hj
    rw [hr.replaced j v, or_iff_left (Ne.symm hj)]

theorem Renamed.store (h : P.Sound) (hr : P.Renamed seen fed g t) {id s : InstId} {v : Value}
    {o : Option Ty} (hi : f.inst? id = some ⟨.store (.inst s) v, o⟩) {n : Nat} {ty : Ty}
    (hs : P.slots[n]? = some (s, ty)) :
    ∃ g', g.removeInst id = .ok g' ∧ P.Renamed (seen ++ [id]) fed g' t := by
  have haccess : P.isAccess id = true := by simp [isAccess, hi, h.slotNumber?_inst hs]
  refine hr.remove haccess fun j w => ?_
  rw [hr.replaced j w, List.mem_append, List.mem_singleton]
  refine and_congr_left fun hl => ⟨.inl, fun hj => hj.resolve_right ?_⟩
  rintro rfl
  obtain ⟨_, _, _, _, _, _, _, _, _, hi', _⟩ := hl
  rw [hi] at hi'
  cases hi'

theorem Renamed.inst (h : P.Sound) {r : Renaming} (hr : P.Renamed seen fed r.func r.replaced)
    {b : BlockId} (hb : f.Reachable b) {before after : List InstId} {id : InstId}
    (hsplit : f.instsOf b = before ++ id :: after) (hcur : r.current = P.current b before) :
    ∃ r', Renaming.inst P.slots r id = .ok r' ∧ P.Renamed (seen ++ [id]) fed r'.func r'.replaced ∧
      r'.current = P.current b (before ++ [id]) := by
  have hmem := mem_of_split hsplit
  obtain ⟨i, hi⟩ := h.wellFormed.consistent.inst?_of_mem hmem
  have hkind := kind_of_inst? ((hr.old id (h.index_lt hmem)).trans hi)
  -- nothing happens unless a promoted slot is named
  have hskip : P.isAccess id = false → P.track (P.current b before) id = P.current b before →
      P.Renamed (seen ++ [id]) fed r.func r.replaced ∧
        r.current = P.current b (before ++ [id]) := by
    intro hacc htrack
    rw [current_snoc, htrack]
    exact ⟨hr.skip h hacc, hcur⟩
  obtain ⟨kind, o⟩ := i
  unfold Renaming.inst
  rw [hkind]
  cases kind with
  | load p =>
    have htrack : P.track (P.current b before) id = P.current b before := by
      simp only [track, hi]
    simp only [bind, Except.bind]
    cases hn : slotNumber? P.slots p with
    | none => exact ⟨r, rfl, hskip (by simp [isAccess, hi, hn]) htrack⟩
    | some n =>
      obtain ⟨s, ty, rfl, hs⟩ := h.slotNumber?_iff.1 hn
      obtain ⟨g', hg', hr'⟩ := hr.load h hb hsplit hi hs
      rw [← hcur] at hr'
      refine ⟨{ r with func := g', replaced := r.replaced.insert id (valueOf r.current n) }, ?_,
        hr', ?_⟩
      · simp only [hg']
        rfl
      · rw [current_snoc, htrack]
        exact hcur
  | store p v =>
    simp only [bind, Except.bind]
    cases hn : slotNumber? P.slots p with
    | none =>
      refine ⟨r, rfl, hskip (by simp [isAccess, hi, hn]) ?_⟩
      simp only [track, hi, hn]
    | some n =>
      obtain ⟨s, ty, rfl, hs⟩ := h.slotNumber?_iff.1 hn
      obtain ⟨g', hg', hr'⟩ := hr.store h hi hs
      refine ⟨{ r with func := g', current := r.current.set n v }, ?_, hr', ?_⟩
      · simp only [hg']
        rfl
      · rw [current_snoc, track_store hi hn]
        exact congrArg (·.set n v) hcur
  | _ =>
    refine ⟨r, rfl, hskip (by simp [isAccess, hi]) ?_⟩
    simp only [track, hi]

theorem Renamed.insts (h : P.Sound) {b : BlockId} (hb : f.Reachable b) (ids : List InstId) :
    ∀ {before after seen} {r : Renaming}, P.Renamed seen fed r.func r.replaced →
      f.instsOf b = before ++ ids ++ after → r.current = P.current b before →
      ∃ r', ids.foldlM (Renaming.inst P.slots) r = .ok r' ∧
        P.Renamed (seen ++ ids) fed r'.func r'.replaced ∧
        r'.current = P.current b (before ++ ids) := by
  induction ids with
  | nil =>
    intro before after seen r hr _ hcur
    refine ⟨r, rfl, ?_, ?_⟩
    · rwa [List.append_nil]
    · rwa [List.append_nil]
  | cons id ids ih =>
    intro before after seen r hr hsplit hcur
    have hfirst : f.instsOf b = before ++ id :: (ids ++ after) := by
      rw [hsplit, List.append_assoc, List.cons_append]
    have hrest : f.instsOf b = before ++ [id] ++ ids ++ after := by
      rw [hsplit, List.append_cons]
    obtain ⟨r₁, hstep, hr₁, hcur₁⟩ := hr.inst h hb hfirst hcur
    obtain ⟨r₂, hfold, hr₂, hcur₂⟩ := ih hr₁ hrest hcur₁
    refine ⟨r₂, ?_, ?_, ?_⟩
    · rw [List.foldlM_cons, hstep]
      exact hfold
    · rwa [← List.append_cons] at hr₂
    · rwa [← List.append_cons] at hcur₂

theorem Renamed.phis {r : Renaming} (hr : P.Renamed seen fed r.func r.replaced)
    {b : BlockId} (l : List (Nat × InstId)) (hl : ∀ x ∈ l, x ∈ P.phis.ofBlock b) :
    (l.map (·.2)).foldlM (Renaming.inst P.slots) r = .ok r := by
  induction l with
  | nil => rfl
  | cons x l ih =>
    obtain ⟨s, ty, inc, _, hi, _⟩ := hr.phi b x.1 x.2 (hl x List.mem_cons_self)
    have hstep : Renaming.inst P.slots r x.2 = .ok r := by
      unfold Renaming.inst
      rw [kind_of_inst? hi]
      rfl
    rw [List.map_cons, List.foldlM_cons, hstep]
    exact ih fun y hy => hl y (List.mem_cons_of_mem _ hy)

/-! ### Edges -/

theorem Renamed.congr {fed' : BlockId → InstId → Prop} (hr : P.Renamed seen fed g t)
    (hiff : ∀ q p, fed q p ↔ fed' q p) : P.Renamed seen fed' g t := by
  have heq : fed = fed' := by
    funext q p
    exact propext (hiff q p)
  rwa [← heq]

/-- One phi hears of one edge. -/
theorem Renamed.feed (hr : P.Renamed seen fed g t) (h : P.Sound) {s : BlockId} {x : Nat × InstId}
    (hx : x ∈ P.phis.ofBlock s) (b : BlockId) :
    P.Renamed seen (fun q p => fed q p ∨ (q = b ∧ p = x.2)) (g.addIncoming b (P.out b) x) t where
  params := hr.params
  entry := hr.entry
  housed := ⟨fun id c hc => hr.housed.live id c ((instBlock_modifyKind g x.2 id _).symm.trans hc),
    fun c data hdata id hid => (instBlock_modifyKind g x.2 id _).trans
      (hr.housed.mem c data hdata id hid)⟩
  block := hr.block
  instBlock := fun id => (instBlock_modifyKind g x.2 id _).trans (hr.instBlock id)
  old := by
    intro id hid
    obtain ⟨hle, _⟩ := h.placed.new s x.1 x.2 hx
    rw [addIncoming, inst?_modifyKind, if_neg]
    · exact hr.old id hid
    · rintro rfl
      omega
  phi := by
    intro c n p hp
    obtain ⟨s', ty, inc, hs, hi, hnodup, hinc⟩ := hr.phi c n p hp
    rw [addIncoming, inst?_modifyKind]
    by_cases hpx : x.2 = p
    · obtain ⟨m, p'⟩ := x
      have hpp : p' = p := hpx
      subst hpp
      obtain ⟨rfl, rfl⟩ := h.phi_unique hp hx
      rw [if_pos rfl, hi]
      simp only [Option.map_some, Kind.mapIncoming]
      by_cases hany : inc.any (·.1 = b) = true
      · rw [if_pos hany]
        refine ⟨s', ty, inc, hs, rfl, hnodup, fun q v => ?_⟩
        obtain ⟨⟨q', v'⟩, hmem, hq'⟩ := List.any_eq_true.1 hany
        rw [decide_eq_true_eq] at hq'
        have hfed : fed b p' := by
          have hfst := ((hinc q' v').1 hmem).1
          rwa [show q' = b from hq'] at hfst
        rw [hinc q v]
        refine and_congr_left fun _ => ⟨.inl, ?_⟩
        rintro (hq | ⟨rfl, _⟩)
        · exact hq
        · exact hfed
      · rw [if_neg hany]
        refine ⟨s', ty, _, hs, rfl, ?_, fun q v => ?_⟩
        · rw [List.map_append, List.map_singleton, List.nodup_append]
          refine ⟨hnodup, by simp, ?_⟩
          rintro q hq q' hq' rfl
          obtain ⟨e, he, rfl⟩ := List.mem_map.1 hq
          exact hany (List.any_eq_true.2 ⟨e, he, by simpa using hq'⟩)
        rw [List.mem_append, hinc q v, List.mem_singleton, Prod.mk.injEq]
        constructor
        · rintro (⟨hq, hv⟩ | ⟨rfl, rfl⟩)
          · exact ⟨.inl hq, hv⟩
          · exact ⟨.inr ⟨rfl, trivial⟩, rfl⟩
        · rintro ⟨hq | ⟨rfl, _⟩, hv⟩
          · exact .inl ⟨hq, hv⟩
          · exact .inr ⟨rfl, hv⟩
    · rw [if_neg hpx]
      refine ⟨s', ty, inc, hs, hi, hnodup, fun q v => ?_⟩
      have hne : ¬ (q = b ∧ p = x.2) := fun hqp => hpx hqp.2.symm
      rw [hinc q v, or_iff_left hne]
  replaced := hr.replaced

theorem Renamed.feedBlock (h : P.Sound) {b s : BlockId} (l : List (Nat × InstId))
    (hl : ∀ x ∈ l, x ∈ P.phis.ofBlock s) :
    ∀ {fed g}, P.Renamed seen fed g t →
      P.Renamed seen (fun q p => fed q p ∨ (q = b ∧ ∃ n, (n, p) ∈ l))
        (l.foldl (fun g x => g.addIncoming b (P.out b) x) g) t := by
  induction l with
  | nil =>
    intro fed g hr
    exact hr.congr fun q p => by simp
  | cons x l ih =>
    intro fed g hr
    have hstep := hr.feed h (hl x List.mem_cons_self) b
    refine (ih (fun y hy => hl y (List.mem_cons_of_mem _ hy)) hstep).congr fun q p => ?_
    have hx : (∃ n, (n, p) ∈ x :: l) ↔ p = x.2 ∨ ∃ n, (n, p) ∈ l := by
      obtain ⟨m, p'⟩ := x
      simp only [List.mem_cons, Prod.mk.injEq, exists_or, exists_eq_left]
    rw [hx, and_or_left, or_assoc]

theorem Renamed.feedAll (h : P.Sound) {b : BlockId} (succs : List BlockId) :
    ∀ {fed g}, P.Renamed seen fed g t →
      P.Renamed seen (fun q p => fed q p ∨ (q = b ∧ ∃ s ∈ succs, ∃ n, (n, p) ∈ P.phis.ofBlock s))
        (succs.foldl (fun g s => (P.phis.ofBlock s).foldl
          (fun g x => g.addIncoming b (P.out b) x) g) g) t := by
  induction succs with
  | nil =>
    intro fed g hr
    exact hr.congr fun q p => by simp
  | cons s succs ih =>
    intro fed g hr
    have hstep := Renamed.feedBlock h (b := b) (P.phis.ofBlock s) (fun x hx => hx) hr
    refine (ih hstep).congr fun q p => ?_
    rw [List.exists_mem_cons_iff, and_or_left, or_assoc]

/-! ### Blocks -/

/-- The phi `p` stands behind an edge from `q`, which is one of the given blocks. -/
def Fed (P : Promotion f) (done : List BlockId) (q : BlockId) (p : InstId) : Prop :=
  q ∈ done ∧ ∃ s n, f.Edge q s ∧ (n, p) ∈ P.phis.ofBlock s

theorem Renamed.untouched (h : P.Sound) {done : List BlockId} {b : BlockId} {data : Block}
    (hr : P.Renamed (done.flatMap f.instsOf) fed g t) (hdata : f.block? b = some data)
    (hnew : b ∉ done) :
    g.block? b = some { data with
      insts := data.insts.takeWhile f.isPhi ++ (P.phis.ofBlock b).map (·.2) ++
        data.insts.dropWhile f.isPhi } := by
  have hfresh : ∀ id ∈ data.insts, id ∉ done.flatMap f.instsOf := by
    intro id hid hmem
    obtain ⟨c, hc, hidc⟩ := List.mem_flatMap.1 hmem
    rw [← instsOf_eq hdata] at hid
    rw [h.wellFormed.consistent.same_block hid hidc] at hnew
    exact hnew hc
  have hphi : ∀ id ∈ (P.phis.ofBlock b).map (·.2), P.isAccess id = false := by
    intro id hid
    obtain ⟨⟨n, p⟩, hp, rfl⟩ := List.mem_map.1 hid
    simp [isAccess, h.inst?_phi hp]
  rw [hr.block b, h.block_placed hdata, Option.map_some]
  congr 2
  refine List.filter_eq_self.2 fun id hid => ?_
  rcases List.mem_append.1 hid with hid | hid
  · rcases List.mem_append.1 hid with hid | hid
    · simp [hfresh id ((List.takeWhile_prefix f.isPhi).subset hid)]
    · simp [hphi id hid]
  · simp [hfresh id ((List.dropWhile_suffix f.isPhi).subset hid)]

theorem Renamed.term (hr : P.Renamed seen fed g t) (h : P.Sound) {b : BlockId} {data : Block}
    (hdata : f.block? b = some data) : g.successors b = .ok data.term.successors := by
  have hblock := hr.block b
  rw [h.block_placed hdata, Option.map_some] at hblock
  have hsucc := successors_eq_ok hblock
  exact hsucc

theorem Sound.fed_append (h : P.Sound) {done : List BlockId} {b : BlockId} {data : Block}
    (hdata : f.block? b = some data) (q : BlockId) (p : InstId) :
    P.Fed done q p ∨ (q = b ∧ ∃ s ∈ data.term.successors.eraseReps,
      ∃ n, (n, p) ∈ P.phis.ofBlock s) ↔ P.Fed (done ++ [b]) q p := by
  unfold Fed
  rw [List.mem_append, List.mem_singleton, or_and_right]
  refine or_congr_right (and_congr_right ?_)
  rintro rfl
  constructor
  · rintro ⟨s, hs, n, hp⟩
    rw [mem_eraseReps] at hs
    exact ⟨s, n, ⟨data, hdata, hs, h.wellFormed.targets q data hdata s hs⟩, hp⟩
  · rintro ⟨s, n, ⟨data', hdata', hs, _⟩, hp⟩
    rw [hdata] at hdata'
    cases hdata'
    exact ⟨s, mem_eraseReps.2 hs, n, hp⟩

/-- One block and the edges from it. -/
theorem Renamed.visit (h : P.Sound) {done : List BlockId} {b : BlockId}
    (hr : P.Renamed (done.flatMap f.instsOf) (P.Fed done) g t) (hb : f.Reachable b)
    (hnew : b ∉ done) :
    ∃ r, Renaming.block P.slots P.phis ⟨g, t, P.head b⟩ b = .ok r ∧
      P.Renamed ((done ++ [b]).flatMap f.instsOf) (P.Fed (done ++ [b])) r.func r.replaced ∧
      r.current = P.out b := by
  obtain ⟨data, hdata⟩ := containsBlock_iff.1 hb.live
  have hinsts := instsOf_eq hdata
  have hsplit : data.insts.takeWhile f.isPhi ++ data.insts.dropWhile f.isPhi = data.insts :=
    List.takeWhile_append_dropWhile
  have hfirst : f.instsOf b =
      [] ++ data.insts.takeWhile f.isPhi ++ data.insts.dropWhile f.isPhi := by
    rw [hinsts, List.nil_append, hsplit]
  have hlast : f.instsOf b =
      data.insts.takeWhile f.isPhi ++ data.insts.dropWhile f.isPhi ++ [] := by
    rw [hinsts, List.append_nil, hsplit]
  obtain ⟨r₁, hfold₁, hr₁, hcur₁⟩ := Renamed.insts (r := ⟨g, t, (P.phis.ofBlock b).foldl
    (fun cur p => cur.set p.1 (.inst p.2)) (P.head b)⟩) h hb _ hr hfirst rfl
  have hfold₂ := hr₁.phis (P.phis.ofBlock b) fun x hx => hx
  obtain ⟨r₂, hfold₃, hr₂, hcur₂⟩ := Renamed.insts h hb _ hr₁ hlast hcur₁
  rw [List.append_assoc, hsplit, ← hinsts] at hr₂
  rw [hsplit, ← hinsts] at hcur₂
  have hfed := (Renamed.feedAll h (b := b) data.term.successors.eraseReps hr₂).congr
    (h.fed_append hdata)
  have hseen : (done ++ [b]).flatMap f.instsOf = done.flatMap f.instsOf ++ f.instsOf b := by
    rw [List.flatMap_append, List.flatMap_singleton]
  refine ⟨{ r₂ with func := data.term.successors.eraseReps.foldl (fun g s =>
    (P.phis.ofBlock s).foldl (fun g x => g.addIncoming b r₂.current x) g) r₂.func }, ?_, ?_, hcur₂⟩
  · unfold Renaming.block
    simp only [bind, Except.bind, block_eq_ok.2 (hr.untouched h hdata hnew), List.foldlM_append,
      hfold₁, hfold₂, hfold₃, hr₂.term h hdata]
    rfl
  · rw [hseen]
    simp only [hcur₂]
    exact hfed

/-! ### The walk as a whole -/

/-- What holds between the visited blocks and those still to visit. -/
structure Walk (P : Promotion f) (done : List BlockId) (work : List (BlockId × List Value)) :
    Prop extends P.dom.Descent f P.entry done (work.map (·.1)) where
  values : ∀ x ∈ work, x.2 = P.head x.1

theorem Sound.walk_start (h : P.Sound) : P.Walk [] [(P.entry, P.start)] where
  toDescent := .start h.correct (h.wellFormed.entry _ h.correct.entry)
  values := by
    intro x hx
    rw [List.mem_singleton.1 hx]
    exact h.head_entry.symm

variable {done : List BlockId} {work : List (BlockId × List Value)} {b : BlockId} {cur : List Value}

theorem Walk.step (hw : P.Walk done ((b, cur) :: work)) (h : P.Sound) :
    P.Walk (done ++ [b]) ((P.dom.children b).reverse.map (fun c => (c, P.out b)) ++ work) where
  toDescent := by
    have hkeys : ((P.dom.children b).reverse.map (fun c => (c, P.out b)) ++ work).map (·.1) =
        (P.dom.children b).reverse ++ work.map (·.1) := by
      rw [List.map_append, List.map_map]
      congr 1
      exact List.map_id' _
    rw [hkeys]
    exact hw.toDescent.visit h.correct (List.reverse_perm _)
  values := by
    intro x hx
    rcases List.mem_append.1 hx with hx | hx
    · obtain ⟨c, hc, rfl⟩ := List.mem_map.1 hx
      exact (h.head_of_idom ((DomTree.mem_children h.correct).1 (List.mem_reverse.1 hc))).symm
    · exact hw.values x (List.mem_cons_of_mem _ hx)

/-- The walk ends, and then all reachable blocks have been renamed. -/
theorem Walk.rename (h : P.Sound) (n : Nat) :
    ∀ {done work g t}, P.Walk done work →
      P.Renamed (done.flatMap f.instsOf) (P.Fed done) g t → P.dom.rpo.length ≤ done.length + n →
      ∃ done' g' t', renameFrom P.dom P.slots P.phis n g t work = .ok (g', t') ∧
        P.Renamed (done'.flatMap f.instsOf) (P.Fed done') g' t' ∧
        ∀ b, b ∈ done' ↔ f.Reachable b := by
  induction n with
  | zero =>
    intro done work g t hw hr hn
    have hle := hw.toDescent.length_le h.correct
    rw [List.length_map] at hle
    have hnil : work = [] := List.length_eq_zero_iff.1 (by omega)
    subst hnil
    exact ⟨done, g, t, by unfold renameFrom; rfl, hr, fun b => hw.toDescent.mem_done_iff h.correct⟩
  | succ n ih =>
    intro done work g t hw hr hn
    match work with
    | [] =>
      exact ⟨done, g, t, by unfold renameFrom; rfl, hr, fun b => hw.toDescent.mem_done_iff h.correct⟩
    | (b, cur) :: work =>
      have hcur : cur = P.head b := hw.values (b, cur) List.mem_cons_self
      subst hcur
      have hb : f.Reachable b := hw.reachable b (by simp)
      obtain ⟨r, hblock, hr', hout⟩ := hr.visit h hb hw.toDescent.notMem_done
      have hstep := hw.step h
      rw [← hout] at hstep
      obtain ⟨done', g', t', hrun, hresult⟩ := ih hstep hr' (by
        rw [List.length_append, List.length_singleton]
        omega)
      refine ⟨done', g', t', ?_, hresult⟩
      unfold renameFrom
      rw [hblock]
      exact hrun

theorem Sound.rename (h : P.Sound) :
    ∃ done g t, renameFrom P.dom P.slots P.phis P.dom.rpo.length P.placed [] [(P.entry, P.start)] =
        .ok (g, t) ∧ P.Renamed (done.flatMap f.instsOf) (P.Fed done) g t ∧
      ∀ b, b ∈ done ↔ f.Reachable b := by
  refine h.walk_start.rename h P.dom.rpo.length (h.renamed_start.congr fun q p => ?_) (by simp)
  simp [Fed]

end BinaryLift.Promotion
