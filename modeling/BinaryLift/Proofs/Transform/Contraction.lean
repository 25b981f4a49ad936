import BinaryLift.Proofs.Run.Reads

/-!
# Contraction of a block

A block is taken out of all ways: what led to it leads to its successors. Ways of the new graph are
ways of the old one that leave the block out, so every other block dominates what it dominated. A
block that only jumps on is contracted by leading edges past it, a block with one predecessor by
appending it there.
-/

namespace BinaryLift

/-- Go to `new` instead of `old`. -/
def Next.redirect (old new : BlockId) : Next → Next
  | .goto c => .goto (if c = old then new else c)
  | .leave e => .leave e

namespace Func

variable {f g : Func} {act : Activation} {a b c x y target pred : BlockId} {p : List BlockId}
  {pre : List InstId} {id j : InstId}

/-- In the graph of `g` every way through `b` has become a way past it. -/
structure Contracts (f g : Func) (b : BlockId) : Prop where
  entry : g.entry = f.entry
  ne_entry : f.entry ≠ some b
  live : ∀ x, x ≠ b → g.containsBlock x = f.containsBlock x
  loop : ¬ f.Edge b b
  edge : ∀ x y, x ≠ b → (g.Edge x y ↔ y ≠ b ∧ (f.Edge x y ∨ f.Edge x b ∧ f.Edge b y))

namespace Contracts

theorem path (h : f.Contracts g b) (hp : g.Path p y) :
    y ≠ b ∧ ∃ p', f.Path p' y ∧ ∀ x ∈ p', x ≠ b → x ∈ p := by
  induction hp with
  | @entry e he hlive =>
    rw [h.entry] at he
    have hne : e ≠ b := by
      rintro rfl
      exact h.ne_entry he
    rw [h.live e hne] at hlive
    exact ⟨hne, [e], .entry he hlive, fun x hx _ => hx⟩
  | @step p x y hp hedge ih =>
    obtain ⟨hx, p', hp', hsub⟩ := ih
    obtain ⟨hy, hedge' | ⟨hxb, hby⟩⟩ := (h.edge x y hx).1 hedge
    · refine ⟨hy, y :: p', hp'.step hedge', fun z hz hzb => ?_⟩
      rcases List.mem_cons.1 hz with rfl | hz
      · exact List.mem_cons_self
      · exact List.mem_cons_of_mem _ (hsub z hz hzb)
    · refine ⟨hy, y :: b :: p', (hp'.step hxb).step hby, fun z hz hzb => ?_⟩
      rcases List.mem_cons.1 hz with rfl | hz
      · exact List.mem_cons_self
      · rcases List.mem_cons.1 hz with rfl | hz
        · exact absurd rfl hzb
        · exact List.mem_cons_of_mem _ (hsub z hz hzb)

theorem reachable (h : f.Contracts g b) (hx : g.Reachable x) : f.Reachable x := by
  obtain ⟨p, hp⟩ := hx
  obtain ⟨_, p', hp', _⟩ := h.path hp
  exact ⟨p', hp'⟩

theorem ne_of_reachable (h : f.Contracts g b) (hx : g.Reachable x) : x ≠ b := by
  obtain ⟨p, hp⟩ := hx
  exact (h.path hp).1

theorem strictly (h : f.Contracts g b) (ha : a ≠ b) (hac : f.StrictlyDominates a c) :
    g.StrictlyDominates a c := by
  refine ⟨hac.1, fun p hp => ?_⟩
  obtain ⟨_, p', hp', hsub⟩ := h.path hp
  exact hsub a (hac.2 p' hp') ha

end Contracts

/-! ### Edges that lead past a block -/

/-- In `g` the edges to `b`, which only jumps to `target`, lead to `target`. -/
structure Bypassed (f g : Func) (b target : BlockId) : Prop where
  params : g.params = f.params
  entry : g.entry = f.entry
  arena : g.arena = f.arena
  ne_entry : f.entry ≠ some b
  ne_target : target ≠ b
  forwards : ∃ address, f.block? b = some ⟨address, [], .jump target⟩
  noPhis : f.phisOf target = []
  block : ∀ x, g.block? x =
    (f.block? x).map fun data => { data with term := data.term.replaceSuccessor b target }

namespace Bypassed

theorem containsBlock (h : f.Bypassed g b target) (x : BlockId) :
    g.containsBlock x = f.containsBlock x := by
  rw [Func.containsBlock, Func.containsBlock, h.block x, Option.isSome_map]

theorem edge_left (h : f.Bypassed g b target) (hlive : f.containsBlock target = true) :
    f.Edge b y ↔ y = target := by
  obtain ⟨address, hb⟩ := h.forwards
  constructor
  · rintro ⟨data, hdata, hs, _⟩
    rw [hb] at hdata
    cases hdata
    exact List.mem_singleton.1 hs
  · rintro rfl
    exact ⟨_, hb, List.mem_singleton_self _, hlive⟩

theorem contracts_of_live (h : f.Bypassed g b target) (hlive : f.containsBlock target = true) :
    f.Contracts g b := by
  obtain ⟨address, hb⟩ := h.forwards
  have hblive : f.containsBlock b = true := containsBlock_iff.2 ⟨_, hb⟩
  refine ⟨h.entry, h.ne_entry, fun x _ => h.containsBlock x, ?_, fun x y hx => ?_⟩
  · rw [h.edge_left hlive]
    exact h.ne_target.symm
  · rw [h.edge_left hlive]
    constructor
    · rintro ⟨data', hdata', hs, hy⟩
      rw [h.block x] at hdata'
      obtain ⟨data, hdata, rfl⟩ := Option.map_eq_some_iff.1 hdata'
      rw [Terminator.successors_replaceSuccessor] at hs
      obtain ⟨s, hmem, rfl⟩ := List.mem_map.1 hs
      rw [h.containsBlock] at hy
      by_cases hsb : s = b
      · rw [if_pos hsb]
        exact ⟨h.ne_target, .inr ⟨⟨data, hdata, hsb ▸ hmem, hblive⟩, rfl⟩⟩
      · rw [if_neg hsb] at hy ⊢
        exact ⟨hsb, .inl ⟨data, hdata, hmem, hy⟩⟩
    · have hedge : ∀ s, f.Edge x s → g.Edge x (if s = b then target else s) := by
        rintro s ⟨data, hdata, hs, hlives⟩
        refine ⟨_, by rw [h.block x, hdata, Option.map_some], ?_, ?_⟩
        · rw [Terminator.successors_replaceSuccessor]
          exact List.mem_map.2 ⟨s, hs, rfl⟩
        · rw [h.containsBlock]
          split
          · exact hlive
          · exact hlives
      rintro ⟨hy, hxy | ⟨hxb, rfl⟩⟩
      · have hg := hedge y hxy
        rwa [if_neg hy] at hg
      · have hg := hedge b hxb
        rwa [if_pos rfl] at hg

theorem contracts (h : f.Bypassed g b target) (hwf : f.WellFormed) : f.Contracts g b := by
  obtain ⟨address, hb⟩ := h.forwards
  exact h.contracts_of_live (hwf.targets b _ hb target (List.mem_singleton_self _))

theorem instsOf (h : f.Bypassed g b target) (x : BlockId) : g.instsOf x = f.instsOf x := by
  unfold Func.instsOf
  rw [h.block x]
  cases f.block? x <;> rfl

theorem inst? (h : f.Bypassed g b target) (id : InstId) : g.inst? id = f.inst? id :=
  inst?_eq_of_arena h.arena id

theorem isPhi (h : f.Bypassed g b target) : g.isPhi = f.isPhi := by
  funext id
  rw [Func.isPhi, Func.isPhi, h.inst?]

theorem typeOf (h : f.Bypassed g b target) (v : Value) : g.typeOf v = f.typeOf v :=
  typeOf_congr h.params (fun id => by rw [h.inst? id]) v

theorem available (h : f.Bypassed g b target) (hwf : f.WellFormed) (hj : f.Available x pre j) :
    g.Available x pre j := by
  rcases hj with hj | ⟨a, data, hdom, hdata, hj⟩
  · exact .inl hj
  · obtain ⟨address, hb⟩ := h.forwards
    have hab : a ≠ b := by
      rintro rfl
      rw [hb] at hdata
      cases hdata
      cases hj
    have hdata' := h.block a
    rw [hdata, Option.map_some] at hdata'
    exact .inr ⟨a, _, (h.contracts hwf).strictly hab hdom, hdata', hj⟩

theorem leaves (h : f.Bypassed g b target) (hl : act.Leaves f) : act.Leaves g := by
  refine hl.of_subset ?_ ?_
  · intro x data' hdata' w hw
    rw [h.block x] at hdata'
    obtain ⟨data, hdata, rfl⟩ := Option.map_eq_some_iff.1 hdata'
    exact ⟨x, data, hdata, hw⟩
  · intro x data' v hdata' hv
    rw [h.block x] at hdata'
    obtain ⟨data, hdata, rfl⟩ := Option.map_eq_some_iff.1 hdata'
    cases hd : data.term with
    | indirect u => exact ⟨x, data, u, hdata, hd⟩
    | _ =>
      simp only [hd] at hv
      cases hv

/-- A phi stands neither in the empty block nor in its target. -/
theorem phi_block (h : f.Bypassed g b target) (hwf : f.WellFormed) (hid : id ∈ f.instsOf x)
    {inc : List (BlockId × Value)} {ty : Option Ty} (hi : f.inst? id = some ⟨.phi inc, ty⟩) :
    x ≠ b ∧ x ≠ target := by
  refine ⟨?_, ?_⟩
  · rintro rfl
    obtain ⟨address, hb⟩ := h.forwards
    rw [instsOf_eq hb] at hid
    cases hid
  · rintro rfl
    obtain ⟨before, after, hsplit⟩ := List.append_of_mem hid
    have hphi := hwf.isPhi_of_split (h.noPhis ▸ List.nil_prefix) hsplit
    rw [isPhi_inst hi] at hphi
    cases hphi

theorem term_old (h : f.Bypassed g b target) {data' : Block} (hdata' : g.block? x = some data') :
    ∃ data, f.block? x = some data ∧ data'.term = data.term.replaceSuccessor b target := by
  rw [h.block x] at hdata'
  obtain ⟨data, hdata, rfl⟩ := Option.map_eq_some_iff.1 hdata'
  exact ⟨data, hdata, rfl⟩

theorem consistent (h : f.Bypassed g b target) (hc : f.Consistent) : g.Consistent :=
  hc.congr h.instsOf fun id => by rw [instBlock, instBlock, h.arena]

theorem entry_live (h : f.Bypassed g b target)
    (hentry : ∀ e, f.entry = some e → f.containsBlock e = true) {e : BlockId}
    (he : g.entry = some e) : g.containsBlock e = true := by
  rw [h.containsBlock]
  exact hentry e (h.entry ▸ he)

theorem targets (h : f.Bypassed g b target)
    (htargets : ∀ x data, f.block? x = some data → ∀ s ∈ data.term.successors,
      f.containsBlock s = true)
    {data' : Block} (hdata' : g.block? x = some data') {s : BlockId}
    (hs : s ∈ data'.term.successors) : g.containsBlock s = true := by
  obtain ⟨address, hb⟩ := h.forwards
  obtain ⟨data, hdata, hterm⟩ := h.term_old hdata'
  rw [hterm, Terminator.successors_replaceSuccessor] at hs
  obtain ⟨s', hs', rfl⟩ := List.mem_map.1 hs
  rw [h.containsBlock]
  split
  · exact htargets b _ hb target (List.mem_singleton_self _)
  · exact htargets x data hdata s' hs'

/-- No phi stands where other edges lead than before. -/
theorem hears (h : f.Bypassed g b target) (hwf : f.WellFormed) (hid : id ∈ f.instsOf x)
    {inc : List (BlockId × Value)} {ty : Option Ty} (hi : f.inst? id = some ⟨.phi inc, ty⟩) :
    g.Hears x (inc.map (·.1)) := by
  have hct := h.contracts hwf
  obtain ⟨address, hb⟩ := h.forwards
  obtain ⟨hxb, hxt⟩ := h.phi_block hwf hid hi
  have hnot : ¬ f.Edge b x := fun hbx =>
    hxt ((h.edge_left (hwf.targets b _ hb target (List.mem_singleton_self _))).1 hbx)
  refine ⟨fun q hq hedge => ?_, fun q hq => ?_⟩
  · obtain ⟨_, hedge' | ⟨_, hbx⟩⟩ := (hct.edge q x (hct.ne_of_reachable hq)).1 hedge
    · exact (hwf.hears hid hi).once q (hct.reachable hq) hedge'
    · exact absurd hbx hnot
  · have hqx := (hwf.hears hid hi).edge q hq
    have hqb : q ≠ b := by
      rintro rfl
      exact hnot hqx
    exact (hct.edge q x hqb).2 ⟨hxb, .inl hqx⟩

theorem reads (h : f.Bypassed g b target) (hwf : f.WellFormed) {drop : InstId → Bool} {v : Value}
    (hread : g.Reads drop x pre v) : f.Reads drop x pre v := by
  have hct := h.contracts hwf
  cases hread with
  | inst hx hsplit hkeep hi hphi hv =>
    rw [h.instsOf] at hsplit
    rw [h.inst?] at hi
    exact .inst (hct.reachable hx) hsplit hkeep hi hphi hv
  | phi hx hid hkeep hi he hq =>
    rw [h.instsOf] at hid ⊢
    rw [h.inst?] at hi
    exact .phi (hct.reachable hx) hid hkeep hi he (hct.reachable hq)
  | term hx hdata' hv =>
    obtain ⟨data, hdata, hterm⟩ := h.term_old hdata'
    have hops : (data.term.replaceSuccessor b target).operands = data.term.operands := by
      cases data.term <;> rfl
    rw [hterm, hops] at hv
    rw [h.instsOf]
    exact .term (hct.reachable hx) hdata hv

theorem wellFormed (h : f.Bypassed g b target) (hwf : f.WellFormed) : g.WellFormed := by
  refine wellFormed_of_reads (h.consistent hwf.consistent) (fun e => h.entry_live hwf.entry)
    (fun x data' hdata' s => h.targets hwf.targets hdata') (fun x id hid => ?_)
    (fun x id inc ty hid hi => ?_) fun x pre j hread => ?_
  · rw [h.isPhi, h.instsOf] at hid
    rw [h.isPhi]
    exact hwf.isPhi_behind hid
  · rw [h.instsOf] at hid
    rw [h.inst?] at hi
    exact h.hears hwf hid hi
  · exact h.available hwf ((h.reads hwf hread).atHand hwf)

theorem orderly (h : f.Bypassed g b target) {own : InstId → Bool} (ho : f.Orderly own) :
    g.Orderly own := by
  have hct := h.contracts ho.wellFormed
  refine ⟨h.wellFormed ho.wellFormed, ?_, ?_, ?_, ?_⟩
  · intro x id i hx hid hi hphi
    rw [h.instsOf] at hid
    rw [h.inst?] at hi
    rw [← Kind.mapOperands_id i.kind]
    exact Kind.typed_mapOperands (fun v _ => h.typeOf v)
      (ho.typed x id i (hct.reachable hx) hid hi hphi)
  · intro x id inc ty hx hid hi
    rw [h.instsOf] at hid
    rw [h.inst?] at hi
    obtain ⟨hsome, hinc⟩ := ho.phi x id inc ty (hct.reachable hx) hid hi
    refine ⟨hsome, fun q v he hq => ?_⟩
    rw [h.typeOf]
    exact hinc q v he (hct.reachable hq)
  · intro s hs x i hid hi
    rw [h.instsOf] at hid
    rw [h.inst?] at hi
    exact ho.slot s hs x i hid hi
  · intro s hs x id i hx hid hi hphi
    rw [h.instsOf] at hid
    rw [h.inst?] at hi
    exact ho.spares s hs x id i (hct.reachable hx) hid hi hphi

theorem regular (h : f.Bypassed g b target) (hwf : f.WellFormed) {own : InstId → Bool}
    (hr : f.Regular own) : g.Regular own := by
  have hct := h.contracts hwf
  refine hr.of_home ?_ ?_ ?_
  · intro x id i hx hid hi
    rw [h.instsOf] at hid
    rw [h.inst?] at hi
    refine ⟨x, i, hct.reachable hx, hid, hi, rfl, fun hwords => ?_⟩
    rw [← Kind.mapOperands_id i.kind]
    exact hwords.mapOperands fun v _ => h.typeOf v
  · intro x data' v hx hdata' hv
    rw [h.block x] at hdata'
    obtain ⟨data, hdata, rfl⟩ := Option.map_eq_some_iff.1 hdata'
    have hops : (data.term.replaceSuccessor b target).operands = data.term.operands := by
      cases data.term <;> rfl
    exact ⟨x, data, v, hct.reachable hx, hdata, hops ▸ hv, fun _ _ heq => heq, h.typeOf v⟩
  · intro e id he hid
    rw [h.instsOf] at hid
    rw [h.isPhi]
    exact hr.entry e id (h.entry ▸ he) hid

theorem next (h : f.Bypassed g b target) (hl : act.Leaves f) {data : Block}
    (hdata : f.block? x = some data) (m : Machine) :
    m.next act g (data.term.replaceSuccessor b target) =
      (m.next act f data.term).map (.redirect b target) := by
  have heval : ∀ v, m.eval act g v = m.eval act f v := congrFun (Machine.eval_of_typeOf h.typeOf)
  have hdata' := h.block x
  rw [hdata, Option.map_some] at hdata'
  cases hterm : data.term with
  | jump c => rfl
  | branch v t e =>
    simp only [Terminator.replaceSuccessor, Machine.next, heval, Option.map_map]
    congr 1
    funext w
    simp only [Function.comp_def]
    split <;> rfl
  | indirect v =>
    have hterm' : data.term.replaceSuccessor b target = .indirect v := by
      rw [hterm]
      rfl
    have hnext : m.next act g (data.term.replaceSuccessor b target) = _ :=
      Machine.next_indirect (h.leaves hl) hdata' hterm'
    rw [← hterm, hnext, Machine.next_indirect hl hdata hterm, heval, Option.map_map]
    rfl
  | ret v =>
    cases v with
    | none => rfl
    | some v =>
      simp only [Terminator.replaceSuccessor, Machine.next, heval, Option.map_map]
      rfl
  | unreachable => rfl

theorem runBlock (h : f.Bypassed g b target) (prev : Option BlockId) (insts : List InstId)
    (m : Machine) : g.runBlock act prev insts m = f.runBlock act prev insts m := by
  have hword : ∀ m : Machine, m.phiWord act g prev = m.phiWord act f prev := by
    intro m
    funext id
    simp only [Machine.phiWord, h.inst?, Machine.eval_of_typeOf h.typeOf]
  have hexec : Machine.exec act g = Machine.exec act f := by
    funext m id
    exact Machine.exec_of_inst? h.typeOf (h.inst? id)
  simp only [Func.runBlock, h.isPhi, hexec, Machine.enter, hword, wordTy, h.typeOf]

/-- Without phis it does not matter where control comes from. -/
theorem runBlock_of_noPhis (insts : List InstId) (hphis : insts.takeWhile f.isPhi = [])
    (prev prev' : Option BlockId) (m : Machine) :
    f.runBlock act prev insts m = f.runBlock act prev' insts m := by
  simp only [Func.runBlock, hphis, Machine.enter_nil]

theorem runFrom (h : f.Bypassed g b target) (hl : act.Leaves f) (n : Nat) :
    ∀ {prev prev' c m r}, c ≠ b → prev' = prev ∨ f.phisOf c = [] →
      f.runFrom act n prev c m = some r → g.runFrom act n prev' c m = some r := by
  induction n using Nat.strongRecOn with
  | ind n ih =>
    intro prev prev' c m r hc hprev hrun
    obtain ⟨k, data, m₁, x, rfl, hdata, hblock, hnext, hrest⟩ := runFrom_eq_some.1 hrun
    have hblock' : g.runBlock act prev' data.insts m = some m₁ := by
      rw [h.runBlock, ← hblock]
      rcases hprev with rfl | hphis
      · rfl
      · rw [phisOf, instsOf_eq hdata] at hphis
        exact runBlock_of_noPhis data.insts hphis prev' prev m
    have hdata' := h.block c
    rw [hdata, Option.map_some] at hdata'
    have hnext' := h.next hl hdata m₁
    rw [hnext, Option.map_some] at hnext'
    refine runFrom_eq_some.2 ⟨k, _, m₁, _, rfl, hdata', hblock', hnext', ?_⟩
    cases x with
    | leave e => exact hrest
    | goto d =>
      by_cases hd : d = b
      · -- control passes the empty block
        subst hd
        obtain ⟨address, hfwd⟩ := h.forwards
        obtain ⟨l, bdata, m₂, y, rfl, hbdata, hbblock, hbnext, hbrest⟩ := runFrom_eq_some.1 hrest
        rw [hfwd] at hbdata
        cases hbdata
        have hm₂ : f.runBlock act (some c) [] m₁ = some m₁ := by
          simp only [Func.runBlock, List.takeWhile_nil, List.dropWhile_nil, Machine.enter_nil]
          rfl
        rw [hm₂] at hbblock
        cases hbblock
        cases hbnext
        show g.runFrom act (l + 1) (some c) (if d = d then target else d) m₁ = some r
        rw [if_pos rfl]
        exact runFrom_le (Nat.le_succ l) (ih l (by omega) h.ne_target (.inr h.noPhis) hbrest)
      · show g.runFrom act k (some c) (if d = b then target else d) m₁ = some r
        rw [if_neg hd]
        exact ih k (by omega) hd (.inl rfl) hrest

theorem keeps (h : f.Bypassed g b target) (hwf : f.WellFormed) : f.Keeps g where
  wellFormed := h.wellFormed hwf
  orderly := fun _ ho => h.orderly ho
  regular := fun _ _ hr => h.regular hwf hr
  leaves := fun _ hl => h.leaves hl
  refines := by
    intro act hl _ memory n e m hrun
    refine ⟨n, m, ?_, rfl, rfl, rfl⟩
    unfold run at hrun ⊢
    simp only [Option.bind_eq_bind, Option.bind_eq_some_iff] at hrun ⊢
    obtain ⟨c, hc, hrun⟩ := hrun
    refine ⟨c, h.entry.trans hc, h.runFrom hl n ?_ (.inl rfl) hrun⟩
    rintro rfl
    exact h.ne_entry hc

end Bypassed

end Func

end BinaryLift
