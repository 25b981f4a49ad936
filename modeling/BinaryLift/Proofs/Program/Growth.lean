import BinaryLift.Proofs.Program.Arenas

/-!
# Functions that only grow

`Grows` says that empty blocks were added and nothing else happened. `ExtendsAt` also allows
instructions at the end of one block. Both keep every terminator.
-/

namespace BinaryLift.Func

/-- Empty blocks were added. -/
structure Grows (f g : Func) : Prop where
  arena : g.arena = f.arena
  params : g.params = f.params
  size_le : f.blocks.size ≤ g.blocks.size
  old : ∀ c : BlockId, c.index < f.blocks.size → g.block? c = f.block? c
  new : ∀ c : BlockId, f.blocks.size ≤ c.index → c.index < g.blocks.size →
    ∃ a, g.block? c = some { address := a }

namespace Grows

theorem refl (f : Func) : f.Grows f where
  arena := rfl
  params := rfl
  size_le := Nat.le_refl _
  old := fun _ _ => rfl
  new := by
    intro c hle hlt
    omega

theorem trans {f g h : Func} (hfg : f.Grows g) (hgh : g.Grows h) : f.Grows h where
  arena := hgh.arena.trans hfg.arena
  params := hgh.params.trans hfg.params
  size_le := Nat.le_trans hfg.size_le hgh.size_le
  old := by
    intro c hc
    have hc' : c.index < g.blocks.size := Nat.lt_of_lt_of_le hc hfg.size_le
    rw [hgh.old c hc', hfg.old c hc]
  new := by
    intro c hle hlt
    by_cases hc : c.index < g.blocks.size
    · rw [hgh.old c hc]
      exact hfg.new c hle hc
    · exact hgh.new c (Nat.le_of_not_lt hc) hlt

theorem addBlock (f : Func) (a : Option Word) : f.Grows (f.addBlock a).1 where
  arena := rfl
  params := rfl
  size_le := by
    simp [Func.addBlock]
  old := by
    intro c hc
    rw [block?_addBlock, if_neg (Nat.ne_of_lt hc)]
  new := by
    intro c hle hlt
    have hlt' : c.index < f.blocks.size + 1 := by
      simpa [Func.addBlock] using hlt
    have hc : c.index = f.blocks.size := by omega
    exact ⟨a, by rw [block?_addBlock, if_pos hc]⟩

theorem block? {f g : Func} (h : f.Grows g) {c : BlockId} {data : Block}
    (hc : f.block? c = some data) : g.block? c = some data := by
  rw [h.old c (index_lt_of_block? hc), hc]

theorem inst? {f g : Func} (h : f.Grows g) (id : InstId) : g.inst? id = f.inst? id :=
  inst?_eq_of_arena h.arena id

theorem typeOf {f g : Func} (h : f.Grows g) (v : Value) : g.typeOf v = f.typeOf v := by
  cases v with
  | const c => rfl
  | arg n => simp only [Func.typeOf, h.params]
  | inst id => simp only [Func.typeOf, h.inst? id]

end Grows

/-- Instructions were appended to the live block `b`, and empty blocks were added. -/
structure ExtendsAt (b : BlockId) (f g : Func) : Prop where
  size_le : f.blocks.size ≤ g.blocks.size
  other : ∀ c : BlockId, c ≠ b → c.index < f.blocks.size → g.block? c = f.block? c
  here : ∃ data more, f.block? b = some data ∧
    g.block? b = some { data with insts := data.insts ++ more }
  new : ∀ c : BlockId, f.blocks.size ≤ c.index → c.index < g.blocks.size →
    ∃ a, g.block? c = some { address := a }
  insts : ∀ id i, f.inst? id = some i → g.inst? id = some i

namespace ExtendsAt

theorem refl {f : Func} {b : BlockId} {data : Block} (h : f.block? b = some data) :
    f.ExtendsAt b f where
  size_le := Nat.le_refl _
  other := fun _ _ _ => rfl
  here := ⟨data, [], h, by rw [h, List.append_nil]⟩
  new := by
    intro c hle hlt
    omega
  insts := fun _ _ h => h

theorem trans {f g h : Func} {b : BlockId} (hfg : f.ExtendsAt b g) (hgh : g.ExtendsAt b h) :
    f.ExtendsAt b h where
  size_le := Nat.le_trans hfg.size_le hgh.size_le
  other := by
    intro c hcb hc
    have hc' : c.index < g.blocks.size := Nat.lt_of_lt_of_le hc hfg.size_le
    rw [hgh.other c hcb hc', hfg.other c hcb hc]
  here := by
    obtain ⟨data, more, hf, hg⟩ := hfg.here
    obtain ⟨data', more', hg', hh⟩ := hgh.here
    rw [hg] at hg'
    cases hg'
    exact ⟨data, more ++ more', hf, by rw [hh, List.append_assoc]⟩
  new := by
    intro c hle hlt
    obtain ⟨data, _, hf, _⟩ := hfg.here
    have hb := index_lt_of_block? hf
    have hcb : c ≠ b := by
      rintro rfl
      omega
    by_cases hc : c.index < g.blocks.size
    · rw [hgh.other c hcb hc]
      exact hfg.new c hle hc
    · exact hgh.new c (Nat.le_of_not_lt hc) hlt
  insts := fun id i hi => hgh.insts id i (hfg.insts id i hi)

theorem of_grows {f g : Func} {b : BlockId} {data : Block} (h : f.Grows g)
    (hb : f.block? b = some data) : f.ExtendsAt b g where
  size_le := h.size_le
  other := fun c _ hc => h.old c hc
  here := ⟨data, [], hb, by rw [h.block? hb, List.append_nil]⟩
  new := h.new
  insts := by
    intro id i hi
    rw [h.inst? id, hi]

theorem appendInst {f g : Func} {b : BlockId} {i : Inst} {id : InstId}
    (h : f.appendInst b i = .ok (g, id)) : f.ExtendsAt b g := by
  obtain ⟨_, harena, hsize, _, data, hd, hblock⟩ := appendInst_eq_ok h
  refine ⟨Nat.le_of_eq hsize.symm, ?_, ?_, ?_, ?_⟩
  · intro c hcb _
    rw [hblock c, if_neg hcb]
  · exact ⟨data, [id], hd, by rw [hblock b, if_pos rfl]⟩
  · intro c hle hlt
    omega
  · intro j k hj
    rw [inst?_push harena, if_neg (Nat.ne_of_lt (index_lt_of_inst? hj))]
    exact hj

theorem term {f g : Func} {b c : BlockId} {data : Block} (h : f.ExtendsAt b g)
    (hc : f.block? c = some data) :
    ∃ data', g.block? c = some data' ∧ data'.term = data.term ∧ data'.address = data.address := by
  by_cases hcb : c = b
  · subst hcb
    obtain ⟨d, more, hd, hg⟩ := h.here
    rw [hc] at hd
    cases hd
    exact ⟨_, hg, rfl, rfl⟩
  · exact ⟨data, by rw [h.other c hcb (index_lt_of_block? hc), hc], rfl, rfl⟩

end ExtendsAt

end BinaryLift.Func
