import BinaryLift.Proofs.Image.ReadonlyReads
import BinaryLift.Target.Resolve

/-!
# Mapped addresses as targets

The window of an image is the hull of its sections: an address is in it if it does not lie before
every start nor behind every end. Ends are cut off at the largest word and do not belong to the
window, so the last address of the address space is never in it, even where a section maps it. That
is the only mapped address the window lacks.
-/

namespace BinaryLift

/-! ### The hull -/

namespace AddressRange

theorem foldl_low_le_iff (rs : List AddressRange) (acc a : Word) :
    rs.foldl (fun acc r => if r.low < acc then r.low else acc) acc ≤ a ↔
      acc ≤ a ∨ ∃ r ∈ rs, r.low ≤ a := by
  induction rs generalizing acc with
  | nil => simp
  | cons r rs ih =>
    have hstep : (if r.low < acc then r.low else acc) ≤ a ↔ acc ≤ a ∨ r.low ≤ a := by
      simp only [BitVec.le_def, BitVec.lt_def]
      split <;> omega
    rw [List.foldl_cons, ih, hstep, or_assoc]
    simp only [List.mem_cons, exists_eq_or_imp]

theorem lt_foldl_high_iff (rs : List AddressRange) (acc a : Word) :
    a < rs.foldl (fun acc r => if acc < r.high then r.high else acc) acc ↔
      a < acc ∨ ∃ r ∈ rs, a < r.high := by
  induction rs generalizing acc with
  | nil => simp
  | cons r rs ih =>
    have hstep : a < (if acc < r.high then r.high else acc) ↔ a < acc ∨ a < r.high := by
      simp only [BitVec.lt_def]
      split <;> omega
    rw [List.foldl_cons, ih, hstep, or_assoc]
    simp only [List.mem_cons, exists_eq_or_imp]

theorem contains_iff {r : AddressRange} {a : Word} :
    r.contains a = true ↔ r.low ≤ a ∧ a < r.high := by
  simp [contains]

/-- The window holds what lies behind some start and before some end, gaps included. -/
theorem contains_ofSpans_iff {spans : List Span} {base a : Word} :
    (ofSpans spans base).contains a = true ↔
      (∃ s ∈ spans, (ofSpan base s).low ≤ a) ∧ ∃ s ∈ spans, a < (ofSpan base s).high := by
  have hlow := foldl_low_le_iff (spans.map (ofSpan base)) Word.top a
  have hhigh := lt_foldl_high_iff (spans.map (ofSpan base)) 0 a
  have hzero : ¬ a < 0 := BitVec.not_lt_zero
  simp only [List.mem_map, exists_exists_and_eq_and] at hlow hhigh
  simp only [hzero, false_or] at hhigh
  -- an address before an end is not the last one, so the start of the fold does not matter
  have hbelow : (∃ s ∈ spans, a < (ofSpan base s).high) → ¬ Word.top ≤ a := by
    rintro ⟨s, _, hs⟩
    have hle : (ofSpan base s).high.toNat ≤ Word.top.toNat := by
      have htop := Word.toNat_top
      have hlt := (ofSpan base s).high.isLt
      omega
    simp only [BitVec.le_def, BitVec.lt_def] at hs ⊢
    omega
  constructor
  · intro h
    unfold ofSpans at h
    dsimp only at h
    split at h
    · obtain ⟨hl, hh⟩ := contains_iff.1 h
      have hend := hhigh.1 hh
      exact ⟨(hlow.1 hl).resolve_left (hbelow hend), hend⟩
    · exact absurd (contains_iff.1 h).2 BitVec.not_lt_zero
  · rintro ⟨hstart, hend⟩
    have hl := hlow.2 (.inr hstart)
    have hh := hhigh.2 hend
    have hne := BitVec.lt_def.2 (Nat.lt_of_le_of_lt (BitVec.le_def.1 hl) (BitVec.lt_def.1 hh))
    unfold ofSpans
    dsimp only
    rw [if_pos hne]
    exact contains_iff.2 ⟨hl, hh⟩

theorem not_contains_top (spans : List Span) (base : Word) :
    (ofSpans spans base).contains Word.top = false := by
  refine Bool.eq_false_iff.2 fun h => ?_
  obtain ⟨s, _, hs⟩ := (contains_ofSpans_iff.1 h).2
  have htop := Word.toNat_top
  have hlt := (ofSpan base s).high.isLt
  simp only [BitVec.lt_def] at hs
  omega

end AddressRange

/-! ### Mapped addresses -/

namespace Image

/-- A mapped address lies behind the start of its section, and before its end unless it is the last
address of all. -/
theorem contains_range_of_isMapped {img : Image} {a : Word} (h : img.isMapped a = true)
    (hne : a ≠ Word.top) : img.range.contains a = true := by
  obtain ⟨s, hs⟩ := Option.isSome_iff_exists.1 h
  obtain ⟨hmem, hbase, hcontains⟩ := sectionAt_eq_some hs
  have hspan : (⟨s.address, s.size⟩ : Span) ∈ img.spans := List.mem_map_of_mem hmem
  have hsub : (a - img.base).toNat = a.toNat - img.base.toNat := BitVec.toNat_sub_of_le hbase
  have htop := Word.toNat_top
  have hlt : a.toNat < 2 ^ 64 - 1 := by
    have hle := a.isLt
    have hnat : a.toNat ≠ Word.top.toNat := fun heq => hne (BitVec.eq_of_toNat_eq heq)
    omega
  rw [Section.contains_iff, hsub] at hcontains
  refine AddressRange.contains_ofSpans_iff.2 ⟨⟨_, hspan, ?_⟩, ⟨_, hspan, ?_⟩⟩
  · simp only [AddressRange.ofSpan, BitVec.le_def, Word.toNat_addSat, Word.toNat_top]
    omega
  · simp only [AddressRange.ofSpan, BitVec.lt_def, Word.toNat_addSat, Word.toNat_top]
    omega

/-- No section over base zero maps the last address: its end is cut off there. -/
theorem not_isMapped_top_of_base_zero {img : Image} (h : img.base = 0) :
    img.isMapped Word.top = false := by
  refine Bool.eq_false_iff.2 fun hmapped => ?_
  obtain ⟨s, hs⟩ := Option.isSome_iff_exists.1 hmapped
  obtain ⟨_, _, hcontains⟩ := sectionAt_eq_some hs
  have hrel : Word.top - img.base = Word.top := by
    rw [h]
    rfl
  rw [hrel, Section.contains_iff] at hcontains
  omega

/-- A mapped address is a valid target exactly if it is not the last one of the address space. So all
mapped addresses are valid targets if and only if that one is not mapped, as in an image over base
zero. -/
theorem range_covers_mapped (img : Image) :
    (∀ a, img.isMapped a = true → (img.range.contains a = true ↔ a ≠ Word.top)) ∧
    ((∀ a, img.isMapped a = true → img.range.contains a = true) ↔
      img.isMapped Word.top = false) ∧
    (img.base = 0 → img.isMapped Word.top = false) := by
  have htop : img.range.contains Word.top = false := AddressRange.not_contains_top _ _
  refine ⟨fun a h => ⟨?_, contains_range_of_isMapped h⟩, ⟨fun h => ?_, fun h a ha => ?_⟩,
    not_isMapped_top_of_base_zero⟩
  · rintro hin rfl
    rw [htop] at hin
    cases hin
  · refine Bool.eq_false_iff.2 fun hmapped => ?_
    have hin := h Word.top hmapped
    rw [htop] at hin
    cases hin
  · refine contains_range_of_isMapped ha ?_
    rintro rfl
    rw [h] at ha
    cases ha

/-- A section at the end of the address space. -/
def highImage : Image where
  base := 0xffffffffffff0000
  sections := [{ name := ".text", address := 0, size := 0x10000, flags := .ofRights true false true }]

/-- The last address is mapped and yet no valid target. -/
theorem range_misses_last :
    highImage.isMapped Word.top = true ∧ highImage.range.contains Word.top = false := by
  decide

end Image

end BinaryLift
