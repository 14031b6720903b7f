import SymbolicMachine.Proofs.Machine.RegisterFile

/-!
# Slices that read back what was written

A write merges its value into the base register, or extends it with zeros over
all of it.  A value that is merged stands at the place of its slice.  One that
is extended stands at bit zero wherever the slice is, so a slice further up
reads the value shifted down by its own offset. That is the value again only if
the value is zero.
-/

namespace SymbolicMachine

private theorem Word.shiftRight_sameExpressions_iff (w : Word) {amount : Nat}
    (hamount : 0 < amount) :
    (w.shiftRight amount).SameExpressions w ↔
      w.SameExpressions (.constant 0 w.width) := by
  rw [sameExpressions_iff_bitAt (w.width_shiftRight amount),
    sameExpressions_iff_bitAt (width_constant 0 w.width).symm, width_shiftRight]
  have hzero : ∀ i < w.width,
      (constant 0 w.width).bitAt i = .literal false := by
    intro i hi
    rw [bitAt_constant _ hi, UInt64.toNat_zero, Nat.zero_testBit]
  have hbeyond : ∀ i, w.width ≤ i → (w.bitAt i).formula = .literal false := by
    intro i hi
    rw [bitAt_of_le hi]
    rfl
  simp only [bitAt_shiftRight]
  constructor
  · intro hshift
    have hall : ∀ gap i,
        w.width ≤ i + gap → (w.bitAt i).formula = .literal false := by
      intro gap
      induction gap with
      | zero => exact hbeyond
      | succ gap ih =>
          intro i hi
          by_cases hlow : i < w.width
          · rw [← hshift i hlow]
            exact ih (amount + i) (by omega)
          · exact hbeyond i (not_lt.mp hlow)
    intro i hi
    rw [hzero i hi]
    exact hall w.width i (Nat.le_add_left _ _)
  · intro hall i hi
    rw [hall i hi, hzero i hi]
    by_cases hhigh : amount + i < w.width
    · rw [hall _ hhigh, hzero _ hhigh]
    · exact hbeyond _ (not_lt.mp hhigh)

namespace Machine

variable {arch : Architecture} {machine next : Machine} {session last : Session}

private theorem readRegister_of_zeroExtend {slice : RegisterSlice}
    {value : Word} (hpolicy : arch.partialWrite slice = .zeroExtend)
    (hrun : machine.writeRegister arch slice value session = .ok next last) :
    (next.readRegister slice).SameExpressions
      ((value.resize slice.count).shiftRight slice.offset) := by
  have hinside := slice.inside
  obtain ⟨mid, slot, _, hslot, rfl⟩ := writeRegister_eq_ok hrun
  rw [newSlot, if_pos (.inr hpolicy)] at hslot
  cases hslot
  have hwidth : ((value.resize slice.count).shiftRight slice.offset).width =
      slice.count := by
    rw [Word.width_shiftRight, Word.width_resize]
  rw [Word.sameExpressions_iff_bitAt
    ((width_readRegister _ _).trans hwidth.symm), width_readRegister]
  intro i hi
  have hposition : slice.offset + i < registerWidth := by omega
  rw [Word.bitAt_of_getElem? (getElem?_bits_readRegister _ slice hi),
    registerBit_of_getElem? Std.TreeMap.getElem?_insert_self hposition,
    Word.bitAt_resize _ hposition, Word.bitAt_shiftRight]

end Machine

/--
A written slice reads back its value, cut or extended to the slice, unless the
write extends the value over the base register and the slice starts above bit
zero.  Then it reads the value shifted down, which is the same only for zero.  A
write always ends.
-/
theorem written_slice_reads_back_iff {arch : Architecture} {session : Session}
    {pool : List Word} {machines : List Machine}
    (hreached : Machine.Reached arch session pool machines) {machine : Machine}
    (hmachine : machine ∈ machines) {value : Word} (hvalue : value ∈ pool)
    (slice : RegisterSlice) :
    ∃ next last,
      machine.writeRegister arch slice value session = .ok next last ∧
      ((next.readRegister slice).SameExpressions (value.resize slice.count) ↔
        (arch.partialWrite slice = .zeroExtend → slice.offset = 0 ∨
          (value.resize slice.count).SameExpressions
            (.constant 0 slice.count))) ∧
      (arch.partialWrite slice = .zeroExtend →
        (next.readRegister slice).SameExpressions
          ((value.resize slice.count).shiftRight slice.offset)) := by
  obtain ⟨arena, hpool, hmachines⟩ := hreached.wellFormed
  have hwell := hmachines machine hmachine
  have hword := hpool.wellFormed value hvalue
  obtain ⟨next, last, _, hrun, _⟩ :=
    (Machine.writeRegister_yields (fun _ => False) slice hpool.nodes hwell
      hword).exists_ok
  refine ⟨next, last, hrun, ?_,
    fun hpolicy => Machine.readRegister_of_zeroExtend hpolicy hrun⟩
  by_cases hplaced : arch.partialWrite slice = .zeroExtend → slice.offset = 0
  · have hread :=
      Machine.readRegister_writeRegister hwell hword hplaced hrun
    exact iff_of_true hread fun hpolicy => .inl (hplaced hpolicy)
  · obtain ⟨hpolicy, hoffset⟩ := Classical.not_imp.mp hplaced
    have hread := Machine.readRegister_of_zeroExtend hpolicy hrun
    have hzero := (value.resize slice.count).shiftRight_sameExpressions_iff
      (Nat.pos_of_ne_zero hoffset)
    rw [Word.width_resize] at hzero
    simp only [hpolicy, hoffset, false_or, true_imp_iff]
    rw [← hzero, Word.SameExpressions, hread]
    rfl

def byteClearing : Architecture where
  table := ⟨[(⟨1⟩, ⟨⟨1⟩, 0, 8⟩)]⟩
  name := RegisterId.text
  partialWrite := fun slice => if slice.count = 8 then .zeroExtend else .merge

theorem written_slice_reads_back_iff_from_bit_four :
    let wide : RegisterSlice := ⟨⟨1⟩, 4, 16, by decide, by decide⟩
    let narrow : RegisterSlice := ⟨⟨1⟩, 4, 8, by decide, by decide⟩
    let value := Word.ofTag 7 0 12
    Machine.Reached byteClearing {} [value] [{}] ∧
      (∃ next last, ({} : Machine).writeRegister byteClearing wide value {} =
        .ok next last ∧
        (next.readRegister wide).SameExpressions (value.resize 16)) ∧
      ∃ next last, ({} : Machine).writeRegister byteClearing narrow value {} =
        .ok next last ∧
        ¬ (next.readRegister narrow).SameExpressions (value.resize 8) ∧
        (next.readRegister narrow).SameExpressions
          (.concat (.ofTag 7 4 4) (.constant 0 4)) := by
  intro wide narrow value
  have hreached : Machine.Reached byteClearing {} [value] [{}] :=
    (Machine.Reached.start {}).make (.tagged 7 0 12) rfl
  have hvalue : value ∈ [value] := List.mem_singleton.mpr rfl
  have hnew : ({} : Machine) ∈ [({} : Machine)] := List.mem_singleton.mpr rfl
  obtain ⟨merged, last, hmerge, hback, _⟩ :=
    written_slice_reads_back_iff hreached hnew hvalue wide
  obtain ⟨cleared, last', hclear, hlost, hshifted⟩ :=
    written_slice_reads_back_iff hreached hnew hvalue narrow
  refine ⟨hreached, ⟨merged, last, hmerge, hback.mpr (by decide)⟩, cleared,
    last', hclear, ?_, ?_⟩
  · rw [hlost]
    decide
  · exact (hshifted rfl).trans (by decide)

/-- The second byte of a register is written and reads as zero. -/
theorem second_byte_not_read_back :
    let second : RegisterSlice := ⟨⟨1⟩, 8, 8, by decide, by decide⟩
    let value := Word.constant 0xab 8
    Machine.Reached byteClearing {} [value] [{}] ∧
      ∃ next last, ({} : Machine).writeRegister byteClearing second value {} =
        .ok next last ∧
        ¬ (next.readRegister second).SameExpressions (value.resize 8) := by
  intro second value
  have hcheck : SymM.endsWith
      (({} : Machine).writeRegister byteClearing second value) {}
      (fun next _ => !decide
        ((next.readRegister second).SameExpressions (value.resize 8))) =
      true := by
    decide +kernel
  obtain ⟨next, last, hrun, hdiffers⟩ := SymM.exists_ok_of_endsWith hcheck
  exact ⟨(Machine.Reached.start {}).make (.constant 0xab 8) rfl, next, last,
    hrun, by simpa using hdiffers⟩

end SymbolicMachine
