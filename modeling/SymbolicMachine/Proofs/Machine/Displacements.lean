import SymbolicMachine.Proofs.Machine.CheckedExecution

/-!
# Displacements and sign extension

An immediate of 1 to 64 bits has a sign when it displaces an address, and when
it is moved into a wider register with sign extension.  Both read its low bits
in two's complement, so an address is displaced by just what the register would
hold.
-/

namespace SymbolicMachine

namespace Immediate

private theorem toBitVec_signed (immediate : Immediate) :
    immediate.signed.toBitVec =
      (immediate.value.toBitVec <<< (64 - immediate.width)).sshiftRight
        (64 - immediate.width) := by
  have hunused : 64 - immediate.width < 64 := by
    have hinside := immediate.inside
    omega
  have hleft : ∀ n < 64,
      (UInt64.ofNat n).toBitVec % 64 = BitVec.ofNat 64 n := by
    decide +kernel
  have hright : ∀ n < 64,
      (Int64.ofNat n).toBitVec.smod 64 = BitVec.ofNat 64 n := by
    decide +kernel
  have hamount : (BitVec.ofNat 64 (64 - immediate.width)).toNat =
      64 - immediate.width := by
    rw [BitVec.toNat_ofNat]
    omega
  simp only [signed, Int64.toBitVec_shiftRight, UInt64.toBitVec_toInt64,
    UInt64.toBitVec_shiftLeft, hleft _ hunused, hright _ hunused,
    BitVec.shiftLeft_eq', BitVec.sshiftRight_eq', hamount]

private theorem toBitVec_signed_eq_signExtend (immediate : Immediate) :
    immediate.signed.toBitVec =
      (immediate.value.toBitVec.setWidth immediate.width).signExtend 64 := by
  rw [toBitVec_signed]
  obtain ⟨value, width, hpos, hle⟩ := immediate
  apply BitVec.eq_of_getLsbD_eq
  intro i hi
  simp only [BitVec.getLsbD_signExtend, BitVec.getLsbD_sshiftRight,
    BitVec.msb_eq_getLsbD_last, BitVec.getLsbD_setWidth,
    BitVec.getLsbD_shiftLeft]
  by_cases hlow : i < width
  · have hback : 64 - width + i - (64 - width) = i := by omega
    simp [hi, hlow, hback, show 64 - width + i < 64 by omega]
  · have htop : 64 - 1 - (64 - width) = width - 1 := by omega
    simp [hi, hlow, htop, hpos, show ¬ 64 - width + i < 64 by omega,
      show ¬ 63 < 64 - width by omega, show ¬ 64 ≤ i by omega]

private theorem toInt_signed (immediate : Immediate) :
    let low := immediate.value.toNat % 2 ^ immediate.width
    immediate.signed.toInt =
      if low < 2 ^ (immediate.width - 1) then (low : Int)
      else low - 2 ^ immediate.width := by
  intro low
  have hhalf : 2 ^ immediate.width = 2 * 2 ^ (immediate.width - 1) := by
    rw [← Nat.pow_succ', Nat.succ_eq_add_one,
      Nat.sub_add_cancel immediate.inside.1]
  have hlow : (immediate.value.toBitVec.setWidth immediate.width).toNat = low :=
    BitVec.toNat_setWidth _ _
  have hsign : 2 * low < 2 ^ immediate.width ↔
      low < 2 ^ (immediate.width - 1) := by
    omega
  rw [← Int64.toInt_toBitVec, toBitVec_signed_eq_signExtend,
    BitVec.toInt_signExtend_of_le immediate.inside.2,
    BitVec.toInt_eq_toNat_cond, hlow]
  simp only [hsign, Nat.cast_pow, Nat.cast_ofNat]

private theorem toUInt64?_resizeSigned_word (immediate : Immediate) :
    (immediate.word.resizeSigned registerWidth).toUInt64? =
      some immediate.signed.toUInt64 := by
  have hclosed : (immediate.word.resizeSigned registerWidth).WellFormed []
      fun _ => False :=
    (Word.constant_wellFormed _ _).resizeSigned registerWidth
  apply Word.toUInt64?_of_value hclosed.allLiteral
  intro valuation
  have hbits : immediate.signed.toUInt64.toBitVec =
      (immediate.value.toBitVec.setWidth immediate.width).signExtend 64 :=
    immediate.toBitVec_signed_eq_signExtend
  calc
    (immediate.word.resizeSigned registerWidth).value valuation
        = ((BitVec.ofNat immediate.width immediate.value.toNat).signExtend
            64).toNat := by
          rw [Word.value_resizeSigned, word, Word.width_constant,
            Word.value_constant, bitVec_ofNat_mod]
          rfl
    _ = ((immediate.value.toBitVec.setWidth immediate.width).signExtend
        64).toNat := by
      rw [← UInt64.toNat_toBitVec, BitVec.ofNat_toNat]
    _ = immediate.signed.toUInt64.toNat := by
      rw [← UInt64.toNat_toBitVec, hbits]

end Immediate

namespace Machine

private theorem writeRegister_full {arch : Architecture} {machine : Machine}
    {base : RegisterId} {value : Word} (hwidth : value.width = registerWidth)
    (session : Session) :
    ∃ last, machine.writeRegister arch (.full base) value session =
      .ok { machine with
        registers := machine.registers.insert (.full base) value } last := by
  obtain ⟨last, hrecord, _⟩ := SymM.record_ends .trace _ session
  refine ⟨last, ?_⟩
  rw [writeRegister_eq, newSlot_full hwidth]
  exact SymM.bind_of_ok hrecord

private theorem execute_move_full (arch : Architecture) (machine : Machine)
    (extension : Extension) (target : RegisterId) (source : Operand)
    (session : Session) :
    ∃ next last,
      machine.execute arch (.move extension (.full target) source) session =
        .ok next last ∧
      next.registers[RegisterSlice.full target]? =
        some (extension.resize (machine.readOperand source) registerWidth) := by
  have hwidth : (extension.resize (machine.readOperand source)
      registerWidth).width = registerWidth := by
    cases extension
    · exact Word.width_resize _ _
    · exact Word.width_resizeSigned _ _
  obtain ⟨mid, hdebug, _⟩ := SymM.record_ends .debug _ session
  obtain ⟨last, hwrite⟩ := writeRegister_full hwidth mid
  exact ⟨_, last, (SymM.bind_of_ok hdebug).trans hwrite,
    Std.TreeMap.getElem?_insert_self⟩

end Machine

/--
An immediate decodes to the number that its low bits stand for in two's
complement, whatever stands above them: shifting them to the top and back down
again with the sign gives it, and so does the sign extension of the constant.  A
move with sign extension into a full register always ends and leaves this number
there.  A memory access that has the immediate for its displacement goes to the
address in its base register plus what the move leaves.
-/
theorem displacement_matches_sign_extension (immediate : Immediate) :
    let low := immediate.value.toNat % 2 ^ immediate.width
    let unused := 64 - immediate.width
    ∃ s : Int64, (Operand.immediate immediate).signed? = some s ∧
      s.toInt = (if low < 2 ^ (immediate.width - 1) then (low : Int)
        else low - 2 ^ immediate.width) ∧
      s.toBitVec = (immediate.value.toBitVec <<< unused).sshiftRight unused ∧
      ((Word.constant immediate.value immediate.width).resizeSigned
        64).toUInt64? = some s.toUInt64 ∧
      (∀ (instr : Instr) index, instr.opcode.memoryOperand? = some index →
        instr.operands[index + 1]? = some (.immediate immediate) →
        ∃ base, instr.operands[index]? = some (.register base) ∧
          instr.effects.location = some ⟨base, s⟩) ∧
      ∀ arch machine target session, ∃ next last word,
        machine.execute arch
          (.move .sign (.full target) (.immediate immediate)) session =
            .ok next last ∧
        next.registers[RegisterSlice.full target]? = some word ∧
        word.toUInt64? = some s.toUInt64 ∧
        ∀ pool machines,
        Machine.Reached arch session pool machines → machine ∈ machines →
          ∀ base valuation, (machine.pointer arch base s).addressAt valuation =
            BitVec.ofNat 64 ((machine.readRegister base).value valuation) +
              next.registerValue valuation target := by
  intro low unused
  refine ⟨immediate.signed, immediate.signedValue?_eq, immediate.toInt_signed,
    immediate.toBitVec_signed, immediate.toUInt64?_resizeSigned_word, ?_, ?_⟩
  · intro instr index hindex hdisplacement
    obtain ⟨base, found, hbase, hfound, hlocation⟩ :=
      Instr.location_of_memoryOperand? hindex
    obtain rfl : found = immediate := by
      simpa [hfound] using hdisplacement
    exact ⟨base, hbase, hlocation⟩
  · intro arch machine target session
    obtain ⟨next, last, hrun, hword⟩ :=
      machine.execute_move_full arch .sign target (.immediate immediate) session
    have hvalue := immediate.toUInt64?_resizeSigned_word
    refine ⟨next, last, _, hrun, hword, hvalue, ?_⟩
    intro pool machines hreached hmem base valuation
    obtain ⟨arena, _, hmachines⟩ := hreached.wellFormed
    have hregister : next.registerValue valuation target =
        immediate.signed.toBitVec := by
      rw [Machine.registerValue_eq_of_getElem? valuation hword]
      exact (congrArg _ ((Word.toUInt64?_eq_some hvalue).2 valuation)).trans
        (bitVec_ofNat_toNat immediate.signed.toUInt64)
    rw [hregister]
    exact (hmachines machine hmem).addressAt_pointer base immediate.signed
      valuation

theorem displacement_matches_sign_extension_stray_bit :
    let immediate : Immediate := ⟨0x1f0, 8, by decide⟩
    let rax : RegisterId := ⟨1⟩
    let load : Instr := .load (.full rax) (.full Amd64.rsp) immediate
    (Operand.immediate immediate).signed? = some (-16) ∧
    load.effects.location = some ⟨.full Amd64.rsp, -16⟩ ∧
    ∃ next last word,
      ({} : Machine).execute Amd64.standard
        (.move .sign (.full rax) (.immediate immediate)) {} = .ok next last ∧
      next.registers[RegisterSlice.full rax]? = some word ∧
      word.toUInt64? = some 0xfffffffffffffff0 ∧
      ∀ valuation,
        (({} : Machine).pointer Amd64.standard (.full Amd64.rsp)
          (-16)).addressAt valuation =
        BitVec.ofNat 64 ((({} : Machine).readRegister (.full Amd64.rsp)).value
          valuation) + next.registerValue valuation rax := by
  intro immediate rax load
  obtain ⟨s, hsigned, _, _, _, haccess, hmove⟩ :=
    displacement_matches_sign_extension immediate
  obtain rfl : s = -16 := Option.some.inj (hsigned.symm.trans (by decide))
  obtain ⟨base, hbase, hlocation⟩ := haccess load 1 rfl rfl
  obtain rfl : base = .full Amd64.rsp := by
    cases hbase
    rfl
  obtain ⟨next, last, word, hrun, hword, hvalue, haddress⟩ :=
    hmove Amd64.standard {} rax {}
  exact ⟨hsigned, hlocation, next, last, word, hrun, hword, hvalue,
    haddress [] [{}] (.start {}) (List.mem_singleton.mpr rfl) (.full Amd64.rsp)⟩

end SymbolicMachine
