import SymbolicMachine.Access
import SymbolicMachine.Architecture.Amd64
import SymbolicMachine.Proofs.Machine.Execution

/-!
# Register writes

The analysis reports the slices that an instruction names; execution also
applies the architecture's policy for partial writes.  A slice that no write was
reported for keeps its value, unless the instruction writes another part of the
same register and the policy clears the rest of it.
-/

namespace SymbolicMachine

def Instr.target? : Instr → Option RegisterSlice
  | .move _ target _ => some target
  | .unary _ target => some target
  | .binary _ target _ => some target
  | .load target _ _ => some target
  | .nop | .store .. => none

theorem Effects.not_overlaps_of_registerAccess_none {effects : Effects}
    {filter : AccessFilter} {slice : RegisterSlice}
    (h : effects.registerAccess filter slice = .none) {use : OperandUse}
    (huse : use ∈ effects.operands) {register : RegisterSlice}
    (hregister : use.register = some register)
    (hadmits : filter.admits use.kind = true) :
    register.overlaps slice = false := by
  unfold registerAccess at h
  cases hfind :
    effects.operands.findSome? (OperandUse.accessTo? filter slice) with
  | none =>
      have hnone := List.findSome?_eq_none_iff.mp hfind use huse
      simpa [OperandUse.accessTo?, hregister, hadmits] using hnone
  | some access =>
      obtain ⟨found, _, haccess⟩ := List.exists_of_findSome?_eq_some hfind
      obtain rfl : access = .none := by simpa [hfind] using h
      unfold OperandUse.accessTo? at haccess
      split at haccess
      · split at haccess <;> cases haccess
      · cases haccess

private theorem Instr.target_not_overlaps {instr : Instr}
    {slice target : RegisterSlice}
    (h : instr.effects.registerAccess (some .write) slice = .none)
    (htarget : instr.target? = some target) :
    target.overlaps slice = false := by
  have hwritten : ∃ use ∈ instr.effects.operands, use.register = some target ∧
      AccessFilter.admits (some .write) use.kind = true := by
    cases instr <;> simp only [Instr.target?, Option.some.injEq, reduceCtorEq]
      at htarget
    all_goals
      subst htarget
      exact ⟨_, List.mem_cons_self, rfl, rfl⟩
  obtain ⟨use, huse, hregister, hadmits⟩ := hwritten
  exact Effects.not_overlaps_of_registerAccess_none h huse hregister hadmits

namespace Machine

variable {arch : Architecture} {arena later : Arena} {next last : Nat}
  {machine after : Machine}

theorem Performed.placed {first : Nat} {instr : Instr} {target : RegisterSlice}
    (h : Performed arch machine first last instr after)
    (htarget : instr.target? = some target) :
    ∃ value, machine.Placed arch target value after := by
  cases h <;> simp only [Instr.target?, Option.some.injEq, reduceCtorEq]
    at htarget
  all_goals
    subst htarget
    exact ⟨_, by assumption⟩

theorem Performed.registers_eq {first : Nat} {instr : Instr}
    (h : Performed arch machine first last instr after)
    (htarget : instr.target? = none) :
    after.registers = machine.registers := by
  cases h <;> simp only [Instr.target?, reduceCtorEq] at htarget
  · rfl
  · assumption

theorem Placed.value_eq {slice target : RegisterSlice} {value : Word}
    (h : machine.Placed arch target value after)
    (hmachine : machine.WellFormed arch arena next)
    (hafter : after.WellFormed arch later last)
    (hoverlaps : target.overlaps slice = false)
    (hmerge : target.base = slice.base → arch.partialWrite target ≠ .zeroExtend)
    (valuation : Valuation) :
    (after.readRegister slice).value valuation =
      (machine.readRegister slice).value valuation := by
  by_cases hbase : slice.base = target.base
  · have hinside := slice.inside
    have htarget := target.inside
    have hpos := slice.count_pos
    rw [registerWidth] at hinside htarget
    simp only [RegisterSlice.overlaps, hbase, true_and, decide_eq_false_iff_not,
      RegisterSlice.stop] at hoverlaps
    have hpart : ¬ (target.isFull ∨ arch.partialWrite target =
        .zeroExtend) := by
      rintro (hfull | hzero)
      · rw [RegisterSlice.isFull_iff, registerWidth] at hfull
        omega
      · exact hmerge hbase.symm hzero
    rw [value_readRegister hafter, value_readRegister hmachine, hbase, h.slot]
    apply Nat.eq_of_testBit_eq
    intro i
    rw [BitVec.testBit_toNat, BitVec.testBit_toNat, BitVec.getLsbD_extractLsb',
      BitVec.getLsbD_extractLsb']
    by_cases hi : i < slice.count
    · rw [getLsbD_placed_of_merge hpart (by omega), if_neg]
      rw [RegisterSlice.stop]
      omega
    · simp [hi]
  · rw [readRegister_congr (h.other_base hbase)]

private theorem Placed.value_eq_zero {slice target : RegisterSlice}
    {value : Word} (h : machine.Placed arch target value after)
    (hafter : after.WellFormed arch later last)
    (hbase : target.base = slice.base)
    (hzero : arch.partialWrite target = .zeroExtend)
    (habove : target.count ≤ slice.offset) (valuation : Valuation) :
    (after.readRegister slice).value valuation = 0 := by
  rw [value_readRegister hafter, ← hbase, h.slot]
  apply Nat.eq_of_testBit_eq
  intro i
  rw [BitVec.testBit_toNat, BitVec.getLsbD_extractLsb',
    getLsbD_placed_of_zeroExtend hzero (by omega), Bool.and_false,
    Nat.zero_testBit]

end Machine

/-! ## Narrow writes to rax -/

def highHalf : RegisterSlice :=
  ⟨⟨1⟩, 32, 32, by decide, by decide⟩

def setLowHalf : Instr :=
  .move .zero ⟨⟨1⟩, 0, 32, by decide, by decide⟩ (.immediate ⟨1, 32, by decide⟩)

def secondByte : RegisterSlice :=
  ⟨⟨1⟩, 8, 8, by decide, by decide⟩

def setSecondByte : Instr :=
  .move .zero secondByte (.immediate ⟨1, 8, by decide⟩)

/-- A 32-bit write clears the upper half, for which no write is reported. -/
theorem upper_half_cleared_unreported :
    testAccess Amd64.standard (pure ·.initial) setLowHalf.effects (some .write)
      (.register highHalf) {} = .ok (.ok .none) {} ∧
    ∃ after last,
      Machine.execute Amd64.standard {} setLowHalf {} = .ok after last ∧
      (after.readRegister highHalf).value (fun _ => true) ≠
        (Machine.readRegister {} highHalf).value fun _ => true := by
  refine ⟨rfl, _, _, rfl, ?_⟩
  decide +kernel

/-! ## The frame of a write -/

def Instr.Clears (arch : Architecture) (instr : Instr) (slice : RegisterSlice) :
    Prop :=
  ∃ target, instr.target? = some target ∧ target.base = slice.base ∧
    arch.partialWrite target = .zeroExtend

/--
A slice for which no write is reported keeps its value when the instruction is
executed, unless the rest of its register is cleared; then it reads as zero
where it lies above the width of the written slice.  Only an offset out of range
stops the instruction.
-/
theorem unreported_write_frame {arch : Architecture} {session : Session}
    {pool : List Word} {machines : List Machine}
    (hreached : Machine.Reached arch session pool machines) {machine : Machine}
    (hmem : machine ∈ machines) (instr : Instr) (slice : RegisterSlice)
    (trace : RegisterSlice → SymM Word)
    (hnone : testAccess arch trace instr.effects (some .write)
      (.register slice) session = .ok (.ok .none) session) :
    (∃ last, machine.execute arch instr session = .error .offsetOverflow last) ∨
    ∃ after last, machine.execute arch instr session = .ok after last ∧
      (¬ instr.Clears arch slice → ∀ valuation,
        (after.readRegister slice).value valuation =
          (machine.readRegister slice).value valuation) ∧
      ∀ target, instr.target? = some target → target.base = slice.base →
        arch.partialWrite target = .zeroExtend → target.count ≤ slice.offset →
        ∀ valuation, (after.readRegister slice).value valuation = 0 := by
  obtain ⟨arena, hpool, hmachines⟩ := hreached.wellFormed
  have hmachine := hmachines machine hmem
  have haccess : instr.effects.registerAccess (some .write) slice = .none := by
    have hresult :
        EStateM.Result.ok
            (Except.ok (instr.effects.registerAccess (some .write) slice))
            session =
          (EStateM.Result.ok (Except.ok Access.none) session :
            EStateM.Result Fault Session (Except AccessError Access)) := hnone
    injection hresult with hok
    injection hok
  have hexecute := Machine.execute_yields instr hpool.nodes hmachine
  cases hrun : machine.execute arch instr session with
  | error fault last =>
      left
      rw [hexecute.of_error hrun]
      exact ⟨last, rfl⟩
  | ok after last =>
      right
      obtain ⟨later, _, _, _, hafter, hperformed⟩ := hexecute.of_ok hrun
      refine ⟨after, last, rfl, ?_, ?_⟩
      · intro hkeeps valuation
        cases htarget : instr.target? with
        | none =>
            have hsame : after.readRegister slice =
                machine.readRegister slice :=
              Machine.readRegister_congr
                (by rw [hperformed.registers_eq htarget])
            rw [hsame]
        | some target =>
            obtain ⟨value, hplaced⟩ := hperformed.placed htarget
            exact hplaced.value_eq hmachine hafter
              (Instr.target_not_overlaps haccess htarget)
              (fun hbase hzero => hkeeps ⟨target, htarget, hbase, hzero⟩)
              valuation
      · intro target htarget hbase hzero habove valuation
        obtain ⟨value, hplaced⟩ := hperformed.placed htarget
        exact hplaced.value_eq_zero hafter hbase hzero habove valuation

theorem unreported_write_frame_second_byte :
    ∃ machine session, Machine.Reached Amd64.standard session [] [machine, {}] ∧
      testAccess Amd64.standard (pure ·.initial) setSecondByte.effects
        (some .write) (.register highHalf) session = .ok (.ok .none) session ∧
      ¬ setSecondByte.Clears Amd64.standard highHalf ∧
      ∃ after last,
        machine.execute Amd64.standard setSecondByte session = .ok after last ∧
        ∀ valuation, (after.readRegister highHalf).value valuation =
          (machine.readRegister highHalf).value valuation := by
  have hcheck : SymM.endsWith (do
      let machine ← Machine.execute Amd64.standard {} setLowHalf
      machine.execute Amd64.standard setSecondByte) {} (fun _ _ => true) =
      true := by
    decide +kernel
  obtain ⟨after, last, hruns, _⟩ := SymM.exists_ok_of_endsWith hcheck
  obtain ⟨machine, session, hfirst, hsecond⟩ := SymM.bind_eq_ok.mp hruns
  have hreached :=
    (Machine.Reached.start {}).execute setLowHalf List.mem_cons_self hfirst
  have hkeeps : ¬ setSecondByte.Clears Amd64.standard highHalf := by
    rintro ⟨target, htarget, _, hzero⟩
    obtain rfl : _ = target := Option.some.inj htarget
    exact absurd hzero (by decide)
  refine ⟨machine, session, hreached, rfl, hkeeps, ?_⟩
  rcases unreported_write_frame hreached List.mem_cons_self setSecondByte
      highHalf (pure ·.initial) rfl with
    ⟨_, herror⟩ | ⟨after, last, hrun, hframe, _⟩
  · rw [hsecond] at herror
    cases herror
  · exact ⟨after, last, hrun, hframe hkeeps⟩

end SymbolicMachine
