import SymbolicMachine.Architecture.Amd64
import SymbolicMachine.Proofs.Machine.Operations
import SymbolicMachine.Proofs.Machine.Registers
import SymbolicMachine.Proofs.Memory.Coherence

/-!
# The concrete machine

A machine with 64 bits in every base register and a byte at every address.  It
runs the same instructions as the symbolic one, on bit vectors.
-/

namespace SymbolicMachine

def Ram.load (ram : Ram) (first : BitVec 64) : Nat → Nat
  | 0 => 0
  | count + 1 => (ram first).toNat + 2 ^ 8 * ram.load (first + 1) count

theorem Ram.load_lt (ram : Ram) (first : BitVec 64) (count : Nat) :
    ram.load first count < 2 ^ (8 * count) := by
  induction count generalizing first with
  | zero => exact Nat.one_pos
  | succ count ih =>
      have hbyte := (ram first).isLt
      have hrest := ih (first + 1)
      rw [load, Nat.mul_succ, Nat.add_comm, Nat.pow_add]
      omega

def Architecture.written (arch : Architecture) (slice : RegisterSlice)
    (old : BitVec 64) (value : BitVec slice.count) : BitVec 64 :=
  let covered : BitVec 64 :=
    (BitVec.allOnes slice.count).setWidth 64 <<< slice.offset
  let kept : BitVec 64 :=
    match arch.partialWrite slice with
    | .merge => old &&& ~~~covered
    | .zeroExtend => 0
  kept ||| value.setWidth 64 <<< slice.offset

structure State where
  registers : RegisterId → BitVec 64
  memory : Ram

namespace State

def read (state : State) (slice : RegisterSlice) : BitVec slice.count :=
  (state.registers slice.base).extractLsb' slice.offset slice.count

def readOperand (state : State) (operand : Operand) : BitVec operand.width :=
  match operand with
  | .register slice => state.read slice
  | .immediate constant => constant.value.toBitVec.setWidth constant.width

def write (arch : Architecture) (state : State) (slice : RegisterSlice)
    (value : BitVec slice.count) : State :=
  let slot := arch.written slice (state.registers slice.base) value
  { state with
    registers := fun id =>
      if id = slice.base then slot else state.registers id }

def address (state : State) (base : RegisterSlice) (displacement : Immediate) :
    BitVec 64 :=
  (state.read base).setWidth 64 + displacement.signed.toBitVec

def step (arch : Architecture) (state : State) : Instr → State
  | .nop => state
  | .move extension target source =>
      state.write arch target
        (extension.denote (state.readOperand source) target.count)
  | .unary op target => state.write arch target (op.denote (state.read target))
  | .binary op target source =>
      state.write arch target
        (op.denote (state.read target) (state.readOperand source))
  | .load target base displacement =>
      state.write arch target (BitVec.ofNat target.count
        (state.memory.load (state.address base displacement) target.byteCount))
  | .store base displacement source =>
      let memory := state.memory.store (state.address base displacement)
        source.byteCount (state.readOperand source).toNat
      { state with memory }

def run (arch : Architecture) (state : State) (block : Block) : State :=
  block.foldl (step arch) state

end State

/-! ## Both machines write the same bits -/

def Architecture.ZeroExtendsAtStart (arch : Architecture) : Prop :=
  ∀ slice, arch.partialWrite slice = .zeroExtend → slice.offset = 0

theorem Amd64.zeroExtendsAtStart :
    ∀ arch ∈ [standard, framed, plain], arch.ZeroExtendsAtStart := by
  have hlow : ∀ slice, partialWrite slice = .zeroExtend → slice.offset = 0 := by
    intro slice hzero
    unfold partialWrite at hzero
    split at hzero
    case isTrue hslice => exact hslice.1
    case isFalse => cases hzero
  simp only [List.mem_cons, List.not_mem_nil, or_false]
  rintro arch (rfl | rfl | rfl)
  · exact hlow
  · exact hlow
  · intro slice hzero
    cases hzero

theorem Machine.placed_eq_written {arch : Architecture} {slice : RegisterSlice}
    (hzero : arch.ZeroExtendsAtStart) (old : BitVec 64)
    (value : BitVec slice.count) :
    placed arch slice old value = arch.written slice old value := by
  have hmask : slice.mask.toBitVec =
      (BitVec.allOnes slice.count).setWidth 64 <<< slice.offset := by
    have hinside := slice.inside
    rw [registerWidth] at hinside
    apply BitVec.eq_of_getLsbD_eq
    intro k hk
    rw [getLsbD_mask, RegisterSlice.stop, BitVec.getLsbD_shiftLeft,
      BitVec.getLsbD_setWidth, BitVec.getLsbD_allOnes]
    by_cases hlow : slice.offset ≤ k
    · simp [hk, hlow, show ¬ k < slice.offset by omega,
        show k - slice.offset < 64 by omega]
      omega
    · simp [hlow, show k < slice.offset by omega]
  unfold placed Architecture.written
  cases hpolicy : arch.partialWrite slice with
  | zeroExtend =>
      simp [hzero slice hpolicy]
  | merge =>
      dsimp only
      rw [← hmask]
      by_cases hfull : slice.isFull
      · have hwhole := RegisterSlice.isFull_iff.mp hfull
        have hcovers : ~~~slice.mask.toBitVec = 0 := by
          apply BitVec.eq_of_getLsbD_eq
          intro k hk
          simp [getLsbD_mask, RegisterSlice.stop, hwhole, registerWidth, hk]
        simp [hfull, hcovers, hwhole.1]
      · simp [hfull]

end SymbolicMachine
