import SymbolicMachine.Instr.Raw

/-!
# Effects of instructions

What the access analysis has to know about an instruction: how it uses its
operands, and where it touches memory.
-/

namespace SymbolicMachine

structure OperandUse where
  kind : AccessKind
  register : Option RegisterSlice
  deriving DecidableEq, Repr

structure MemoryLocation where
  base : RegisterSlice
  displacement : Int64
  deriving DecidableEq, Repr

structure Effects where
  operands : List OperandUse
  accessesMemory : Bool
  writesMemory : Bool
  /-- The number of bytes that the memory access touches. -/
  accessSize : Nat
  location : Option MemoryLocation
  deriving DecidableEq, Repr

namespace RawInstr

/-- The argument that goes to memory or comes from it. -/
def memoryValue? (instr : RawInstr) : Option Argument :=
  match instr.opcode with
  | .load => instr.arguments[0]?
  | .store => instr.arguments[2]?
  | _ => none

def location? (instr : RawInstr) : Option MemoryLocation := do
  let index ← instr.opcode.memoryOperand?
  let base ← (← instr.arguments[index]?).register?
  let displacement ← (← instr.arguments[index + 1]?).signed?
  return ⟨base, displacement⟩

def effects (instr : RawInstr) : Effects where
  operands := List.zipWith (fun kind argument => ⟨kind, argument.register?⟩)
    instr.opcode.signature instr.arguments
  accessesMemory := instr.opcode.memoryAccess?.isSome
  writesMemory := instr.opcode.memoryAccess? = some .write
  accessSize := (instr.memoryValue?.map Argument.byteCount).getD 0
  location := instr.location?

end RawInstr

namespace Instr

def memoryAccess? (instr : Instr) : Option AccessKind :=
  instr.opcode.memoryAccess?

def location? : Instr → Option MemoryLocation
  | .load _ base displacement => some ⟨base, displacement.signed⟩
  | .store base displacement _ => some ⟨base, displacement.signed⟩
  | _ => none

def accessSize : Instr → Nat
  | .load target .. => target.byteCount
  | .store _ _ source => source.byteCount
  | _ => 0

def effects (instr : Instr) : Effects where
  operands := List.zipWith (fun kind operand => ⟨kind, operand.register?⟩)
    instr.opcode.signature instr.operands
  accessesMemory := instr.memoryAccess?.isSome
  writesMemory := instr.memoryAccess? = some .write
  accessSize := instr.accessSize
  location := instr.location?

end Instr

end SymbolicMachine
