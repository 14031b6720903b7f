import SymbolicMachine.Instr.Apply
import SymbolicMachine.Instr.Raw
import SymbolicMachine.Memory

/-!
# The machine

The machine holds a 64-bit word for every base register that was written, under
the full slice of it, and a memory.  A register that was never written reads as
the variables of its initial value, so reading it twice gives the same
expressions.  Memory that is not known reads as fresh variables.
-/

namespace SymbolicMachine

def RegisterSlice.initial (slice : RegisterSlice) : Word :=
  .ofTag slice.base.tag slice.offset slice.count

structure Machine where
  registers : Std.TreeMap RegisterSlice Word := {}
  memory : Memory := {}

namespace Machine

/-! ## Registers -/

def readRegister (machine : Machine) (slice : RegisterSlice) : Word :=
  match machine.registers[slice.canonical]? with
  | some word => (word.shiftRight slice.offset).resize slice.count
  | none => slice.initial

def slot (machine : Machine) (slice : RegisterSlice) : Word :=
  machine.registers[slice.canonical]?.getD slice.canonical.initial

def merge (slice : RegisterSlice) (slot value : Word) : SymM Word := do
  let mask : Word ← (Word.constant slice.mask registerWidth).not
  let preserved ← slot.and mask
  preserved.or ((value.resize registerWidth).shiftLeft slice.offset)

/-- Writes `value`, cut or extended to the width of the slice. -/
def writeRegister (arch : Architecture) (machine : Machine)
    (slice : RegisterSlice) (value : Word) : SymM Machine := do
  let value := value.resize slice.count
  record .trace s!"{arch.sliceText slice} := {arch.wordText value}"
  let slot ←
    if slice.isFull ∨ arch.partialWrite slice = .zeroExtend then
      pure (value.resize registerWidth)
    else
      merge slice (machine.slot slice) value
  return { machine with
    registers := machine.registers.insert slice.canonical slot }

def readOperand (machine : Machine) : Operand → Word
  | .register slice => machine.readRegister slice
  | .immediate constant => constant.word

/-! ## Memory -/

def pointer (arch : Architecture) (machine : Machine) (base : RegisterSlice)
    (displacement : Int64) : Pointer :=
  (Pointer.ofWord arch (machine.readRegister base)).displace displacement

def readMemory (machine : Machine) (pointer : Pointer) (byteCount : Nat) :
    SymM Word := do
  let bitCount := byteCount * 8
  unless bitCount < UInt64.size do throw .sizeOverflow
  match ← machine.memory.read pointer bitCount with
  | some value => return value
  | none =>
      record .trace
        s!"read of {byteCount} byte(s) at {pointer.text} is undefined"
      Word.fresh bitCount

def writeMemory (arch : Architecture) (machine : Machine) (pointer : Pointer)
    (value : Word) : SymM Machine := do
  let value := value.resize (value.byteCount * 8)
  record .trace s!"[{arch.pointerText pointer}] := {arch.wordText value}"
  return { machine with memory := ← machine.memory.write pointer value }

/-! ## Execution -/

def perform (arch : Architecture) (machine : Machine) : Instr → SymM Machine
  | .nop => return machine
  | .move extension target source =>
      machine.writeRegister arch target
        (extension.resize (machine.readOperand source) target.count)
  | .unary op target => do
      let value ← op.apply (machine.readRegister target)
      machine.writeRegister arch target value
  | .binary op target source => do
      let value ←
        op.apply (machine.readRegister target) (machine.readOperand source)
      machine.writeRegister arch target value
  | .load target base displacement => do
      let pointer := machine.pointer arch base displacement.signed
      let value ← machine.readMemory pointer target.byteCount
      machine.writeRegister arch target value
  | .store base displacement source =>
      let pointer := machine.pointer arch base displacement.signed
      machine.writeMemory arch pointer (machine.readOperand source)

def execute (arch : Architecture) (machine : Machine) (instr : Instr) :
    SymM Machine := do
  record .debug
    s!"executing {instr.opcode.mnemonic} with {instr.operands.length} operand(s)"
  machine.perform arch instr

/-! ## Execution of instructions as they are given -/

def readArgument (machine : Machine) : Argument → Word
  | .register slice => machine.readRegister slice
  | .immediate value width => .constant value width

def accessFrom (arch : Architecture) (machine : Machine) (opcode : Opcode)
    (base : RegisterSlice) (index : Nat) (displacement : Argument)
    (access : Pointer → SymM Machine) : SymM (Except IllegalInstr Machine) :=
  match displacement.signed? with
  | some bytes => return .ok (← access (machine.pointer arch base bytes))
  | none => return .error ⟨opcode, .immediateRequired index⟩

/--
Arguments that no case has a place for are refused, and the machine is as
before.
-/
def performRaw (arch : Architecture) (machine : Machine) (instr : RawInstr) :
    SymM (Except IllegalInstr Machine) :=
  match instr.opcode, instr.arguments with
  | .nop, [] => return .ok machine
  | .move .zero, [.register target, source] => do
      let value := machine.readArgument source
      return .ok (← machine.writeRegister arch target value)
  | .move .sign, [.register target, source] => do
      let value := (machine.readArgument source).resizeSigned target.count
      return .ok (← machine.writeRegister arch target value)
  | .unary op, [.register target] => do
      let value ← op.apply (machine.readRegister target)
      return .ok (← machine.writeRegister arch target value)
  | .binary op, [.register target, source] => do
      let value ← op.apply (machine.readRegister target)
        (machine.readArgument source)
      return .ok (← machine.writeRegister arch target value)
  | .load, [.register target, .register base, displacement] =>
      machine.accessFrom arch .load base 2 displacement fun pointer => do
        let value ← machine.readMemory pointer target.byteCount
        machine.writeRegister arch target value
  | .store, [.register base, displacement, source] =>
      machine.accessFrom arch .store base 1 displacement fun pointer =>
        machine.writeMemory arch pointer (machine.readArgument source)
  | opcode, arguments =>
      return .error ⟨opcode, .operandNotPermitted arguments.length⟩

def executeRaw (arch : Architecture) (machine : Machine) (instr : RawInstr) :
    SymM (Except IllegalInstr Machine) := do
  record .debug
    s!"executing {instr.opcode.mnemonic} with {instr.arguments.length} operand(s)"
  machine.performRaw arch instr

/-! ## Listing -/

def lines (arch : Architecture) (machine : Machine) :
    Except Fault (List String) := do
  let registers := machine.registers.toList.map fun entry =>
    s!"{arch.sliceText entry.1} := {arch.wordText entry.2}"
  let entries := (← machine.memory.entries).map fun entry =>
    s!"[{arch.pointerText entry.1}] := {arch.wordText entry.2}"
  return registers ++ entries

def dump (arch : Architecture) (machine : Machine) : SymM String := do
  let lines ← machine.lines arch
  lines.forM (record .info)
  return "\n".intercalate lines

end Machine

end SymbolicMachine
