import SymbolicMachine.Instr.Opcode
import SymbolicMachine.Register.Slice
import SymbolicMachine.Word

/-!
# Instructions

An instruction is an opcode with operands that fit it.  `Instr` has a
constructor for every shape of operands, so what does not fit cannot be written
down; `RawInstr` keeps an opcode and a list of arguments as they were given.
-/

namespace SymbolicMachine

/--
The low `width` bits of `value` in two's complement: they are shifted to the top
and, with their sign, back.  Nothing if one of the two shifts is not by 0 to 63.
-/
def signedValue? (value : UInt64) (width : Nat) : Option Int64 := do
  let unused ← if width ≤ 64 then some (64 - width) else none
  let top ← if unused < 64 then some (value <<< .ofNat unused) else none
  return top.toInt64 >>> .ofNat unused

/--
A constant of 1 to 64 bits.  The bits of `value` from `width` on do not count.
-/
structure Immediate where
  value : UInt64
  width : Nat
  inside : 0 < width ∧ width ≤ 64
  deriving DecidableEq, Repr

namespace Immediate

def signed (immediate : Immediate) : Int64 :=
  let unused := 64 - immediate.width
  (immediate.value <<< .ofNat unused).toInt64 >>> .ofNat unused

@[simp] theorem signedValue?_eq (immediate : Immediate) :
    signedValue? immediate.value immediate.width = some immediate.signed := by
  have hunused : 64 - immediate.width < 64 := by
    have hinside := immediate.inside
    omega
  simp [signedValue?, signed, immediate.inside.2, hunused]

def word (immediate : Immediate) : Word :=
  .constant immediate.value immediate.width

end Immediate

inductive Operand where
  | register (slice : RegisterSlice)
  | immediate (constant : Immediate)
  deriving DecidableEq, Repr

namespace Operand

def register? : Operand → Option RegisterSlice
  | .register slice => some slice
  | .immediate _ => none

def signed? : Operand → Option Int64
  | .register _ => none
  | .immediate constant => signedValue? constant.value constant.width

def width : Operand → Nat
  | .register slice => slice.count
  | .immediate constant => constant.width

def byteCount (operand : Operand) : Nat :=
  (operand.width + 7) / 8

end Operand

inductive Instr where
  | nop
  | move (extension : Extension) (target : RegisterSlice) (source : Operand)
  | unary (op : UnaryOp) (target : RegisterSlice)
  | binary (op : BinaryOp) (target : RegisterSlice) (source : Operand)
  | load (target base : RegisterSlice) (displacement : Immediate)
  | store (base : RegisterSlice) (displacement : Immediate) (source : Operand)
  deriving DecidableEq, Repr

abbrev Block := List Instr

namespace Instr

def opcode : Instr → Opcode
  | .nop => .nop
  | .move extension .. => .move extension
  | .unary op _ => .unary op
  | .binary op .. => .binary op
  | .load .. => .load
  | .store .. => .store

def operands : Instr → List Operand
  | .nop => []
  | .move _ target source => [.register target, source]
  | .unary _ target => [.register target]
  | .binary _ target source => [.register target, source]
  | .load target base displacement =>
      [.register target, .register base, .immediate displacement]
  | .store base displacement source =>
      [.register base, .immediate displacement, source]

end Instr

end SymbolicMachine
