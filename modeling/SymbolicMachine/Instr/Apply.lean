import SymbolicMachine.Instr.Opcode
import SymbolicMachine.Word.Shift

/-!
# Operations on words

What the opcodes compute from the words of their operands.
-/

namespace SymbolicMachine

def Extension.resize : Extension → Word → Nat → Word
  | .zero, w, width => w.resize width
  | .sign, w, width => w.resizeSigned width

def UnaryOp.apply : UnaryOp → Word → SymM Word
  | .neg, w => w.neg
  | .not, w => w.not

/--
The right operand takes the width of the left one.  A shift by a constant uses
the whole constant, so an amount that the left operand could not hold is not
cut.
-/
def BinaryOp.apply (op : BinaryOp) (left right : Word) : SymM Word :=
  let operand := right.resize left.width
  match op with
  | .add => left.add operand
  | .sub => left.sub operand
  | .and => left.and operand
  | .or => left.or operand
  | .xor => left.xor operand
  | .shl =>
      match right.toUInt64? with
      | some amount => return left.shiftLeft amount.toNat
      | none => left.shiftLeftBy operand
  | .shr =>
      match right.toUInt64? with
      | some amount => return left.shiftRight amount.toNat
      | none => left.shiftRightBy operand

end SymbolicMachine
