import SymbolicMachine.Access.Kind

/-!
# Opcodes

Every opcode has a signature, the kinds of access to its operands in order.  A
memory opcode has a base register operand, followed by the displacement.
-/

namespace SymbolicMachine

/-- How a move fills a destination that is wider than its source. -/
inductive Extension where
  | zero
  | sign
  deriving DecidableEq, Repr

inductive UnaryOp where
  | neg
  | not
  deriving DecidableEq, Repr

inductive BinaryOp where
  | add
  | sub
  | and
  | or
  | xor
  | shl
  | shr
  deriving DecidableEq, Repr

inductive Opcode where
  | nop
  | move (extension : Extension)
  | unary (op : UnaryOp)
  | binary (op : BinaryOp)
  | load
  | store
  deriving DecidableEq, Repr

def UnaryOp.mnemonic : UnaryOp → String
  | .neg => "neg"
  | .not => "not"

def BinaryOp.mnemonic : BinaryOp → String
  | .add => "add"
  | .sub => "sub"
  | .and => "and"
  | .or => "or"
  | .xor => "xor"
  | .shl => "shl"
  | .shr => "shr"

namespace Opcode

def mnemonic : Opcode → String
  | .nop => "nop"
  | .move .zero => "mov"
  | .move .sign => "movsx"
  | .unary op => op.mnemonic
  | .binary op => op.mnemonic
  | .load => "ldd"
  | .store => "str"

def all : List Opcode :=
  [.nop, .move .zero, .move .sign, .unary .neg, .unary .not, .binary .add,
    .binary .sub, .binary .and, .binary .or, .binary .xor, .binary .shl,
    .binary .shr, .load, .store]

def ofMnemonic? (mnemonic : String) : Option Opcode :=
  all.find? fun opcode => opcode.mnemonic = mnemonic

def signature : Opcode → List AccessKind
  | .nop => []
  | .move _ => [.write, .read]
  | .unary _ => [.readWrite]
  | .binary _ => [.readWrite, .read]
  | .load => [.write, .read, .read]
  | .store => [.read, .read, .read]

def memoryAccess? : Opcode → Option AccessKind
  | .load => some .read
  | .store => some .write
  | _ => none

def memoryOperand? : Opcode → Option Nat
  | .load => some 1
  | .store => some 0
  | _ => none

end Opcode

end SymbolicMachine
