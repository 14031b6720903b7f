import SymbolicMachine.Word

/-!
# Concrete words

A word whose bits are all literal stands for a number.  Reading the number into
a limited number of bits looks at the bits from the least significant one and
fails at the first bit that is not literal, or that is one and out of range.
-/

namespace SymbolicMachine

inductive ConcretizeError where
  | nonLiteralBit (index : Nat)
  | overflow (maxBits : Nat)
  deriving DecidableEq, Repr

def ConcretizeError.message : ConcretizeError → String
  | .nonLiteralBit index => s!"non-literal bit at index {index}"
  | .overflow maxBits => s!"value exceeded maximum number of bits ({maxBits})"

def Bit.concretize (b : Bit) : Except ConcretizeError Bool :=
  match b.literal? with
  | some value => .ok value
  | none => .error (.nonLiteralBit 0)

namespace Word

def concretizeFrom (maxBits : Nat) : Nat → List Bit → Except ConcretizeError Nat
  | _, [] => .ok 0
  | index, .literal false :: bits =>
      (concretizeFrom maxBits (index + 1) bits).map (2 * ·)
  | index, .literal true :: bits =>
      if index < maxBits then
        (concretizeFrom maxBits (index + 1) bits).map fun rest => 1 + 2 * rest
      else
        .error (.overflow maxBits)
  | index, _ :: _ => .error (.nonLiteralBit index)

def concretize (maxBits : Nat) (w : Word) : Except ConcretizeError Nat :=
  concretizeFrom maxBits 0 w.bits

def toUInt64? (w : Word) : Option UInt64 :=
  match w.concretize 64 with
  | .ok value => some (.ofNat value)
  | .error _ => none

end Word

end SymbolicMachine
