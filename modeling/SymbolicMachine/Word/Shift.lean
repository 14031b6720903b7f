import SymbolicMachine.Word.Arith

/-!
# Shifts

A word is shifted by a number, or by another word.  Bit `i` of the amount
decides whether the word is shifted by `2 ^ i`; both outcomes are kept and
selected by that bit.  Shifts by the width or more leave zeros.
-/

namespace SymbolicMachine

namespace Word

def shiftLeftBits (bits : List Bit) (amount : Nat) : List Bit :=
  List.replicate (min amount bits.length) (Bit.literal false) ++
    bits.take (bits.length - amount)

def shiftRightBits (bits : List Bit) (amount : Nat) : List Bit :=
  bits.drop amount ++
    List.replicate (min amount bits.length) (Bit.literal false)

def shiftLeft (w : Word) (amount : Nat) : Word :=
  { w with bits := shiftLeftBits w.bits amount }

def shiftRight (w : Word) (amount : Nat) : Word :=
  { w with bits := shiftRightBits w.bits amount }

/--
Shifts `bits` by the sum of the amounts that `selectors` switch on.  The first
selector stands for `amount` and each further one for twice the one before.
-/
def shiftStages (shift : List Bit → Nat → List Bit) :
    Nat → List Bit → List Bit → NodeM (List Bit)
  | _, [], bits => return bits
  | amount, selector :: selectors, bits => do
      let keep ← selector.not
      let chosen ← zipBits keep.select bits (shift bits amount)
      shiftStages shift (2 * amount) selectors chosen

def shiftLeftBy (w amount : Word) : NodeM Word :=
  return { w with bits := ← shiftStages shiftLeftBits 1 amount.bits w.bits }

def shiftRightBy (w amount : Word) : NodeM Word :=
  return { w with bits := ← shiftStages shiftRightBits 1 amount.bits w.bits }

@[simp] theorem length_shiftLeftBits (bits : List Bit) (amount : Nat) :
    (shiftLeftBits bits amount).length = bits.length := by
  simp only [shiftLeftBits, List.length_append, List.length_take,
    List.length_replicate]
  omega

@[simp] theorem length_shiftRightBits (bits : List Bit) (amount : Nat) :
    (shiftRightBits bits amount).length = bits.length := by
  simp only [shiftRightBits, List.length_append, List.length_drop,
    List.length_replicate]
  omega

@[simp] theorem width_shiftLeft (w : Word) (amount : Nat) :
    (w.shiftLeft amount).width = w.width := by
  simp [shiftLeft, width]

@[simp] theorem width_shiftRight (w : Word) (amount : Nat) :
    (w.shiftRight amount).width = w.width := by
  simp [shiftRight, width]

end Word

end SymbolicMachine
