import SymbolicMachine.Word.Concrete

/-!
# Bitwise operations and addition

Operands of a binary operation have one width.  Addition is a ripple-carry
adder; subtraction adds the two's complement.  A sum of a constant and a word
that is not constant gets an addend record, and adding further constants folds
them into the one record.
-/

namespace SymbolicMachine

namespace Word

def zipBits (op : Bit → Bit → NodeM Bit) :
    List Bit → List Bit → NodeM (List Bit)
  | x :: xs, y :: ys => return (← op x y) :: (← zipBits op xs ys)
  | _, _ => return []

def requireSameWidth (a b : Word) : SymM Unit :=
  unless a.width = b.width do throw (.widthMismatch a.width b.width)

/-! ## Bitwise operations -/

def bitwise (op : Bit → Bit → NodeM Bit) (a b : Word) : SymM Word := do
  requireSameWidth a b
  return ofBits (← zipBits op a.bits b.bits)

protected def not (w : Word) : NodeM Word :=
  return ofBits (← w.bits.mapM Bit.not)

protected def and (a b : Word) : SymM Word :=
  bitwise Bit.and a b

protected def or (a b : Word) : SymM Word :=
  bitwise Bit.or a b

protected def xor (a b : Word) : SymM Word :=
  bitwise Bit.xor a b

/-! ## The adder -/

/--
The carries into every position and out of the last one, starting with `carry`.
-/
def carries : Bit → List Bit → List Bit → NodeM (List Bit)
  | carry, x :: xs, y :: ys => do
      let next ← x.majority y carry
      return carry :: (← carries next xs ys)
  | carry, _, _ => return [carry]

def addBits (xs ys : List Bit) : NodeM (List Bit × Bit) := do
  let carry ← carries (.literal false) xs ys
  let sum ← zipBits Bit.xor (← zipBits Bit.xor xs ys) carry.dropLast
  return (sum, carry.getLast?.getD (.literal false))

def carryBits (a b : Word) : SymM Word := do
  requireSameWidth a b
  return ofBits (← carries (.literal false) a.bits b.bits)

def addWithCarry (a b : Word) : SymM (Word × Bit) := do
  requireSameWidth a b
  let (sum, carry) ← addBits a.bits b.bits
  return (ofBits sum, carry)

/-! ## Addends -/

def splitAddend? (w : Word) : Option (Word × UInt64) :=
  match w.addend with
  | some addend =>
      if identicalBits addend.sum w.bits then some (addend.base, addend.value)
      else none
  | none => none

def truncateValue (value : UInt64) (width : Nat) : UInt64 :=
  if width < 64 then .ofNat (value.toNat % (1 <<< width)) else value

/--
The record of `sum = operand + value`, with a constant inside `operand` folded
in.
-/
def addendOf (operand : Word) (value : UInt64) (sum : List Bit) : Addend Word :=
  let (base, total) :=
    match operand.splitAddend? with
    | some (base, inner) => (base, inner + value)
    | none => (operand, value)
  { base, value := truncateValue total sum.length, sum }

def ofSum (a b : Word) (sum : List Bit) : Word :=
  match a.toUInt64?, b.toUInt64? with
  | none, some value => { bits := sum, addend := some (addendOf a value sum) }
  | some value, none => { bits := sum, addend := some (addendOf b value sum) }
  | _, _ => ofBits sum

/-! ## Arithmetic modulo a power of two -/

protected def add (a b : Word) : SymM Word := do
  requireSameWidth a b
  let (sum, _) ← addBits a.bits b.bits
  return ofSum a b sum

protected def neg (w : Word) : SymM Word := do
  let complement : Word ← w.not
  complement.add (constant 1 w.width)

protected def sub (a b : Word) : SymM Word := do
  requireSameWidth a b
  a.add (← b.neg)

end Word

end SymbolicMachine
