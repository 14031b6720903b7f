import SymbolicMachine.Var

/-!
# Symbolic bits

A bit is a Boolean expression over variables, built from negation and
conjunction.  Expressions share their parts: every operand of a compound bit is
a node with a number of its own, and bits that have an operand in common name
the same node.

The operators simplify while they build.  They never walk an expression; all
they ask is whether two bits are identical, which looks one node deep.  New
nodes take their numbers from a counter, the state of `NodeM`.
-/

namespace SymbolicMachine

/-- The operands of `neg` and `conj` come with the numbers of their nodes. -/
inductive Bit where
  | literal (value : Bool)
  | var (v : Var)
  | neg (node : Nat) (x : Bit)
  | conj (leftNode : Nat) (left : Bit) (rightNode : Nat) (right : Bit)
  deriving Repr

/-- Computations that make nodes.  The state is the number of the next node. -/
abbrev NodeM := StateM Nat

def newNode : NodeM Nat :=
  modifyGet fun next => (next, next + 1)

namespace Bit

instance : Inhabited Bit := ⟨.literal false⟩

def literal? : Bit → Option Bool
  | .literal value => some value
  | _ => none

def var? : Bit → Option Var
  | .var v => some v
  | _ => none

def isLiteral (b : Bit) : Bool :=
  b.literal?.isSome

/-! ## Identity -/

def sameLeaf : Bit → Bit → Bool
  | .literal a, .literal b => a == b
  | .var v, .var w => v == w
  | _, _ => false

def sameOperand (nodeX : Nat) (x : Bit) (nodeY : Nat) (y : Bit) : Bool :=
  nodeX == nodeY || sameLeaf x y

/--
Whether two bits are known to be the same expression.  Compound bits are
identical when they share their operands; a conjunction does not mind the order.
-/
def identical : Bit → Bit → Bool
  | .literal a, .literal b => a == b
  | .var v, .var w => v == w
  | .neg nodeX x, .neg nodeY y => sameOperand nodeX x nodeY y
  | .conj nodeX x nodeY y, .conj nodeU u nodeV v =>
      sameOperand nodeX x nodeU u && sameOperand nodeY y nodeV v ||
        sameOperand nodeX x nodeV v && sameOperand nodeY y nodeU u
  | _, _ => false

def negates (a b : Bit) : Bool :=
  match a with
  | .neg _ x => x.identical b
  | _ => false

/-! ## Construction without simplification -/

def mkNeg (x : Bit) : NodeM Bit :=
  return .neg (← newNode) x

def mkConj (x y : Bit) : NodeM Bit :=
  return .conj (← newNode) x (← newNode) y

/-! ## Operators -/

/-- Negation.  The negation of a negation is its operand. -/
protected def not : Bit → NodeM Bit
  | .literal value => return .literal !value
  | .neg _ x => return x
  | x => mkNeg x

protected def and (a b : Bit) : NodeM Bit :=
  if a.identical b then return a
  else if a.literal? = some false then return .literal false
  else if a.literal? = some true then return b
  else if a.negates b then return .literal false
  else if b.literal? = some false then return .literal false
  else if b.literal? = some true then return a
  else if b.negates a then return .literal false
  else mkConj a b

protected def or (a b : Bit) : NodeM Bit := do
  let neither ← (← a.not).and (← b.not)
  neither.not

protected def xor (a b : Bit) : NodeM Bit :=
  match a, b with
  | .literal false, b => return b
  | .literal true, b => b.not
  | a, .literal false => return a
  | a, .literal true => a.not
  | a, b => do
      let onlyA ← a.and (← b.not)
      let onlyB ← (← a.not).and b
      onlyA.or onlyB

def equals (a b : Bit) : NodeM Bit := do
  let both ← a.and b
  let neither ← (← a.not).and (← b.not)
  both.or neither

def select (c a b : Bit) : NodeM Bit := do
  let whenTrue ← c.and a
  let whenFalse ← (← c.not).and b
  whenTrue.or whenFalse

def majority (a b c : Bit) : NodeM Bit := do
  let ab ← a.and b
  let ac ← a.and c
  let bc ← b.and c
  (← ab.or ac).or bc

end Bit

end SymbolicMachine
