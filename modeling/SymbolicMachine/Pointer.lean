import SymbolicMachine.Architecture
import SymbolicMachine.Word.Arith
import SymbolicMachine.Word.Tags

/-!
# Pointers

A pointer is a symbolic address: a 64-bit base displaced by a constant number of
bytes.  An address that was computed by adding a constant is split when the
pointer is made, so addresses that derive from one register by constant
adjustments have one base and differ in their displacement.  Constant addresses
have the base zero.

A pointer also knows the restricted registers that its base depends on.
-/

namespace SymbolicMachine

def addressWidth : Nat := 64

structure Pointer where
  base : Word
  displacement : Int64
  /-- In ascending order, each register once. -/
  restrict : List RegisterId
  deriving Repr

namespace Pointer

def constant (address : UInt64) : Pointer where
  base := .constant 0 addressWidth
  displacement := address.toInt64
  restrict := []

def restrictOf (arch : Architecture) (w : Word) : List RegisterId :=
  (w.tags.toList.filterMap RegisterId.ofTag?).filter arch.restricted

/-- The pointer to the address `w`, cut or extended to 64 bits. -/
def ofWord (arch : Architecture) (w : Word) : Pointer :=
  let address := w.resize addressWidth
  match address.toUInt64? with
  | some value => constant value
  | none =>
      let (base, addend) := address.splitAddend?.getD (address, 0)
      { base, displacement := addend.toInt64, restrict := restrictOf arch base }

def displace (p : Pointer) (bytes : Int64) : Pointer :=
  { p with displacement := p.displacement + bytes }

def address (p : Pointer) : SymM Word :=
  p.base.add (.constant p.displacement.toUInt64 addressWidth)

/--
Pointers to disjoint sets of restricted registers do not overlap; all others
may.
-/
def canOverlap (p q : Pointer) : Bool :=
  p.restrict.isEmpty || q.restrict.isEmpty ||
    p.restrict.any fun id => id ∈ q.restrict

def baseDifference (p q : Pointer) : SymM (Option UInt64) := do
  if p.base.identical q.base then return some 0
  else return (← p.base.sub q.base).toUInt64?

/-- The number of bytes from `q` to `p`, if it is a constant. -/
def difference (p q : Pointer) : SymM (Option Int64) :=
  return (← p.baseDifference q).map fun delta =>
    delta.toInt64 + p.displacement - q.displacement

def render (name : Nat → String) (p : Pointer) : String :=
  if p.base.allLiteral then hexText p.displacement.toUInt64.toNat
  else if p.displacement = 0 then p.base.render name
  else if p.displacement < 0 then
    s!"{p.base.render name} - {hexText p.displacement.toInt.natAbs}"
  else s!"{p.base.render name} + {hexText p.displacement.toInt.natAbs}"

def text (p : Pointer) : String :=
  p.render tagText

end Pointer

def Architecture.pointerText (arch : Architecture) (p : Pointer) : String :=
  p.render arch.tagName

end SymbolicMachine
