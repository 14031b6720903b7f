import SymbolicMachine.Word

/-!
# Words of a chosen width

The operations of `Word` whose result may have any width, for widths that come
from outside.  They refuse a width above the limit; for all others they agree
with the operation of the same name.
-/

namespace SymbolicMachine.Word.Sized

def constant (value : UInt64) (width : Nat) : Except Fault Word := do
  checkWidth width
  return Word.constant value width

/--
Bits `offset` to `offset + width` of the value called `tag`.  The width is
checked before the indices, and the first index that is too large is reported.
-/
def tagged (tag offset width : Nat) : Except Fault Word := do
  if offset + width ≥ UInt64.size then throw .sizeOverflow
  checkWidth width
  if 0 < width ∧ Var.indicesPerTag < offset + width then
    throw (.tagIndex (max offset Var.indicesPerTag))
  return ofTag tag offset width

def zeroExtend (w : Word) (count : Nat) : Except Fault Word := do
  checkWidth (w.width + count)
  return w.zeroExtend count

def signExtend (w : Word) (count : Nat) : Except Fault Word := do
  checkWidth (w.width + count)
  return w.signExtend count

def resize (w : Word) (width : Nat) : Except Fault Word := do
  checkWidth width
  return w.resize width

def resizeSigned (w : Word) (width : Nat) : Except Fault Word := do
  checkWidth width
  return w.resizeSigned width

end SymbolicMachine.Word.Sized
