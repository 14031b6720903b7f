import SymbolicMachine.Register.Slice
import SymbolicMachine.Word.Text

/-!
# Architectures

An architecture names registers, says which of them are restricted, and what a
write to a part of a register does to the rest.  Pointers that derive from
disjoint sets of restricted registers never alias.
-/

namespace SymbolicMachine

inductive PartialWrite where
  /-- The other bits of the register stay. -/
  | merge
  /-- The other bits of the register become zero. -/
  | zeroExtend
  deriving DecidableEq, Repr

structure Architecture where
  table : RegisterTable
  name : RegisterId → String
  restricted : RegisterId → Bool := fun _ => false
  partialWrite : RegisterSlice → PartialWrite := fun _ => .merge

namespace Architecture

def tagName (arch : Architecture) (tag : Nat) : String :=
  match RegisterId.ofTag? tag with
  | some id => arch.name id
  | none => tagText tag

/-- The register that names exactly the slice. -/
def sliceRegister? (arch : Architecture) (slice : RegisterSlice) :
    Option RegisterId :=
  match slice.toRegister arch.table with
  | .ok id =>
      match RegisterSlice.ofRegister arch.table id with
      | .ok named => if named = slice then some id else none
      | .error _ => none
  | .error _ => none

def sliceText (arch : Architecture) (slice : RegisterSlice) : String :=
  match arch.sliceRegister? slice with
  | some id => arch.name id
  | none => s!"{arch.name slice.base}[{slice.offset}..{slice.stop}]"

def wordText (arch : Architecture) (w : Word) : String :=
  w.render arch.tagName

end Architecture

end SymbolicMachine
