import Std.Data.TreeMap
import SymbolicMachine.Register

/-!
# Register tables

A register names some bytes of a base register.  The table answers which bytes a
register names, which base it belongs to, and which register names given bytes.

Of two entries for one register the later one counts.  Of two registers that
name the same bytes the earlier entry gives the name.
-/

namespace SymbolicMachine

inductive RegisterError where
  | invalidRegister
  | unmapped (base : RegisterId) (offset size : Nat)
  | notBase (register base : RegisterId)
  | badBitRange (base : RegisterId) (offset count : Nat)
  deriving DecidableEq, Repr

def RegisterError.message : RegisterError → String
  | .invalidRegister => "the invalid register cannot be resolved"
  | .unmapped base offset size =>
      s!"no register covers {size} byte(s) at offset {offset} of {base.text}"
  | .notBase register base =>
      s!"{register.text} is part of {base.text} and cannot be used as a base register"
  | .badBitRange base offset count =>
      s!"bits {offset}..{offset}+{count} are outside of register {base.text}"

/-- `size` bytes from byte `offset` of the register `base`. -/
structure Mapping where
  base : RegisterId
  offset : Nat
  size : Nat
  deriving DecidableEq, Repr

structure RegisterTable where
  entries : List (RegisterId × Mapping)
  deriving DecidableEq, Repr

namespace RegisterTable

def mapping? (table : RegisterTable) (id : RegisterId) : Option Mapping :=
  table.entries.reverse.lookup id

def name? (table : RegisterTable) (mapping : Mapping) : Option RegisterId :=
  (table.entries.find? fun entry => entry.2 = mapping).map Prod.fst

/--
The bytes a register names.  A register without an entry is a base register of
eight bytes.
-/
def resolve (table : RegisterTable) (id : RegisterId) :
    Except RegisterError Mapping :=
  if id = .invalid then .error .invalidRegister
  else .ok ((table.mapping? id).getD ⟨id, 0, 8⟩)

def baseOf (table : RegisterTable) (id : RegisterId) : RegisterId :=
  ((table.mapping? id).map Mapping.base).getD id

/--
The register that names `size` bytes at `offset` of the base of `id`.  Bytes at
offset zero without a name of their own are named by the base register.
-/
def remap (table : RegisterTable) (id : RegisterId) (offset size : Nat) :
    Except RegisterError RegisterId :=
  let base := table.baseOf id
  match table.name? ⟨base, offset, size⟩ with
  | some name => .ok name
  | none => if offset = 0 then .ok base else .error (.unmapped base offset size)

def mappings (table : RegisterTable) : Std.TreeMap RegisterId Mapping :=
  table.entries.foldl (fun map entry => map.insert entry.1 entry.2) {}

end RegisterTable

end SymbolicMachine
