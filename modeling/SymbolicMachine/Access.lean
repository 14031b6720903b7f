import SymbolicMachine.Instr.Effects
import SymbolicMachine.Pointer

/-!
# Access analysis

Does an instruction touch a given register slice or piece of memory, and which
part of it?  Registers are compared by their bits.  For memory the base register
of the instruction is traced to an address, whose distance to the target
decides.
-/

namespace SymbolicMachine

inductive Target where
  | register (slice : RegisterSlice)
  | memory (pointer : Pointer) (bitCount : Nat)
  deriving Repr

/--
How a target is accessed.  The part that is accessed is given in bits from the
start of the target and may begin before it.
-/
inductive Access where
  | none
  | known (kind : AccessKind) (bitOffset bitCount : Int)
  /-- Somewhere, perhaps. -/
  | unknown (kind : AccessKind)
  deriving DecidableEq, Repr

inductive AccessError where
  | readWriteFilter
  | missingLocation
  deriving DecidableEq, Repr

def AccessError.message : AccessError → String
  | .readWriteFilter =>
      "memory accesses are either reads or writes and cannot be queried as read-write"
  | .missingLocation => "instruction accesses memory but has no memory operand"

/-- Which accesses a test counts.  No kind means all of them. -/
abbrev AccessFilter := Option AccessKind

def AccessFilter.admits (filter : AccessFilter) (kind : AccessKind) : Bool :=
  match filter with
  | none => true
  | some .read => kind.reads
  | some .write => kind.writes
  | some .readWrite => kind.reads && kind.writes

/-! ## Registers -/

def OperandUse.accessTo? (filter : AccessFilter) (slice : RegisterSlice)
    (use : OperandUse) : Option Access :=
  match use.register with
  | some register =>
      if filter.admits use.kind && register.overlaps slice then
        some (.known use.kind (register.offset - slice.offset) register.count)
      else none
  | none => none

namespace Effects

def registerAccess (effects : Effects) (filter : AccessFilter)
    (slice : RegisterSlice) : Access :=
  (effects.operands.findSome? (OperandUse.accessTo? filter slice)).getD .none

/-! ## Memory -/

def memoryKind (effects : Effects) : AccessKind :=
  if effects.writesMemory then .write else .read

/--
The address that must be known to tell how memory is accessed; none if it is
not.
-/
def addressNeeded (effects : Effects) (filter : AccessFilter) :
    Except AccessError (Option MemoryLocation) :=
  if !effects.accessesMemory then .ok none
  else if filter = some .readWrite then .error .readWriteFilter
  else if !filter.admits effects.memoryKind then .ok none
  else
    match effects.location with
    | some location => .ok (some location)
    | none => .error .missingLocation

def bitsOfBytes? (bytes : Int) : Option Int :=
  let bits := bytes * 8
  if Int32.minValue.toInt ≤ bits ∧ bits ≤ Int32.maxValue.toInt then some bits
  else none

/--
How `pointer` accesses the bytes from `target` on.  Sizes and ends of ranges are
cut to signed 64-bit numbers.
-/
def memoryAccess (effects : Effects) (pointer target : Pointer)
    (bitCount : Nat) : SymM Access := do
  let kind := effects.memoryKind
  if !pointer.canOverlap target then return .none
  match ← pointer.difference target with
  | none =>
      record .debug
        s!"access to {pointer.text} may alias {target.text} at an unknown offset"
      return .unknown kind
  | some distance =>
      let low := distance.toInt
      let size : Int := min effects.accessSize Int64.maxValue.toInt
      let high := min (low + size) Int64.maxValue.toInt
      if low ≥ (bitCount / 8 : Nat) ∨ high ≤ 0 then return .none
      match bitsOfBytes? low, bitsOfBytes? (high - low) with
      | some bitOffset, some bits => return .known kind bitOffset bits
      | _, _ =>
          record .debug
            s!"access to {pointer.text} of {size} byte(s) exceeds the bit range"
          return .unknown kind

end Effects

/--
How an instruction with the given effects accesses a target, as far as the
filter counts it.  `trace` gives the values of registers before the instruction.
-/
def testAccess (arch : Architecture) (trace : RegisterSlice → SymM Word)
    (effects : Effects) (filter : AccessFilter) :
    Target → SymM (Except AccessError Access)
  | .register slice => return .ok (effects.registerAccess filter slice)
  | .memory target bitCount =>
      match effects.addressNeeded filter with
      | .error e => return .error e
      | .ok none => return .ok .none
      | .ok (some location) => do
          let base ← trace location.base
          let pointer :=
            (Pointer.ofWord arch base).displace location.displacement
          return .ok (← effects.memoryAccess pointer target bitCount)

end SymbolicMachine
