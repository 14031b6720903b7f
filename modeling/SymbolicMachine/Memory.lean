import SymbolicMachine.Pointer

/-!
# Memory

Memory is made of regions.  A region holds bytes at known distances from its
anchor; nothing is known about the distance between two regions.  A write goes
to the region at a known distance from the written pointer, or to a new one, and
drops every other region that it might overlap.
-/

namespace SymbolicMachine

def lastOffset : Int := Int64.maxValue.toInt

structure Region where
  anchor : Pointer
  bytes : Std.TreeMap Int Word := {}

structure Memory where
  regions : List Region := []

namespace Region

/--
The bits of `count` bytes from `offset` on, and whether any of these bytes is
stored.  Bytes that are not stored are fresh variables.
-/
def read (region : Region) : Int → Nat → SymM (List Bit × Bool)
  | _, 0 => return ([], false)
  | offset, count + 1 => do
      if offset > lastOffset then throw .offsetOverflow
      match region.bytes[offset]? with
      | some byte =>
          let (bits, _) ← region.read (offset + 1) count
          return (byte.bits ++ bits, true)
      | none =>
          let byte ← Word.fresh 8
          let (bits, known) ← region.read (offset + 1) count
          return (byte.bits ++ bits, known)

def write (region : Region) : Int → List Word → Except Fault Region
  | _, [] => .ok region
  | offset, byte :: bytes =>
      if offset > lastOffset then .error .offsetOverflow
      else { region with bytes := region.bytes.insert offset byte }.write
        (offset + 1) bytes

end Region

/-! ## Runs of bytes -/

structure Run where
  start : Int
  value : Word
  deriving Repr

namespace Run

def push (offset : Int) (byte : Word) : List Run → List Run
  | [] => [⟨offset, byte⟩]
  | run :: runs =>
      if run.start = offset + 1 then ⟨offset, byte.concat run.value⟩ :: runs
      else ⟨offset, byte⟩ :: run :: runs

def ofBytes (bytes : List (Int × Word)) : List Run :=
  bytes.foldr (fun entry runs => push entry.1 entry.2 runs) []

end Run

/--
The maximal runs of a region with the pointers they start at.  The end of a run
is an offset too, so no byte may sit at the last one.
-/
def Region.entries (region : Region) : Except Fault (List (Pointer × Word)) :=
  if region.bytes.contains lastOffset then .error .offsetOverflow
  else .ok ((Run.ofBytes region.bytes.toList).map fun run =>
    (region.anchor.displace (.ofInt run.start), run.value))

/-! ## Memory as a whole -/

/-- The first region at a known distance from a pointer, and that distance. -/
structure Located where
  before : List Region
  region : Region
  after : List Region
  offset : Int

def Located.others (found : Located) : List Region :=
  found.before ++ found.after

namespace Memory

def locate (pointer : Pointer) : List Region → SymM (Option Located)
  | [] => return none
  | region :: regions => do
      match ← pointer.difference region.anchor with
      | some offset => return some ⟨[], region, regions, offset.toInt⟩
      | none =>
          return (← locate pointer regions).map fun found =>
            { found with before := region :: found.before }

def aliases (pointer : Pointer) (region : Region) : Bool :=
  pointer.canOverlap region.anchor

/--
The `bitCount` bits at `pointer`, or nothing if no byte there is known or
another region might hold them.
-/
def read (memory : Memory) (pointer : Pointer) (bitCount : Nat) :
    SymM (Option Word) := do
  match ← locate pointer memory.regions with
  | none => return none
  | some found =>
      if found.others.any (aliases pointer) then return none
      let (bits, known) ← found.region.read found.offset ((bitCount + 7) / 8)
      return if known then some ((Word.ofBits bits).resize bitCount) else none

def survivors (pointer : Pointer) (regions : List Region) : List Region :=
  regions.filter fun region => !aliases pointer region

def recordInvalidated (pointer : Pointer) (regions : List Region) :
    SymM Unit := do
  let count := regions.countP (aliases pointer)
  if 0 < count then
    record .debug
      s!"write to {pointer.text} invalidated {count} aliasing region(s)"

def write (memory : Memory) (pointer : Pointer) (value : Word) :
    SymM Memory := do
  unless value.width % 8 = 0 do throw (.partialByte value.width)
  let bytes := value.partsOf 8
  match ← locate pointer memory.regions with
  | some found =>
      recordInvalidated pointer found.others
      let region ← found.region.write found.offset bytes
      return ⟨survivors pointer found.before ++
        region :: survivors pointer found.after⟩
  | none =>
      recordInvalidated pointer memory.regions
      let region ← ({ anchor := pointer } : Region).write 0 bytes
      return ⟨survivors pointer memory.regions ++ [region]⟩

def entries (memory : Memory) : Except Fault (List (Pointer × Word)) :=
  return (← memory.regions.mapM Region.entries).flatten

end Memory

end SymbolicMachine
