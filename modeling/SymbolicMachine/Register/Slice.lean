import SymbolicMachine.Register.Table

/-!
# Register slices

A slice is a run of bits of a 64-bit base register, at least one bit long.
Slices are ordered by base, then by offset, then by count.
-/

namespace SymbolicMachine

def registerWidth : Nat := 64

structure RegisterSlice where
  base : RegisterId
  offset : Nat
  count : Nat
  count_pos : 0 < count
  inside : offset + count ≤ registerWidth
  deriving DecidableEq, Repr

namespace RegisterSlice

instance : Ord RegisterSlice :=
  ⟨compareLex (compareOn base)
    (compareLex (compareOn offset) (compareOn count))⟩

instance : Std.TransOrd RegisterSlice :=
  inferInstanceAs (Std.TransCmp (compareLex (compareOn base)
    (compareLex (compareOn offset) (compareOn count))))

instance : Std.LawfulEqOrd RegisterSlice where
  eq_of_compare {a b} h := by
    have hcompare : compareLex (compareOn base)
        (compareLex (compareOn offset) (compareOn count)) a b = .eq := h
    simp only [compareLex_eq_eq, compareOn,
      Std.LawfulEqCmp.compare_eq_iff_eq] at hcompare
    cases a
    cases b
    simp_all

/--
The slice of `count` bits at `offset` of `base`, which must be a base register.
-/
def make (table : RegisterTable) (base : RegisterId) (offset count : Nat) :
    Except RegisterError RegisterSlice :=
  if base = .invalid then .error .invalidRegister
  else if table.baseOf base ≠ base then
    .error (.notBase base (table.baseOf base))
  else if h : 0 < count ∧ offset + count ≤ registerWidth then
    .ok ⟨base, offset, count, h.1, h.2⟩
  else .error (.badBitRange base offset count)

def ofRegister (table : RegisterTable) (id : RegisterId) :
    Except RegisterError RegisterSlice := do
  let mapping ← table.resolve id
  make table mapping.base (mapping.offset * 8) (mapping.size * 8)

def toRegister (table : RegisterTable) (slice : RegisterSlice) :
    Except RegisterError RegisterId :=
  if slice.offset % 8 = 0 ∧ slice.count % 8 = 0 then
    table.remap slice.base (slice.offset / 8) (slice.count / 8)
  else .error (.unmapped slice.base (slice.offset / 8) ((slice.count + 7) / 8))

def stop (slice : RegisterSlice) : Nat :=
  slice.offset + slice.count

def isFull (slice : RegisterSlice) : Bool :=
  slice.offset = 0 ∧ slice.count = registerWidth

def full (base : RegisterId) : RegisterSlice :=
  ⟨base, 0, registerWidth, by decide, by decide⟩

def canonical (slice : RegisterSlice) : RegisterSlice :=
  full slice.base

@[simp] theorem full_inj {a b : RegisterId} : full a = full b ↔ a = b := by
  simp [full]

def overlaps (a b : RegisterSlice) : Bool :=
  a.base = b.base ∧ a.offset < b.stop ∧ b.offset < a.stop

def mask (slice : RegisterSlice) : UInt64 :=
  .ofNat ((1 <<< slice.count - 1) <<< slice.offset)

def byteCount (slice : RegisterSlice) : Nat :=
  (slice.count + 7) / 8

end RegisterSlice

end SymbolicMachine
