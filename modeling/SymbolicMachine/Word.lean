import SymbolicMachine.Bit.Formula
import SymbolicMachine.Session

/-!
# Words

A word is a list of symbolic bits, least significant bit first, of any width.

A word that was computed by adding a constant carries an addend record: the
other operand, the constant, and the bits of the sum.  The record stays with the
word when its bits are cut, extended, shifted or replaced.  It counts only while
the bits are still those of the sum, see `Word.splitAddend?`.
-/

namespace SymbolicMachine

/-- `sum` holds the bits of `base + value`. -/
structure Addend (α : Type) where
  base : α
  value : UInt64
  sum : List Bit
  deriving Repr

structure Word where
  bits : List Bit
  addend : Option (Addend Word) := none
  deriving Repr

namespace Word

instance : Inhabited Word := ⟨⟨[], none⟩⟩

/-! ## Construction -/

def ofBits (bits : List Bit) : Word :=
  { bits }

def empty : Word :=
  ofBits []

/-- The low `width` bits of `value`, and zeros from bit 64 on. -/
def constant (value : UInt64) (width : Nat) : Word :=
  ofBits ((List.range width).map fun i => .literal (value.toNat.testBit i))

/--
Bits `offset` to `offset + width` of the value called `tag`, where
`offset + width ≤ 256`.
-/
def ofTag (tag offset width : Nat) : Word :=
  ofBits ((List.range' offset width).map fun i => .var (.ofTag tag i))

/--
No word has more bits: at 24 bytes for a bit, it would take `2 ^ 63` bytes or
more.
-/
def maxWidth : Nat := 0x7fffffffffffffff / 24

def checkWidth (width : Nat) : Except Fault Unit :=
  if width ≤ maxWidth then .ok () else .error (.widthLimit width)

def fresh (width : Nat) : SymM Word := do
  checkWidth width
  return ofBits ((← freshVars width).map Bit.var)

/-! ## Views -/

def width (w : Word) : Nat :=
  w.bits.length

def byteCount (w : Word) : Nat :=
  (w.width + 7) / 8

def lsb? (w : Word) : Option Bit :=
  w.bits.head?

def msb? (w : Word) : Option Bit :=
  w.bits.getLast?

def allLiteral (w : Word) : Bool :=
  w.bits.all Bit.isLiteral

def identicalBits (xs ys : List Bit) : Bool :=
  xs.length == ys.length && (xs.zip ys).all fun (x, y) => x.identical y

def identical (a b : Word) : Bool :=
  identicalBits a.bits b.bits

def sameFormulas (a b : Word) : Bool :=
  a.width == b.width && (a.bits.zip b.bits).all fun (x, y) => x.sameFormula y

def natOfBits (bits : List Bool) : Nat :=
  (BitVec.ofBoolListLE bits).toNat

def value (valuation : Valuation) (w : Word) : Nat :=
  natOfBits (w.bits.map (Bit.eval valuation))

/-! ## Cutting and extending -/

def concat (low high : Word) : Word :=
  { low with bits := low.bits ++ high.bits }

def join (words : List Word) : Word :=
  ofBits (words.flatMap bits)

def dropLow (w : Word) (count : Nat) : Word :=
  { w with bits := w.bits.drop count }

def dropHigh (w : Word) (count : Nat) : Word :=
  { w with bits := w.bits.take (w.width - count) }

def extendWith (bit : Bit) (w : Word) (count : Nat) : Word :=
  { w with bits := w.bits ++ List.replicate count bit }

def zeroExtend (w : Word) (count : Nat) : Word :=
  extendWith (.literal false) w count

def signExtend (w : Word) (count : Nat) : Word :=
  extendWith (w.msb?.getD (.literal false)) w count

def resize (w : Word) (width : Nat) : Word :=
  if w.width ≤ width then w.zeroExtend (width - w.width)
  else w.dropHigh (w.width - width)

def resizeSigned (w : Word) (width : Nat) : Word :=
  if w.width ≤ width then w.signExtend (width - w.width)
  else w.dropHigh (w.width - width)

def setBit (w : Word) (index : Nat) (bit : Bit) : Word :=
  { w with bits := w.bits.set index bit }

def bit (w : Word) (index : Nat) : Except Fault Bit :=
  match w.bits[index]? with
  | some b => .ok b
  | none => .error (.bitIndex index w.width)

/-! ## Parts -/

/--
The number of pieces of `size` elements that `count` elements fill; none if
`size` is zero.
-/
def pieceCount (size count : Nat) : Nat :=
  (count + size - 1) / size

def takePieces (size : Nat) : Nat → List Bit → List (List Bit)
  | 0, _ => []
  | count + 1, bits => bits.take size :: takePieces size count (bits.drop size)

def pieces (size : Nat) (bits : List Bit) : List (List Bit) :=
  takePieces size (pieceCount size bits.length) bits

/--
Cuts a word into parts, the least significant first.  The first one keeps the
addend record.
-/
def partsOf (size : Nat) (w : Word) : List Word :=
  match pieces size w.bits with
  | [] => []
  | first :: rest => { w with bits := first } :: rest.map ofBits

def parts (size : Nat) (w : Word) : Except Fault (List Word) :=
  if size = 0 then .error .emptyPart else .ok (w.partsOf size)

/-! ## Widths -/

@[simp] theorem width_ofBits (bits : List Bit) :
    (ofBits bits).width = bits.length := rfl

@[simp] theorem width_constant (value : UInt64) (n : Nat) :
    (constant value n).width = n := by
  simp [constant]

@[simp] theorem width_ofTag (tag offset n : Nat) :
    (ofTag tag offset n).width = n := by
  simp [ofTag]

@[simp] theorem width_concat (low high : Word) :
    (low.concat high).width = low.width + high.width := by
  simp [concat, width]

@[simp] theorem width_dropLow (w : Word) (count : Nat) :
    (w.dropLow count).width = w.width - count := by
  simp [dropLow, width]

@[simp] theorem width_dropHigh (w : Word) (count : Nat) :
    (w.dropHigh count).width = w.width - count := by
  simp [dropHigh, width]

@[simp] theorem width_extendWith (bit : Bit) (w : Word) (count : Nat) :
    (extendWith bit w count).width = w.width + count := by
  simp [extendWith, width]

@[simp] theorem width_resize (w : Word) (n : Nat) : (w.resize n).width = n := by
  simp only [resize]
  split <;> simp [zeroExtend] <;> omega

@[simp] theorem width_resizeSigned (w : Word) (n : Nat) :
    (w.resizeSigned n).width = n := by
  simp only [resizeSigned]
  split <;> simp [signExtend] <;> omega

@[simp] theorem width_setBit (w : Word) (index : Nat) (b : Bit) :
    (w.setBit index b).width = w.width := by
  simp [setBit, width]

theorem flatten_takePieces (size count : Nat) (bits : List Bit) :
    (takePieces size count bits).flatten = bits.take (count * size) := by
  induction count generalizing bits with
  | zero => simp [takePieces]
  | succ count ih =>
      rw [takePieces, List.flatten_cons, ih, Nat.succ_mul, Nat.add_comm,
        List.take_add]

theorem le_pieceCount_mul {size : Nat} (positive : 0 < size) (count : Nat) :
    count ≤ pieceCount size count * size := by
  have hlast := Nat.lt_div_mul_add positive (a := count + size - 1)
  unfold pieceCount
  omega

theorem flatten_pieces {size : Nat} (positive : 0 < size) (bits : List Bit) :
    (pieces size bits).flatten = bits := by
  rw [pieces, flatten_takePieces]
  exact List.take_of_length_le (le_pieceCount_mul positive bits.length)

end Word

end SymbolicMachine
