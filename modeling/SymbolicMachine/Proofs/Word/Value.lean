import Mathlib.Data.Nat.Bitwise
import Mathlib.Tactic.Ring
import SymbolicMachine.Word.Shift

/-!
# Values of words

The value of a word under a valuation is the number that its bits stand for.
Cutting, extending and shifting a word act on the value as the arithmetic
operations of the same names do on numbers.
-/

namespace SymbolicMachine

namespace Word

/-! ## Numbers and their bits -/

@[simp] theorem natOfBits_nil : natOfBits [] = 0 := rfl

@[simp] theorem natOfBits_cons (b : Bool) (bs : List Bool) :
    natOfBits (b :: bs) = b.toNat + 2 * natOfBits bs := by
  calc
    natOfBits (b :: bs) = natOfBits bs * 2 + b.toNat := BitVec.toNat_concat _ b
    _ = b.toNat + 2 * natOfBits bs := by ring

theorem natOfBits_lt (bs : List Bool) : natOfBits bs < 2 ^ bs.length :=
  (BitVec.ofBoolListLE bs).isLt

theorem testBit_natOfBits (bs : List Bool) (i : Nat) :
    (natOfBits bs).testBit i = bs[i]?.getD false := by
  calc
    (natOfBits bs).testBit i = (BitVec.ofBoolListLE bs).getLsbD i :=
      BitVec.testBit_toNat _
    _ = bs.getD i false := BitVec.getLsbD_ofBoolListLE
    _ = bs[i]?.getD false := List.getD_eq_getElem?_getD

theorem natOfBits_append (xs ys : List Bool) :
    natOfBits (xs ++ ys) = natOfBits xs + 2 ^ xs.length * natOfBits ys := by
  apply Nat.eq_of_testBit_eq
  intro i
  rw [Nat.add_comm, Nat.testBit_two_pow_mul_add _ (natOfBits_lt xs),
    testBit_natOfBits, testBit_natOfBits, testBit_natOfBits,
    List.getElem?_append]
  split <;> rfl

@[simp] theorem natOfBits_replicate_false (count : Nat) :
    natOfBits (List.replicate count false) = 0 := by
  apply Nat.eq_of_testBit_eq
  intro i
  rw [testBit_natOfBits, List.getElem?_replicate]
  split <;> simp

theorem natOfBits_take (bs : List Bool) (count : Nat) :
    natOfBits (bs.take count) = natOfBits bs % 2 ^ count := by
  apply Nat.eq_of_testBit_eq
  intro i
  rw [Nat.testBit_mod_two_pow, testBit_natOfBits, testBit_natOfBits,
    List.getElem?_take]
  by_cases hi : i < count <;> simp [hi]

private theorem natOfBits_drop (bs : List Bool) (count : Nat) :
    natOfBits (bs.drop count) = natOfBits bs >>> count := by
  apply Nat.eq_of_testBit_eq
  intro i
  rw [Nat.testBit_shiftRight, testBit_natOfBits, testBit_natOfBits,
    List.getElem?_drop]

theorem natOfBits_map_testBit (x count : Nat) :
    natOfBits ((List.range count).map x.testBit) = x % 2 ^ count := by
  apply Nat.eq_of_testBit_eq
  intro i
  rw [Nat.testBit_mod_two_pow, testBit_natOfBits, List.getElem?_map]
  by_cases hi : i < count <;> simp [hi]

/-! ## The value of a word -/

variable (valuation : Valuation)

theorem value_lt (w : Word) : w.value valuation < 2 ^ w.width := by
  have hlt := natOfBits_lt (w.bits.map (Bit.eval valuation))
  rwa [List.length_map] at hlt

theorem testBit_value (w : Word) (i : Nat) :
    (w.value valuation).testBit i =
      (w.bits[i]?.map (Bit.eval valuation)).getD false := by
  rw [value, testBit_natOfBits, List.getElem?_map]

theorem testBit_value_of_le {w : Word} {i : Nat} (h : w.width ≤ i) :
    (w.value valuation).testBit i = false := by
  rw [testBit_value, List.getElem?_eq_none h]
  rfl

@[simp] theorem value_constant (value : UInt64) (n : Nat) :
    (constant value n).value valuation = value.toNat % 2 ^ n := by
  have hbits : (constant value n).bits.map (Bit.eval valuation) =
      (List.range n).map value.toNat.testBit := by
    simp only [constant, ofBits, List.map_map]
    rfl
  rw [Word.value, hbits, natOfBits_map_testBit]

theorem testBit_value_ofTag {tag offset n i : Nat} (h : i < n) :
    ((ofTag tag offset n).value valuation).testBit i =
      valuation (.ofTag tag (offset + i)) := by
  rw [testBit_value]
  simp [ofTag, ofBits, h]

/-! ## Cutting and extending -/

private theorem value_zeroExtend (w : Word) (count : Nat) :
    (w.zeroExtend count).value valuation = w.value valuation := by
  have hzeros : (List.replicate count (Bit.literal false)).map
      (Bit.eval valuation) = List.replicate count false := by
    simp
  simp only [zeroExtend, extendWith, value, List.map_append, hzeros,
    natOfBits_append, natOfBits_replicate_false, Nat.mul_zero, Nat.add_zero]

private theorem value_dropHigh (w : Word) (count : Nat) :
    (w.dropHigh count).value valuation =
      w.value valuation % 2 ^ (w.width - count) := by
  simp only [dropHigh, value, List.map_take, natOfBits_take]

@[simp] theorem value_resize (w : Word) (n : Nat) :
    (w.resize n).value valuation = w.value valuation % 2 ^ n := by
  simp only [resize]
  split
  case isTrue hle =>
      have hlt : w.value valuation < 2 ^ n :=
        lt_of_lt_of_le (w.value_lt valuation)
          (Nat.pow_le_pow_right (by decide) hle)
      rw [value_zeroExtend, Nat.mod_eq_of_lt hlt]
  case isFalse hgt =>
      rw [value_dropHigh, Nat.sub_sub_self (by omega)]

private theorem bits_signExtend (w : Word) (count i : Nat) :
    ((w.signExtend count).value valuation).testBit i =
      if i < w.width then (w.value valuation).testBit i
      else decide (i < w.width + count) &&
        (w.value valuation).testBit (w.width - 1) := by
  simp only [testBit_value, signExtend, extendWith]
  by_cases hi : i < w.width
  · rw [List.getElem?_append_left hi, if_pos hi]
  · rw [List.getElem?_append_right (Nat.le_of_not_lt hi), if_neg hi,
      List.getElem?_replicate]
    have hmsb : w.msb? = w.bits[w.width - 1]? := List.getLast?_eq_getElem?
    rw [hmsb]
    by_cases hcount : i < w.width + count
    · rw [if_pos (by change i - w.width < count; omega), decide_eq_true hcount,
        Bool.true_and]
      cases w.bits[w.width - 1]? <;> rfl
    · rw [if_neg (by change ¬ i - w.width < count; omega),
        decide_eq_false hcount, Bool.false_and]
      rfl

private theorem value_signExtend (w : Word) (count : Nat) :
    (w.signExtend count).value valuation =
      ((BitVec.ofNat w.width (w.value valuation)).signExtend (w.width +
        count)).toNat := by
  apply Nat.eq_of_testBit_eq
  intro i
  rw [bits_signExtend, BitVec.testBit_toNat, BitVec.getLsbD_signExtend,
    BitVec.msb_eq_getLsbD_last, BitVec.getLsbD_ofNat, BitVec.getLsbD_ofNat]
  by_cases hi : i < w.width
  · simp [hi, Nat.lt_add_right count hi]
  · by_cases hwidth : w.width = 0
    · have hzero : ∀ j, (w.value valuation).testBit j = false := fun j =>
        testBit_value_of_le valuation (by omega)
      simp [hi, hzero]
    · have hlast : w.width - 1 < w.width := by omega
      simp [hi, hlast]

theorem value_resizeSigned (w : Word) (n : Nat) :
    (w.resizeSigned n).value valuation =
      ((BitVec.ofNat w.width (w.value valuation)).signExtend n).toNat := by
  simp only [resizeSigned]
  split
  case isTrue hle =>
      rw [value_signExtend, Nat.add_sub_cancel' hle]
  case isFalse hgt =>
      rw [value_dropHigh, Nat.sub_sub_self (by omega),
        BitVec.signExtend_eq_setWidth_of_le _ (by omega), BitVec.toNat_setWidth,
        BitVec.toNat_ofNat, Nat.mod_eq_of_lt (w.value_lt valuation)]

/-! ## Shifts by a number -/

theorem natOfBits_shiftLeftBits (bits : List Bit) (amount : Nat) :
    natOfBits ((shiftLeftBits bits amount).map (Bit.eval valuation)) =
      (natOfBits (bits.map (Bit.eval valuation)) <<< amount) %
        2 ^ bits.length := by
  apply Nat.eq_of_testBit_eq
  intro i
  rw [Nat.testBit_mod_two_pow, Nat.testBit_shiftLeft, testBit_natOfBits,
    testBit_natOfBits, shiftLeftBits, List.map_append, List.map_replicate,
    List.map_take, List.getElem?_append, List.length_replicate,
    List.getElem?_replicate, List.getElem?_take]
  by_cases hlow : i < min amount bits.length
  · have hamount : ¬ i ≥ amount := by omega
    simp [hlow, hamount]
  · by_cases hi : i < bits.length
    · have hmin : min amount bits.length = amount := by omega
      have hlt : ¬ i < amount := by omega
      have hge : amount ≤ i := Nat.le_of_not_lt hlt
      have hsub : i - amount < bits.length - amount := by omega
      simp [hi, hmin, hlt, hge, hsub]
    · have hsub : ¬ i - min amount bits.length < bits.length - amount := by
        omega
      simp [hlow, hi, hsub]

theorem natOfBits_shiftRightBits (bits : List Bit) (amount : Nat) :
    natOfBits ((shiftRightBits bits amount).map (Bit.eval valuation)) =
      natOfBits (bits.map (Bit.eval valuation)) >>> amount := by
  rw [shiftRightBits, List.map_append, List.map_replicate, List.map_drop]
  simp only [Bit.eval_literal, natOfBits_append, natOfBits_replicate_false,
    Nat.mul_zero, Nat.add_zero, natOfBits_drop]

@[simp] theorem value_shiftLeft (w : Word) (amount : Nat) :
    (w.shiftLeft amount).value valuation =
      (w.value valuation <<< amount) % 2 ^ w.width :=
  natOfBits_shiftLeftBits valuation w.bits amount

@[simp] theorem value_shiftRight (w : Word) (amount : Nat) :
    (w.shiftRight amount).value valuation = w.value valuation >>> amount :=
  natOfBits_shiftRightBits valuation w.bits amount

/-! ## Parts -/

private theorem getElem?_takePieces (size : Nat) {count i : Nat}
    {bits piece : List Bit}
    (h : (takePieces size count bits)[i]? = some piece) :
    piece = (bits.drop (size * i)).take size := by
  induction count generalizing bits i with
  | zero => simp [takePieces] at h
  | succ count ih =>
      cases i with
      | zero => simpa [takePieces] using h.symm
      | succ i =>
          rw [takePieces, List.getElem?_cons_succ] at h
          rw [ih h, List.drop_drop, Nat.mul_succ, Nat.add_comm]

@[simp] theorem length_takePieces (size count : Nat) (bits : List Bit) :
    (takePieces size count bits).length = count := by
  induction count generalizing bits with
  | zero => rfl
  | succ count ih => simp [takePieces, ih]

theorem pieces_append {size : Nat} {first : List Bit} (hsize : 0 < size)
    (hfirst : first.length = size) (bits : List Bit) :
    pieces size (first ++ bits) = first :: pieces size bits := by
  have hcount : pieceCount size (first ++ bits).length =
      pieceCount size bits.length + 1 := by
    have hsum : size + bits.length + size - 1 =
        bits.length + size - 1 + size := by omega
    rw [List.length_append, hfirst, pieceCount, pieceCount, hsum,
      Nat.add_div_right _ hsize]
  rw [pieces, hcount, takePieces, List.take_left' hfirst,
    List.drop_left' hfirst, pieces]

theorem map_bits_partsOf (size : Nat) (w : Word) :
    (w.partsOf size).map Word.bits = pieces size w.bits := by
  unfold partsOf
  split
  case h_1 heq => simp [heq]
  case h_2 first rest heq =>
      have hrest : (rest.map ofBits).map Word.bits = rest := by
        rw [List.map_map]
        exact List.map_id rest
      rw [heq, List.map_cons, hrest]

@[simp] theorem length_partsOf (size : Nat) (w : Word) :
    (w.partsOf size).length = pieceCount size w.width := by
  rw [← List.length_map Word.bits, map_bits_partsOf, pieces, length_takePieces]
  rfl

theorem bits_getElem?_partsOf {size i : Nat} {w part : Word}
    (h : (w.partsOf size)[i]? = some part) :
    part.bits = (w.bits.drop (size * i)).take size := by
  have hpiece : (pieces size w.bits)[i]? = some part.bits := by
    rw [← map_bits_partsOf, List.getElem?_map, h]
    rfl
  exact getElem?_takePieces size hpiece

theorem width_getElem?_partsOf {size i : Nat} {w part : Word}
    (h : (w.partsOf size)[i]? = some part) :
    part.width = min size (w.width - size * i) := by
  rw [width, bits_getElem?_partsOf h, List.length_take, List.length_drop]
  rfl

theorem value_getElem?_partsOf {size i : Nat} {w part : Word}
    (h : (w.partsOf size)[i]? = some part) :
    part.value valuation = (w.value valuation >>> (size * i)) % 2 ^ size := by
  rw [value, bits_getElem?_partsOf h, List.map_take, List.map_drop,
    natOfBits_take, natOfBits_drop]
  rfl

end Word

end SymbolicMachine
