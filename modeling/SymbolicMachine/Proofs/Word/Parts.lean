import Mathlib.Algebra.Order.Floor.Div
import SymbolicMachine.Proofs.Machine.Addends

/-!
# Cutting words into parts

Parts are cut off the low end of a word as long as more bits remain than a part
has; what remains then is the last part.  No bit is lost, and every bit stays at
its place, so the parts joined again have the bits of the word.

The first part keeps the addend record of the whole word.  The record was made
for the bits of a sum, and it speaks for the part only if the part has just
these.
-/

namespace SymbolicMachine

namespace Word

variable {size : Nat} {bits : List Bit}

/-! ## One piece after the other -/

/--
The pieces that come from cutting `size` bits off the low end as often as more
remain.  The rest is the last piece, unless it is empty.
-/
inductive Cut (size : Nat) : List Bit → List (List Bit) → Prop
  | nothing : Cut size [] []
  | last {bits : List Bit} : bits ≠ [] → bits.length ≤ size →
      Cut size bits [bits]
  | more {bits : List Bit} {rest : List (List Bit)} : size < bits.length →
      Cut size (bits.drop size) rest → Cut size bits (bits.take size :: rest)

theorem pieceCount_eq_ceilDiv (size count : Nat) :
    pieceCount size count = count ⌈/⌉ size := rfl

private theorem pieces_nil (size : Nat) : pieces size [] = [] := by
  have hcount : pieceCount size 0 = 0 := by
    rw [pieceCount_eq_ceilDiv, zero_ceilDiv]
  rw [pieces, List.length_nil, hcount, takePieces]

private theorem pieces_of_le (hbits : bits ≠ []) (hle : bits.length ≤ size) :
    pieces size bits = [bits] := by
  have hlength := List.length_pos_iff.mpr hbits
  have hcount : pieceCount size bits.length = 1 := by
    rw [pieceCount]
    exact Nat.div_eq_of_lt_le (by omega) (by omega)
  rw [pieces, hcount, takePieces, takePieces, List.take_of_length_le hle]

private theorem pieces_of_lt (positive : 0 < size) (hlt : size < bits.length) :
    pieces size bits = bits.take size :: pieces size (bits.drop size) := by
  have hfirst : (bits.take size).length = size := by
    rw [List.length_take, Nat.min_eq_left hlt.le]
  have happend := pieces_append positive hfirst (bits.drop size)
  rwa [List.take_append_drop] at happend

private theorem Cut.eq_pieces (positive : 0 < size) {list : List (List Bit)}
    (h : Cut size bits list) :
    list = pieces size bits := by
  induction h with
  | nothing => rw [pieces_nil]
  | last hbits hle => rw [pieces_of_le hbits hle]
  | more hlt _ ih => rw [pieces_of_lt positive hlt, ih]

private theorem cut_pieces (positive : 0 < size) (bits : List Bit) :
    Cut size bits (pieces size bits) := by
  induction hlength : bits.length using Nat.strong_induction_on
    generalizing bits with
  | _ length ih =>
      by_cases hbits : bits = []
      · rw [hbits, pieces_nil]
        exact .nothing
      by_cases hle : bits.length ≤ size
      · rw [pieces_of_le hbits hle]
        exact .last hbits hle
      · have hlt := Nat.lt_of_not_le hle
        have hshorter : (bits.drop size).length < length := by
          rw [List.length_drop]
          omega
        rw [pieces_of_lt positive hlt]
        exact .more hlt (ih _ hshorter _ rfl)

/-! ## The parts -/

variable {w part : Word} {j : Nat}

private theorem lt_length_partsOf_iff (positive : 0 < size) :
    j < (w.partsOf size).length ↔ size * j < w.width := by
  calc
    j < (w.partsOf size).length ↔ ¬ w.width ⌈/⌉ size ≤ j := by
      rw [length_partsOf, pieceCount_eq_ceilDiv, not_le]
    _ ↔ ¬ w.width ≤ size * j := not_congr (ceilDiv_le_iff_le_mul positive)
    _ ↔ size * j < w.width := not_le

private theorem getElem?_bits_part (h : (w.partsOf size)[j]? = some part)
    {i : Nat} (hi : i < part.width) :
    part.bits[i]? = w.bits[j * size + i]? := by
  have hsize : i < size := by
    rw [width_getElem?_partsOf h] at hi
    omega
  calc
    part.bits[i]? = ((w.bits.drop (size * j)).take size)[i]? := by
      rw [bits_getElem?_partsOf h]
    _ = w.bits[size * j + i]? := by
      rw [List.getElem?_take_of_lt hsize, List.getElem?_drop]
    _ = w.bits[j * size + i]? := by
      rw [Nat.mul_comm]

private theorem width_of_mem_dropLast (positive : 0 < size)
    (h : part ∈ (w.partsOf size).dropLast) :
    part.width = size := by
  obtain ⟨j, hj⟩ := List.mem_iff_getElem?.mp h
  rw [List.getElem?_dropLast] at hj
  split_ifs at hj with hfollowed
  have hnext : j + 1 < (w.partsOf size).length := by omega
  rw [lt_length_partsOf_iff positive, Nat.mul_succ] at hnext
  rw [width_getElem?_partsOf hj]
  omega

private theorem width_of_getLast? (positive : 0 < size)
    (h : (w.partsOf size).getLast? = some part) :
    0 < part.width ∧ part.width ≤ size := by
  rw [List.getLast?_eq_getElem?] at h
  have hlast := (List.getElem?_eq_some_iff.mp h).1
  rw [lt_length_partsOf_iff positive] at hlast
  rw [width_getElem?_partsOf h]
  omega

private theorem partsOf_eq_nil_iff (positive : 0 < size) :
    w.partsOf size = [] ↔ w.width = 0 := by
  calc
    w.partsOf size = [] ↔ w.width ⌈/⌉ size ≤ 0 := by
      rw [← List.length_eq_zero_iff, length_partsOf, pieceCount_eq_ceilDiv,
        Nat.le_zero]
    _ ↔ w.width ≤ size * 0 := ceilDiv_le_iff_le_mul positive
    _ ↔ w.width = 0 := by
      rw [Nat.mul_zero, Nat.le_zero]

private theorem join_partsOf (positive : 0 < size) (w : Word) :
    (join (w.partsOf size)).bits = w.bits := by
  rw [join, ofBits, List.flatMap_def, map_bits_partsOf, flatten_pieces positive]

private theorem addend_getElem?_partsOf (h : (w.partsOf size)[j]? = some part) :
    part.addend = if j = 0 then w.addend else none := by
  unfold partsOf at h
  split at h
  case h_1 => simp at h
  case h_2 first rest heq =>
      cases j with
      | zero =>
          cases h
          rfl
      | succ j =>
          rw [List.getElem?_cons_succ, List.getElem?_map] at h
          obtain ⟨piece, _, rfl⟩ := Option.map_eq_some_iff.mp h
          rfl

/--
A word is cut into parts of one bit or more, and the cutting ends.  There are as
many parts as the width needs, all full but the last, which has the rest; the
bits are those of the word, in their places, and the joined parts have them all.
The first part has the record of the word and the others have none.  Of a word
that one can get to, and that has 64 bits at most or is cut into parts of 64
bits at most, a part that still splits off a constant is the sum of what it is
split into.
-/
theorem parts_lose_nothing (positive : 0 < size) (w : Word) :
    ∃ parts, w.parts size = .ok parts ∧
      (∀ list, Cut size w.bits list ↔ list = parts.map Word.bits) ∧
      parts.length = w.width ⌈/⌉ size ∧
      (∀ part ∈ parts.dropLast, part.width = size) ∧
      (∀ last, parts.getLast? = some last →
        0 < last.width ∧ last.width ≤ size) ∧
      (parts = [] ↔ w.width = 0) ∧
      (∀ j part, parts[j]? = some part →
        (∀ i < part.width, part.bits[i]? = w.bits[j * size + i]?) ∧
        part.addend = if j = 0 then w.addend else none) ∧
      (join parts).bits = w.bits ∧
      ∀ arch session pool machines,
        Machine.Reached arch session pool machines → w ∈ pool →
        w.width ≤ 64 ∨ size ≤ 64 → ∀ part ∈ parts, ∀ base constant,
        part.splitAddend? = some (base, constant) →
          part.IsSum base constant.toNat := by
  refine ⟨w.partsOf size, if_neg positive.ne', fun list => ?_,
    w.length_partsOf size, fun part => width_of_mem_dropLast positive,
    fun last => width_of_getLast? positive, partsOf_eq_nil_iff positive,
    fun j part hpart => ⟨fun i => getElem?_bits_part hpart,
      addend_getElem?_partsOf hpart⟩,
    join_partsOf positive w, ?_⟩
  · rw [map_bits_partsOf]
    exact ⟨fun h => h.eq_pieces positive,
      fun h => h ▸ cut_pieces positive w.bits⟩
  · intro arch session pool machines hreached hw hnarrow part hpart base
      constant hsplit
    obtain ⟨arena, hpool, _⟩ := hreached.wellFormed
    have hword := (hpool.wellFormed w hw).partsOf positive hpart
    obtain ⟨_, hwidth, _, _, hsum⟩ := splitAddend?_sound hword hsplit
    obtain ⟨j, hj⟩ := List.mem_iff_getElem?.mp hpart
    have hpartWidth := width_getElem?_partsOf hj
    exact ⟨hwidth, hsum (by omega)⟩

/--
Four more bits stand above a sum of eight, so the record of the word is silent.
Cut into bytes, the first part has just the bits of the sum, and its record
speaks again.
-/
theorem parts_lose_nothing_sum_below_nibble :
    ∃ session pool w first last base,
      Machine.Reached Amd64.standard session pool [{}] ∧
      w ∈ pool ∧ w.splitAddend? = none ∧ w.parts 8 = .ok [first, last] ∧
      first.width = 8 ∧ last.width = 4 ∧ last.bits[3]? = w.bits[11]? ∧
      (join [first, last]).bits = w.bits ∧
      first.splitAddend? = some (base, 0x10) ∧ first.IsSum base 0x10 := by
  have hcheck : SymM.endsWith (build [] [.tagged 1 0 8, .constant 0x10 8,
      .pair .add 1 0, .tagged 2 0 4, .concat 1 0]) {} (fun pool _ =>
      pool.any fun w => w.width == 12 && w.splitAddend?.isNone &&
        (w.partsOf 8).head?.any fun first =>
          first.splitAddend?.any fun split => split.2 == 0x10) = true := by
    decide +kernel
  obtain ⟨session, pool, hreached, hany⟩ :=
    Machine.exists_reached Amd64.standard hcheck
  obtain ⟨w, hw, hfound⟩ := List.any_eq_true.mp hany
  simp only [Bool.and_eq_true, beq_iff_eq, Option.isNone_iff_eq_none,
    Option.any_eq_true] at hfound
  obtain ⟨⟨hwidth, hnone⟩, head, hhead, ⟨base, constant⟩, hsplit, rfl⟩ := hfound
  obtain ⟨parts, hparts, _, hcount, hfull, _, _, hplaces, hjoin, hsums⟩ :=
    parts_lose_nothing (show 0 < 8 by decide) w
  obtain rfl : w.partsOf 8 = parts := Except.ok.inj hparts
  rw [hwidth] at hcount
  obtain ⟨first, last, htwo⟩ := List.length_eq_two.mp hcount
  rw [htwo] at hparts hfull hplaces hjoin hsums hhead
  obtain rfl : first = head := Option.some.inj hhead
  have hfirst : first.width = 8 := hfull first List.mem_cons_self
  have hlength := congrArg List.length hjoin
  have hlast : last.width = 4 := by
    simp only [join, ofBits, List.flatMap_cons, List.flatMap_nil,
      List.length_append, List.length_nil] at hlength
    change first.width + (last.width + 0) = w.width at hlength
    omega
  exact ⟨session, pool, w, first, last, base, hreached, hw, hnone, hparts,
    hfirst, hlast, (hplaces 1 last rfl).1 3 (by omega), hjoin, hsplit,
    hsums Amd64.standard session pool [{}] hreached hw (.inr (by decide)) first
      List.mem_cons_self base 0x10 hsplit⟩

end Word

end SymbolicMachine
