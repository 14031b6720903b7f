import SymbolicMachine.Proofs.Bit.Folding
import SymbolicMachine.Proofs.Word.Value
import SymbolicMachine.Word.Arith

/-!
# Words as expressions

A word is looked at bit by bit: what cuts, shifts and bitwise operations put at
a position. Two words may have the same expressions and share nothing.  They
have the same value under every valuation then, are concrete together, and stay
equal as expressions when they are cut or extended.
-/

namespace SymbolicMachine

/-! ## Single bits -/

namespace Word

def bitAt (w : Word) (i : Nat) : Bit :=
  w.bits.getD i (.literal false)

theorem getElem?_bits_resize (w : Word) {n i : Nat} (hi : i < n) :
    (w.resize n).bits[i]? = some (w.bitAt i) := by
  rw [bitAt, List.getD_eq_getElem?_getD, resize]
  split
  case isTrue hle =>
      by_cases hlow : i < w.width
      · have hbit : w.bits[i]? = some w.bits[i] := List.getElem?_eq_getElem hlow
        simp only [zeroExtend, extendWith]
        rw [List.getElem?_append_left hlow, hbit]
        rfl
      · have hnone : w.bits[i]? = none := List.getElem?_eq_none (not_lt.mp hlow)
        have hpad : i - w.width < n - w.width := by omega
        simp only [zeroExtend, extendWith]
        rw [List.getElem?_append_right (not_lt.mp hlow),
          List.getElem?_replicate, hnone]
        exact if_pos hpad
  case isFalse hgt =>
      have hcut : w.width - (w.width - n) = n := by omega
      have hlow : i < w.bits.length := lt_trans hi (not_le.mp hgt)
      simp only [dropHigh, hcut]
      rw [List.getElem?_take_of_lt hi, List.getElem?_eq_getElem hlow]
      rfl

theorem resize_of_width {w : Word} {n : Nat} (h : w.width = n) :
    w.resize n = w := by
  subst h
  cases w
  simp [resize, zeroExtend, extendWith]

theorem bitAt_shiftRight (w : Word) (amount i : Nat) :
    (w.shiftRight amount).bitAt i = w.bitAt (amount + i) := by
  simp only [bitAt, shiftRight, shiftRightBits, List.getD_eq_getElem?_getD]
  rw [List.getElem?_append, List.length_drop, List.getElem?_drop]
  split
  case isTrue => rfl
  case isFalse hpad =>
      rw [List.getElem?_eq_none (by omega : w.bits.length ≤ amount + i),
        List.getElem?_replicate]
      split <;> rfl

theorem bitAt_resize (w : Word) {n i : Nat} (hi : i < n) :
    (w.resize n).bitAt i = w.bitAt i := by
  rw [bitAt, List.getD_eq_getElem?_getD, getElem?_bits_resize w hi]
  rfl

theorem bitAt_of_getElem? {w : Word} {i : Nat} {b : Bit}
    (h : w.bits[i]? = some b) :
    w.bitAt i = b := by
  rw [bitAt, List.getD_eq_getElem?_getD, h]
  rfl

theorem getElem?_bits {w : Word} {i : Nat} (hi : i < w.width) :
    w.bits[i]? = some (w.bitAt i) := by
  have hbit : w.bits[i]? = some w.bits[i] := List.getElem?_eq_getElem hi
  rw [bitAt_of_getElem? hbit, hbit]

theorem bitAt_of_le {w : Word} {i : Nat} (hi : w.width ≤ i) :
    w.bitAt i = .literal false :=
  List.getD_eq_default _ _ hi

theorem bits_eq_of_bitAt {a b : Word} (hwidth : a.width = b.width)
    (h : ∀ i < a.width, a.bitAt i = b.bitAt i) : a.bits = b.bits := by
  apply List.ext_getElem?
  intro i
  by_cases hi : i < a.width
  · rw [getElem?_bits hi, getElem?_bits (hwidth ▸ hi), h i hi]
  · have hle : a.width ≤ i := not_lt.mp hi
    rw [List.getElem?_eq_none hle,
      List.getElem?_eq_none (hwidth ▸ hle : b.width ≤ i)]

theorem bitAt_shiftLeft (w : Word) {amount i : Nat} (hi : i < w.width) :
    (w.shiftLeft amount).bitAt i =
      if amount ≤ i then w.bitAt (i - amount) else .literal false := by
  have hlength : i < w.bits.length := hi
  simp only [bitAt, shiftLeft, shiftLeftBits, List.getD_eq_getElem?_getD]
  rw [List.getElem?_append, List.length_replicate]
  by_cases hlow : amount ≤ i
  · have hmin : min amount w.bits.length = amount := by omega
    rw [hmin, if_neg (by omega), if_pos hlow,
      List.getElem?_take_of_lt (by omega)]
  · rw [if_pos (by omega), if_neg hlow, List.getElem?_replicate,
      if_pos (by omega)]
    rfl

/-! ## Bits that an operation makes -/

private theorem getElem?_zipBits {op : Bit → Bit → NodeM Bit} {xs ys : List Bit}
    {k : Nat} {x y : Bit} (hx : xs[k]? = some x) (hy : ys[k]? = some y)
    (next : Nat) :
    ∃ now, (zipBits op xs ys next).1[k]? = some (op x y now).1 := by
  induction xs generalizing ys k next with
  | nil => simp at hx
  | cons head xs ih =>
      cases ys with
      | nil => simp at hy
      | cons head' ys =>
          have hbits : (zipBits op (head :: xs) (head' :: ys) next).1 =
              (op head head' next).1 ::
                (zipBits op xs ys (op head head' next).2).1 := rfl
          rw [hbits]
          cases k with
          | zero =>
              simp only [List.getElem?_cons_zero, Option.some.injEq] at hx hy ⊢
              exact ⟨next, by rw [hx, hy]⟩
          | succ k =>
              simp only [List.getElem?_cons_succ] at hx hy ⊢
              exact ih hx hy _

theorem bitwise_eq_ok {op : Bit → Bit → NodeM Bit} {a b w : Word}
    {session after : Session} (hrun : bitwise op a b session = .ok w after) :
    a.width = b.width ∧
      w.bits = (zipBits op a.bits b.bits session.nextNode).1 := by
  by_cases hwidth : a.width = b.width
  · simp only [bitwise, requireSameWidth, hwidth, if_true, pure_bind] at hrun
    cases hrun
    exact ⟨hwidth, rfl⟩
  · simp only [bitwise, requireSameWidth, hwidth, if_false] at hrun
    cases hrun

theorem bitAt_bitwise {op : Bit → Bit → NodeM Bit} {a b w : Word}
    {session after : Session} (hrun : bitwise op a b session = .ok w after)
    {k : Nat} (hk : k < a.width) :
    ∃ now, w.bitAt k = (op (a.bitAt k) (b.bitAt k) now).1 := by
  obtain ⟨hwidth, hbits⟩ := bitwise_eq_ok hrun
  obtain ⟨now, hbit⟩ :=
    getElem?_zipBits (getElem?_bits hk) (getElem?_bits (hwidth ▸ hk))
      session.nextNode
  rw [← hbits] at hbit
  exact ⟨now, bitAt_of_getElem? hbit⟩

private theorem getElem?_mapM_not {bits : List Bit} {k : Nat} {b : Bit}
    (hb : bits[k]? = some b) (next : Nat) :
    ∃ now, (bits.mapM Bit.not next).1[k]? = some (b.not now).1 := by
  induction bits generalizing k next with
  | nil => simp at hb
  | cons head bits ih =>
      have hbits : ((head :: bits).mapM Bit.not next).1 =
          (head.not next).1 :: (bits.mapM Bit.not (head.not next).2).1 := by
        rw [List.mapM_cons]
        rfl
      rw [hbits]
      cases k with
      | zero =>
          simp only [List.getElem?_cons_zero, Option.some.injEq] at hb ⊢
          exact ⟨next, by rw [hb]⟩
      | succ k =>
          simp only [List.getElem?_cons_succ] at hb ⊢
          exact ih hb _

theorem bitAt_not {w : Word} {k : Nat} (hk : k < w.width) (next : Nat) :
    ∃ now, (w.not next).1.bitAt k = ((w.bitAt k).not now).1 := by
  obtain ⟨now, hbit⟩ := getElem?_mapM_not (getElem?_bits hk) next
  exact ⟨now, bitAt_of_getElem? hbit⟩

theorem bitAt_constant (value : UInt64) {width k : Nat} (hk : k < width) :
    (constant value width).bitAt k = .literal (value.toNat.testBit k) := by
  apply bitAt_of_getElem?
  simp [constant, ofBits, hk]

end Word

/-! ## Same expressions -/

theorem Bit.literal?_eq_of_formula_eq {x y : Bit} (h : x.formula = y.formula) :
    x.literal? = y.literal? := by
  cases x <;> cases y <;> simp_all [formula, literal?]

namespace Word

/--
The bits are equal as expressions.  Which nodes they share does not count.
-/
def SameExpressions (a b : Word) : Prop :=
  a.bits.map Bit.formula = b.bits.map Bit.formula

instance (a b : Word) : Decidable (a.SameExpressions b) :=
  inferInstanceAs (Decidable (_ = _))

private theorem concretizeFrom_cons (maxBits index : Nat) (b : Bit)
    (bits : List Bit) :
    concretizeFrom maxBits index (b :: bits) =
      match b.literal? with
      | some false => (concretizeFrom maxBits (index + 1) bits).map (2 * ·)
      | some true =>
          if index < maxBits then
            (concretizeFrom maxBits (index + 1) bits).map fun rest =>
              1 + 2 * rest
          else .error (.overflow maxBits)
      | none => .error (.nonLiteralBit index) := by
  cases b with
  | literal value => cases value <;> rfl
  | _ => rfl

private theorem concretizeFrom_congr (maxBits index : Nat) {xs ys : List Bit}
    (h : xs.map Bit.formula = ys.map Bit.formula) :
    concretizeFrom maxBits index xs = concretizeFrom maxBits index ys := by
  induction xs generalizing ys index with
  | nil =>
      have hnil : ys = [] := by simpa using h.symm
      rw [hnil]
  | cons x xs ih =>
      cases ys with
      | nil => simp at h
      | cons y ys =>
          simp only [List.map_cons, List.cons.injEq] at h
          rw [concretizeFrom_cons, concretizeFrom_cons,
            Bit.literal?_eq_of_formula_eq h.1, ih (index + 1) h.2]

private theorem map_formula_bits (w : Word) :
    w.bits.map Bit.formula = (List.range w.width).map fun i =>
      (w.bitAt i).formula := by
  apply List.ext_getElem?
  intro i
  by_cases hi : i < w.width
  · rw [List.getElem?_map, getElem?_bits hi, List.getElem?_map,
      List.getElem?_range hi, Option.map_some, Option.map_some]
  · have hle : w.bits.length ≤ i := not_lt.mp hi
    rw [List.getElem?_eq_none (by rwa [List.length_map]),
      List.getElem?_eq_none (by rwa [List.length_map, List.length_range])]

theorem sameExpressions_iff_bitAt {a b : Word} (hwidth : a.width = b.width) :
    a.SameExpressions b ↔ ∀ i < a.width,
      (a.bitAt i).formula = (b.bitAt i).formula := by
  rw [SameExpressions, map_formula_bits, map_formula_bits, hwidth,
    List.map_inj_left]
  simp only [List.mem_range]

namespace SameExpressions

variable {a b : Word}

theorem refl (w : Word) : w.SameExpressions w := rfl

theorem width_eq (h : a.SameExpressions b) : a.width = b.width := by
  have hlength : (a.bits.map Bit.formula).length =
      (b.bits.map Bit.formula).length :=
    congrArg List.length h
  rwa [List.length_map, List.length_map] at hlength

theorem value_eq (h : a.SameExpressions b) (valuation : Valuation) :
    a.value valuation = b.value valuation := by
  have hvalue : ∀ w : Word, w.value valuation =
      natOfBits ((w.bits.map Bit.formula).map (Formula.eval valuation)) := by
    intro w
    rw [List.map_map]
    rfl
  rw [hvalue a, hvalue b, h]

theorem toUInt64?_eq (h : a.SameExpressions b) : a.toUInt64? = b.toUInt64? := by
  simp only [toUInt64?, concretize, concretizeFrom_congr 64 0 h]

theorem resize (h : a.SameExpressions b) (n : Nat) :
    (a.resize n).SameExpressions (b.resize n) := by
  have hwidth := h.width_eq
  unfold SameExpressions at h
  simp only [SameExpressions, Word.resize, hwidth]
  split
  · simp only [zeroExtend, extendWith, List.map_append, h]
  · simp only [dropHigh, hwidth, List.map_take, h]

end SameExpressions

end Word

end SymbolicMachine
