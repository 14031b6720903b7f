import SymbolicMachine.Architecture.Amd64
import SymbolicMachine.Proofs.Bit.Identity
import SymbolicMachine.Proofs.Machine.Execution
import SymbolicMachine.Proofs.Word.Literals

/-!
# Shifts by symbolic amounts

A shift by a word is a shift by what the word stands for, at any width of the
amount and for bits of any shape.  An amount made of literals leaves nothing to
choose: every selection folds, and the bits are those of the shift by the
number.
-/

namespace SymbolicMachine

namespace Bit

/-! ## Selection by a literal -/

theorem false_and (b : Bit) : (literal false).and b = pure (literal false) := by
  cases b with
  | literal value => cases value <;> rfl
  | _ => rfl

private theorem formula_select_literal (choice : Bool) {x y : Bit}
    (hx : x.Normal) (hy : y.Normal) (next : Nat) :
    ((literal choice).select x y next).1.formula =
      (if choice then x else y).formula := by
  cases choice with
  | false =>
      have hfold : (literal false).select x y = (literal false).or y := by
        change ((literal false).and x >>= fun whenTrue =>
          (literal true).and y >>= fun whenFalse => whenTrue.or whenFalse) = _
        rw [false_and, true_and, pure_bind, pure_bind]
      rw [hfold, formula_false_or hy]
      rfl
  | true =>
      have hfold : (literal true).select x y = x.or (literal false) := by
        change ((literal true).and x >>= fun whenTrue =>
          (literal false).and y >>= fun whenFalse => whenTrue.or whenFalse) = _
        rw [false_and, true_and, pure_bind, pure_bind]
      rw [hfold, formula_or_false hx]
      rfl

theorem Plain.of_formula_eq {x y : Bit} (hx : x.Plain)
    (h : x.formula = y.formula) : y.Plain := by
  cases x with
  | literal value => exact hx.elim
  | neg node x => exact hx.elim
  | var v =>
      cases y with
      | var w => trivial
      | _ => cases h
  | conj nodeU u nodeV v =>
      cases y with
      | conj nodeX x nodeY y => trivial
      | _ => cases h

theorem Normal.of_formula_eq {x y : Bit} (hx : x.Normal)
    (h : x.formula = y.formula) :
    y.Normal := by
  have hopen : ∀ {u v : Bit},
      u.formula = v.formula → u.isLiteral = v.isLiteral :=
    fun huv => congrArg Option.isSome (literal?_eq_of_formula_eq huv)
  induction x generalizing y with
  | literal value =>
      cases y with
      | literal value' => trivial
      | _ => cases h
  | var v =>
      cases y with
      | var w => trivial
      | _ => cases h
  | neg node x ih =>
      cases y with
      | neg node' y =>
          have hxy : x.formula = y.formula := by simpa [formula] using h
          exact ⟨hx.1.of_formula_eq hxy, ih hx.2 hxy⟩
      | _ => cases h
  | conj nodeU u nodeV v ihu ihv =>
      cases y with
      | conj nodeX x nodeY y =>
          obtain ⟨hux, hvy⟩ : u.formula = x.formula ∧
            v.formula = y.formula := by
            simpa [formula] using h
          refine ⟨⟨?_, ihu hx.1.2 hux⟩, ?_, ihv hx.2.2 hvy⟩
          · rw [← hopen hux, hx.1.1]
          · rw [← hopen hvy, hx.2.1]
      | _ => cases h

private theorem forall_normal_of_map_formula_eq {xs ys : List Bit}
    (hxs : ∀ x ∈ xs, x.Normal) (h : ys.map formula = xs.map formula) :
    ∀ y ∈ ys, y.Normal := by
  intro y hy
  have hmem : y.formula ∈ xs.map formula := h ▸ List.mem_map_of_mem hy
  obtain ⟨x, hx, hxy⟩ := List.mem_map.mp hmem
  exact (hxs x hx).of_formula_eq hxy

end Bit

namespace Word

private theorem map_formula_zipBits_select (choice : Bool) {xs ys : List Bit}
    (hlength : xs.length = ys.length) (hxs : ∀ x ∈ xs, x.Normal)
    (hys : ∀ y ∈ ys, y.Normal) (next : Nat) :
    (zipBits (Bit.literal choice).select xs ys next).1.map Bit.formula =
      (if choice then xs else ys).map Bit.formula := by
  induction xs generalizing ys next with
  | nil =>
      obtain rfl : ys = [] := List.length_eq_zero_iff.mp hlength.symm
      cases choice <;> rfl
  | cons x xs ih =>
      cases ys with
      | nil => simp at hlength
      | cons y ys =>
          simp only [List.forall_mem_cons] at hxs hys
          have hhead := Bit.formula_select_literal choice hxs.1 hys.1 next
          have htail := ih (by simpa using hlength) hxs.2 hys.2
            ((Bit.literal choice).select x y next).2
          change ((Bit.literal choice).select x y next).1.formula ::
            (zipBits _ xs ys ((Bit.literal choice).select x y next).2).1.map
              Bit.formula = _
          rw [hhead, htail]
          cases choice <;> rfl

/-! ## Moving bits -/

structure ShiftMoves (shift : List Bit → Nat → List Bit) : Prop where
  zero : ∀ bits, shift bits 0 = bits
  add : ∀ bits first second,
  shift (shift bits first) second = shift bits (first + second)
  formula : ∀ {bits other} amount,
  bits.map Bit.formula = other.map Bit.formula →
    (shift bits amount).map Bit.formula = (shift other amount).map Bit.formula

private theorem shiftLeft_moves : ShiftMoves shiftLeftBits where
  zero := by
    intro bits
    simp [shiftLeftBits]
  add := by
    intro bits first second
    apply bits_eq_of_bitAt
      (a := ((ofBits bits).shiftLeft first).shiftLeft second)
      (b := (ofBits bits).shiftLeft (first + second)) (by simp)
    intro i hi
    simp only [width_shiftLeft] at hi
    rw [bitAt_shiftLeft _ (by simpa using hi), bitAt_shiftLeft _ hi]
    split
    case isTrue hle =>
        rw [bitAt_shiftLeft _ (by omega)]
        split
        case isTrue hle' =>
            rw [if_pos (by omega), Nat.sub_sub, Nat.add_comm second]
        case isFalse hgt => rw [if_neg (by omega)]
    case isFalse hgt => rw [if_neg (by omega)]
  formula := by
    intro bits other amount h
    have hlength : bits.length = other.length := by
      simpa using congrArg List.length h
    simp only [shiftLeftBits, List.map_append, List.map_take, hlength, h]

private theorem shiftRight_moves : ShiftMoves shiftRightBits where
  zero := by
    intro bits
    simp [shiftRightBits]
  add := by
    intro bits first second
    apply bits_eq_of_bitAt
      (a := ((ofBits bits).shiftRight first).shiftRight second)
      (b := (ofBits bits).shiftRight (first + second)) (by simp)
    intro i _
    rw [bitAt_shiftRight, bitAt_shiftRight, bitAt_shiftRight, Nat.add_assoc]
  formula := by
    intro bits other amount h
    have hlength : bits.length = other.length := by
      simpa using congrArg List.length h
    simp only [shiftRightBits, List.map_append, List.map_drop, hlength, h]

/-! ## Amounts made of literals -/

theorem ShiftLaw.normal {shift : List Bit → Nat → List Bit}
    {act : Nat → Nat → Nat → Nat} (law : ShiftLaw shift act) {bits : List Bit}
    (hbits : ∀ b ∈ bits, b.Normal) (amount : Nat) :
    ∀ b ∈ shift bits amount, b.Normal := by
  intro b hb
  rcases law.mem bits amount b hb with hmem | rfl
  · exact hbits b hmem
  · trivial

private theorem map_formula_shiftStages {shift : List Bit → Nat → List Bit}
    {act : Nat → Nat → Nat → Nat} (law : ShiftLaw shift act)
    (moves : ShiftMoves shift) {selectors bits : List Bit}
    (hselectors : ∀ s ∈ selectors, s.isLiteral = true)
    (hbits : ∀ b ∈ bits, b.Normal) (valuation : Valuation) (amount next : Nat) :
    (shiftStages shift amount selectors bits next).1.map Bit.formula =
      (shift bits (amount * natOfBits (selectors.map (Bit.eval valuation)))).map
        Bit.formula := by
  induction selectors generalizing amount bits next with
  | nil =>
      rw [List.map_nil, natOfBits_nil, Nat.mul_zero, moves.zero]
      rfl
  | cons selector selectors ih =>
      simp only [List.forall_mem_cons] at hselectors
      obtain ⟨value, rfl⟩ := Bit.exists_literal hselectors.1
      have hchosen :=
        map_formula_zipBits_select (!value) (law.length_eq bits amount).symm
          hbits (law.normal hbits amount) next
      have hstage : (if (!value) = true then bits else shift bits amount) =
          shift bits (amount * value.toNat) := by
        cases value with
        | false => simp [moves.zero]
        | true => simp
      rw [hstage] at hchosen
      have hnormal :=
        Bit.forall_normal_of_map_formula_eq (law.normal hbits _) hchosen
      change (shiftStages shift (2 * amount) selectors
        (zipBits (Bit.literal !value).select bits (shift bits amount) next).1
        (zipBits (Bit.literal !value).select bits (shift bits amount)
          next).2).1.map Bit.formula = _
      rw [ih hselectors.2 hnormal, moves.formula _ hchosen, moves.add,
        List.map_cons, natOfBits_cons]
      congr 2
      rw [Bit.eval_literal]
      ring

/-! ## Amounts of any kind -/

private theorem natOfBits_shiftStages {shift : List Bit → Nat → List Bit}
    {act : Nat → Nat → Nat → Nat} (law : ShiftLaw shift act) {next : Nat}
    {selectors bits : List Bit} (hheap : Bit.Heap next (bits ++ selectors)) :
    (shiftStages shift 1 selectors bits next).1.length = bits.length ∧
      ∀ valuation,
        natOfBits ((shiftStages shift 1 selectors bits next).1.map
          (Bit.eval valuation)) =
          act bits.length (natOfBits (bits.map (Bit.eval valuation)))
            (natOfBits (selectors.map (Bit.eval valuation))) := by
  have hfits := hheap.fits
  have hnext : (Bit.heapArena next (bits ++ selectors)).length = next := by
    simp [Bit.heapArena]
  have hstages : NodeM.Yields (shiftStages shift 1 selectors bits) _ _ :=
    shiftStages_yields Bit.kept_fits law
      (fun b hb => hfits b (List.mem_append_right bits hb))
      (fun b hb => hfits b (List.mem_append_left selectors hb))
  obtain ⟨_, _, _, _, hlength, hvalue⟩ := hstages
  rw [hnext] at hlength hvalue
  simp only [Nat.one_mul] at hvalue
  exact ⟨hlength, hvalue⟩

def Reachable (w : Word) : Prop :=
  ∃ arch session pool machines,
  Machine.Reached arch session pool machines ∧ w ∈ pool

theorem Reachable.normal {w : Word} (h : w.Reachable) :
    ∀ b ∈ w.bits, b.Normal := by
  obtain ⟨arch, session, pool, machines, hreached, hmem⟩ := h
  obtain ⟨arena, hpool, _⟩ := hreached.wellFormed
  exact fun b hb => ((hpool.wellFormed w hmem).bits b hb).normal

end Word

/--
A shift by a word shifts by the value of the word.  The bits of both words may
have any shape, as long as they lie in one heap, and the amount may have any
number of bits.  If the amount is made of literals and the shifted word can be
reached by operations, then the shift is bit by bit the one by the number.
-/
theorem shift_by_word_is_shift_by_value (next : Nat) (a b : Word) :
    (Bit.Heap next (a.bits ++ b.bits) →
      (a.shiftLeftBy b next).1.width = a.width ∧
      (a.shiftRightBy b next).1.width = a.width ∧
      ∀ valuation,
        (a.shiftLeftBy b next).1.value valuation =
          a.value valuation * 2 ^ b.value valuation % 2 ^ a.width ∧
        (a.shiftRightBy b next).1.value valuation =
          a.value valuation / 2 ^ b.value valuation) ∧
    (a.Reachable → b.allLiteral = true → ∀ valuation,
      (a.shiftLeftBy b next).1.SameExpressions
        (a.shiftLeft (b.value valuation)) ∧
      (a.shiftRightBy b next).1.SameExpressions
        (a.shiftRight (b.value valuation))) := by
  constructor
  · intro hheap
    obtain ⟨hleftWidth, hleft⟩ :=
      Word.natOfBits_shiftStages Word.shiftLeft_law hheap
    obtain ⟨hrightWidth, hright⟩ :=
      Word.natOfBits_shiftStages Word.shiftRight_law hheap
    refine ⟨hleftWidth, hrightWidth, fun valuation => ⟨?_, ?_⟩⟩
    · rw [← Nat.shiftLeft_eq]
      exact hleft valuation
    · rw [← Nat.shiftRight_eq_div_pow]
      exact hright valuation
  · intro ha hb valuation
    rw [Word.allLiteral_iff] at hb
    have hleft :=
      Word.map_formula_shiftStages Word.shiftLeft_law Word.shiftLeft_moves hb
        ha.normal valuation 1 next
    have hright :=
      Word.map_formula_shiftStages Word.shiftRight_law Word.shiftRight_moves hb
        ha.normal valuation 1 next
    rw [Nat.one_mul] at hleft hright
    exact ⟨hleft, hright⟩

theorem shift_by_word_is_shift_by_value_wide_amount :
    let a : Word := .ofBits [.neg 0 (.neg 1 (.var ⟨7⟩)), .var ⟨8⟩]
    let b := Word.ofTag 2 0 70
    let byte := Word.ofTag 1 0 8
    let three := Word.constant 3 70
    Bit.Heap 2 (a.bits ++ b.bits) ∧
      (∀ valuation, (a.shiftLeftBy b 2).1.value valuation =
        a.value valuation * 2 ^ b.value valuation % 2 ^ 2) ∧
      byte.Reachable ∧ three.allLiteral = true ∧
      (byte.shiftRightBy three 0).1.SameExpressions (byte.shiftRight 3) := by
  intro a b byte three
  have hheap : Bit.Heap 2 (a.bits ++ b.bits) := by
    constructor <;> decide
  have hbyte : byte.Reachable :=
    ⟨Amd64.standard, {}, [byte], [{}],
      (Machine.Reached.start {}).make (.tagged 1 0 8) rfl, by simp⟩
  have hliteral : three.allLiteral = true := Word.allLiteral_constant 3 70
  obtain ⟨_, _, hvalue⟩ := (shift_by_word_is_shift_by_value 2 a b).1 hheap
  obtain ⟨_, hright⟩ :=
    (shift_by_word_is_shift_by_value 0 byte three).2 hbyte hliteral
      fun _ => false
  have hthree : three.value (fun _ => false) = 3 := Word.value_constant _ 3 70
  rw [hthree] at hright
  exact ⟨hheap, fun valuation => (hvalue valuation).1, hbyte, hliteral, hright⟩

end SymbolicMachine
