import SymbolicMachine.Architecture.Amd64
import SymbolicMachine.Proofs.Machine.Execution

/-!
# Shifts by numbers and by words

A shift by a word that is a number of 64 bits uses all of the number.  Any other
amount is cut to the width of the shifted word first.  What the cut drops would
shift everything out, so the cut shows exactly if something is left.  The same
holds between a shift of words and the shift of the numbers that the words stand
for.
-/

namespace SymbolicMachine

namespace Word

def bitVec (valuation : Valuation) (w : Word) : BitVec w.width :=
  BitVec.ofNat w.width (w.value valuation)

@[simp] theorem toNat_bitVec (valuation : Valuation) (w : Word) :
    (w.bitVec valuation).toNat = w.value valuation := by
  rw [bitVec, BitVec.toNat_ofNat, value_mod_width]

def substitute (valuation : Valuation) (w : Word) : Word :=
  .ofBits (w.bits.map fun b => .literal (b.eval valuation))

@[simp] theorem width_substitute (valuation : Valuation) (w : Word) :
    (w.substitute valuation).width = w.width :=
  List.length_map _

@[simp] theorem value_substitute (valuation other : Valuation) (w : Word) :
    (w.substitute valuation).value other = w.value valuation := by
  simp [substitute, value, ofBits, Function.comp_def]

private theorem isLiteral_substitute (valuation : Valuation) (w : Word) :
    ∀ b ∈ (w.substitute valuation).bits, b.isLiteral = true := by
  intro b hb
  obtain ⟨x, _, rfl⟩ := List.mem_map.mp hb
  rfl

private theorem substitute_wellFormed {arena : Arena} {vars : Var → Prop}
    (valuation : Valuation) (w : Word) :
    (w.substitute valuation).WellFormed arena vars := by
  apply WellFormed.ofBits
  intro b hb
  obtain ⟨x, _, rfl⟩ := List.mem_map.mp hb
  exact Bit.wellFormed_literal _

private theorem isSome_toUInt64?_substitute (valuation : Valuation) (w : Word) :
    (w.substitute valuation).toUInt64?.isSome = true ↔
      w.value valuation < 2 ^ 64 := by
  constructor
  · intro hsome
    obtain ⟨x, hx⟩ := Option.isSome_iff_exists.mp hsome
    have hvalue := (toUInt64?_eq_some hx).2 valuation
    rw [value_substitute] at hvalue
    rw [hvalue]
    exact x.toNat_lt
  · intro hlt
    obtain ⟨x, hx⟩ := toUInt64?_of_literal (isLiteral_substitute valuation w)
      (by rwa [value_substitute valuation valuation])
    rw [hx]
    rfl

end Word

namespace BinaryOp

private theorem toNat_denote_congr {op : BinaryOp} (hshift : op.isShift = true)
    {n n' m m' : Nat} {x : BitVec n} {x' : BitVec n'} {y : BitVec m}
    {y' : BitVec m'} (hn : n = n') (hx : x.toNat = x'.toNat)
    (hy : y.toNat = y'.toNat) :
    (op.denote x y).toNat = (op.denote x' y').toNat := by
  subst hn
  have hsame : x = x' := BitVec.eq_of_toNat_eq hx
  cases op with
  | shl => simp only [denote, hsame, hy]
  | shr => simp only [denote, hsame, hy]
  | _ => cases hshift

private theorem denote_eq_zero {op : BinaryOp} (hshift : op.isShift = true)
    {n m : Nat} (x : BitVec n) {y : BitVec m} (h : n ≤ y.toNat) :
    op.denote x y = 0#n := by
  cases op with
  | shl => exact BitVec.shiftLeft_eq_zero h
  | shr => exact BitVec.ushiftRight_eq_zero h
  | _ => cases hshift

end BinaryOp

/--
The amount is used whole: it is a number of 64 bits, or the left operand could
hold it.
-/
def AmountKept (left right : Word) (valuation : Valuation) : Prop :=
  right.toUInt64?.isSome = true ∨ right.value valuation < 2 ^ left.width

namespace BinaryOp

def shifted (op : BinaryOp) (left right : Word) (valuation : Valuation) : Nat :=
  (op.denote (left.bitVec valuation)
    ((op.operand left right).bitVec valuation)).toNat

theorem shifted_eq {op : BinaryOp} (hshift : op.isShift = true)
    {left right : Word} {valuation : Valuation} {n m : Nat} {x : BitVec n}
    {y : BitVec m} (hn : left.width = n) (hx : left.value valuation = x.toNat)
    (hy : (op.operand left right).value valuation = y.toNat) :
    op.shifted left right valuation = (op.denote x y).toNat := by
  apply toNat_denote_congr hshift hn
  · rwa [Word.toNat_bitVec]
  · rwa [Word.toNat_bitVec]

private theorem shifted_eq_full_iff {op : BinaryOp} (hshift : op.isShift = true)
    (left right : Word) (valuation : Valuation) :
    op.shifted left right valuation =
        (op.denote (left.bitVec valuation) (right.bitVec valuation)).toNat ↔
      AmountKept left right valuation ∨
        op.shifted left right valuation = 0 := by
  have hamount := value_operand hshift left right valuation
  by_cases hkept : AmountKept left right valuation
  · have hsame : (op.operand left right).value valuation =
        (right.bitVec valuation).toNat := by
      rw [hamount, Word.toNat_bitVec]
      split
      case isTrue => rfl
      case isFalse hopen => exact Nat.mod_eq_of_lt (hkept.resolve_left hopen)
    have heq := shifted_eq hshift rfl (left.toNat_bitVec valuation).symm hsame
    exact iff_of_true heq (.inl hkept)
  · have hlarge : 2 ^ left.width ≤ right.value valuation :=
      not_lt.mp fun h => hkept (.inr h)
    have hzero : op.denote (left.bitVec valuation) (right.bitVec valuation) =
        0#_ := by
      apply denote_eq_zero hshift
      rw [Word.toNat_bitVec]
      exact Nat.lt_two_pow_self.le.trans hlarge
    rw [hzero, BitVec.toNat_zero, or_iff_right hkept]

private theorem shifted_substitute_eq_iff {op : BinaryOp}
    (hshift : op.isShift = true) (left right : Word)
    (valuation other : Valuation) :
    op.shifted (left.substitute valuation) (right.substitute valuation) other =
        op.shifted left right valuation ↔
      AmountKept left right valuation ∨ op.shifted left right valuation = 0 ∨
        2 ^ 64 ≤ right.value valuation := by
  have hleft : (left.substitute valuation).value other =
      (left.bitVec valuation).toNat := by
    rw [Word.value_substitute, Word.toNat_bitVec]
  have hamount :=
    value_operand hshift (left.substitute valuation)
      (right.substitute valuation) other
  simp only [Word.isSome_toUInt64?_substitute, Word.value_substitute,
    Word.width_substitute] at hamount
  by_cases hsmall : right.value valuation < 2 ^ 64
  · rw [if_pos hsmall, ← right.toNat_bitVec] at hamount
    rw [shifted_eq hshift (left.width_substitute valuation) hleft hamount,
      eq_comm, shifted_eq_full_iff hshift, ← or_assoc,
      or_iff_left (not_le.mpr hsmall)]
  · have hopen : ¬ right.toUInt64?.isSome = true := by
      intro hsome
      obtain ⟨x, hx⟩ := Option.isSome_iff_exists.mp hsome
      rw [(Word.toUInt64?_eq_some hx).2] at hsmall
      exact hsmall x.toNat_lt
    have hcut := value_operand hshift left right valuation
    rw [if_neg hopen] at hcut
    rw [if_neg hsmall, ← hcut, ← (op.operand left right).toNat_bitVec]
      at hamount
    have heq :=
      shifted_eq hshift (left.width_substitute valuation) hleft hamount
    exact iff_of_true heq (.inr (.inr (not_lt.mp hsmall)))

theorem exists_shift {op : BinaryOp} (hshift : op.isShift = true)
    {arena : Arena} {vars : Var → Prop} {session : Session}
    (hnode : session.nextNode = arena.length) {left right : Word}
    (hleft : left.WellFormed arena vars)
    (hright : right.WellFormed arena vars) :
    ∃ result after, op.apply left right session = .ok result after ∧
      result.width = left.width ∧
      ∀ valuation,
        result.value valuation = op.shifted left right valuation := by
  have hyields : SymM.Yields (fun _ => False) (op.apply left right) session
      arena _ :=
    apply_shift_yields hshift hnode hleft hright
  obtain ⟨result, after, _, hrun, _, _, _, _, hwidth, hvalue⟩ :=
    hyields.exists_ok
  exact ⟨result, after, hrun, hwidth, hvalue⟩

private theorem exists_shift_substitute {op : BinaryOp}
    (hshift : op.isShift = true) (left right : Word) (valuation : Valuation)
    (now : Session) :
    ∃ direct last,
      op.apply (left.substitute valuation) (right.substitute valuation) now =
        .ok direct last ∧
      ∀ other, direct.value other =
        op.shifted (left.substitute valuation) (right.substitute valuation)
          other := by
  obtain ⟨arena, hnode⟩ := SymM.exists_arena now
  have hnumbers : ∀ w : Word,
      (w.substitute valuation).WellFormed arena fun _ => False :=
    fun w => w.substitute_wellFormed valuation
  obtain ⟨direct, last, hrun, _, hvalue⟩ :=
    exists_shift hshift hnode (hnumbers left) (hnumbers right)
  exact ⟨direct, last, hrun, hvalue⟩

end BinaryOp

/--
A shift of words that can be met ends and is a shift by the amount as it is
used.  It is the shift by the whole amount, which is zero from the width on, if
the amount is kept or nothing is left, and only then.  The shift of the numbers
that the operands stand for gives the same number, unless the cut of the amount
showed and the whole amount has at most 64 bits.
-/
theorem shift_by_amount_as_used {arch : Architecture} {session : Session}
    {pool : List Word} {machines : List Machine}
    (hreached : Machine.Reached arch session pool machines) {op : BinaryOp}
    (hshift : op.isShift = true) {left right : Word} (hleft : left ∈ pool)
    (hright : right ∈ pool) :
    ∃ result after, op.apply left right session = .ok result after ∧
      result.width = left.width ∧ ∀ valuation,
        (result.value valuation =
            (op.denote (left.bitVec valuation) (right.bitVec valuation)).toNat ↔
          AmountKept left right valuation ∨ result.value valuation = 0) ∧
        (left.width ≤ right.value valuation →
          op.denote (left.bitVec valuation) (right.bitVec valuation) = 0#_) ∧
        (right.toUInt64? = none →
          result.value valuation = (op.denote (left.bitVec valuation)
            (BitVec.ofNat left.width (right.value valuation))).toNat) ∧
        ∀ now, ∃ direct last,
          op.apply (left.substitute valuation)
            (right.substitute valuation) now = .ok direct last ∧
          ∀ other, direct.value other = result.value valuation ↔
            AmountKept left right valuation ∨ result.value valuation = 0 ∨
              2 ^ 64 ≤ right.value valuation := by
  obtain ⟨arena, hpool, _⟩ := hreached.wellFormed
  obtain ⟨result, after, hrun, hwidth, hvalue⟩ :=
    BinaryOp.exists_shift hshift hpool.nodes (hpool.wellFormed left hleft)
      (hpool.wellFormed right hright)
  refine ⟨result, after, hrun, hwidth, fun valuation => ?_⟩
  simp only [hvalue valuation]
  refine ⟨BinaryOp.shifted_eq_full_iff hshift left right valuation, ?_, ?_,
    fun now => ?_⟩
  · intro hle
    apply BinaryOp.denote_eq_zero hshift
    rwa [Word.toNat_bitVec]
  · intro hnone
    apply BinaryOp.shifted_eq hshift rfl (left.toNat_bitVec valuation).symm
    rw [BinaryOp.value_operand hshift, hnone, BitVec.toNat_ofNat]
    rfl
  · obtain ⟨direct, last, hdirect, hnumber⟩ :=
      BinaryOp.exists_shift_substitute hshift left right valuation now
    refine ⟨direct, last, hdirect, fun other => ?_⟩
    rw [hnumber other]
    exact BinaryOp.shifted_substitute_eq_iff hshift left right valuation other

theorem shift_by_amount_as_used_three_bits :
    let left := Word.ofTag 1 0 8
    let right := Word.ofTag 2 0 3
    ∃ session result after,
    Machine.Reached Amd64.standard session [right, left] [{}] ∧
      BinaryOp.shl.apply left right session = .ok result after ∧
      ∀ valuation, result.value valuation =
        (left.bitVec valuation <<< right.value valuation).toNat := by
  intro left right
  have hreached : Machine.Reached Amd64.standard {} [right, left] [{}] :=
    ((Machine.Reached.start {}).make (.tagged 1 0 8) rfl).make (.tagged 2 0 3)
      rfl
  obtain ⟨result, after, hrun, _, hall⟩ := shift_by_amount_as_used hreached
    (show BinaryOp.shl.isShift = true from rfl) (by simp : left ∈ [right, left])
    (by simp : right ∈ [right, left])
  refine ⟨{}, result, after, hreached, hrun, fun valuation => ?_⟩
  have hkept : AmountKept left right valuation :=
    .inr ((right.value_lt valuation).trans (by decide))
  rw [(hall valuation).1.mpr (.inl hkept), BinaryOp.denote, right.toNat_bitVec]

/--
A byte is shifted by two bytes that stand for 256.  Nothing of the amount is
left; the shift of the numbers has all of it.
-/
theorem wide_amount_cut :
    let left := Word.constant 1 8
    let right := Word.ofTag 2 0 16
    let valuation : Valuation := fun v => v == .ofTag 2 8
    ∃ session result after direct last,
      Machine.Reached Amd64.standard session [right, left] [{}] ∧
      BinaryOp.shl.apply left right session = .ok result after ∧
      right.value valuation = 256 ∧ result.value valuation = 1 ∧
      BinaryOp.shl.apply (left.substitute valuation)
        (right.substitute valuation) after = .ok direct last ∧
      direct.value valuation = 0 := by
  intro left right valuation
  have hreached : Machine.Reached Amd64.standard {} [right, left] [{}] :=
    ((Machine.Reached.start {}).make (.constant 1 8) rfl).make (.tagged 2 0 16)
      rfl
  obtain ⟨arena, hpool, _⟩ := hreached.wellFormed
  obtain ⟨result, after, hrun, _, hvalue⟩ := BinaryOp.exists_shift
    (show BinaryOp.shl.isShift = true from rfl) hpool.nodes
    (hpool.wellFormed left (by simp)) (hpool.wellFormed right (by simp))
  obtain ⟨direct, last, hdirect, hnumber⟩ := BinaryOp.exists_shift_substitute
    (show BinaryOp.shl.isShift = true from rfl) left right valuation after
  refine ⟨{}, result, after, direct, last, hreached, hrun, by decide +kernel,
    ?_, hdirect, ?_⟩
  · rw [hvalue]
    decide +kernel
  · rw [hnumber]
    decide +kernel

end SymbolicMachine
