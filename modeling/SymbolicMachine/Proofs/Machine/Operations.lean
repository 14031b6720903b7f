import SymbolicMachine.Instr
import SymbolicMachine.Instr.Apply
import SymbolicMachine.Proofs.Word.Shift

/-!
# What the opcodes compute

Every operation on words has a meaning on bit vectors.  The word that the
operation makes has that meaning under every valuation, for the right operand as
it is used: the amount of a shift is cut if it is no constant and wider than the
shifted word.
-/

namespace SymbolicMachine

/-! ## Meanings -/

def Extension.denote {m : Nat} (extension : Extension) (value : BitVec m)
    (n : Nat) : BitVec n :=
  match extension with
  | .zero => value.setWidth n
  | .sign => value.signExtend n

def UnaryOp.denote {n : Nat} (op : UnaryOp) (value : BitVec n) : BitVec n :=
  match op with
  | .neg => -value
  | .not => ~~~value

def BinaryOp.denote {n m : Nat} (op : BinaryOp) (left : BitVec n)
    (right : BitVec m) : BitVec n :=
  match op with
  | .add => left + right.setWidth n
  | .sub => left - right.setWidth n
  | .and => left &&& right.setWidth n
  | .or => left ||| right.setWidth n
  | .xor => left ^^^ right.setWidth n
  | .shl => left <<< right.toNat
  | .shr => left >>> right.toNat

def BinaryOp.isShift : BinaryOp → Bool
  | .shl | .shr => true
  | _ => false

/-! ## Words made by the operations -/

variable {arena : Arena} {vars : Var → Prop} {stops : Fault → Prop}
  {session : Session}

namespace Word

theorem value_mod_width (valuation : Valuation) (w : Word) :
    w.value valuation % 2 ^ w.width = w.value valuation :=
  Nat.mod_eq_of_lt (w.value_lt valuation)

theorem concretizeFrom_of_literal {maxBits index : Nat} {bits : List Bit}
    (h : ∀ b ∈ bits, b.isLiteral = true) (valuation : Valuation)
    (hlt : 2 ^ index * natOfBits (bits.map (Bit.eval valuation)) <
      2 ^ maxBits) :
    ∃ x, concretizeFrom maxBits index bits = .ok x := by
  induction bits generalizing index with
  | nil => exact ⟨0, rfl⟩
  | cons b bits ih =>
      simp only [List.forall_mem_cons] at h
      rw [List.map_cons, natOfBits_cons, Nat.mul_add] at hlt
      have hrest : 2 ^ (index + 1) * natOfBits (bits.map (Bit.eval valuation)) <
          2 ^ maxBits := by
        rw [Nat.pow_succ, Nat.mul_assoc]
        omega
      obtain ⟨x, hx⟩ := ih h.2 hrest
      cases b with
      | literal value =>
          cases value with
          | false => exact ⟨2 * x, by simp [concretizeFrom, hx, Except.map]⟩
          | true =>
              have hpow : 2 ^ index < 2 ^ maxBits := by
                simp only [Bit.eval_literal, Bool.toNat_true, Nat.mul_one]
                  at hlt
                omega
              have hindex : index < maxBits :=
                (Nat.pow_lt_pow_iff_right (by decide)).mp hpow
              exact ⟨1 + 2 *
                x, by simp [concretizeFrom, hx, Except.map, hindex]⟩
      | _ => cases h.1

theorem toUInt64?_of_literal {w : Word} (h : ∀ b ∈ w.bits, b.isLiteral = true)
    {valuation : Valuation} (hlt : w.value valuation < 2 ^ 64) :
    ∃ x, w.toUInt64? = some x := by
  obtain ⟨x, hx⟩ := concretizeFrom_of_literal h valuation
    (by rwa [Nat.pow_zero, Nat.one_mul] : 2 ^ 0 * _ < 2 ^ 64)
  exact ⟨.ofNat x, by simp [toUInt64?, concretize, hx]⟩

theorem toUInt64?_constant (value : UInt64) {width : Nat}
    (hwidth : width ≤ 64) :
    ∃ x, (constant value width).toUInt64? = some x := by
  have hliteral : ∀ b ∈ (constant value width).bits, b.isLiteral = true := by
    intro b hb
    obtain ⟨i, _, rfl⟩ := List.mem_map.mp hb
    rfl
  apply toUInt64?_of_literal hliteral
  rw [value_constant (fun _ => false)]
  exact lt_of_lt_of_le (Nat.mod_lt _ (Nat.two_pow_pos _))
    (Nat.pow_le_pow_right (by decide) hwidth)

end Word

theorem Extension.wellFormed_resize (extension : Extension) {w : Word}
    (hw : w.WellFormed arena vars) (n : Nat) :
    (extension.resize w n).WellFormed arena vars := by
  cases extension with
  | zero => exact hw.resize n
  | sign => exact hw.resizeSigned n

theorem Extension.value_resize (extension : Extension) (valuation : Valuation)
    {w : Word} {m : Nat} (hm : w.width = m) (n : Nat) :
    (extension.resize w n).value valuation =
      (extension.denote (BitVec.ofNat m (w.value valuation)) n).toNat := by
  subst hm
  cases extension with
  | zero => simp [Extension.resize, Extension.denote, Word.value_mod_width]
  | sign => exact Word.value_resizeSigned valuation w n

theorem UnaryOp.apply_yields (op : UnaryOp) {w : Word} {n : Nat}
    (hn : w.width = n) (hnode : session.nextNode = arena.length)
    (hw : w.WellFormed arena vars) :
    SymM.Yields stops (op.apply w) session arena fun after later result =>
      SymM.NodesOnly session after ∧ result.WellFormed later vars ∧
        ∀ valuation, result.value valuation =
          (op.denote (BitVec.ofNat n (w.value valuation))).toNat := by
  subst hn
  cases op with
  | neg =>
      refine (Word.neg_yields hnode hw).mono
        fun after later result _ _ ⟨hnodes, hresult, hneg⟩ => ?_
      refine ⟨hnodes, hresult, fun valuation => ?_⟩
      simp [UnaryOp.denote, hneg.value_eq, Word.value_mod_width]
  | not =>
      refine (SymM.yields_ofNodeM hnode (Word.not_yields hw)).mono
        fun after later result _ _ ⟨hnodes, hresult, _, _, hvalue⟩ => ?_
      refine ⟨hnodes, hresult, fun valuation => ?_⟩
      simp [UnaryOp.denote, hvalue, Word.value_mod_width]

/--
The right operand as the operation uses it.  A constant amount of a shift is
used as it is; everything else takes the width of the left operand.
-/
def BinaryOp.operand (op : BinaryOp) (left right : Word) : Word :=
  if op.isShift = true ∧ right.toUInt64?.isSome = true then right
  else right.resize left.width

private theorem shift_yields (stops : Fault → Prop) (op : BinaryOp)
    (act : Nat → Nat → Nat) {left right : Word} {number : Nat → Word}
    {word : NodeM Word} (hshift : op.isShift = true)
    (hnode : session.nextNode = arena.length)
    (hnumber : ∀ k, (number k).WellFormed arena vars ∧
      (number k).width = left.width ∧
      ∀ valuation, (number k).value valuation = act (left.value valuation) k)
    (hword : NodeM.Yields word arena fun later c => c.WellFormed later vars ∧
      c.width = left.width ∧
      ∀ valuation, c.value valuation =
        act (left.value valuation)
        ((right.resize left.width).value valuation)) :
    SymM.Yields stops
      (match right.toUInt64? with
        | some amount => pure (number amount.toNat)
        | none => SymM.ofNodeM word) session arena fun after later result =>
      SymM.NodesOnly session after ∧ result.WellFormed later vars ∧
        result.width = left.width ∧
        ∀ valuation, result.value valuation =
          act (left.value valuation)
            ((op.operand left right).value valuation) := by
  cases hamount : right.toUInt64? with
  | some amount =>
      obtain ⟨hresult, hwidth, hvalue⟩ := hnumber amount.toNat
      refine SymM.yields_pure hnode ⟨rfl, hresult, hwidth, fun valuation => ?_⟩
      rw [BinaryOp.operand, if_pos ⟨hshift, by rw [hamount]; rfl⟩, hvalue,
        (Word.toUInt64?_eq_some hamount).2]
  | none =>
      refine (SymM.yields_ofNodeM hnode hword).mono
        fun after later result _ _ ⟨hnodes, hresult, hwidth, hvalue⟩ =>
          ⟨hnodes, hresult, hwidth, ?_⟩
      intro valuation
      rw [BinaryOp.operand, if_neg (by simp [hamount]), hvalue]

theorem BinaryOp.operand_of_not_shift {op : BinaryOp} (h : op.isShift = false)
    (left right : Word) : op.operand left right = right.resize left.width := by
  simp [operand, h]

theorem BinaryOp.apply_shift_yields {op : BinaryOp} {left right : Word}
    (hshift : op.isShift = true) (hnode : session.nextNode = arena.length)
    (hleft : left.WellFormed arena vars)
    (hright : right.WellFormed arena vars) :
    SymM.Yields stops (op.apply left right) session arena
      fun after later result =>
      SymM.NodesOnly session after ∧ result.WellFormed later vars ∧
        result.width = left.width ∧
        ∀ valuation, result.value valuation =
          (op.denote (BitVec.ofNat left.width (left.value valuation))
            (BitVec.ofNat (op.operand left right).width
              ((op.operand left right).value valuation))).toNat := by
  have hoperand := hright.resize left.width
  cases op with
  | shl =>
      have hnumber : ∀ k, (left.shiftLeft k).WellFormed arena vars ∧
          (left.shiftLeft k).width = left.width ∧ ∀ valuation,
          (left.shiftLeft k).value valuation =
            (left.value valuation <<< k) % 2 ^ left.width :=
        fun k => ⟨hleft.shiftLeft k, Word.width_shiftLeft left k,
          fun valuation => Word.value_shiftLeft valuation left k⟩
      have hyields :=
        shift_yields stops .shl (fun x k => (x <<< k) % 2 ^ left.width) rfl
          hnode hnumber (Word.shiftLeftBy_yields hleft hoperand)
      refine SymM.Yields.mono hyields
        fun after later result _ _ ⟨hnodes, hresult, hwidth, hvalue⟩ => ?_
      refine ⟨hnodes, hresult, hwidth, fun valuation => ?_⟩
      rw [hvalue]
      simp [BinaryOp.denote, Word.value_mod_width]
  | shr =>
      have hnumber : ∀ k, (left.shiftRight k).WellFormed arena vars ∧
          (left.shiftRight k).width = left.width ∧ ∀ valuation,
          (left.shiftRight k).value valuation = left.value valuation >>> k :=
        fun k => ⟨hleft.shiftRight k, Word.width_shiftRight left k,
          fun valuation => Word.value_shiftRight valuation left k⟩
      have hyields :=
        shift_yields stops .shr (fun x k => x >>> k) rfl hnode hnumber
          (Word.shiftRightBy_yields hleft hoperand)
      refine SymM.Yields.mono hyields
        fun after later result _ _ ⟨hnodes, hresult, hwidth, hvalue⟩ => ?_
      refine ⟨hnodes, hresult, hwidth, fun valuation => ?_⟩
      rw [hvalue]
      simp [BinaryOp.denote, Word.value_mod_width]
  | _ => cases hshift

theorem BinaryOp.value_operand {op : BinaryOp} (hshift : op.isShift = true)
    (left right : Word) (valuation : Valuation) :
    (op.operand left right).value valuation =
      if right.toUInt64?.isSome = true then right.value valuation
      else right.value valuation % 2 ^ left.width := by
  rw [operand]
  by_cases hsome : right.toUInt64?.isSome = true
  · rw [if_pos ⟨hshift, hsome⟩, if_pos hsome]
  · rw [if_neg fun h => hsome h.2, if_neg hsome, Word.value_resize]

theorem BinaryOp.apply_yields (op : BinaryOp) {left right : Word} {n : Nat}
    (hn : left.width = n) (hnode : session.nextNode = arena.length)
    (hleft : left.WellFormed arena vars)
    (hright : right.WellFormed arena vars) :
    SymM.Yields stops (op.apply left right) session arena
      fun after later result =>
      SymM.NodesOnly session after ∧ result.WellFormed later vars ∧
        ∀ valuation, result.value valuation =
          (op.denote (BitVec.ofNat n (left.value valuation))
            (BitVec.ofNat (op.operand left right).width
              ((op.operand left right).value valuation))).toNat := by
  subst hn
  have hoperand := hright.resize left.width
  have hwidth : left.width = (right.resize left.width).width :=
    (Word.width_resize _ _).symm
  cases op with
  | add =>
      refine (Word.add_yields hnode hleft hoperand hwidth).mono
        fun after later result _ _ ⟨hnodes, hresult, carry, hadded⟩ => ?_
      refine ⟨hnodes, hresult, fun valuation => ?_⟩
      rw [operand_of_not_shift rfl]
      simp [BinaryOp.denote, hadded.value_eq, Word.value_mod_width]
  | sub =>
      refine (Word.sub_yields hnode hleft hoperand hwidth).mono
        fun after later result _ _ ⟨hnodes, hresult, negated, carry, _, hneg,
          hadded⟩ => ?_
      refine ⟨hnodes, hresult, fun valuation => ?_⟩
      rw [operand_of_not_shift rfl]
      simp [BinaryOp.denote, hadded.value_eq, hneg.value_eq,
        Word.value_mod_width, Nat.add_comm]
  | and =>
      refine (Word.and_yields hnode hleft hoperand hwidth).mono
        fun after later result _ _ ⟨hnodes, hresult, _, hvalue⟩ => ?_
      refine ⟨hnodes, hresult, fun valuation => ?_⟩
      rw [operand_of_not_shift rfl]
      simp [BinaryOp.denote, hvalue, Word.value_mod_width]
  | or =>
      refine (Word.or_yields hnode hleft hoperand hwidth).mono
        fun after later result _ _ ⟨hnodes, hresult, _, hvalue⟩ => ?_
      refine ⟨hnodes, hresult, fun valuation => ?_⟩
      rw [operand_of_not_shift rfl]
      simp [BinaryOp.denote, hvalue, Word.value_mod_width]
  | xor =>
      refine (Word.xor_yields hnode hleft hoperand hwidth).mono
        fun after later result _ _ ⟨hnodes, hresult, _, hvalue⟩ => ?_
      refine ⟨hnodes, hresult, fun valuation => ?_⟩
      rw [operand_of_not_shift rfl]
      simp [BinaryOp.denote, hvalue, Word.value_mod_width]
  | shl =>
      exact (apply_shift_yields rfl hnode hleft hright).mono
        fun after later result _ _ ⟨hnodes, hresult, _, hvalue⟩ =>
          ⟨hnodes, hresult, hvalue⟩
  | shr =>
      exact (apply_shift_yields rfl hnode hleft hright).mono
        fun after later result _ _ ⟨hnodes, hresult, _, hvalue⟩ =>
          ⟨hnodes, hresult, hvalue⟩

def ShiftFits (op : BinaryOp) (left right : Word) : Prop :=
  op.isShift = true → right.width ≤ left.width ∨ ∃ amount,
  right.toUInt64? = some amount

theorem ShiftFits.value_operand {op : BinaryOp} {left right : Word}
    (hfits : ShiftFits op left right) (hshift : op.isShift = true)
    (valuation : Valuation) :
    (op.operand left right).value valuation = right.value valuation := by
  rw [BinaryOp.value_operand hshift]
  split
  case isTrue => rfl
  case isFalse hopen =>
      rcases hfits hshift with hwidth | ⟨amount, hamount⟩
      · exact Nat.mod_eq_of_lt (lt_of_lt_of_le (right.value_lt valuation)
          (Nat.pow_le_pow_right (by decide) hwidth))
      · exact absurd (Option.isSome_of_eq_some hamount) hopen

theorem BinaryOp.denote_operand {op : BinaryOp} {left right : Word} {n : Nat}
    (hn : left.width = n) (hfits : ShiftFits op left right)
    (valuation : Valuation) (value : BitVec n) :
    op.denote value (BitVec.ofNat (op.operand left right).width
        ((op.operand left right).value valuation)) =
      op.denote value (BitVec.ofNat right.width (right.value valuation)) := by
  subst hn
  have hcut : (BitVec.ofNat (right.resize left.width).width
      ((right.resize left.width).value valuation)).setWidth left.width =
        (BitVec.ofNat right.width (right.value valuation)).setWidth
          left.width := by
    apply BitVec.eq_of_toNat_eq
    simp [Word.value_mod_width]
  cases hshift : op.isShift with
  | false =>
      rw [operand_of_not_shift hshift]
      cases op with
      | shl => cases hshift
      | shr => cases hshift
      | _ => simp only [denote, hcut]
  | true =>
      have hamount : (BitVec.ofNat (op.operand left right).width
          ((op.operand left right).value valuation)).toNat =
            (BitVec.ofNat right.width (right.value valuation)).toNat := by
        rw [BitVec.toNat_ofNat, BitVec.toNat_ofNat, Word.value_mod_width,
          Word.value_mod_width]
        exact hfits.value_operand hshift valuation
      cases op with
      | shl => simp only [denote, hamount]
      | shr => simp only [denote, hamount]
      | _ => cases hshift

end SymbolicMachine
