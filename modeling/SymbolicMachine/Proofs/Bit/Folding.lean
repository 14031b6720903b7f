import SymbolicMachine.Proofs.Bit.Operators

/-!
# Operators that fold

An operator may give back the very expression of one of its operands.  Negating
twice does so for bits in normal form, and with it a disjunction with a literal
zero, on either side.  The nodes of the result may be new; its expression is
not.

A bit and its negation are opposites: one of them has the node of the other one
as its operand, and this is what the conjunction looks at.  Negating both gives
opposites again, so a disjunction and an exclusive or see them too.
-/

namespace SymbolicMachine

def Formula.complement : Formula → Formula
  | .literal value => .literal !value
  | .neg x => x
  | x => .neg x

namespace Bit

theorem formula_not (x : Bit) (next : Nat) :
    (x.not next).1.formula = x.formula.complement := by
  cases x <;> rfl

theorem complement_complement {x : Bit} (hnormal : x.Normal) :
    x.formula.complement.complement = x.formula := by
  cases x with
  | literal value => simp [formula, Formula.complement]
  | neg node x =>
      cases x with
      | literal value => exact hnormal.1.elim
      | neg node y => exact hnormal.1.elim
      | _ => rfl
  | _ => rfl

private theorem formula_not_not {x : Bit} (hnormal : x.Normal) (next : Nat) :
    ((x.not >>= Bit.not) next).1.formula = x.formula := by
  change ((x.not next).1.not (x.not next).2).1.formula = _
  rw [formula_not, formula_not, complement_complement hnormal]

theorem formula_false_or {b : Bit} (hnormal : b.Normal) (next : Nat) :
    ((literal false).or b next).1.formula = b.formula := by
  rw [false_or, formula_not_not hnormal]

theorem formula_or_false {a : Bit} (hnormal : a.Normal) (next : Nat) :
    (a.or (literal false) next).1.formula = a.formula := by
  rw [or_false hnormal, formula_not_not hnormal]

/-! ## Operands that cancel -/

theorem and_self (x : Bit) : x.and x = pure x := by
  rw [Bit.and, if_pos (identical_self x)]

inductive Opposite : Bit → Bit → Prop
  | literal (value : Bool) : Opposite (.literal value) (.literal !value)
  | neg (node : Nat) {x : Bit} : x.Plain → Opposite (.neg node x) x
  | plain (node : Nat) {x : Bit} : x.Plain → Opposite x (.neg node x)

namespace Opposite

variable {a b x : Bit}

theorem symm (h : Opposite a b) : Opposite b a := by
  cases h with
  | literal value => simpa using Opposite.literal !value
  | neg node hplain => exact .plain node hplain
  | plain node hplain => exact .neg node hplain

theorem and (h : Opposite a b) : a.and b = pure (.literal false) := by
  cases h with
  | literal value => cases value <;> rfl
  | neg node hplain =>
      cases b <;> first
        | exact hplain.elim
        | simp [Bit.and, identical, literal?, negates, sameOperand]
  | plain node hplain =>
      cases a <;> first
        | exact hplain.elim
        | simp [Bit.and, identical, literal?, negates, sameOperand]

theorem not (h : Opposite a b) (first second : Nat) :
    Opposite (a.not first).1 (b.not second).1 := by
  cases h with
  | literal value => exact .literal !value
  | neg node hplain =>
      cases b <;> first
        | exact hplain.elim
        | exact .plain second trivial
  | plain node hplain =>
      cases a <;> first
        | exact hplain.elim
        | exact .neg first trivial

theorem or (h : Opposite a b) : NodeM.Ensures (a.or b) (· = .literal true) := by
  intro next
  have hcancel := (h.not next (a.not next).2).and
  change ((((a.not next).1.and (b.not (a.not next).2).1) _).1.not _).1 = _
  rw [hcancel]
  rfl

end Opposite

theorem opposite_not {x : Bit} (hnormal : x.Normal) :
    NodeM.Ensures x.not (Opposite x) := by
  intro next
  cases x with
  | literal value => exact .literal value
  | var v => exact .plain next trivial
  | neg node x => exact .neg node hnormal.1
  | conj => exact .plain next trivial

theorem xor_self {x : Bit} (hnormal : x.Normal) :
    NodeM.Ensures (x.xor x) (· = .literal false) := by
  rcases xor_cases x x with ⟨value, rfl, h⟩ | ⟨value, rfl, h⟩ | ⟨_, _, h⟩
  · cases value <;> exact fun _ => rfl
  · cases value <;> exact fun _ => rfl
  · rw [h]
    refine (opposite_not hnormal).bind fun notX hright => ?_
    rw [hright.and, pure_bind]
    refine (opposite_not hnormal).bind fun notX hleft => ?_
    rw [hleft.symm.and, pure_bind]
    exact fun _ => rfl

end Bit

end SymbolicMachine
