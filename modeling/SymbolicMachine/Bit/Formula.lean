import SymbolicMachine.Bit

/-!
# Formulas

The formula of a bit is its expression written out, without the sharing.  Two
bits with the same formula are equal expressions.  `sameFormula` decides this
and does not look into a node that it meets on both sides.
-/

namespace SymbolicMachine

inductive Formula where
  | literal (value : Bool)
  | var (v : Var)
  | neg (x : Formula)
  | conj (x y : Formula)
  deriving DecidableEq, Repr

abbrev Valuation := Var → Bool

namespace Formula

def eval (valuation : Valuation) : Formula → Bool
  | .literal value => value
  | .var v => valuation v
  | .neg x => !x.eval valuation
  | .conj x y => x.eval valuation && y.eval valuation

def Mentions (v : Var) : Formula → Prop
  | .literal _ => False
  | .var w => v = w
  | .neg x => x.Mentions v
  | .conj x y => x.Mentions v ∨ y.Mentions v

theorem eval_congr {valuation other : Valuation} {f : Formula}
    (h : ∀ v, f.Mentions v → valuation v = other v) :
    f.eval valuation = f.eval other := by
  induction f with
  | literal value => rfl
  | var v => exact h v rfl
  | neg x ih => simp only [eval, ih h]
  | conj x y ihx ihy =>
      simp only [eval, ihx fun v hv => h v (.inl hv),
        ihy fun v hv => h v (.inr hv)]

end Formula

namespace Bit

def formula : Bit → Formula
  | .literal value => .literal value
  | .var v => .var v
  | .neg _ x => .neg x.formula
  | .conj _ x _ y => .conj x.formula y.formula

def eval (valuation : Valuation) (b : Bit) : Bool :=
  b.formula.eval valuation

def sameFormula : Bit → Bit → Bool
  | .literal a, .literal b => a == b
  | .var v, .var w => v == w
  | .neg nodeX x, .neg nodeY y => nodeX == nodeY || sameFormula x y
  | .conj nodeX x nodeY y, .conj nodeU u nodeV v =>
      (nodeX == nodeU || sameFormula x u) && (nodeY == nodeV || sameFormula y v)
  | _, _ => false

@[simp] theorem eval_literal (valuation : Valuation) (value : Bool) :
    (literal value).eval valuation = value := rfl

@[simp] theorem eval_var (valuation : Valuation) (v : Var) :
    (var v).eval valuation = valuation v := rfl

@[simp] theorem eval_neg (valuation : Valuation) (node : Nat) (x : Bit) :
    (neg node x).eval valuation = !x.eval valuation := rfl

@[simp] theorem eval_conj (valuation : Valuation) (nodeX nodeY : Nat)
    (x y : Bit) :
    (conj nodeX x nodeY y).eval valuation =
      (x.eval valuation && y.eval valuation) := rfl

theorem formula_eq_of_sameLeaf {x y : Bit} (h : sameLeaf x y = true) :
    x.formula = y.formula := by
  cases x <;> cases y <;> simp_all [sameLeaf, formula]

end Bit

end SymbolicMachine
