import Mathlib.Data.List.Infix
import SymbolicMachine.Bit.Formula
import SymbolicMachine.Session

/-!
# Sharing

Identity of bits looks at node numbers, so it means something only where a
number stands for one operand.  An arena lists the formulas of all nodes made so
far by their numbers; a bit fits the arena when each of its operands is the one
that the arena lists.  Making nodes extends the arena, and bits that fit it go
on fitting.

Computations that make nodes are described by what they yield: from an arena
that matches the counter they reach a longer one that matches the counter again.
-/

namespace SymbolicMachine

/-- The formulas of the nodes made so far, by number. -/
abbrev Arena := List Formula

namespace Bit

def Mentions (v : Var) (b : Bit) : Prop :=
  b.formula.Mentions v

def Fits (arena : Arena) : Bit → Prop
  | .literal _ => True
  | .var _ => True
  | .neg node x => arena[node]? = some x.formula ∧ x.Fits arena
  | .conj nodeX x nodeY y =>
      (arena[nodeX]? = some x.formula ∧ x.Fits arena) ∧
        arena[nodeY]? = some y.formula ∧ y.Fits arena

@[simp] theorem mentions_literal (v : Var) (value : Bool) :
    (literal value).Mentions v ↔ False := Iff.rfl

@[simp] theorem mentions_var (v w : Var) : (var w).Mentions v ↔ v = w := Iff.rfl

@[simp] theorem mentions_neg (v : Var) (node : Nat) (x : Bit) :
    (neg node x).Mentions v ↔ x.Mentions v := Iff.rfl

@[simp] theorem mentions_conj (v : Var) (nodeX nodeY : Nat) (x y : Bit) :
    (conj nodeX x nodeY y).Mentions v ↔ x.Mentions v ∨ y.Mentions v := Iff.rfl

@[simp] theorem fits_literal (arena : Arena) (value : Bool) :
    (literal value).Fits arena := trivial

@[simp] theorem fits_var (arena : Arena) (v : Var) :
    (var v).Fits arena := trivial

theorem Fits.mono {arena later : Arena} (hle : arena <+: later) {b : Bit}
    (h : b.Fits arena) : b.Fits later := by
  have hget : ∀ {node : Nat} {f : Formula},
      arena[node]? = some f → later[node]? = some f := by
    intro node f hnode
    obtain ⟨rest, rfl⟩ := hle
    obtain ⟨hlt, rfl⟩ := List.getElem?_eq_some_iff.mp hnode
    rw [List.getElem?_append_left hlt, hnode]
  induction b with
  | literal value => trivial
  | var v => trivial
  | neg node x ih => exact ⟨hget h.1, ih h.2⟩
  | conj nodeX x nodeY y ihx ihy =>
      exact ⟨⟨hget h.1.1, ihx h.1.2⟩, hget h.2.1, ihy h.2.2⟩

theorem eval_congr {valuation other : Valuation} {b : Bit}
    (h : ∀ v, b.Mentions v → valuation v = other v) :
    b.eval valuation = b.eval other :=
  Formula.eval_congr h

/-! ## Identical bits -/

theorem identical_self (b : Bit) : b.identical b = true := by
  cases b <;> simp [identical, sameOperand]

theorem formula_eq_of_sameOperand {arena : Arena} {nodeX nodeY : Nat}
    {x y : Bit} (hx : arena[nodeX]? = some x.formula)
    (hy : arena[nodeY]? = some y.formula)
    (h : sameOperand nodeX x nodeY y = true) : x.formula = y.formula := by
  simp only [sameOperand, Bool.or_eq_true, beq_iff_eq] at h
  rcases h with rfl | hleaf
  · rw [hx] at hy
    exact Option.some.inj hy
  · exact formula_eq_of_sameLeaf hleaf

/--
A conjunction may have its operands exchanged; all other identical bits have one
formula.
-/
theorem formula_of_identical {arena : Arena} {a b : Bit} (ha : a.Fits arena)
    (hb : b.Fits arena) (h : a.identical b = true) :
    a.formula = b.formula ∨
      ∃ x y, a.formula = .conj x y ∧ b.formula = .conj y x := by
  cases a <;> cases b <;> simp only [identical, Bool.false_eq_true] at h
  case literal.literal => simp_all
  case var.var => simp_all
  case neg.neg nodeX x nodeY y =>
      exact .inl (congrArg Formula.neg (formula_eq_of_sameOperand ha.1 hb.1 h))
  case conj.conj nodeX x nodeY y nodeU u nodeV v =>
      simp only [Bool.or_eq_true, Bool.and_eq_true] at h
      rcases h with ⟨hxu, hyv⟩ | ⟨hxv, hyu⟩
      · have hleft := formula_eq_of_sameOperand ha.1.1 hb.1.1 hxu
        have hright := formula_eq_of_sameOperand ha.2.1 hb.2.1 hyv
        exact .inl (by simp only [formula, hleft, hright])
      · have hleft := formula_eq_of_sameOperand ha.1.1 hb.2.1 hxv
        have hright := formula_eq_of_sameOperand ha.2.1 hb.1.1 hyu
        exact .inr ⟨x.formula, y.formula,
          rfl, by simp only [formula, hleft, hright]⟩

theorem eval_eq_of_identical {arena : Arena} {a b : Bit} (ha : a.Fits arena)
    (hb : b.Fits arena) (h : a.identical b = true) (valuation : Valuation) :
    a.eval valuation = b.eval valuation := by
  rcases formula_of_identical ha hb h with heq | ⟨x, y, hxy, hyx⟩
  · simp only [eval, heq]
  · simp only [eval, hxy, hyx, Formula.eval, Bool.and_comm]

theorem mentions_iff_of_identical {arena : Arena} {a b : Bit}
    (ha : a.Fits arena) (hb : b.Fits arena) (h : a.identical b = true)
    (v : Var) : a.Mentions v ↔ b.Mentions v := by
  rcases formula_of_identical ha hb h with heq | ⟨x, y, hxy, hyx⟩
  · simp only [Mentions, heq]
  · simp only [Mentions, hxy, hyx, Formula.Mentions, or_comm]

private theorem exists_operand_of_negates {arena : Arena} {a b : Bit}
    (ha : a.Fits arena) (h : a.negates b = true) :
    ∃ node x, a = .neg node x ∧ x.Fits arena ∧ x.identical b = true := by
  cases a <;> simp only [negates, Bool.false_eq_true] at h
  case neg node x => exact ⟨node, x, rfl, ha.2, h⟩

theorem eval_of_negates {arena : Arena} {a b : Bit} (ha : a.Fits arena)
    (hb : b.Fits arena) (h : a.negates b = true) (valuation : Valuation) :
    a.eval valuation = !b.eval valuation := by
  obtain ⟨node, x, rfl, hx, hident⟩ := exists_operand_of_negates ha h
  rw [eval_neg, eval_eq_of_identical hx hb hident]

theorem mentions_iff_of_negates {arena : Arena} {a b : Bit} (ha : a.Fits arena)
    (hb : b.Fits arena) (h : a.negates b = true) (v : Var) :
    a.Mentions v ↔ b.Mentions v := by
  obtain ⟨node, x, rfl, hx, hident⟩ := exists_operand_of_negates ha h
  rw [mentions_neg, mentions_iff_of_identical hx hb hident]

end Bit

/-! ## Computations that make nodes -/

namespace NodeM

variable {α β : Type}

/--
From the nodes of `arena` the computation goes on to those of a longer arena,
and its result satisfies `post` there.
-/
def Yields (x : NodeM α) (arena : Arena) (post : Arena → α → Prop) : Prop :=
  ∃ later, arena <+: later ∧ (x arena.length).2 = later.length ∧
    post later (x arena.length).1

theorem yields_pure {a : α} {arena : Arena} {post : Arena → α → Prop}
    (h : post arena a) :
    Yields (pure a) arena post :=
  ⟨arena, List.prefix_rfl, rfl, h⟩

theorem Yields.bind {x : NodeM α} {f : α → NodeM β} {arena : Arena}
    {mid : Arena → α → Prop} {post : Arena → β → Prop} (hx : Yields x arena mid)
    (hf : ∀ later a, arena <+: later → mid later a → Yields (f a) later post) :
    Yields (x >>= f) arena post := by
  obtain ⟨later, hle, hlength, hmid⟩ := hx
  obtain ⟨last, hle', hlength', hpost⟩ := hf later _ hle hmid
  have hrun : (x >>= f) arena.length = f (x arena.length).1 later.length := by
    rw [← hlength]
    rfl
  exact ⟨last,
    hle.trans hle', by rw [hrun, hlength'], by rw [hrun]; exact hpost⟩

theorem Yields.mono {x : NodeM α} {arena : Arena} {mid post : Arena → α → Prop}
    (hx : Yields x arena mid)
    (h : ∀ later a, arena <+: later → mid later a → post later a) :
    Yields x arena post := by
  obtain ⟨later, hle, hlength, hmid⟩ := hx
  exact ⟨later, hle, hlength, h later _ hle hmid⟩

theorem Yields.and_result {x : NodeM α} {arena : Arena}
    {post : Arena → α → Prop} {fact : α → Prop} (hx : Yields x arena post)
    (hfact : Yields x arena fun _ a => fact a) :
    Yields x arena fun later a => post later a ∧ fact a := by
  obtain ⟨later, hle, hlength, hpost⟩ := hx
  obtain ⟨_, _, _, hresult⟩ := hfact
  exact ⟨later, hle, hlength, hpost, hresult⟩

def Ensures (x : NodeM α) (post : α → Prop) : Prop :=
  ∀ first, post (x first).1

theorem ensures_pure {a : α} {post : α → Prop} (h : post a) :
    Ensures (pure a) post :=
  fun _ => h

theorem Ensures.bind {x : NodeM α} {f : α → NodeM β} {mid : α → Prop}
    {post : β → Prop} (hx : Ensures x mid)
    (hf : ∀ a, mid a → Ensures (f a) post) : Ensures (x >>= f) post :=
  fun first => hf _ (hx first) (x first).2

end NodeM

theorem Bit.mkNeg_yields {arena : Arena} {x : Bit} (hx : x.Fits arena) :
    NodeM.Yields (mkNeg x) arena fun later c =>
      c = .neg arena.length x ∧ c.Fits later := by
  have hle : arena <+: arena ++ [x.formula] := List.prefix_append _ _
  have hlength : (mkNeg x arena.length).2 = (arena ++ [x.formula]).length := by
    simp only [List.length_append, List.length_singleton]
    rfl
  have hnode : (arena ++ [x.formula])[arena.length]? = some x.formula := by simp
  exact ⟨arena ++ [x.formula], hle, hlength, rfl, hnode, hx.mono hle⟩

theorem Bit.mkConj_yields {arena : Arena} {x y : Bit} (hx : x.Fits arena)
    (hy : y.Fits arena) :
    NodeM.Yields (mkConj x y) arena fun later c =>
      c = .conj arena.length x (arena.length + 1) y ∧ c.Fits later := by
  have hle : arena <+: arena ++ [x.formula, y.formula] := List.prefix_append _ _
  have hlength : (mkConj x y arena.length).2 =
      (arena ++ [x.formula, y.formula]).length := by
    simp only [List.length_append, List.length_cons, List.length_nil]
    rfl
  have hnodeX : (arena ++ [x.formula, y.formula])[arena.length]? =
      some x.formula := by simp
  have hnodeY : (arena ++ [x.formula, y.formula])[arena.length + 1]? =
      some y.formula := by
    simp
  exact ⟨arena ++ [x.formula, y.formula], hle, hlength, rfl,
    ⟨hnodeX, hx.mono hle⟩, hnodeY, hy.mono hle⟩

end SymbolicMachine
