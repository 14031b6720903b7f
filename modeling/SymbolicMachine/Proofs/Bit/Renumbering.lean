import SymbolicMachine.Proofs.Bit.Operators

/-!
# Renumbering nodes

The operators look at node numbers only to compare them.  So it does not matter
from which number on new nodes are counted: a run that starts later makes the
same bits, with its own nodes moved up by the gap.  Nodes that were made before
keep their numbers.
-/

namespace SymbolicMachine

def moveNode (first gap node : Nat) : Nat :=
  if node < first then node else node + gap

private theorem moveNode_of_lt {first node : Nat} (gap : Nat)
    (h : node < first) :
    moveNode first gap node = node :=
  if_pos h

private theorem moveNode_of_le {first node : Nat} (gap : Nat)
    (h : first ≤ node) :
    moveNode first gap node = node + gap :=
  if_neg (not_lt.mpr h)

private theorem moveNode_inj {first gap m n : Nat} :
    moveNode first gap m = moveNode first gap n ↔ m = n := by
  unfold moveNode
  split <;> split <;> omega

namespace Bit

def move (first gap : Nat) : Bit → Bit
  | .literal value => .literal value
  | .var v => .var v
  | .neg node x => .neg (moveNode first gap node) (x.move first gap)
  | .conj nodeX x nodeY y =>
      .conj (moveNode first gap nodeX) (x.move first gap)
        (moveNode first gap nodeY) (y.move first gap)

variable {first gap : Nat}

@[simp] theorem literal?_move (b : Bit) :
    (b.move first gap).literal? = b.literal? := by
  cases b <;> rfl

@[simp] theorem formula_move (b : Bit) :
    (b.move first gap).formula = b.formula := by
  induction b with
  | literal value => rfl
  | var v => rfl
  | neg node x ih => rw [move, formula, formula, ih]
  | conj nodeX x nodeY y ihx ihy => rw [move, formula, formula, ihx, ihy]

theorem Fits.move_eq {arena : Arena} {b : Bit} (h : b.Fits arena) :
    b.move arena.length gap = b := by
  have hnode : ∀ {node : Nat} {f : Formula}, arena[node]? = some f →
      moveNode arena.length gap node = node :=
    fun hget => moveNode_of_lt gap (List.getElem?_eq_some_iff.mp hget).1
  induction b with
  | literal value => rfl
  | var v => rfl
  | neg node x ih => rw [move, hnode h.1, ih h.2]
  | conj nodeX x nodeY y ihx ihy =>
      rw [move, hnode h.1.1, hnode h.2.1, ihx h.1.2, ihy h.2.2]

/-! ## Identity -/

private theorem sameLeaf_move (x y : Bit) :
    sameLeaf (x.move first gap) (y.move first gap) = sameLeaf x y := by
  cases x <;> cases y <;> rfl

private theorem sameOperand_move (nodeX : Nat) (x : Bit) (nodeY : Nat)
    (y : Bit) :
    sameOperand (moveNode first gap nodeX) (x.move first gap)
      (moveNode first gap nodeY)
      (y.move first gap) = sameOperand nodeX x nodeY y := by
  have hnode : (moveNode first gap nodeX == moveNode first gap nodeY) =
      (nodeX == nodeY) := by
    rw [Bool.eq_iff_iff, beq_iff_eq, beq_iff_eq, moveNode_inj]
  rw [sameOperand, sameOperand, sameLeaf_move, hnode]

@[simp] theorem identical_move (x y : Bit) :
    (x.move first gap).identical (y.move first gap) = x.identical y := by
  cases x <;> cases y <;> simp only [move, identical, sameOperand_move]

@[simp] theorem negates_move (x y : Bit) :
    (x.move first gap).negates (y.move first gap) = x.negates y := by
  cases x <;> simp only [move, negates, identical_move]

end Bit

/-! ## Runs side by side -/

namespace NodeM

variable {α β γ δ : Type} {first gap : Nat}

/-- Started `gap` numbers later, `y` gives a result related to that of `x`. -/
def Parallel (first gap : Nat) (rel : α → β → Prop) (x : NodeM α)
    (y : NodeM β) : Prop :=
  ∀ next,
  first ≤ next → first ≤ (x next).2 ∧ (y (next + gap)).2 = (x next).2 + gap ∧
    rel (x next).1 (y (next + gap)).1

theorem parallel_pure {rel : α → β → Prop} {a : α} {b : β} (h : rel a b) :
    Parallel first gap rel (pure a) (pure b) :=
  fun _ hnext => ⟨hnext, rfl, h⟩

theorem Parallel.bind {rel : α → β → Prop} {rel' : γ → δ → Prop} {x : NodeM α}
    {y : NodeM β} {f : α → NodeM γ} {g : β → NodeM δ}
    (hx : Parallel first gap rel x y)
    (hf : ∀ a b, rel a b → Parallel first gap rel' (f a) (g b)) :
    Parallel first gap rel' (x >>= f) (y >>= g) := by
  intro next hnext
  obtain ⟨hmid, hcount, hrel⟩ := hx next hnext
  have hrest := hf _ _ hrel _ hmid
  change _ ∧ (g (y (next + gap)).1 (y (next + gap)).2).2 = _ ∧
    rel' _ (g (y (next + gap)).1 (y (next + gap)).2).1
  rw [hcount]
  exact hrest

theorem newNode_parallel :
    Parallel first gap (fun m n => n = moveNode first gap m) newNode
      newNode := by
  intro next hnext
  refine ⟨Nat.le_succ_of_le hnext, ?_, (moveNode_of_le gap hnext).symm⟩
  change next + gap + 1 = next + 1 + gap
  omega

end NodeM

namespace Bit

variable {first gap : Nat}

def Moved (first gap : Nat) (a b : Bit) : Prop :=
  b = a.move first gap

private theorem mkNeg_parallel (x : Bit) :
    NodeM.Parallel first gap (Moved first gap) (mkNeg x)
      (mkNeg (x.move first gap)) := by
  apply NodeM.newNode_parallel.bind
  rintro node _ rfl
  exact NodeM.parallel_pure rfl

private theorem mkConj_parallel (x y : Bit) :
    NodeM.Parallel first gap (Moved first gap) (mkConj x y)
      (mkConj (x.move first gap) (y.move first gap)) := by
  apply NodeM.newNode_parallel.bind
  rintro nodeX _ rfl
  apply NodeM.newNode_parallel.bind
  rintro nodeY _ rfl
  exact NodeM.parallel_pure rfl

theorem not_parallel (x : Bit) :
    NodeM.Parallel first gap (Moved first gap) x.not
      (x.move first gap).not := by
  cases x with
  | literal value => exact NodeM.parallel_pure rfl
  | var v => exact mkNeg_parallel (.var v)
  | neg node x => exact NodeM.parallel_pure rfl
  | conj nodeX x nodeY y => exact mkNeg_parallel (.conj nodeX x nodeY y)

theorem and_parallel (x y : Bit) :
    NodeM.Parallel first gap (Moved first gap) (x.and y)
      ((x.move first gap).and (y.move first gap)) := by
  simp only [Bit.and, identical_move, literal?_move, negates_move]
  split_ifs
  -- Seven simplifications, and the conjunction that none of them fits.
  iterate 7 exact NodeM.parallel_pure rfl
  exact mkConj_parallel x y

theorem or_parallel (x y : Bit) :
    NodeM.Parallel first gap (Moved first gap) (x.or y)
      ((x.move first gap).or (y.move first gap)) := by
  apply (not_parallel x).bind
  rintro notX _ rfl
  apply (not_parallel y).bind
  rintro notY _ rfl
  apply (and_parallel notX notY).bind
  rintro neither _ rfl
  exact not_parallel neither

private theorem xorOpen_parallel (x y : Bit) :
    NodeM.Parallel first gap (Moved first gap) (x.xorOpen y)
      ((x.move first gap).xorOpen (y.move first gap)) := by
  apply (not_parallel y).bind
  rintro notY _ rfl
  apply (and_parallel x notY).bind
  rintro onlyX _ rfl
  apply (not_parallel x).bind
  rintro notX _ rfl
  apply (and_parallel notX y).bind
  rintro onlyY _ rfl
  exact or_parallel onlyX onlyY

theorem xor_parallel (x y : Bit) :
    NodeM.Parallel first gap (Moved first gap) (x.xor y)
      ((x.move first gap).xor (y.move first gap)) := by
  cases x with
  | literal value =>
      cases value with
      | false => exact NodeM.parallel_pure rfl
      | true => exact not_parallel y
  | _ =>
      cases y with
      | literal value =>
          cases value with
          | false => exact NodeM.parallel_pure rfl
          | true => exact not_parallel _
      | _ => exact xorOpen_parallel _ _

theorem majority_parallel (x y z : Bit) :
    NodeM.Parallel first gap (Moved first gap) (x.majority y z)
      ((x.move first gap).majority (y.move first gap) (z.move first gap)) := by
  apply (and_parallel x y).bind
  rintro xy _ rfl
  apply (and_parallel x z).bind
  rintro xz _ rfl
  apply (and_parallel y z).bind
  rintro yz _ rfl
  apply (or_parallel xy xz).bind
  rintro either _ rfl
  exact or_parallel either yz

end Bit

end SymbolicMachine
