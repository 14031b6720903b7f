import SymbolicMachine.Proofs.Bit.Renumbering
import SymbolicMachine.Proofs.Word.Arithmetic
import SymbolicMachine.Proofs.Word.Expressions

/-!
# Sums and differences side by side

Words are added and subtracted with the same outcome now and later in a session,
up to the numbers of the nodes that this makes.
-/

namespace SymbolicMachine

/-! ## Lists of bits -/

namespace Word

variable {first gap : Nat}

def BitsMoved (first gap : Nat) (xs ys : List Bit) : Prop :=
  ys = xs.map (Bit.move first gap)

private theorem zipBits_parallel {op : Bit → Bit → NodeM Bit}
    (hop : ∀ x y, NodeM.Parallel first gap (Bit.Moved first gap) (op x y)
      (op (x.move first gap) (y.move first gap))) (xs ys : List Bit) :
    NodeM.Parallel first gap (BitsMoved first gap) (zipBits op xs ys)
      (zipBits op (xs.map (Bit.move first gap))
        (ys.map (Bit.move first gap))) := by
  induction xs generalizing ys with
  | nil => exact NodeM.parallel_pure rfl
  | cons x xs ih =>
      cases ys with
      | nil => exact NodeM.parallel_pure rfl
      | cons y ys =>
          apply (hop x y).bind
          rintro z _ rfl
          apply (ih ys).bind
          rintro zs _ rfl
          exact NodeM.parallel_pure rfl

private theorem carries_parallel (carry : Bit) (xs ys : List Bit) :
    NodeM.Parallel first gap (BitsMoved first gap) (carries carry xs ys)
      (carries (carry.move first gap) (xs.map (Bit.move first gap))
        (ys.map (Bit.move first gap))) := by
  induction xs generalizing carry ys with
  | nil => exact NodeM.parallel_pure rfl
  | cons x xs ih =>
      cases ys with
      | nil => exact NodeM.parallel_pure rfl
      | cons y ys =>
          apply (Bit.majority_parallel x y carry).bind
          rintro next _ rfl
          apply (ih next ys).bind
          rintro rest _ rfl
          exact NodeM.parallel_pure rfl

private theorem addBits_parallel (xs ys : List Bit) :
    NodeM.Parallel first gap (fun r s => BitsMoved first gap r.1 s.1)
      (addBits xs ys) (addBits (xs.map (Bit.move first gap))
        (ys.map (Bit.move first gap))) := by
  apply (carries_parallel (.literal false) xs ys).bind
  rintro carry _ rfl
  apply (zipBits_parallel Bit.xor_parallel xs ys).bind
  rintro halves _ rfl
  rw [← List.map_dropLast]
  apply (zipBits_parallel Bit.xor_parallel halves carry.dropLast).bind
  rintro sum _ rfl
  exact NodeM.parallel_pure rfl

private theorem mapNot_parallel (xs : List Bit) :
    NodeM.Parallel first gap (BitsMoved first gap) (xs.mapM Bit.not)
      ((xs.map (Bit.move first gap)).mapM Bit.not) := by
  induction xs with
  | nil => exact NodeM.parallel_pure rfl
  | cons x xs ih =>
      rw [List.map_cons, List.mapM_cons, List.mapM_cons]
      apply (Bit.not_parallel x).bind
      rintro notX _ rfl
      apply ih.bind
      rintro rest _ rfl
      exact NodeM.parallel_pure rfl

end Word

/-! ## Computations of a session -/

def Session.later (session : Session) (gap : Nat) : Session :=
  { session with nextNode := session.nextNode + gap }

namespace SymM

variable {α β γ δ : Type} {first gap : Nat}

def Parallel (first gap : Nat) (rel : α → β → Prop) (x : SymM α) (y : SymM β) :
    Prop :=
  ∀ session after a, first ≤ session.nextNode → x session = .ok a after →
    ∃ b, y (session.later gap) = .ok b (after.later gap) ∧
      first ≤ after.nextNode ∧ rel a b

theorem parallel_pure {rel : α → β → Prop} {a : α} {b : β} (h : rel a b) :
    Parallel first gap rel (pure a) (pure b) := by
  intro session after c hnext hrun
  cases hrun
  exact ⟨b, rfl, hnext, h⟩

private theorem parallel_ofNodeM {rel : α → β → Prop} {x : NodeM α}
    {y : NodeM β} (h : NodeM.Parallel first gap rel x y) :
    Parallel first gap rel (ofNodeM x) (ofNodeM y) := by
  intro session after a hnext hrun
  obtain ⟨hafter, hcount, hrel⟩ := h session.nextNode hnext
  cases hrun
  refine ⟨_, ?_, hafter, hrel⟩
  rw [ofNodeM_apply]
  simp only [Session.later, hcount]

theorem Parallel.bind {rel : α → β → Prop} {rel' : γ → δ → Prop} {x : SymM α}
    {y : SymM β} {f : α → SymM γ} {g : β → SymM δ}
    (hx : Parallel first gap rel x y)
    (hf : ∀ a b, rel a b → Parallel first gap rel' (f a) (g b)) :
    Parallel first gap rel' (x >>= f) (y >>= g) := by
  intro session last c hnext hrun
  obtain ⟨a, after, hfirst, hrest⟩ := bind_eq_ok.mp hrun
  obtain ⟨b, hfirst', hafter, hrel⟩ := hx session after a hnext hfirst
  obtain ⟨d, hrest', hlast, hrel'⟩ := hf a b hrel after last c hafter hrest
  exact ⟨d, bind_eq_ok.mpr ⟨b, _, hfirst', hrest'⟩, hlast, hrel'⟩

end SymM

/-! ## Words -/

namespace Word

variable {first gap : Nat}

def Moved (first gap : Nat) (a b : Word) : Prop :=
  BitsMoved first gap a.bits b.bits

theorem Moved.width_eq {a b : Word} (h : Moved first gap a b) :
    b.width = a.width := by
  rw [width, h, List.length_map]
  rfl

theorem Moved.sameExpressions {a b : Word} (h : Moved first gap a b) :
    b.SameExpressions a := by
  rw [SameExpressions, h, List.map_map]
  exact List.map_congr_left fun x _ => x.formula_move

private theorem constant_moved (value : UInt64) (n : Nat) :
    Moved first gap (constant value n) (constant value n) := by
  simp [Moved, BitsMoved, constant, ofBits, Bit.move]

private theorem requireSameWidth_parallel {a b c d : Word}
    (hac : Moved first gap a c) (hbd : Moved first gap b d) :
    SymM.Parallel first gap (fun _ _ => True) (requireSameWidth a b)
      (requireSameWidth c d) := by
  intro session after u hnext hrun
  by_cases hwidth : a.width = b.width
  · rw [requireSameWidth_eq hwidth] at hrun
    cases hrun
    refine ⟨(), ?_, hnext, trivial⟩
    rw [requireSameWidth_eq (by rw [hac.width_eq, hbd.width_eq, hwidth])]
    rfl
  · simp only [requireSameWidth, hwidth, if_false] at hrun
    cases hrun

private theorem add_parallel {a b c d : Word} (hac : Moved first gap a c)
    (hbd : Moved first gap b d) :
    SymM.Parallel first gap (Moved first gap) (a.add b) (c.add d) := by
  apply (requireSameWidth_parallel hac hbd).bind
  intro _ _ _
  rw [hac, hbd]
  apply (SymM.parallel_ofNodeM (addBits_parallel a.bits b.bits)).bind
  rintro ⟨sum, carry⟩ ⟨sum', carry'⟩ hsum
  apply SymM.parallel_pure
  simp only [Moved, bits_ofSum]
  exact hsum

private theorem neg_parallel {w c : Word} (h : Moved first gap w c) :
    SymM.Parallel first gap (Moved first gap) w.neg c.neg := by
  have hnot : NodeM.Parallel first gap (Moved first gap) w.not c.not := by
    unfold Word.not
    rw [h]
    apply (mapNot_parallel w.bits).bind
    rintro bits _ rfl
    exact NodeM.parallel_pure rfl
  apply (SymM.parallel_ofNodeM hnot).bind
  intro complement complement' hcomplement
  rw [h.width_eq]
  exact add_parallel hcomplement (constant_moved 1 w.width)

theorem sub_parallel {a b c d : Word} (hac : Moved first gap a c)
    (hbd : Moved first gap b d) :
    SymM.Parallel first gap (Moved first gap) (a.sub b) (c.sub d) := by
  apply (requireSameWidth_parallel hac hbd).bind
  intro _ _ _
  apply (neg_parallel hbd).bind
  intro negated negated' hnegated
  exact add_parallel hac hnegated

theorem WellFormed.moved {arena : Arena} {vars : Var → Prop} {w : Word}
    (h : w.WellFormed arena vars) (gap : Nat) : Moved arena.length gap w w :=
  (List.map_congr_left fun b hb => (h.bits b hb).fits.move_eq).trans
    (List.map_id _) |>.symm

end Word

end SymbolicMachine
