import SymbolicMachine.Proofs.Word.Subtraction

/-!
# Literal words

A bit in normal form without variables is a literal.  The operators bring in no
variables, so from literals they make literals.

The adder also keeps what is not literal: if one operand and the sum are
literals, the other operand is made of literals too.
-/

namespace SymbolicMachine

namespace Bit

theorem Normal.isLiteral_of_closed {b : Bit} (hnormal : b.Normal)
    (hclosed : ∀ v, ¬ b.Mentions v) : b.isLiteral = true := by
  induction b with
  | literal value => rfl
  | var v => exact absurd rfl (hclosed v)
  | neg node x ih =>
      have hopen := hnormal.1.isLiteral
      rw [ih hnormal.2 hclosed] at hopen
      cases hopen
  | conj nodeX x nodeY y ihx ihy =>
      have hopen := hnormal.1.1
      rw [ihx hnormal.1.2 fun v hv => hclosed v (.inl hv)] at hopen
      cases hopen

theorem wellFormed_closed_iff (arena : Arena) {b : Bit} :
    b.WellFormed arena (fun _ => False) ↔ b.isLiteral = true := by
  constructor
  · intro h
    exact h.normal.isLiteral_of_closed h.vars
  · intro h
    obtain ⟨value, rfl⟩ := exists_literal h
    exact wellFormed_literal value

private theorem normal_of_isLiteral {b : Bit} (h : b.isLiteral = true) :
    b.Normal := by
  obtain ⟨value, rfl⟩ := exists_literal h
  trivial

private theorem isLiteral_of_sameVars {x y : Bit} (hnormal : x.Normal)
    (hy : y.isLiteral = true) (hvars : x.SameVars y) : x.isLiteral = true := by
  obtain ⟨value, rfl⟩ := exists_literal hy
  exact hnormal.isLiteral_of_closed fun v hv => (hvars v).mp hv

end Bit

namespace Word

variable {arena : Arena}

theorem allLiteral_iff {w : Word} :
    w.allLiteral = true ↔ ∀ b ∈ w.bits, b.isLiteral = true :=
  List.all_eq_true

theorem bitsWellFormed_closed_iff (arena : Arena) {bits : List Bit} :
    BitsWellFormed arena (fun _ => False) bits ↔ ∀ b ∈ bits,
      b.isLiteral = true :=
  forall₂_congr fun _ _ => Bit.wellFormed_closed_iff arena

theorem WellFormed.allLiteral {w : Word}
    (h : w.WellFormed arena fun _ => False) :
    w.allLiteral = true :=
  allLiteral_iff.mpr ((bitsWellFormed_closed_iff arena).mp h.bits)

@[simp] theorem allLiteral_constant (value : UInt64) (n : Nat) :
    (constant value n).allLiteral = true := by
  simp [allLiteral, constant, ofBits, Bit.isLiteral, Bit.literal?]

/-! ## From literals to literals -/

theorem NotRel.allLiteral {w c : Word}
    (h : List.Forall₂ (NotRel arena) w.bits c.bits) (hw : w.allLiteral = true) :
    c.allLiteral = true := by
  rw [allLiteral_iff, ← bitsWellFormed_closed_iff arena] at hw ⊢
  exact NotRel.bitsWellFormed h hw

theorem Carried.allLiteral {a b w : Word}
    (h : Carried arena (.literal false) a.bits b.bits w.bits)
    (ha : a.allLiteral = true) (hb : b.allLiteral = true) :
    w.allLiteral = true := by
  rw [allLiteral_iff, ← bitsWellFormed_closed_iff arena] at ha hb ⊢
  exact h.wellFormed (Bit.wellFormed_literal false) ha hb

theorem Added.allLiteral {a b w : Word} {carry : Bit}
    (h : Added arena a.bits b.bits w.bits carry) (ha : a.allLiteral = true)
    (hb : b.allLiteral = true) :
    w.allLiteral = true ∧ carry.isLiteral = true := by
  rw [allLiteral_iff, ← bitsWellFormed_closed_iff arena] at ha hb ⊢
  rw [← Bit.wellFormed_closed_iff arena]
  exact h.wellFormed ha hb

theorem Negated.allLiteral {w c : Word} (h : Negated arena w c)
    (hw : w.allLiteral = true) :
    c.allLiteral = true := by
  obtain ⟨complement, carry, hnot, hadded⟩ := h
  exact (hadded.allLiteral (NotRel.allLiteral hnot hw)
    (allLiteral_constant 1 w.width)).1

/-! ## From a literal sum back to the operand -/

private theorem isLiteral_of_column {x y half carry sum : Bit} (hx : x.Normal)
    (hy : y.isLiteral = true) (hcarry : carry.isLiteral = true)
    (hhalf : XorRel arena x y half) (hsum : XorRel arena half carry sum)
    (hliteral : sum.isLiteral = true) :
    x.isLiteral = true := by
  have hhalfNormal := hhalf.normal hx (Bit.normal_of_isLiteral hy)
  have hhalfVars :=
    hsum.vars_of_literal hhalfNormal (Bit.normal_of_isLiteral hcarry) hliteral
  have hhalfLiteral := Bit.isLiteral_of_sameVars hhalfNormal hcarry hhalfVars
  apply Bit.isLiteral_of_sameVars hx hhalfLiteral
  intro v
  exact (hhalf.vars_of_literal_right hx hy v).symm

private theorem isLiteral_of_summed {carry : Bit}
    {xs ys halves carries sum : List Bit}
    (hcarried : Carried arena carry xs ys carries)
    (hhalved : Zipped (XorRel arena) xs ys halves)
    (hsummed : Zipped (XorRel arena) halves carries.dropLast sum)
    (hcarry : carry.isLiteral = true) (hxs : ∀ x ∈ xs, x.Normal)
    (hys : ∀ y ∈ ys, y.isLiteral = true)
    (hsum : ∀ s ∈ sum, s.isLiteral = true) :
    ∀ x ∈ xs, x.isLiteral = true := by
  induction hcarried generalizing halves sum with
  | nil carry => simp
  | @cons carry next x y xs ys carries hnext htail ih =>
      rw [List.dropLast_cons_of_ne_nil htail.ne_nil] at hsummed
      cases hhalved with
      | cons hhalf hhalves =>
          cases hsummed with
          | cons hcolumn hcolumns =>
              simp only [List.forall_mem_cons] at hxs hys hsum ⊢
              have hx :=
                isLiteral_of_column hxs.1 hys.1 hcarry hhalf hcolumn hsum.1
              refine ⟨hx, ih hhalves hcolumns ?_ hxs.2 hys.2 hsum.2⟩
              rw [← Bit.wellFormed_closed_iff arena] at hx hcarry ⊢
              have hy := (Bit.wellFormed_closed_iff arena).mpr hys.1
              exact hnext.wellFormed (by simp [hx, hy, hcarry])

theorem Added.allLiteral_left {vars : Var → Prop} {a b w : Word} {carry : Bit}
    (h : Added arena a.bits b.bits w.bits carry) (ha : a.WellFormed arena vars)
    (hb : b.allLiteral = true) (hw : w.allLiteral = true) :
    a.allLiteral = true := by
  obtain ⟨carries, halves, hcarried, hhalved, hsummed, _⟩ := h
  rw [allLiteral_iff] at hb hw ⊢
  exact isLiteral_of_summed hcarried hhalved hsummed rfl
    (fun x hx => (ha.bits x hx).normal) hb hw

end Word

end SymbolicMachine
