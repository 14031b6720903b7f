import SymbolicMachine.Proofs.Bit.Operators

/-!
# What holds of every bit that is built

Every operator ends in a literal, in an operand, in the operand of a negation,
or in a new negation or conjunction.  A condition that these few steps keep is
kept by all operators, and so holds of every bit that they make from literals
and variables.  The normal form is one.
-/

namespace SymbolicMachine

namespace Bit

/--
The condition holds of literals, and the steps that simplification takes keep
it.
-/
structure Closed (good : Bit → Prop) : Prop where
  literal : ∀ value, good (.literal value)
  neg : ∀ {x : Bit} (node : Nat), x.Plain → good x → good (.neg node x)
  operand : ∀ {x : Bit} (node : Nat), good (.neg node x) → good x
  conj : ∀ {x y : Bit} (nodeX nodeY : Nat),
  x.isLiteral = false → y.isLiteral = false →
    good x → good y → good (.conj nodeX x nodeY y)

namespace Closed

variable {good : Bit → Prop} {a b c x : Bit}

theorem not (h : Closed good) (hx : good x) : NodeM.Ensures x.not good := by
  intro first
  cases x with
  | literal value => exact h.literal _
  | neg node x => exact h.operand node hx
  | var v => exact h.neg first trivial hx
  | conj => exact h.neg first trivial hx

theorem and (h : Closed good) (ha : good a) (hb : good b) :
    NodeM.Ensures (a.and b) good := by
  rcases and_cases a b with ⟨_, heq⟩ | ⟨_, heq⟩ | ⟨_, heq⟩ | ⟨_, heq⟩ | ⟨_,
    heq⟩ | ⟨_, heq⟩ |
    ⟨haopen, hbopen, heq⟩ <;> rw [heq]
  · exact NodeM.ensures_pure ha
  · exact NodeM.ensures_pure (h.literal false)
  · exact NodeM.ensures_pure hb
  · exact NodeM.ensures_pure (h.literal false)
  · exact NodeM.ensures_pure ha
  · exact NodeM.ensures_pure (h.literal false)
  · exact fun first => h.conj first (first + 1) haopen hbopen ha hb

theorem or (h : Closed good) (ha : good a) (hb : good b) :
    NodeM.Ensures (a.or b) good :=
  (h.not ha).bind fun _ hnotA => (h.not hb).bind fun _ hnotB =>
    (h.and hnotA hnotB).bind fun _ hneither => h.not hneither

theorem xorOpen (h : Closed good) (ha : good a) (hb : good b) :
    NodeM.Ensures (a.xorOpen b) good :=
  (h.not hb).bind fun _ hnotB => (h.and ha hnotB).bind fun _ honlyA =>
    (h.not ha).bind fun _ hnotA => (h.and hnotA hb).bind fun _ honlyB =>
      h.or honlyA honlyB

theorem xor (h : Closed good) (ha : good a) (hb : good b) :
    NodeM.Ensures (a.xor b) good := by
  rcases xor_cases a b with ⟨value, _, heq⟩ | ⟨value, _, heq⟩ | ⟨_, _, heq⟩ <;>
    rw [heq]
  · cases value
    · exact NodeM.ensures_pure hb
    · exact h.not hb
  · cases value
    · exact NodeM.ensures_pure ha
    · exact h.not ha
  · exact h.xorOpen ha hb

theorem equals (h : Closed good) (ha : good a) (hb : good b) :
    NodeM.Ensures (a.equals b) good :=
  (h.and ha hb).bind fun _ hboth => (h.not ha).bind
    fun _ hnotA => (h.not hb).bind fun _ hnotB =>
    (h.and hnotA hnotB).bind fun _ hneither => h.or hboth hneither

theorem select (h : Closed good) (hc : good c) (ha : good a) (hb : good b) :
    NodeM.Ensures (c.select a b) good :=
  (h.and hc ha).bind fun _ htrue => (h.not hc).bind fun _ hnot =>
    (h.and hnot hb).bind fun _ hfalse => h.or htrue hfalse

theorem majority (h : Closed good) (ha : good a) (hb : good b) (hc : good c) :
    NodeM.Ensures (a.majority b c) good :=
  (h.and ha hb).bind fun _ hab => (h.and ha hc).bind
    fun _ hac => (h.and hb hc).bind fun _ hbc =>
    (h.or hab hac).bind fun _ hany => h.or hany hbc

end Closed

/-- The bits that the operators make, whatever the numbers of the nodes. -/
inductive Obtained : Bit → Prop
  | literal (value : Bool) : Obtained (.literal value)
  | var (v : Var) : Obtained (.var v)
  | not {x : Bit} (next : Nat) : Obtained x → Obtained (x.not next).1
  | and {a b : Bit} (next : Nat) : Obtained a → Obtained b →
      Obtained (a.and b next).1
  | or {a b : Bit} (next : Nat) : Obtained a → Obtained b →
      Obtained (a.or b next).1
  | xor {a b : Bit} (next : Nat) : Obtained a → Obtained b →
      Obtained (a.xor b next).1
  | equals {a b : Bit} (next : Nat) : Obtained a → Obtained b →
      Obtained (a.equals b next).1
  | select {c a b : Bit} (next : Nat) : Obtained c → Obtained a → Obtained b →
      Obtained (c.select a b next).1
  | majority {a b c : Bit} (next : Nat) : Obtained a → Obtained b → Obtained c →
      Obtained (a.majority b c next).1

private theorem Closed.of_obtained {good : Bit → Prop} (h : Closed good)
    (hvar : ∀ v, good (.var v)) {b : Bit} (hb : b.Obtained) : good b := by
  induction hb with
  | literal value => exact h.literal value
  | var v => exact hvar v
  | not next _ ih => exact h.not ih next
  | and next _ _ iha ihb => exact h.and iha ihb next
  | or next _ _ iha ihb => exact h.or iha ihb next
  | xor next _ _ iha ihb => exact h.xor iha ihb next
  | equals next _ _ iha ihb => exact h.equals iha ihb next
  | select next _ _ _ ihc iha ihb => exact h.select ihc iha ihb next
  | majority next _ _ _ iha ihb ihc => exact h.majority iha ihb ihc next

private theorem closed_normal : Closed Normal where
  literal := fun _ => trivial
  neg := fun _ hplain hx => ⟨hplain, hx⟩
  operand := fun _ hx => hx.2
  conj := fun _ _ hxopen hyopen hx hy => ⟨⟨hxopen, hx⟩, hyopen, hy⟩

theorem Obtained.normal {b : Bit} (h : b.Obtained) : b.Normal :=
  closed_normal.of_obtained (fun _ => trivial) h

end Bit

end SymbolicMachine
