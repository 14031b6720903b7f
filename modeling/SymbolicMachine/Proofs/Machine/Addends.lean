import Mathlib.Data.Nat.ModEq
import SymbolicMachine.Architecture.Amd64
import SymbolicMachine.Proofs.Machine.Execution

/-!
# Constant addends

A word that was made by adding constants splits into a base and one constant.
The word is the base plus the total of the constants, modulo its width.  Of the
total, 64 bits are kept, which is all of it for words of up to 64 bits but can
be too little for wider ones.
-/

namespace SymbolicMachine

def Word.IsSum (w base : Word) (number : Nat) : Prop :=
  base.width = w.width ∧
    ∀ valuation,
    w.value valuation = (base.value valuation + number) % 2 ^ w.width

private theorem Word.IsSum.iff_modEq {w base : Word} {total number : Nat}
    (h : w.IsSum base total) :
    w.IsSum base number ↔ total ≡ number [MOD 2 ^ w.width] := by
  constructor
  · intro hnumber
    have hboth := (h.2 fun _ => false).symm.trans (hnumber.2 fun _ => false)
    exact Nat.ModEq.add_left_cancel' _ hboth
  · intro hmod
    refine ⟨h.1, fun valuation => ?_⟩
    rw [h.2 valuation]
    exact hmod.add_left _

/--
What is split off a word is the low 64 bits of a total that the word exceeds its
base by. The word is the sum of both parts exactly if the total has no more
bits, and so if the word has no more.
-/
theorem split_isSum_iff_total_lt {arch : Architecture} {session : Session}
    {pool : List Word} {machines : List Machine}
    (hreached : Machine.Reached arch session pool machines) {w base : Word}
    {constant : UInt64} (hw : w ∈ pool)
    (hsplit : w.splitAddend? = some (base, constant)) :
    ∃ total < 2 ^ w.width,
      w.IsSum base total ∧ constant.toNat = total % 2 ^ 64 ∧
      (w.IsSum base constant.toNat ↔ total < 2 ^ 64) ∧
      (w.width ≤ 64 → w.IsSum base constant.toNat) := by
  obtain ⟨arena, hpool, _⟩ := hreached.wellFormed
  have hword := hpool.wellFormed w hw
  obtain ⟨_, hwidth, _⟩ := Word.splitAddend?_sound hword hsplit
  obtain ⟨total, hlt, hconstant, htotal⟩ := Word.splitAddend?_total hword hsplit
  have hsum : w.IsSum base total := ⟨hwidth, htotal⟩
  have hexact : w.IsSum base constant.toNat ↔ total < 2 ^ 64 := by
    rw [hsum.iff_modEq, hconstant]
    constructor
    · intro hmod
      have heq := hmod.eq_of_lt_of_lt hlt (lt_of_le_of_lt (Nat.mod_le _ _) hlt)
      rw [heq]
      exact Nat.mod_lt _ (by decide)
    · intro hsmall
      rw [Nat.mod_eq_of_lt hsmall]
  refine ⟨total, hlt, hsum, hconstant, hexact, fun hnarrow => ?_⟩
  exact hexact.mpr
    (lt_of_lt_of_le hlt (Nat.pow_le_pow_right (by decide) hnarrow))

/-! ## Two constants -/

def addTwice (width : Nat) (first second : UInt64) : List Word.Step :=
  [.tagged 1 0 width, .constant first width, .constant second width,
    .pair .add 2 1, .pair .add 0 1]

private theorem exists_split_of_any {pool : List Word}
    {check : Word → Word × UInt64 → Bool}
    (h : (pool.any fun w => w.splitAddend?.any (check w)) = true) :
    ∃ w ∈ pool,
      ∃ split, w.splitAddend? = some split ∧ check w split = true := by
  obtain ⟨w, hw, hany⟩ := List.any_eq_true.mp h
  obtain ⟨split, hsplit, hcheck⟩ := (Option.any_eq_true _ _).mp hany
  exact ⟨w, hw, split, hsplit, hcheck⟩

theorem split_isSum_of_wrapping_byte :
    ∃ session pool w base, Machine.Reached Amd64.standard session pool [{}] ∧
      w ∈ pool ∧ w.splitAddend? = some (base, 0x10) ∧ w.width = 8 ∧
      w.IsSum base 0x10 := by
  have hcheck : SymM.endsWith (Word.build [] (addTwice 8 0xf0 0x20)) {}
      (fun pool _ =>
      pool.any fun w => w.splitAddend?.any fun split =>
        w.width == 8 && split.2 == 0x10) = true := by
    decide +kernel
  obtain ⟨session, pool, hreached, hany⟩ :=
    Machine.exists_reached Amd64.standard hcheck
  obtain ⟨w, hw, ⟨base, constant⟩, hsplit, hfound⟩ := exists_split_of_any hany
  simp only [Bool.and_eq_true, beq_iff_eq] at hfound
  obtain ⟨hwidth, rfl⟩ := hfound
  obtain ⟨_, _, _, _, _, hnarrow⟩ := split_isSum_iff_total_lt hreached hw hsplit
  exact ⟨session, pool, w, base, hreached, hw, hsplit, hwidth,
    hnarrow (by omega)⟩

/-- At 65 bits, two halves of `2 ^ 64` are folded into nothing. -/
theorem wide_addend_total_lost :
    ∃ session pool w base, Machine.Reached Amd64.standard session pool [{}] ∧
      w ∈ pool ∧ w.splitAddend? = some (base, 0) ∧ ¬ w.IsSum base 0 := by
  have hcheck : SymM.endsWith (Word.build []
      (addTwice 65 0x8000000000000000 0x8000000000000000)) {} (fun pool _ =>
      pool.any fun w => w.splitAddend?.any fun split => split.2 == 0 &&
        w.value (fun _ => false) != split.1.value (fun _ => false) %
          2 ^ w.width) = true := by
    decide +kernel
  obtain ⟨session, pool, hreached, hany⟩ :=
    Machine.exists_reached Amd64.standard hcheck
  obtain ⟨w, hw, ⟨base, constant⟩, hsplit, hfound⟩ := exists_split_of_any hany
  simp only [Bool.and_eq_true, beq_iff_eq, bne_iff_ne] at hfound
  obtain ⟨rfl, hvalue⟩ := hfound
  exact ⟨session, pool, w, base, hreached, hw, hsplit,
    fun hsum => hvalue (hsum.2 fun _ => false)⟩

end SymbolicMachine
