import SymbolicMachine.Proofs.Word.Arithmetic

/-!
# Shifts by a word

Each bit of the amount chooses between the word so far and the word shifted by a
power of two.  Shifts compose by adding their amounts, so the stages together
shift by the value of the amount.
-/

namespace SymbolicMachine

namespace Bit

structure Kept (good : Arena → Bit → Prop) : Prop where
  fits : ∀ {arena b}, good arena b → b.Fits arena
  mono : ∀ {arena later b}, arena <+: later → good arena b → good later b
  literal : ∀ arena value, good arena (.literal value)
  built : ∀ {arena operands meaning b}, BuiltFrom arena operands meaning b →
    (∀ x ∈ operands, good arena x) → good arena b

theorem kept_fits : Kept fun arena b => b.Fits arena where
  fits := id
  mono := fun hle => Fits.mono hle
  literal := fits_literal
  built := fun h _ => h.fits

private theorem kept_wellFormed (vars : Var → Prop) :
    Kept fun arena b => b.WellFormed arena vars where
  fits := WellFormed.fits
  mono := fun hle => WellFormed.mono hle
  literal := fun _ => wellFormed_literal
  built := BuiltFrom.wellFormed

end Bit

namespace Word

structure ShiftLaw (shift : List Bit → Nat → List Bit)
    (act : Nat → Nat → Nat → Nat) : Prop where
  length_eq : ∀ bits amount, (shift bits amount).length = bits.length
  mem : ∀ bits amount, ∀ b ∈ shift bits amount, b ∈ bits ∨ b = .literal false
  value_eq : ∀ valuation bits amount,
    natOfBits ((shift bits amount).map (Bit.eval valuation)) =
      act bits.length (natOfBits (bits.map (Bit.eval valuation))) amount
  act_zero : ∀ width x, x < 2 ^ width → act width x 0 = x
  act_add : ∀ width x first second,
    act width (act width x first) second = act width x (first + second)

theorem shiftLeft_law :
    ShiftLaw shiftLeftBits fun width x amount => (x <<< amount) %
      2 ^ width where
  length_eq := length_shiftLeftBits
  mem := by
    intro bits amount b hb
    rcases List.mem_append.mp hb with hb | hb
    · exact .inr (List.eq_of_mem_replicate hb)
    · exact .inl (List.mem_of_mem_take hb)
  value_eq := natOfBits_shiftLeftBits
  act_zero := by
    intro width x hx
    rw [Nat.shiftLeft_zero, Nat.mod_eq_of_lt hx]
  act_add := by
    intro width x first second
    calc
      (((x <<< first) % 2 ^ width) <<< second) % 2 ^ width
          = ((x <<< first) * 2 ^ second) % 2 ^ width := by
            rw [Nat.shiftLeft_eq _ second, Nat.mod_mul_mod]
      _ = (x <<< (first + second)) % 2 ^ width := by
        rw [Nat.shiftLeft_add, Nat.shiftLeft_eq _ second]

theorem shiftRight_law :
    ShiftLaw shiftRightBits fun _ x amount => x >>> amount where
  length_eq := length_shiftRightBits
  mem := by
    intro bits amount b hb
    rcases List.mem_append.mp hb with hb | hb
    · exact .inl (List.mem_of_mem_drop hb)
    · exact .inr (List.eq_of_mem_replicate hb)
  value_eq := natOfBits_shiftRightBits
  act_zero := fun _ _ _ => rfl
  act_add := fun _ x first second => (Nat.shiftRight_add x first second).symm

variable {arena : Arena} {vars : Var → Prop} {good : Arena → Bit → Prop}

private theorem zipWith_ite (choice : Bool) {xs ys : List Bool}
    (hlength : xs.length = ys.length) :
    List.zipWith (fun x y => if choice then x else y) xs ys =
      if choice then xs else ys := by
  induction xs generalizing ys with
  | nil =>
      obtain rfl : ys = [] := List.length_eq_zero_iff.mp hlength.symm
      simp
  | cons x xs ih =>
      cases ys with
      | nil => simp at hlength
      | cons y ys =>
          rw [List.zipWith_cons_cons, ih (by simpa using hlength)]
          cases choice <;> rfl

private theorem shiftStage_yields (kept : Bit.Kept good)
    {shift : List Bit → Nat → List Bit} {act : Nat → Nat → Nat → Nat}
    (law : ShiftLaw shift act) (amount : Nat) {selector : Bit} {bits : List Bit}
    (hselector : good arena selector) (hbits : ∀ b ∈ bits, good arena b) :
    NodeM.Yields (do
        let keep ← selector.not
        zipBits keep.select bits (shift bits amount)) arena fun later chosen =>
      (∀ b ∈ chosen, good later b) ∧ chosen.length = bits.length ∧
        ∀ valuation, natOfBits (chosen.map (Bit.eval valuation)) =
          act bits.length (natOfBits (bits.map (Bit.eval valuation)))
            (amount * (selector.eval valuation).toNat) := by
  refine (Bit.not_yields (kept.fits hselector)).bind
    fun arena₁ keep hle₁ ⟨hkeep, _⟩ => ?_
  have hshifted : ∀ b ∈ shift bits amount, good arena b := by
    intro b hb
    rcases law.mem bits amount b hb with hmem | rfl
    · exact hbits b hmem
    · exact kept.literal arena false
  have hzip := zipBits_yields
    (fun hle hx hy => Bit.select_yields (hkeep.fits.mono hle) hx hy)
    (fun hle h => h.mono hle) (law.length_eq bits amount).symm
    (fun b hb => (kept.fits (hbits b hb)).mono hle₁)
    (fun b hb => (kept.fits (hshifted b hb)).mono hle₁)
  refine hzip.mono fun later chosen hle hchosen => ⟨?_, hchosen.length_eq,
    fun valuation => ?_⟩
  · have hgood : ∀ {b}, good arena b → good later b :=
      kept.mono (hle₁.trans hle)
    have hkeepGood : good later keep :=
      kept.mono hle (kept.built hkeep (by simpa using kept.mono hle₁ hselector))
    refine hchosen.forall_result (fun b hb => hgood (hbits b hb))
      (fun b hb => hgood (hshifted b hb)) fun x y z hz hx hy => ?_
    exact kept.built hz (by simp [hkeepGood, hx, hy])
  · have hmap := hchosen.map_eval valuation fun x y z hz => hz.eval_eq valuation
    have hlength : (bits.map (Bit.eval valuation)).length =
        ((shift bits amount).map (Bit.eval valuation)).length := by
      simp [law.length_eq]
    rw [hmap, zipWith_ite _ hlength, hkeep.eval_eq]
    cases selector.eval valuation with
    | false =>
        have hlt := natOfBits_lt (bits.map (Bit.eval valuation))
        rw [List.length_map] at hlt
        rw [Bool.toNat_false, Nat.mul_zero, law.act_zero _ _ hlt]
        rfl
    | true =>
        rw [Bool.toNat_true, Nat.mul_one, ← law.value_eq]
        rfl

theorem shiftStages_yields (kept : Bit.Kept good)
    {shift : List Bit → Nat → List Bit} {act : Nat → Nat → Nat → Nat}
    (law : ShiftLaw shift act) {amount : Nat} {selectors bits : List Bit}
    (hselectors : ∀ b ∈ selectors, good arena b)
    (hbits : ∀ b ∈ bits, good arena b) :
    NodeM.Yields (shiftStages shift amount selectors bits) arena
      fun later result =>
      (∀ b ∈ result, good later b) ∧ result.length = bits.length ∧
        ∀ valuation, natOfBits (result.map (Bit.eval valuation)) =
          act bits.length (natOfBits (bits.map (Bit.eval valuation)))
            (amount * natOfBits (selectors.map (Bit.eval valuation))) := by
  induction selectors generalizing arena amount bits with
  | nil =>
      refine NodeM.yields_pure ⟨hbits, rfl, fun valuation => ?_⟩
      have hlt := natOfBits_lt (bits.map (Bit.eval valuation))
      rw [List.length_map] at hlt
      rw [List.map_nil, natOfBits_nil, Nat.mul_zero, law.act_zero _ _ hlt]
  | cons selector selectors ih =>
      simp only [List.forall_mem_cons] at hselectors
      have hstage := shiftStage_yields kept law amount hselectors.1 hbits
      have hsplit : shiftStages shift amount (selector :: selectors) bits = (do
          let keep ← selector.not
          zipBits keep.select bits (shift bits amount)) >>=
            shiftStages shift (2 * amount) selectors := by
        simp only [shiftStages, bind_assoc]
      rw [hsplit]
      refine hstage.bind fun arena₁ chosen hle₁ ⟨hchosen, hlength, hvalue⟩ => ?_
      refine (ih (fun b hb => kept.mono hle₁ (hselectors.2 b hb)) hchosen).mono
        fun later result _ ⟨hresult, hlength', hvalue'⟩ => ?_
      refine ⟨hresult, hlength'.trans hlength, fun valuation => ?_⟩
      rw [hvalue', hvalue, hlength, law.act_add, List.map_cons, natOfBits_cons]
      congr 1
      ring

theorem shiftLeftBy_yields {w amount : Word} (hw : w.WellFormed arena vars)
    (hamount : amount.WellFormed arena vars) :
    NodeM.Yields (w.shiftLeftBy amount) arena fun later c =>
      c.WellFormed later vars ∧ c.width = w.width ∧
        ∀ valuation, c.value valuation =
          (w.value valuation <<< amount.value valuation) % 2 ^ w.width := by
  refine (shiftStages_yields (Bit.kept_wellFormed vars) shiftLeft_law
    hamount.bits hw.bits).bind fun later bits hle ⟨hbits, hlength, hvalue⟩ => ?_
  refine NodeM.yields_pure ⟨(hw.mono hle).withBits hbits, hlength,
    fun valuation => ?_⟩
  have h := hvalue valuation
  rw [Nat.one_mul] at h
  exact h

theorem shiftRightBy_yields {w amount : Word} (hw : w.WellFormed arena vars)
    (hamount : amount.WellFormed arena vars) :
    NodeM.Yields (w.shiftRightBy amount) arena fun later c =>
      c.WellFormed later vars ∧ c.width = w.width ∧
        ∀ valuation,
          c.value valuation = w.value valuation >>> amount.value valuation := by
  refine (shiftStages_yields (Bit.kept_wellFormed vars) shiftRight_law
    hamount.bits hw.bits).bind fun later bits hle ⟨hbits, hlength, hvalue⟩ => ?_
  refine NodeM.yields_pure ⟨(hw.mono hle).withBits hbits, hlength,
    fun valuation => ?_⟩
  have h := hvalue valuation
  rw [Nat.one_mul] at h
  exact h

end Word

end SymbolicMachine
