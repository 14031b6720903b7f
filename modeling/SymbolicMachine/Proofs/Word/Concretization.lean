import SymbolicMachine.Proofs.Machine.Operations
import SymbolicMachine.Proofs.Word.Expressions
import SymbolicMachine.Proofs.Word.Literals

/-!
# Concrete values of words

A word is read into a number of limited size from its least significant bit on.
A bit offends if it is not literal, or if it is a one at a position that the
number does not have.  The first bit that offends decides the error; without
one, the word is the number, and the constant of that number is the word.
-/

namespace SymbolicMachine

namespace Bit

def Offends (maxBits index : Nat) (b : Bit) : Prop :=
  b.isLiteral = false ∨ b = .literal true ∧ maxBits ≤ index

private theorem offends_literal_iff {maxBits index : Nat} {value : Bool} :
    (literal value).Offends maxBits index ↔ value = true ∧ maxBits ≤ index := by
  simp [Offends, isLiteral, literal?]

def offence (maxBits index : Nat) (b : Bit) : ConcretizeError :=
  if b.isLiteral then .overflow maxBits else .nonLiteralBit index

end Bit

namespace Word

/-! ## One bit -/

private theorem concretizeFrom_of_offends {maxBits index : Nat} {b : Bit}
    (h : b.Offends maxBits index) (bits : List Bit) :
    concretizeFrom maxBits index (b :: bits) =
      .error (b.offence maxBits index) := by
  rcases h with hopen | ⟨rfl, hindex⟩
  · cases b with
    | literal value => cases hopen
    | _ => rfl
  · rw [concretizeFrom, if_neg (Nat.not_lt.mpr hindex)]
    rfl

private theorem concretizeFrom_of_not_offends {maxBits index : Nat} {b : Bit}
    (h : ¬ b.Offends maxBits index) (bits : List Bit) :
    ∃ step : Nat → Nat, concretizeFrom maxBits index (b :: bits) =
      (concretizeFrom maxBits (index + 1) bits).map step := by
  cases b with
  | literal value =>
      cases value with
      | false => exact ⟨_, rfl⟩
      | true =>
          have hindex : index < maxBits := by
            simpa [Bit.offends_literal_iff] using h
          exact ⟨fun rest =>
            1 + 2 * rest, by rw [concretizeFrom, if_pos hindex]⟩
  | _ => exact absurd (.inl rfl) h

private theorem map_eq_error_iff {ε α β : Type} {x : Except ε α} {f : α → β}
    {e : ε} :
    x.map f = .error e ↔ x = .error e := by
  cases x <;> simp [Except.map]

/-! ## Errors -/

/--
Bit `i` of a list that starts at position `index` is the first one that offends.
-/
structure FirstOffence (maxBits index : Nat) (bits : List Bit) (i : Nat)
    (b : Bit) : Prop where
  bit : bits[i]? = some b
  offends : b.Offends maxBits (index + i)
  lowest : ∀ j < i, ∀ c, bits[j]? = some c → ¬ c.Offends maxBits (index + j)

private theorem firstOffence_of_offends {maxBits index : Nat} {b : Bit}
    (h : b.Offends maxBits index) {bits : List Bit} {i : Nat} {c : Bit} :
    FirstOffence maxBits index (b :: bits) i c ↔ i = 0 ∧ c = b := by
  constructor
  · intro hfirst
    have hzero : i = 0 := by
      by_contra hi
      exact hfirst.lowest 0 (Nat.pos_of_ne_zero hi) b rfl h
    subst hzero
    exact ⟨rfl, (Option.some.inj hfirst.bit).symm⟩
  · rintro ⟨rfl, rfl⟩
    exact ⟨rfl, h, fun j hj => absurd hj (Nat.not_lt_zero j)⟩

private theorem firstOffence_of_not_offends {maxBits index : Nat} {b : Bit}
    (h : ¬ b.Offends maxBits index) {bits : List Bit} {i : Nat} {c : Bit} :
    FirstOffence maxBits index (b :: bits) i c ↔
      ∃ k, i = k + 1 ∧ FirstOffence maxBits (index + 1) bits k c := by
  constructor
  · intro hfirst
    cases i with
    | zero =>
        obtain rfl : b = c := Option.some.inj hfirst.bit
        exact absurd hfirst.offends h
    | succ k =>
        refine ⟨k, rfl, hfirst.bit, ?_, fun j hj d hd => ?_⟩
        · rw [Nat.add_right_comm]
          exact hfirst.offends
        · rw [Nat.add_right_comm]
          exact hfirst.lowest (j + 1) (Nat.succ_lt_succ hj) d hd
  · rintro ⟨k, rfl, hfirst⟩
    refine ⟨hfirst.bit, ?_, fun j hj d hd => ?_⟩
    · rw [← Nat.add_assoc, Nat.add_right_comm]
      exact hfirst.offends
    · cases j with
      | zero =>
          obtain rfl : b = d := Option.some.inj hd
          exact h
      | succ j =>
          rw [← Nat.add_assoc, Nat.add_right_comm]
          exact hfirst.lowest j (Nat.lt_of_succ_lt_succ hj) d hd

private theorem concretizeFrom_eq_error_iff {maxBits index : Nat}
    {bits : List Bit} {e : ConcretizeError} :
    concretizeFrom maxBits index bits = .error e ↔
      ∃ i b, FirstOffence maxBits index bits i b ∧
        e = b.offence maxBits (index + i) := by
  induction bits generalizing index with
  | nil =>
      constructor
      · intro h
        cases h
      · rintro ⟨i, b, hfirst, _⟩
        simpa using hfirst.bit
  | cons b bits ih =>
      by_cases hoffends : b.Offends maxBits index
      · rw [concretizeFrom_of_offends hoffends]
        constructor
        · intro h
          cases h
          exact ⟨0, b, (firstOffence_of_offends hoffends).mpr ⟨rfl, rfl⟩, rfl⟩
        · rintro ⟨i, c, hfirst, rfl⟩
          obtain ⟨rfl, rfl⟩ := (firstOffence_of_offends hoffends).mp hfirst
          rfl
      · obtain ⟨step, hstep⟩ := concretizeFrom_of_not_offends hoffends bits
        rw [hstep, map_eq_error_iff, ih]
        constructor
        · rintro ⟨k, c, hfirst, rfl⟩
          refine ⟨k + 1, c, (firstOffence_of_not_offends hoffends).mpr ⟨k, rfl,
            hfirst⟩, ?_⟩
          rw [Nat.add_right_comm, Nat.add_assoc]
        · rintro ⟨i, c, hfirst, rfl⟩
          obtain ⟨k, rfl, hrest⟩ :=
            (firstOffence_of_not_offends hoffends).mp hfirst
          refine ⟨k, c, hrest, ?_⟩
          rw [Nat.add_right_comm, Nat.add_assoc]

/-! ## Numbers -/

theorem concretize_eq_ok_iff {w : Word} {maxBits x : Nat} :
    w.concretize maxBits = .ok x ↔
      w.allLiteral = true ∧ (∀ valuation, w.value valuation = x) ∧
        x < 2 ^ maxBits := by
  rw [allLiteral_iff]
  constructor
  · intro h
    obtain ⟨hliteral, hlt, hvalue⟩ := concretizeFrom_ok h
    exact ⟨hliteral, hvalue, hlt⟩
  · rintro ⟨hliteral, hvalue, hlt⟩
    let nothing : Valuation := fun _ => false
    have hbound : 2 ^ 0 * natOfBits (w.bits.map (Bit.eval nothing)) <
        2 ^ maxBits := by
      rw [Nat.pow_zero, Nat.one_mul]
      exact lt_of_eq_of_lt (hvalue nothing) hlt
    obtain ⟨y, hy⟩ := concretizeFrom_of_literal hliteral nothing hbound
    have hsame : y = x :=
      ((concretizeFrom_ok hy).2.2 nothing).symm.trans (hvalue nothing)
    rw [concretize, hy, hsame]

private theorem toUInt64?_eq_some_iff {w : Word} {x : UInt64} :
    w.toUInt64? = some x ↔ w.concretize 64 = .ok x.toNat := by
  unfold toUInt64?
  cases hread : w.concretize 64 with
  | error e => simp
  | ok y =>
      have hlt := (concretize_eq_ok_iff.mp hread).2.2
      have hback : (UInt64.ofNat y).toNat = y := by
        rw [UInt64.toNat_ofNat', Nat.mod_eq_of_lt hlt]
      simp only [Option.some.injEq, Except.ok.injEq]
      rw [← UInt64.toNat_inj, hback]

private theorem concretize_constant (value : UInt64) (width : Nat) :
    (constant value width).concretize 64 =
      .ok (value.toNat % 2 ^ min width 64) := by
  have hmin : value.toNat % 2 ^ width = value.toNat % 2 ^ min width 64 := by
    rcases Nat.le_total width 64 with hle | hle
    · rw [Nat.min_eq_left hle]
    · have hlt : value.toNat < 2 ^ width :=
        lt_of_lt_of_le value.toNat_lt (Nat.pow_le_pow_right (by decide) hle)
      rw [Nat.min_eq_right hle]
      calc
        value.toNat % 2 ^ width = value.toNat := Nat.mod_eq_of_lt hlt
        _ = value.toNat % 2 ^ 64 := (Nat.mod_eq_of_lt value.toNat_lt).symm
  refine concretize_eq_ok_iff.mpr ⟨allLiteral_constant value width,
    fun valuation => ?_, ?_⟩
  · rw [value_constant, hmin]
  · exact lt_of_le_of_lt (Nat.mod_le _ _) value.toNat_lt

private theorem bits_constant_of_concretize {w : Word} {maxBits x : Nat}
    (hmax : maxBits ≤ 64) (h : w.concretize maxBits = .ok x) :
    (constant (.ofNat x) w.width).bits = w.bits := by
  obtain ⟨hliteral, hvalue, hlt⟩ := concretize_eq_ok_iff.mp h
  have hback : (UInt64.ofNat x).toNat = x := by
    rw [UInt64.toNat_ofNat', Nat.mod_eq_of_lt]
    exact lt_of_lt_of_le hlt (Nat.pow_le_pow_right (by decide) hmax)
  apply bits_eq_of_bitAt (width_constant _ _)
  intro i hi
  rw [width_constant] at hi
  obtain ⟨value, hbit⟩ := Bit.exists_literal
    (allLiteral_iff.mp hliteral _ (List.mem_of_getElem? (getElem?_bits hi)))
  have htest := testBit_value (fun _ => false) w i
  rw [hvalue, getElem?_bits hi, hbit] at htest
  rw [bitAt_constant _ hi, hback, hbit, htest]
  rfl

/--
A word is read into `maxBits` bits exactly if its bits are literal and its value
fits, and then as its value.  Otherwise the lowest bit that is not literal, or
that is a one out of range, tells the error.  Constants are read back, cut to
their width, and a word that was read is the constant of its value.
-/
theorem concretization_exact (w : Word) :
    (∀ maxBits x, w.concretize maxBits = .ok x ↔
      (∀ b ∈ w.bits, b.isLiteral = true) ∧
        (∀ valuation, w.value valuation = x) ∧
        x < 2 ^ maxBits) ∧
    (∀ maxBits e, w.concretize maxBits = .error e ↔
      ∃ i b, w.bits[i]? = some b ∧
        (∀ j < i, ∀ c, w.bits[j]? = some c →
          c = .literal false ∨ c = .literal true ∧ j < maxBits) ∧
        (b.isLiteral = false ∧ e = .nonLiteralBit i ∨
          b = .literal true ∧ maxBits ≤ i ∧ e = .overflow maxBits)) ∧
    (∀ x : UInt64, w.toUInt64? = some x ↔ w.concretize 64 = .ok x.toNat) ∧
    (∀ (value : UInt64) (width : Nat),
      (constant value width).concretize 64 =
        .ok (value.toNat % 2 ^ min width 64)) ∧
    ∀ maxBits ≤ 64, ∀ x, w.concretize maxBits = .ok x →
      (constant (.ofNat x) w.width).bits = w.bits := by
  have hkept : ∀ {maxBits j : Nat} {c : Bit}, ¬ c.Offends maxBits j ↔
      c = .literal false ∨ c = .literal true ∧ j < maxBits := by
    intro maxBits j c
    cases c with
    | literal value => cases value <;> simp [Bit.offends_literal_iff]
    | _ => simp [Bit.Offends, Bit.isLiteral, Bit.literal?]
  refine ⟨fun maxBits x => ?_, fun maxBits e => ?_,
    fun x => toUInt64?_eq_some_iff, concretize_constant, fun maxBits hmax x =>
      bits_constant_of_concretize hmax⟩
  · rw [concretize_eq_ok_iff, allLiteral_iff]
  · rw [concretize, concretizeFrom_eq_error_iff]
    constructor
    · rintro ⟨i, b, ⟨hbit, hoffends, hlowest⟩, rfl⟩
      simp only [Nat.zero_add] at hoffends hlowest ⊢
      refine ⟨i, b, hbit, fun j hj c hc => hkept.mp (hlowest j hj c hc), ?_⟩
      rcases hoffends with hopen | ⟨rfl, hindex⟩
      · exact .inl ⟨hopen, by simp [Bit.offence, hopen]⟩
      · exact .inr ⟨rfl, hindex, rfl⟩
    · rintro ⟨i, b, hbit, hlowest, herror⟩
      refine ⟨i, b, ⟨hbit, ?_, fun j hj c hc => ?_⟩, ?_⟩ <;>
        simp only [Nat.zero_add]
      · exact herror.imp And.left fun h => ⟨h.1, h.2.1⟩
      · exact hkept.mpr (hlowest j hj c hc)
      · rcases herror with ⟨hopen, rfl⟩ | ⟨rfl, _, rfl⟩
        · simp [Bit.offence, hopen]
        · rfl

theorem concretization_exact_variable_above_one :
    let literals := constant 683 10
    let w := literals.concat (ofTag 3 0 1)
    w.concretize 8 = .error (.overflow 8) ∧
      w.concretize 16 = .error (.nonLiteralBit 10) ∧
      literals.concretize 16 = .ok 683 ∧ (constant (.ofNat 683) 10).bits =
        literals.bits := by
  intro literals w
  obtain ⟨_, herror, _⟩ := concretization_exact w
  obtain ⟨hok, _, _, _, hinverse⟩ := concretization_exact literals
  have hread : literals.concretize 16 = .ok 683 := by
    rw [hok]
    exact ⟨by decide,
      fun valuation => value_constant valuation 683 10, by decide⟩
  have hlow : ∀ j < 10, w.bits[j]? = some (.literal (Nat.testBit 683 j)) := by
    intro j hj
    simp [w, literals, concat, constant, ofBits, hj, List.getElem?_append]
  refine ⟨(herror 8 _).mpr ⟨9, .literal true, rfl, ?_,
    .inr ⟨rfl, by decide, rfl⟩⟩, (herror 16 _).mpr ⟨10, .var (.ofTag 3 0), rfl,
      ?_, .inl ⟨rfl, rfl⟩⟩, hread,
    hinverse 16 (by decide) 683 hread⟩
  · intro j hj c hc
    obtain rfl := Option.some.inj ((hlow j (by omega)).symm.trans hc)
    have hbits : ∀ j < 9, Nat.testBit 683 j = false ∨ Nat.testBit 683 j = true ∧
        j < 8 := by decide
    simpa using hbits j hj
  · intro j hj c hc
    obtain rfl := Option.some.inj ((hlow j hj).symm.trans hc)
    cases Nat.testBit 683 j
    · exact .inl rfl
    · exact .inr ⟨rfl, by omega⟩

end Word

end SymbolicMachine
