import SymbolicMachine.Proofs.Word.WellFormed

/-!
# Arithmetic on words

The operations on words of one width end without a fault, keep words well
formed, and compute modulo the power of two that the width stands for.
-/

namespace SymbolicMachine

namespace Word

variable {arena : Arena} {vars : Var → Prop} {stops : Fault → Prop}
  {session : Session}

theorem requireSameWidth_eq {a b : Word} (h : a.width = b.width) :
    requireSameWidth a b = pure () := by
  simp only [requireSameWidth, h, if_true]

/-! ## Bitwise operations -/

private theorem natOfBits_zipWith {op : Bool → Bool → Bool}
    (hop : op false false = false) {xs ys : List Bool}
    (hlength : xs.length = ys.length) (i : Nat) :
    (natOfBits (List.zipWith op xs ys)).testBit i =
      op ((natOfBits xs).testBit i) ((natOfBits ys).testBit i) := by
  simp only [testBit_natOfBits, List.getElem?_zipWith]
  by_cases hi : i < xs.length
  · rw [List.getElem?_eq_getElem hi, List.getElem?_eq_getElem (hlength ▸ hi)]
    rfl
  · rw [List.getElem?_eq_none (by omega), List.getElem?_eq_none (by omega)]
    exact hop.symm

theorem bitwise_yields {bitOp : Bit → Bit → NodeM Bit} {op : Bool → Bool → Bool}
    (hop : op false false = false)
    (hbit : ∀ {later x y}, x.Fits later → y.Fits later →
      NodeM.Yields (bitOp x y) later
      fun last z => z.BuiltFrom last [x, y] fun valuation =>
        op (x.eval valuation) (y.eval valuation))
    {a b : Word} (hnode : session.nextNode = arena.length)
    (ha : a.WellFormed arena vars) (hb : b.WellFormed arena vars)
    (hwidth : a.width = b.width) :
    SymM.Yields stops (bitwise bitOp a b) session arena fun after later w =>
      SymM.NodesOnly session after ∧ w.WellFormed later vars ∧
        w.width = a.width ∧
        ∀ valuation i, (w.value valuation).testBit i =
          op ((a.value valuation).testBit i)
            ((b.value valuation).testBit i) := by
  have hzip :=
    zipBits_yields (fun _ hx hy => hbit hx hy) (fun hle h => h.mono hle) hwidth
      ha.bits.fits hb.bits.fits
  unfold bitwise
  rw [requireSameWidth_eq hwidth, pure_bind]
  refine (SymM.yields_ofNodeM hnode hzip).bind
    fun after later zs hle hafter ⟨hnodes, hzs⟩ => ?_
  refine SymM.yields_pure hafter ⟨hnodes, .ofBits ?_, hzs.length_eq, ?_⟩
  · refine hzs.forall_result (ha.mono hle).bits (hb.mono hle).bits
      fun x y z hz hx hy => ?_
    exact hz.wellFormed (by simp [hx, hy])
  · intro valuation i
    have hmap := hzs.map_eval valuation fun x y z hz => hz.eval_eq valuation
    have hlength : (a.bits.map (Bit.eval valuation)).length =
        (b.bits.map (Bit.eval valuation)).length := by
      rw [List.length_map, List.length_map]
      exact hwidth
    change (natOfBits (zs.map (Bit.eval valuation))).testBit i = _
    rw [hmap, natOfBits_zipWith hop hlength]
    rfl

theorem and_yields {a b : Word} (hnode : session.nextNode = arena.length)
    (ha : a.WellFormed arena vars) (hb : b.WellFormed arena vars)
    (hwidth : a.width = b.width) :
    SymM.Yields stops (a.and b) session arena fun after later w =>
      SymM.NodesOnly session after ∧ w.WellFormed later vars ∧
        w.width = a.width ∧
        ∀ valuation,
          w.value valuation = a.value valuation &&& b.value valuation := by
  refine (bitwise_yields rfl Bit.and_yields hnode ha hb hwidth).mono
    fun after later w _ _ ⟨hnodes, hw, hwidth', hbits⟩ => ⟨hnodes, hw, hwidth',
      fun valuation => ?_⟩
  exact Nat.eq_of_testBit_eq fun i => by rw [hbits, Nat.testBit_and]

theorem or_yields {a b : Word} (hnode : session.nextNode = arena.length)
    (ha : a.WellFormed arena vars) (hb : b.WellFormed arena vars)
    (hwidth : a.width = b.width) :
    SymM.Yields stops (a.or b) session arena fun after later w =>
      SymM.NodesOnly session after ∧ w.WellFormed later vars ∧
        w.width = a.width ∧
        ∀ valuation,
          w.value valuation = a.value valuation ||| b.value valuation := by
  refine (bitwise_yields rfl Bit.or_yields hnode ha hb hwidth).mono
    fun after later w _ _ ⟨hnodes, hw, hwidth', hbits⟩ => ⟨hnodes, hw, hwidth',
      fun valuation => ?_⟩
  exact Nat.eq_of_testBit_eq fun i => by rw [hbits, Nat.testBit_or]

theorem xor_yields {a b : Word} (hnode : session.nextNode = arena.length)
    (ha : a.WellFormed arena vars) (hb : b.WellFormed arena vars)
    (hwidth : a.width = b.width) :
    SymM.Yields stops (a.xor b) session arena fun after later w =>
      SymM.NodesOnly session after ∧ w.WellFormed later vars ∧
        w.width = a.width ∧
        ∀ valuation,
          w.value valuation = a.value valuation ^^^ b.value valuation := by
  have hbit : ∀ {later x y},
      x.Fits later → y.Fits later → NodeM.Yields (Bit.xor x y) later
      fun last z => z.BuiltFrom last [x, y] fun valuation => x.eval valuation ^^
        y.eval valuation :=
    fun hx hy => (Bit.xor_yields hx hy).mono fun _ _ _ hz => hz.1
  refine (bitwise_yields rfl hbit hnode ha hb hwidth).mono
    fun after later w _ _ ⟨hnodes, hw, hwidth', hbits⟩ => ⟨hnodes, hw, hwidth',
      fun valuation => ?_⟩
  exact Nat.eq_of_testBit_eq fun i => by rw [hbits, Nat.testBit_xor]

def NotRel (arena : Arena) (x y : Bit) : Prop :=
  y.BuiltFrom arena [x] (fun valuation => !x.eval valuation) ∧ y.SameVars x

private theorem mapNot_yields {bits : List Bit}
    (hbits : ∀ b ∈ bits, b.Fits arena) :
    NodeM.Yields (bits.mapM Bit.not) arena fun later result =>
      List.Forall₂ (NotRel later) bits result := by
  induction bits generalizing arena with
  | nil => exact NodeM.yields_pure .nil
  | cons b bits ih =>
      simp only [List.forall_mem_cons] at hbits
      rw [List.mapM_cons]
      refine (Bit.not_yields hbits.1).bind
        fun arena₁ notB hle₁ ⟨hnotB, hsame, _⟩ => ?_
      refine (ih fun x hx => (hbits.2 x hx).mono hle₁).bind
        fun arena₂ rest hle₂ hrest => ?_
      exact NodeM.yields_pure (.cons ⟨hnotB.mono hle₂, hsame⟩ hrest)

private theorem natOfBits_not {xs ys : List Bit}
    (h : List.Forall₂ (NotRel arena) xs ys) (valuation : Valuation) :
    natOfBits (ys.map (Bit.eval valuation)) +
      natOfBits (xs.map (Bit.eval valuation)) + 1 =
      2 ^ xs.length := by
  induction h with
  | nil => rfl
  | @cons x y xs ys hhead _ ih =>
      rw [List.map_cons, List.map_cons, natOfBits_cons, natOfBits_cons,
        hhead.1.eval_eq, List.length_cons, Nat.pow_succ]
      cases x.eval valuation <;> simp <;> omega

theorem NotRel.bitsWellFormed {xs ys : List Bit}
    (h : List.Forall₂ (NotRel arena) xs ys)
    (hxs : BitsWellFormed arena vars xs) : BitsWellFormed arena vars ys := by
  induction h with
  | nil => exact hxs
  | cons hhead _ ih =>
      simp only [BitsWellFormed, List.forall_mem_cons] at hxs ⊢
      exact ⟨hhead.1.wellFormed (by simpa using hxs.1), ih hxs.2⟩

theorem not_yields {w : Word} (hw : w.WellFormed arena vars) :
    NodeM.Yields w.not arena fun later c =>
      c.WellFormed later vars ∧ List.Forall₂ (NotRel later) w.bits c.bits ∧
        c.width = w.width ∧
        ∀ valuation,
          c.value valuation = 2 ^ w.width - 1 - w.value valuation := by
  refine (mapNot_yields hw.bits.fits).bind fun later bits hle hbits => ?_
  refine NodeM.yields_pure
    ⟨.ofBits (NotRel.bitsWellFormed hbits (hw.mono hle).bits), hbits,
      hbits.length_eq.symm, fun valuation => ?_⟩
  have hsum := natOfBits_not hbits valuation
  change natOfBits (bits.map (Bit.eval valuation)) =
    2 ^ w.bits.length - 1 - natOfBits (w.bits.map (Bit.eval valuation))
  omega

/-! ## Addends of sums -/

private theorem toNat_truncateValue (value : UInt64) (n : Nat) :
    (truncateValue value n).toNat = value.toNat % 2 ^ n := by
  unfold truncateValue
  split
  case isTrue hlt =>
      have hpow : 2 ^ n ≤ 2 ^ 64 := Nat.pow_le_pow_right (by decide) hlt.le
      have hmod : value.toNat % 2 ^ n < 2 ^ 64 :=
        lt_of_lt_of_le (Nat.mod_lt _ (Nat.two_pow_pos n)) hpow
      rw [Nat.shiftLeft_eq, Nat.one_mul, UInt64.toNat_ofNat',
        Nat.mod_eq_of_lt hmod]
  case isFalse hge =>
      have hpow : 2 ^ 64 ≤ 2 ^ n :=
        Nat.pow_le_pow_right (by decide) (not_lt.mp hge)
      rw [Nat.mod_eq_of_lt (lt_of_lt_of_le value.toNat_lt hpow)]

private theorem mod_two_pow_comm (x m n : Nat) :
    x % 2 ^ m % 2 ^ n = x % 2 ^ n % 2 ^ m := by
  rcases Nat.le_total m n with hle | hle
  · rw [Nat.mod_mod_of_dvd x (pow_dvd_pow 2 hle)]
    exact Nat.mod_eq_of_lt
      (lt_of_lt_of_le (Nat.mod_lt _ (Nat.two_pow_pos m))
        (Nat.pow_le_pow_right (by decide) hle))
  · rw [Nat.mod_mod_of_dvd x (pow_dvd_pow 2 hle)]
    exact (Nat.mod_eq_of_lt (lt_of_lt_of_le (Nat.mod_lt _ (Nat.two_pow_pos n))
      (Nat.pow_le_pow_right (by decide) hle))).symm

/--
The record of adding a constant is sound, also where it swallows an inner
record.
-/
theorem addendOf_sound {operand : Word} {value : UInt64} {sum : List Bit}
    (hoperand : operand.WellFormed arena vars)
    (hopen : operand.toUInt64? = none) (hsum : BitsWellFormed arena vars sum)
    (hlength : sum.length = operand.width)
    (hvalue : ∀ valuation, natOfBits (sum.map (Bit.eval valuation)) =
      (operand.value valuation + value.toNat) % 2 ^ sum.length) :
    AddendSound arena vars (addendOf operand value sum) ∧
      (addendOf operand value sum).base.WellFormed arena vars := by
  have hpos := Nat.two_pow_pos sum.length
  unfold addendOf
  cases hsplit : operand.splitAddend? with
  | none =>
      refine ⟨⟨hsum, hlength.symm, ?_, hopen, hsplit⟩, hoperand⟩
      refine ⟨value.toNat % 2 ^ sum.length, Nat.mod_lt _ hpos, ?_,
        fun valuation => ?_⟩
      · change (truncateValue value sum.length).toNat = _
        rw [toNat_truncateValue, mod_two_pow_comm,
          Nat.mod_eq_of_lt value.toNat_lt]
      · rw [hvalue, Nat.add_mod_mod]
  | some split =>
      obtain ⟨base, inner⟩ := split
      obtain ⟨hbase, hbaseWidth, hbaseOpen, hsettled, _⟩ :=
        splitAddend?_sound hoperand hsplit
      obtain ⟨total, _, hinner, htotal⟩ := splitAddend?_total hoperand hsplit
      refine ⟨⟨hsum, hbaseWidth.trans hlength.symm, ?_, hbaseOpen, hsettled⟩,
        hbase⟩
      refine ⟨(total + value.toNat) % 2 ^ sum.length, Nat.mod_lt _ hpos, ?_,
        fun valuation => ?_⟩
      · change (truncateValue (inner + value) sum.length).toNat = _
        rw [toNat_truncateValue, UInt64.toNat_add, hinner, Nat.mod_add_mod,
          mod_two_pow_comm]
      · rw [hvalue, htotal, ← hlength, Nat.mod_add_mod, Nat.add_assoc,
          Nat.add_mod_mod]

theorem bits_ofSum (a b : Word) (sum : List Bit) :
    (ofSum a b sum).bits = sum := by
  unfold ofSum
  split <;> rfl

private theorem ofSum_wellFormed {a b : Word} {sum : List Bit} {carry : Bit}
    (ha : a.WellFormed arena vars) (hb : b.WellFormed arena vars)
    (hwidth : a.width = b.width)
    (hadded : Added arena a.bits b.bits sum carry) :
    (ofSum a b sum).WellFormed arena vars := by
  have hsum : BitsWellFormed arena vars sum :=
    (hadded.wellFormed ha.bits hb.bits).1
  have hlength : sum.length = a.width := hadded.length_eq
  have hvalue : ∀ valuation, natOfBits (sum.map (Bit.eval valuation)) =
      (a.value valuation + b.value valuation) % 2 ^ sum.length := by
    intro valuation
    rw [hlength]
    exact hadded.natOfBits_sum valuation
  unfold ofSum
  split
  case h_1 value haopen hbvalue =>
      obtain ⟨hsound, hbase⟩ :=
        addendOf_sound ha haopen hsum hlength fun valuation => by
        rw [hvalue, (toUInt64?_eq_some hbvalue).2]
      exact .sum hsum hsound hbase
  case h_2 value havalue hbopen =>
      obtain ⟨hsound, hbase⟩ :=
        addendOf_sound hb hbopen hsum (hlength.trans hwidth) fun valuation => by
          rw [hvalue, (toUInt64?_eq_some havalue).2, Nat.add_comm]
      exact .sum hsum hsound hbase
  case h_3 => exact .ofBits hsum

/-! ## Addition, negation, subtraction -/

theorem add_yields {a b : Word} (hnode : session.nextNode = arena.length)
    (ha : a.WellFormed arena vars) (hb : b.WellFormed arena vars)
    (hwidth : a.width = b.width) :
    SymM.Yields stops (a.add b) session arena fun after later w =>
      SymM.NodesOnly session after ∧ w.WellFormed later vars ∧
        ∃ carry, Added later a.bits b.bits w.bits carry := by
  unfold Word.add
  rw [requireSameWidth_eq hwidth, pure_bind]
  refine (SymM.yields_ofNodeM hnode (addBits_yields hwidth ha.bits.fits
    hb.bits.fits)).bind fun after later result hle hafter ⟨hnodes, hadded⟩ => ?_
  refine SymM.yields_pure hafter ⟨hnodes, ?_, result.2, ?_⟩
  · exact ofSum_wellFormed (ha.mono hle) (hb.mono hle) hwidth hadded
  · rw [bits_ofSum]
    exact hadded

theorem Added.value_eq {a b w : Word} {carry : Bit}
    (h : Added arena a.bits b.bits w.bits carry) (valuation : Valuation) :
    w.value valuation = (a.value valuation + b.value valuation) % 2 ^ a.width :=
  h.natOfBits_sum valuation

theorem Added.width_eq {a b w : Word} {carry : Bit}
    (h : Added arena a.bits b.bits w.bits carry) :
    w.width = a.width :=
  h.length_eq

def Negated (arena : Arena) (w c : Word) : Prop :=
  ∃ (complement : Word) (carry : Bit),
  List.Forall₂ (NotRel arena) w.bits complement.bits ∧
    Added arena complement.bits (constant 1 w.width).bits c.bits carry

theorem Negated.width_eq {w c : Word} (h : Negated arena w c) :
    c.width = w.width := by
  obtain ⟨complement, carry, hnot, hadded⟩ := h
  exact hadded.width_eq.trans hnot.length_eq.symm

theorem Negated.value_eq {w c : Word} (h : Negated arena w c)
    (valuation : Valuation) :
    c.value valuation = (2 ^ w.width - w.value valuation) % 2 ^ w.width := by
  obtain ⟨complement, carry, hnot, hadded⟩ := h
  have hcomplement := natOfBits_not hnot valuation
  have hvalue := hadded.value_eq valuation
  rw [show complement.width = w.width from hnot.length_eq.symm, value_constant]
    at hvalue
  rw [hvalue, show (1 : UInt64).toNat = 1 from rfl, Nat.add_mod_mod]
  congr 1
  change natOfBits (complement.bits.map (Bit.eval valuation)) + 1 =
    2 ^ w.bits.length - natOfBits (w.bits.map (Bit.eval valuation))
  omega

theorem neg_yields {w : Word} (hnode : session.nextNode = arena.length)
    (hw : w.WellFormed arena vars) :
    SymM.Yields stops w.neg session arena fun after later c =>
      SymM.NodesOnly session after ∧ c.WellFormed later vars ∧
        Negated later w c := by
  refine (SymM.yields_ofNodeM hnode (not_yields hw)).bind
    fun after later complement hle hafter ⟨hnodes, hcomplement, hnot, hwidth,
      _⟩ => ?_
  refine (add_yields hafter hcomplement (constant_wellFormed 1 w.width)
    (by simp [hwidth])).mono
    fun last final c hle' _ ⟨hnodes', hc, carry, hadded⟩ =>
      ⟨hnodes.trans hnodes', hc, ?_⟩
  refine ⟨complement, carry, ?_, hadded⟩
  exact hnot.imp fun x y hxy => ⟨hxy.1.mono hle', hxy.2⟩

theorem sub_yields {a b : Word} (hnode : session.nextNode = arena.length)
    (ha : a.WellFormed arena vars) (hb : b.WellFormed arena vars)
    (hwidth : a.width = b.width) :
    SymM.Yields stops (a.sub b) session arena fun after later w =>
      SymM.NodesOnly session after ∧ w.WellFormed later vars ∧
        ∃ negated carry,
          negated.WellFormed later vars ∧ Negated later b negated ∧
          Added later a.bits negated.bits w.bits carry := by
  unfold Word.sub
  rw [requireSameWidth_eq hwidth, pure_bind]
  refine (neg_yields hnode hb).bind
    fun after later negated hle hafter ⟨hnodes, hnegated, hneg⟩ => ?_
  refine (add_yields hafter (ha.mono hle) hnegated
    (hwidth.trans hneg.width_eq.symm)).mono
    fun last final w hle' _ ⟨hnodes', hw, carry, hadded⟩ => ?_
  obtain ⟨complement, carry', hnot, hadded'⟩ := hneg
  refine ⟨hnodes.trans hnodes', hw, negated, carry, hnegated.mono hle',
    ⟨complement, carry', ?_, ?_⟩, hadded⟩
  · exact hnot.imp fun x y hxy => ⟨hxy.1.mono hle', hxy.2⟩
  · exact hadded'.mono hle'

end Word

end SymbolicMachine
