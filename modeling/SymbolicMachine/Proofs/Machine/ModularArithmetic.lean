import SymbolicMachine.Architecture.Amd64
import SymbolicMachine.Proofs.Machine.Execution
import SymbolicMachine.Proofs.Word.Literals

/-!
# Arithmetic modulo a power of two

On words of one width the operations end and compute modulo the power of two
that the width stands for.  Nothing is said about how wide the words are: there
may be no bits at all, or more than a machine word has.  Operands made of
literals give results made of literals.
-/

namespace SymbolicMachine

namespace Word

variable {arena : Arena} {vars : Var → Prop} {session : Session}

/-! ## Carries as comparisons -/

private theorem Carried.eval_getElem? {carry k : Bit} {xs ys carries : List Bit}
    {i : Nat} (h : Carried arena carry xs ys carries)
    (hk : carries[i]? = some k) (valuation : Valuation) :
    k.eval valuation =
      decide (2 ^ i ≤ natOfBits ((xs.map (Bit.eval valuation)).take i) +
      natOfBits ((ys.map (Bit.eval valuation)).take i) +
      (carry.eval valuation).toNat) := by
  induction h generalizing i with
  | nil carry =>
      cases i with
      | zero =>
          obtain rfl : carry = k := by simpa using hk
          cases carry.eval valuation <;> rfl
      | succ i => simp at hk
  | @cons carry next x y xs ys carries hnext _ ih =>
      cases i with
      | zero =>
          obtain rfl : carry = k := by simpa using hk
          cases carry.eval valuation <;> rfl
      | succ i =>
          have hrest := ih (by simpa using hk)
          rw [hnext.eval_eq] at hrest
          rw [hrest, List.map_cons, List.map_cons, List.take_succ_cons,
            List.take_succ_cons, natOfBits_cons, natOfBits_cons, Nat.pow_succ,
            decide_eq_decide]
          generalize natOfBits ((xs.map (Bit.eval valuation)).take i) = lowX
          generalize natOfBits ((ys.map (Bit.eval valuation)).take i) = lowY
          cases x.eval valuation <;> cases y.eval valuation <;>
            cases carry.eval valuation <;>
            simp [Bool.atLeastTwo] <;> omega

theorem Carried.testBit_value {a b w : Word}
    (h : Carried arena (.literal false) a.bits b.bits w.bits)
    (valuation : Valuation) {i : Nat} (hi : i ≤ a.width) :
    (w.value valuation).testBit i =
      decide (2 ^ i ≤ a.value valuation % 2 ^ i + b.value valuation %
        2 ^ i) := by
  have hlt : i < w.bits.length := by
    rw [h.length_eq]
    exact Nat.lt_succ_of_le hi
  have hcarry := h.eval_getElem? (List.getElem?_eq_getElem hlt) valuation
  rw [natOfBits_take, natOfBits_take] at hcarry
  rw [Word.testBit_value, List.getElem?_eq_getElem hlt]
  exact hcarry

/-! ## What an operation computes -/

/--
The computation ends.  Its word has the width, stands for numbers of which
`meaning` holds, and is made of literals if all operands are.
-/
def Computes (x : SymM Word) (session : Session) (width : Nat)
    (operands : List Word) (meaning : Valuation → Nat → Prop) : Prop :=
  ∃ w after, x session = .ok w after ∧ w.width = width ∧
    (∀ valuation, meaning valuation (w.value valuation)) ∧
    ((∀ operand ∈ operands, operand.allLiteral = true) → w.allLiteral = true)

theorem computes_of_yields {x : SymM Word} {width : Nat} {operands : List Word}
    {meaning : Valuation → Nat → Prop} {post : Session → Arena → Word → Prop}
    (hx : SymM.Yields (fun _ => False) x session arena post)
    (hpost : ∀ after later w, post after later w → w.width = width ∧
      (∀ valuation, meaning valuation (w.value valuation)) ∧
      ((∀ operand ∈ operands, operand.allLiteral = true) →
        w.allLiteral = true)) :
    Computes x session width operands meaning := by
  obtain ⟨w, after, later, hrun, _, _, hw⟩ := hx.exists_ok
  exact ⟨w, after, hrun, hpost after later w hw⟩

private theorem closed_of_allLiteral {w : Word} (h : w.allLiteral = true) :
    (ofBits w.bits).WellFormed arena fun _ => False :=
  .ofBits ((bitsWellFormed_closed_iff arena).mpr (allLiteral_iff.mp h))

theorem bitwise_computes {bitOp : Bit → Bit → NodeM Bit}
    {op : Bool → Bool → Bool} (hop : op false false = false)
    (hbit : ∀ {later x y}, x.Fits later → y.Fits later →
      NodeM.Yields (bitOp x y) later
      fun last z => z.BuiltFrom last [x, y] fun valuation =>
        op (x.eval valuation) (y.eval valuation))
    {a b : Word} (hnode : session.nextNode = arena.length)
    (ha : a.WellFormed arena vars) (hb : b.WellFormed arena vars)
    (hwidth : a.width = b.width) :
    Computes (bitwise bitOp a b) session a.width [a, b] fun valuation result =>
      ∀ i, result.testBit i =
        op ((a.value valuation).testBit i) ((b.value valuation).testBit i) := by
  have hyields : SymM.Yields (fun _ => False) (bitwise bitOp a b) session
      arena _ :=
    bitwise_yields hop hbit hnode ha hb hwidth
  obtain ⟨w, after, _, hrun, _, _, _, _, hw, hvalue⟩ := hyields.exists_ok
  refine ⟨w, after, hrun, hw, hvalue, fun hliteral => ?_⟩
  simp only [List.forall_mem_cons] at hliteral
  have hclosed : SymM.Yields (fun _ => False)
      (bitwise bitOp (ofBits a.bits) (ofBits b.bits)) session arena _ :=
    bitwise_yields hop hbit hnode (closed_of_allLiteral hliteral.1)
      (closed_of_allLiteral hliteral.2.1) hwidth
  obtain ⟨later, _, _, _, hwell, _⟩ := hclosed.of_ok hrun
  exact hwell.allLiteral

private theorem not_computes {w : Word}
    (hnode : session.nextNode = arena.length) (hw : w.WellFormed arena vars) :
    Computes (SymM.ofNodeM w.not) session w.width [w] fun valuation result =>
      ∀ i < w.width, result.testBit i = !(w.value valuation).testBit i := by
  apply computes_of_yields (SymM.yields_ofNodeM hnode (not_yields hw))
  rintro after later c ⟨_, _, hnot, hwidth, hvalue⟩
  refine ⟨hwidth, fun valuation i hi => ?_, fun hliteral => ?_⟩
  · have hsub : 2 ^ w.width - 1 - w.value valuation =
        2 ^ w.width - (w.value valuation + 1) := by
      omega
    calc
      (c.value valuation).testBit i
          = (2 ^ w.width - (w.value valuation + 1)).testBit i := by
            rw [hvalue, hsub]
      _ = (decide (i < w.width) && !(w.value valuation).testBit i) :=
        Nat.testBit_two_pow_sub_succ (w.value_lt valuation) i
      _ = !(w.value valuation).testBit i := by
        rw [decide_eq_true hi, Bool.true_and]
  · exact NotRel.allLiteral hnot (hliteral w List.mem_cons_self)

private theorem add_computes {a b : Word}
    (hnode : session.nextNode = arena.length) (ha : a.WellFormed arena vars)
    (hb : b.WellFormed arena vars) (hwidth : a.width = b.width) :
    Computes (a.add b) session a.width [a, b] fun valuation result =>
      (result : Int) =
        (a.value valuation + b.value valuation) % 2 ^ a.width := by
  apply computes_of_yields (add_yields hnode ha hb hwidth)
  rintro after later w ⟨_, _, carry, hadded⟩
  refine ⟨hadded.width_eq, fun valuation => ?_, fun hliteral => ?_⟩
  · rw [hadded.value_eq]
    push_cast
    rfl
  · simp only [List.forall_mem_cons] at hliteral
    exact (hadded.allLiteral hliteral.1 hliteral.2.1).1

private theorem Negated.value_int {w c : Word} (h : Negated arena w c)
    (valuation : Valuation) :
    (c.value valuation : Int) = -(w.value valuation : Int) % 2 ^ w.width := by
  calc
    (c.value valuation : Int)
        = (2 ^ w.width - w.value valuation) % 2 ^ w.width := by
          rw [h.value_eq, Int.natCast_mod,
            Nat.cast_sub (w.value_lt valuation).le, Nat.cast_pow,
            Nat.cast_ofNat]
    _ = -(w.value valuation : Int) % 2 ^ w.width := by
      rw [Int.sub_eq_add_neg, Int.add_comm, Int.add_emod_right]

private theorem neg_computes {w : Word}
    (hnode : session.nextNode = arena.length) (hw : w.WellFormed arena vars) :
    Computes w.neg session w.width [w] fun valuation result =>
      (result : Int) = -(w.value valuation : Int) % 2 ^ w.width := by
  apply computes_of_yields (neg_yields hnode hw)
  rintro after later c ⟨_, _, hneg⟩
  refine ⟨hneg.width_eq, hneg.value_int, fun hliteral => ?_⟩
  exact hneg.allLiteral (hliteral w List.mem_cons_self)

private theorem sub_computes {a b : Word}
    (hnode : session.nextNode = arena.length) (ha : a.WellFormed arena vars)
    (hb : b.WellFormed arena vars) (hwidth : a.width = b.width) :
    Computes (a.sub b) session a.width [a, b] fun valuation result =>
      (result : Int) =
        (a.value valuation - b.value valuation) % 2 ^ a.width := by
  apply computes_of_yields (sub_yields hnode ha hb hwidth)
  rintro after later w ⟨_, _, negated, carry, _, hneg, hadded⟩
  refine ⟨hadded.width_eq, fun valuation => ?_, fun hliteral => ?_⟩
  · calc
      (w.value valuation : Int)
          = (a.value valuation + negated.value valuation) % 2 ^ a.width := by
            rw [hadded.value_eq, Int.natCast_mod, Nat.cast_add, Nat.cast_pow,
              Nat.cast_ofNat]
      _ = (a.value valuation + -b.value valuation) % 2 ^ a.width := by
        rw [hneg.value_int, ← hwidth, Int.add_emod_emod]
      _ = (a.value valuation - b.value valuation) % 2 ^ a.width := by
        rw [Int.sub_eq_add_neg]
  · simp only [List.forall_mem_cons] at hliteral
    exact (hadded.allLiteral hliteral.1 (hneg.allLiteral hliteral.2.1)).1

private theorem carryBits_computes {a b : Word}
    (hnode : session.nextNode = arena.length) (ha : a.WellFormed arena vars)
    (hb : b.WellFormed arena vars) (hwidth : a.width = b.width) :
    Computes (a.carryBits b) session (a.width + 1) [a, b]
      fun valuation result =>
      ∀ i ≤ a.width, result.testBit i =
        decide (2 ^ i ≤ a.value valuation % 2 ^ i + b.value valuation %
          2 ^ i) := by
  have hcarries :=
    carries_yields hwidth (Bit.fits_literal arena false) ha.bits.fits
      hb.bits.fits
  obtain ⟨bits, after, _, hrun, _, _, _, hcarried, _⟩ :=
    (SymM.yields_ofNodeM hnode hcarries).exists_ok
  refine ⟨ofBits bits, after, ?_, hcarried.length_eq, fun valuation i hi => ?_,
    fun hliteral => ?_⟩
  · unfold carryBits
    rw [requireSameWidth_eq hwidth, pure_bind]
    exact SymM.bind_of_ok hrun
  · exact Carried.testBit_value (w := ofBits bits) hcarried valuation hi
  · simp only [List.forall_mem_cons] at hliteral
    exact Carried.allLiteral (w := ofBits bits) hcarried hliteral.1 hliteral.2.1

private theorem exists_addWithCarry {a b : Word}
    (hnode : session.nextNode = arena.length) (ha : a.WellFormed arena vars)
    (hb : b.WellFormed arena vars) (hwidth : a.width = b.width) :
    ∃ sum carry after, a.addWithCarry b session = .ok (sum, carry) after ∧
      sum.width = a.width ∧
      (∀ valuation, sum.value valuation +
        2 ^ a.width * (carry.eval valuation).toNat =
        a.value valuation + b.value valuation) ∧
      (a.allLiteral = true → b.allLiteral = true →
        sum.allLiteral = true ∧ carry.isLiteral = true) := by
  have hbits := addBits_yields hwidth ha.bits.fits hb.bits.fits
  obtain ⟨⟨sum, carry⟩, after, _, hrun, _, _, _, hadded⟩ :=
    (SymM.yields_ofNodeM hnode hbits).exists_ok
  refine ⟨ofBits sum, carry, after, ?_, hadded.length_eq, hadded.natOfBits_eq,
    ?_⟩
  · unfold addWithCarry
    rw [requireSameWidth_eq hwidth, pure_bind]
    exact SymM.bind_of_ok hrun
  · exact Added.allLiteral (w := ofBits sum) hadded

end Word

/--
Operations on words of `n` bits that can be met end and compute modulo `2 ^ n`.
The carries are one bit more: bit `i` of them says whether the `i` low bits of
the operands run over.
-/
theorem arithmetic_modulo_two_pow {arch : Architecture} {session : Session}
    {pool : List Word} {machines : List Machine}
    (hreached : Machine.Reached arch session pool machines) {n : Nat}
    {a b : Word} (ha : a ∈ pool) (hb : b ∈ pool) (hawidth : a.width = n)
    (hbwidth : b.width = n) :
    Word.Computes (a.add b) session n [a, b] (fun valuation result =>
      (result : Int) = (a.value valuation + b.value valuation) % 2 ^ n) ∧
    Word.Computes (a.sub b) session n [a, b] (fun valuation result =>
      (result : Int) = (a.value valuation - b.value valuation) % 2 ^ n) ∧
    Word.Computes a.neg session n [a] (fun valuation result =>
      (result : Int) = -(a.value valuation : Int) % 2 ^ n) ∧
    Word.Computes (SymM.ofNodeM a.not) session n [a] (fun valuation result =>
      ∀ i < n, result.testBit i = !(a.value valuation).testBit i) ∧
    Word.Computes (a.and b) session n [a, b] (fun valuation result => ∀ i,
      result.testBit i =
        ((a.value valuation).testBit i && (b.value valuation).testBit i)) ∧
    Word.Computes (a.or b) session n [a, b] (fun valuation result => ∀ i,
      result.testBit i =
        ((a.value valuation).testBit i || (b.value valuation).testBit i)) ∧
    Word.Computes (a.xor b) session n [a, b] (fun valuation result => ∀ i,
      result.testBit i =
        ((a.value valuation).testBit i ^^ (b.value valuation).testBit i)) ∧
    Word.Computes (a.carryBits b) session (n + 1) [a, b]
      (fun valuation result => ∀ i ≤ n, result.testBit i = decide
        (2 ^ i ≤ a.value valuation % 2 ^ i + b.value valuation % 2 ^ i)) ∧
    ∃ sum carry after, a.addWithCarry b session = .ok (sum, carry) after ∧
      sum.width = n ∧
      (∀ valuation, sum.value valuation + 2 ^ n * (carry.eval valuation).toNat =
        a.value valuation + b.value valuation) ∧
      (a.allLiteral = true → b.allLiteral = true →
        sum.allLiteral = true ∧ carry.isLiteral = true) := by
  obtain ⟨arena, hpool, _⟩ := hreached.wellFormed
  have hnode := hpool.nodes
  have hleft := hpool.wellFormed a ha
  have hright := hpool.wellFormed b hb
  subst hawidth
  refine ⟨Word.add_computes hnode hleft hright hbwidth.symm,
    Word.sub_computes hnode hleft hright hbwidth.symm,
    Word.neg_computes hnode hleft, Word.not_computes hnode hleft, ?_, ?_, ?_,
    Word.carryBits_computes hnode hleft hright hbwidth.symm,
    Word.exists_addWithCarry hnode hleft hright hbwidth.symm⟩
  · exact Word.bitwise_computes rfl Bit.and_yields hnode hleft hright
      hbwidth.symm
  · exact Word.bitwise_computes rfl Bit.or_yields hnode hleft hright
      hbwidth.symm
  · apply Word.bitwise_computes rfl _ hnode hleft hright hbwidth.symm
    intro later x y hx hy
    exact (Bit.xor_yields hx hy).mono fun _ _ _ hz => hz.1

theorem arithmetic_modulo_two_pow_byte :
    let a := Word.ofTag 1 0 8
    let b := Word.constant 200 8
    ∃ session, Machine.Reached Amd64.standard session [b, a] [{}] ∧
      Word.Computes (a.carryBits b) session 9 [a, b] fun valuation result =>
        result.testBit 8 = decide (56 ≤ a.value valuation) := by
  intro a b
  have hreached : Machine.Reached Amd64.standard {} [b, a] [{}] :=
    ((Machine.Reached.start {}).make (.tagged 1 0 8) rfl).make (.constant 200 8)
      rfl
  obtain ⟨_, _, _, _, _, _, _, ⟨w, after, hrun, hwidth, hcarry, hliteral⟩, _⟩ :=
    arithmetic_modulo_two_pow hreached (by simp : a ∈ [b, a])
      (by simp : b ∈ [b, a]) rfl rfl
  refine ⟨{}, hreached, w, after, hrun, hwidth, fun valuation => ?_, hliteral⟩
  have hlt : a.value valuation < 2 ^ 8 := a.value_lt valuation
  have hbit := hcarry valuation 8 le_rfl
  rw [Word.value_constant, Nat.mod_eq_of_lt hlt] at hbit
  change (w.value valuation).testBit 8 = _
  rw [hbit, decide_eq_decide]
  change 256 ≤ a.value valuation + 200 ↔ _
  omega

end SymbolicMachine
