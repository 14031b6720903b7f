import Mathlib.Data.List.Forall2
import SymbolicMachine.Proofs.Session
import SymbolicMachine.Proofs.Word.Adder

/-!
# Well-formed words

A word is well formed when its bits are, and when its addend record, should it
have one, tells the truth: the recorded sum is the base plus the constant under
every valuation.  The bits of the word itself may have changed since; the record
speaks only as long as they are identical to the recorded sum.
-/

namespace SymbolicMachine

namespace Word

def BitsWellFormed (arena : Arena) (vars : Var → Prop) (bits : List Bit) :
    Prop :=
  ∀ b ∈ bits, b.WellFormed arena vars

/--
What a record says is true.  The sum is the base plus a total of constants, of
which the record has the low 64 bits: all of it up to that width, and perhaps
too little beyond.  The base is no constant and has none to split off.
-/
structure AddendSound (arena : Arena) (vars : Var → Prop)
    (addend : Addend Word) : Prop where
  sum_wellFormed : BitsWellFormed arena vars addend.sum
  width_eq : addend.base.width = addend.sum.length
  total_eq : ∃ total < 2 ^ addend.sum.length,
  addend.value.toNat = total % 2 ^ 64 ∧
    ∀ valuation, natOfBits (addend.sum.map (Bit.eval valuation)) =
      (addend.base.value valuation + total) % 2 ^ addend.sum.length
  base_open : addend.base.toUInt64? = none
  base_settled : addend.base.splitAddend? = none

inductive WellFormed (arena : Arena) (vars : Var → Prop) : Word → Prop
  | plain {bits : List Bit} : BitsWellFormed arena vars bits →
      WellFormed arena vars ⟨bits, none⟩
  | sum {bits : List Bit} {addend : Addend Word} :
      BitsWellFormed arena vars bits →
      AddendSound arena vars addend → WellFormed arena vars addend.base →
      WellFormed arena vars ⟨bits, some addend⟩

variable {arena later : Arena} {vars : Var → Prop}

theorem BitsWellFormed.mono (hle : arena <+: later) {bits : List Bit}
    (h : BitsWellFormed arena vars bits) : BitsWellFormed later vars bits :=
  fun b hb => (h b hb).mono hle

theorem BitsWellFormed.fits {bits : List Bit}
    (h : BitsWellFormed arena vars bits) :
    ∀ b ∈ bits, b.Fits arena :=
  fun b hb => (h b hb).fits

namespace WellFormed

theorem bits {w : Word} (h : w.WellFormed arena vars) :
    BitsWellFormed arena vars w.bits := by
  cases h <;> assumption

theorem ofBits {bits : List Bit} (h : BitsWellFormed arena vars bits) :
    (ofBits bits).WellFormed arena vars :=
  .plain h

theorem mono (hle : arena <+: later) {w : Word} (h : w.WellFormed arena vars) :
    w.WellFormed later vars := by
  induction h with
  | plain hbits => exact .plain (hbits.mono hle)
  | sum hbits hsound _ ih =>
      exact .sum (hbits.mono hle)
        { hsound with sum_wellFormed := hsound.sum_wellFormed.mono hle } ih

theorem weaken {wider : Var → Prop} (hvars : ∀ v, vars v → wider v) {w : Word}
    (h : w.WellFormed arena vars) : w.WellFormed arena wider := by
  induction h with
  | plain hbits => exact .plain fun b hb => (hbits b hb).weaken hvars
  | sum hbits hsound _ ih =>
      refine .sum (fun b hb => (hbits b hb).weaken hvars)
        { hsound with sum_wellFormed := ?_ } ih
      exact fun b hb => (hsound.sum_wellFormed b hb).weaken hvars

theorem withBits {w : Word} (h : w.WellFormed arena vars) {bits : List Bit}
    (hbits : BitsWellFormed arena vars bits) :
    ({ w with bits } : Word).WellFormed arena vars := by
  cases h with
  | plain _ => exact .plain hbits
  | sum _ hsound hbase => exact .sum hbits hsound hbase

end WellFormed

/-! ## Cutting, extending, shifting -/

theorem constant_wellFormed (value : UInt64) (n : Nat) :
    (constant value n).WellFormed arena vars := by
  refine .ofBits fun b hb => ?_
  obtain ⟨i, _, rfl⟩ := List.mem_map.mp hb
  exact Bit.wellFormed_literal _

theorem varBits_wellFormed {list : List Var} (h : ∀ v ∈ list, vars v) :
    BitsWellFormed arena vars (list.map Bit.var) := by
  intro b hb
  obtain ⟨v, hv, rfl⟩ := List.mem_map.mp hb
  refine ⟨trivial, trivial, fun w hw => ?_⟩
  rw [Bit.mentions_var] at hw
  exact hw ▸ h v hv

theorem ofTag_wellFormed {tag offset n : Nat}
    (h : ∀ i < n, vars (.ofTag tag (offset + i))) :
    (ofTag tag offset n).WellFormed arena vars := by
  refine .ofBits fun b hb => ?_
  obtain ⟨i, hi, rfl⟩ := List.mem_map.mp hb
  obtain ⟨k, hk, rfl⟩ := List.mem_range'.mp hi
  refine ⟨trivial, trivial, fun w hw => ?_⟩
  rw [Bit.mentions_var] at hw
  rw [hw, Nat.one_mul]
  exact h k hk

namespace WellFormed

theorem dropLow {w : Word} (h : w.WellFormed arena vars) (count : Nat) :
    (w.dropLow count).WellFormed arena vars :=
  h.withBits fun b hb => h.bits b (List.mem_of_mem_drop hb)

theorem dropHigh {w : Word} (h : w.WellFormed arena vars) (count : Nat) :
    (w.dropHigh count).WellFormed arena vars :=
  h.withBits fun b hb => h.bits b (List.mem_of_mem_take hb)

theorem extendWith {w : Word} (h : w.WellFormed arena vars) {bit : Bit}
    (hbit : bit.WellFormed arena vars) (count : Nat) :
    (extendWith bit w count).WellFormed arena vars := by
  refine h.withBits fun b hb => ?_
  rcases List.mem_append.mp hb with hb | hb
  · exact h.bits b hb
  · exact List.eq_of_mem_replicate hb ▸ hbit

theorem zeroExtend {w : Word} (h : w.WellFormed arena vars) (count : Nat) :
    (w.zeroExtend count).WellFormed arena vars :=
  h.extendWith (Bit.wellFormed_literal false) count

theorem signExtend {w : Word} (h : w.WellFormed arena vars) (count : Nat) :
    (w.signExtend count).WellFormed arena vars := by
  apply h.extendWith
  cases hmsb : w.msb? with
  | none => exact Bit.wellFormed_literal false
  | some b => exact h.bits b (List.mem_of_getLast? hmsb)

theorem resize {w : Word} (h : w.WellFormed arena vars) (n : Nat) :
    (w.resize n).WellFormed arena vars := by
  unfold Word.resize
  split
  · exact h.zeroExtend _
  · exact h.dropHigh _

theorem resizeSigned {w : Word} (h : w.WellFormed arena vars) (n : Nat) :
    (w.resizeSigned n).WellFormed arena vars := by
  unfold Word.resizeSigned
  split
  · exact h.signExtend _
  · exact h.dropHigh _

theorem concat {low high : Word} (hlow : low.WellFormed arena vars)
    (hhigh : high.WellFormed arena vars) :
    (low.concat high).WellFormed arena vars := by
  refine hlow.withBits fun b hb => ?_
  rcases List.mem_append.mp hb with hb | hb
  · exact hlow.bits b hb
  · exact hhigh.bits b hb

theorem setBit {w : Word} (h : w.WellFormed arena vars) {bit : Bit}
    (hbit : bit.WellFormed arena vars) (index : Nat) :
    (w.setBit index bit).WellFormed arena vars := by
  refine h.withBits fun b hb => ?_
  rcases List.mem_or_eq_of_mem_set hb with hb | rfl
  · exact h.bits b hb
  · exact hbit

theorem shiftLeft {w : Word} (h : w.WellFormed arena vars) (amount : Nat) :
    (w.shiftLeft amount).WellFormed arena vars := by
  refine h.withBits fun b hb => ?_
  rcases List.mem_append.mp hb with hb | hb
  · exact List.eq_of_mem_replicate hb ▸ Bit.wellFormed_literal false
  · exact h.bits b (List.mem_of_mem_take hb)

theorem shiftRight {w : Word} (h : w.WellFormed arena vars) (amount : Nat) :
    (w.shiftRight amount).WellFormed arena vars := by
  refine h.withBits fun b hb => ?_
  rcases List.mem_append.mp hb with hb | hb
  · exact h.bits b (List.mem_of_mem_drop hb)
  · exact List.eq_of_mem_replicate hb ▸ Bit.wellFormed_literal false

theorem partsOf {w part : Word} (h : w.WellFormed arena vars) {size : Nat}
    (hsize : 0 < size) (hpart : part ∈ w.partsOf size) :
    part.WellFormed arena vars := by
  have hpieces : ∀ piece ∈ pieces size w.bits,
      BitsWellFormed arena vars piece := by
    intro piece hpiece b hb
    apply h.bits b
    rw [← flatten_pieces hsize w.bits]
    exact List.mem_flatten_of_mem hpiece hb
  unfold Word.partsOf at hpart
  split at hpart
  case h_1 => cases hpart
  case h_2 first rest heq =>
      rw [heq] at hpieces
      rcases List.mem_cons.mp hpart with rfl | hrest
      · exact h.withBits (hpieces first List.mem_cons_self)
      · obtain ⟨piece, hpiece, rfl⟩ := List.mem_map.mp hrest
        exact .ofBits (hpieces piece (List.mem_cons_of_mem first hpiece))

end WellFormed

/-! ## Identical words -/

theorem identicalBits_iff {xs ys : List Bit} :
    identicalBits xs ys = true ↔
      List.Forall₂ (fun x y => x.identical y = true) xs ys := by
  simp only [identicalBits, Bool.and_eq_true, beq_iff_eq, List.all_eq_true]
  constructor
  · rintro ⟨hlength, hall⟩
    exact List.forall₂_iff_zip.mpr ⟨hlength, fun hmem => hall _ hmem⟩
  · intro h
    exact ⟨h.length_eq, fun pair hmem => (List.forall₂_iff_zip.mp h).2 hmem⟩

private theorem map_eval_of_identicalBits {xs ys : List Bit}
    (hxs : ∀ x ∈ xs, x.Fits arena) (hys : ∀ y ∈ ys, y.Fits arena)
    (h : identicalBits xs ys = true) (valuation : Valuation) :
    xs.map (Bit.eval valuation) = ys.map (Bit.eval valuation) := by
  have hforall := identicalBits_iff.mp h
  clear h
  induction hforall with
  | nil => rfl
  | cons hhead _ ih =>
      simp only [List.forall_mem_cons] at hxs hys
      rw [List.map_cons, List.map_cons, ih hxs.2 hys.2,
        Bit.eval_eq_of_identical hxs.1 hys.1 hhead]

theorem value_eq_of_identical {a b : Word} (ha : a.WellFormed arena vars)
    (hb : b.WellFormed arena vars) (h : a.identical b = true)
    (valuation : Valuation) :
    a.value valuation = b.value valuation := by
  simp only [value,
    map_eval_of_identicalBits ha.bits.fits hb.bits.fits h valuation]

def Mentions (v : Var) (w : Word) : Prop :=
  ∃ b ∈ w.bits, b.Mentions v

theorem mentions_iff_of_identical {a b : Word} (ha : a.WellFormed arena vars)
    (hb : b.WellFormed arena vars) (h : a.identical b = true) (v : Var) :
    a.Mentions v ↔ b.Mentions v := by
  have hforall := identicalBits_iff.mp h
  have hbits : ∀ {xs ys : List Bit},
      List.Forall₂ (fun x y => x.identical y = true) xs ys →
      (∀ x ∈ xs, x.Fits arena) → (∀ y ∈ ys, y.Fits arena) →
      ((∃ x ∈ xs, x.Mentions v) ↔ ∃ y ∈ ys, y.Mentions v) := by
    intro xs ys hxys hxs hys
    induction hxys with
    | nil => rfl
    | cons hhead _ ih =>
        simp only [List.forall_mem_cons] at hxs hys
        simp only [List.exists_mem_cons_iff, ih hxs.2 hys.2,
          Bit.mentions_iff_of_identical hxs.1 hys.1 hhead]
  exact hbits hforall ha.bits.fits hb.bits.fits

/-! ## Splitting off a constant -/

private theorem splitAddend?_record {w base : Word} {constant : UInt64}
    (hw : w.WellFormed arena vars)
    (h : w.splitAddend? = some (base, constant)) :
    ∃ sum, AddendSound arena vars ⟨base, constant, sum⟩ ∧
      base.WellFormed arena vars ∧
      sum.length = w.width ∧
      ∀ valuation,
        natOfBits (sum.map (Bit.eval valuation)) = w.value valuation := by
  cases hw with
  | plain hbits => simp [splitAddend?] at h
  | @sum bits addend hbits hsound hbase =>
      simp only [splitAddend?] at h
      split_ifs at h with hidentical
      obtain ⟨rfl, rfl⟩ := Prod.mk.inj (Option.some.inj h)
      refine ⟨addend.sum, hsound, hbase,
        (identicalBits_iff.mp hidentical).length_eq, ?_⟩
      intro valuation
      rw [map_eval_of_identicalBits hsound.sum_wellFormed.fits hbits.fits
        hidentical]
      rfl

theorem splitAddend?_total {w base : Word} {constant : UInt64}
    (hw : w.WellFormed arena vars)
    (h : w.splitAddend? = some (base, constant)) :
    ∃ total < 2 ^ w.width, constant.toNat = total % 2 ^ 64 ∧
      ∀ valuation,
        w.value valuation = (base.value valuation + total) % 2 ^ w.width := by
  obtain ⟨sum, hsound, _, hlength, hsum⟩ := splitAddend?_record hw h
  have htotal := hsound.total_eq
  simpa only [hlength, hsum] using htotal

theorem splitAddend?_sound {w base : Word} {constant : UInt64}
    (hw : w.WellFormed arena vars)
    (h : w.splitAddend? = some (base, constant)) :
    base.WellFormed arena vars ∧ base.width = w.width ∧ base.toUInt64? = none ∧
      base.splitAddend? = none ∧
      (w.width ≤ 64 → ∀ valuation, w.value valuation =
        (base.value valuation + constant.toNat) % 2 ^ w.width) := by
  obtain ⟨sum, hsound, hbase, hlength, _⟩ := splitAddend?_record hw h
  obtain ⟨total, hlt, hconstant, htotal⟩ := splitAddend?_total hw h
  refine ⟨hbase, hsound.width_eq.trans hlength, hsound.base_open,
    hsound.base_settled, ?_⟩
  intro hwidth
  have hwhole : total < 2 ^ 64 :=
    lt_of_lt_of_le hlt (Nat.pow_le_pow_right (by decide) hwidth)
  rwa [hconstant, Nat.mod_eq_of_lt hwhole]

/-! ## Concrete words -/

theorem concretizeFrom_ok {maxBits index x : Nat} {bits : List Bit}
    (h : concretizeFrom maxBits index bits = .ok x) :
    (∀ b ∈ bits, b.isLiteral = true) ∧ x < 2 ^ (maxBits - index) ∧
      ∀ valuation, natOfBits (bits.map (Bit.eval valuation)) = x := by
  induction bits generalizing index x with
  | nil =>
      cases h
      simp
  | cons b bits ih =>
      cases b with
      | literal value =>
          cases hrest : concretizeFrom maxBits (index + 1) bits with
          | error e =>
              cases value <;> simp only [concretizeFrom, hrest] at h
              · cases h
              · split at h <;> cases h
          | ok rest =>
              obtain ⟨hliteral, hlt, hvalue⟩ := ih hrest
              have hdouble : index < maxBits →
                  2 ^ (maxBits - index) = 2 * 2 ^ (maxBits - (index + 1)) := by
                intro hindex
                rw [← Nat.pow_succ', show (maxBits - (index + 1)).succ =
                  maxBits - index by omega]
              cases value <;> simp only [concretizeFrom, hrest] at h
              · obtain rfl : 2 * rest = x := by simpa [Except.map] using h
                refine ⟨by simpa [Bit.isLiteral, Bit.literal?] using hliteral,
                  ?_, ?_⟩
                · by_cases hindex : index < maxBits
                  · have hpow := hdouble hindex
                    omega
                  · rw [show maxBits - (index + 1) = 0 by omega] at hlt
                    rw [show maxBits - index = 0 by omega]
                    omega
                · simp [hvalue]
              · split at h
                case isTrue hindex =>
                    obtain rfl : 1 + 2 * rest = x := by
                      simpa [Except.map] using h
                    have hpow := hdouble hindex
                    refine ⟨?_, by omega, ?_⟩
                    · simpa [Bit.isLiteral, Bit.literal?] using hliteral
                    · simp [hvalue]
                case isFalse => cases h
      | _ => simp [concretizeFrom] at h

theorem toUInt64?_eq_some {w : Word} {x : UInt64} (h : w.toUInt64? = some x) :
    (∀ b ∈ w.bits, b.isLiteral = true) ∧ ∀ valuation,
      w.value valuation = x.toNat := by
  unfold toUInt64? at h
  cases hvalue : w.concretize 64 with
  | error e => simp [hvalue] at h
  | ok n =>
      obtain ⟨hliteral, hlt, hn⟩ := concretizeFrom_ok hvalue
      simp only [hvalue, Option.some.injEq] at h
      refine ⟨hliteral, fun valuation => ?_⟩
      rw [value, hn, ← h, UInt64.toNat_ofNat', Nat.mod_eq_of_lt hlt]

end Word

end SymbolicMachine
