import SymbolicMachine.Pointer
import SymbolicMachine.Proofs.Word.Construction
import SymbolicMachine.Proofs.Word.Subtraction
import SymbolicMachine.Proofs.Word.Tags

/-!
# Addresses of pointers

A pointer stands for an address of 64 bits under every valuation.  Making a
pointer keeps the address, and a known distance between two pointers is the
distance of their addresses.  Two pointers at a known distance depend on the
same restricted registers, so the alias test never separates them.
-/

namespace SymbolicMachine

theorem RegisterId.ofTag?_eq_some_iff {tag : Nat} {id : RegisterId} :
    ofTag? tag = some id ↔ tag = id.tag := by
  constructor
  · intro h
    unfold ofTag? at h
    split at h
    case isTrue hlt =>
        obtain rfl := Option.some.inj h
        exact (UInt16.toNat_ofNat_of_lt hlt).symm
    case isFalse => cases h
  · rintro rfl
    exact ofTag?_tag id

theorem bitVec_ofNat_mod (x n : Nat) :
    BitVec.ofNat n (x % 2 ^ n) = BitVec.ofNat n x := by
  apply BitVec.eq_of_toNat_eq
  simp

theorem bitVec_ofNat_toNat (value : UInt64) :
    BitVec.ofNat 64 value.toNat = value.toBitVec := by
  simp

theorem Word.identical_self (w : Word) : w.identical w = true :=
  identicalBits_iff.mpr (List.forall₂_same.mpr fun b _ => b.identical_self)

namespace Pointer

variable {arch : Architecture} {arena : Arena} {vars : Var → Prop}

def addressAt (valuation : Valuation) (p : Pointer) : BitVec 64 :=
  BitVec.ofNat 64 (p.base.value valuation) + p.displacement.toBitVec

structure WellFormed (arch : Architecture) (arena : Arena) (vars : Var → Prop)
    (p : Pointer) :
    Prop where
  base : p.base.WellFormed arena vars
  width : p.base.width = addressWidth
  restrict : ∀ id,
  id ∈ p.restrict ↔ arch.restricted id = true ∧ p.base.HasTag id.tag

def SameRestrict (p q : Pointer) : Prop :=
  ∀ id, id ∈ p.restrict ↔ id ∈ q.restrict

theorem WellFormed.mono {later : Arena} (hle : arena <+: later) {p : Pointer}
    (h : p.WellFormed arch arena vars) : p.WellFormed arch later vars :=
  { h with base := h.base.mono hle }

theorem WellFormed.weaken {wider : Var → Prop} (hvars : ∀ v, vars v → wider v)
    {p : Pointer} (h : p.WellFormed arch arena vars) :
    p.WellFormed arch arena wider :=
  { h with base := h.base.weaken hvars }

/-! ## Making pointers -/

theorem mem_restrictOf_iff {w : Word} (hw : w.WellFormed arena vars)
    (id : RegisterId) :
    id ∈ restrictOf arch w ↔ arch.restricted id = true ∧ w.HasTag id.tag := by
  simp only [restrictOf, List.mem_filter, List.mem_filterMap,
    Std.TreeSet.mem_toList, RegisterId.ofTag?_eq_some_iff, exists_eq_right,
    Word.mem_tags_iff hw.bits.fits]
  exact and_comm

theorem constant_wellFormed (address : UInt64) :
    (constant address).WellFormed arch arena vars := by
  refine ⟨Word.constant_wellFormed 0 addressWidth,
    Word.width_constant 0 addressWidth, ?_⟩
  intro id
  have hnone : ¬ (constant address).base.HasTag id.tag := by
    rintro ⟨v, index, ⟨b, hb, hmention⟩, _⟩
    obtain ⟨i, _, rfl⟩ := List.mem_map.mp hb
    exact hmention.elim
  simp only [hnone, and_false, iff_false]
  exact List.not_mem_nil

/--
A constant address has no base; any other one is split if it has a constant
addend.
-/
theorem ofWord_cases (arch : Architecture) (w : Word) :
    (∃ value, (w.resize addressWidth).toUInt64? = some value ∧
      ofWord arch w = constant value) ∨
    ∃ base addend,
      ofWord arch w = ⟨base, addend.toInt64, restrictOf arch base⟩ ∧
      (base = w.resize addressWidth ∧ addend = 0 ∨
        (w.resize addressWidth).splitAddend? = some (base, addend)) := by
  unfold ofWord
  cases hvalue : (w.resize addressWidth).toUInt64? with
  | some value => exact .inl ⟨value, rfl, by simp only [hvalue]⟩
  | none =>
      right
      cases hsplit : (w.resize addressWidth).splitAddend? with
      | none =>
          exact ⟨w.resize addressWidth, 0, by simp [hvalue, hsplit],
            .inl ⟨rfl, rfl⟩⟩
      | some split =>
          exact ⟨split.1, split.2, by simp [hvalue, hsplit], .inr rfl⟩

theorem ofWord_wellFormed {w : Word} (hw : w.WellFormed arena vars) :
    (ofWord arch w).WellFormed arch arena vars := by
  have haddress := hw.resize addressWidth
  have hwidth := Word.width_resize w addressWidth
  rcases ofWord_cases arch w with ⟨value, _, h⟩ | ⟨base, addend, h,
    ⟨rfl, _⟩ | hsplit⟩ <;> rw [h]
  · exact constant_wellFormed value
  · exact ⟨haddress, hwidth, mem_restrictOf_iff haddress⟩
  · obtain ⟨hbase, hbaseWidth, _⟩ := Word.splitAddend?_sound haddress hsplit
    exact ⟨hbase, hbaseWidth.trans hwidth, mem_restrictOf_iff hbase⟩

@[simp] theorem displace_zero (p : Pointer) : p.displace 0 = p := by
  simp [displace]

theorem displace_displace (p : Pointer) (x y : Int64) :
    (p.displace x).displace y = p.displace (x + y) := by
  simp only [displace, Int64.add_assoc]

theorem WellFormed.displace {p : Pointer} (h : p.WellFormed arch arena vars)
    (bytes : Int64) :
    (p.displace bytes).WellFormed arch arena vars :=
  ⟨h.base, h.width, h.restrict⟩

/--
The pointers to words of a pool, to constant addresses, and at a distance from
these.
-/
inductive Built (arch : Architecture) (words : List Word) : Pointer → Prop
  | ofWord {w : Word} : w ∈ words → Built arch words (ofWord arch w)
  | constant (address : UInt64) : Built arch words (constant address)
  | displace {p : Pointer} (bytes : Int64) :
      Built arch words p → Built arch words (p.displace bytes)

theorem Built.wellFormed {session : Session} {words : List Word} {p : Pointer}
    (h : Built arch words p) (hpool : Word.Pool session arena words) :
    p.WellFormed arch arena (Issued session.nextVar) := by
  induction h with
  | ofWord hw => exact ofWord_wellFormed (hpool.wellFormed _ hw)
  | constant address => exact constant_wellFormed address
  | displace bytes _ ih => exact ih.displace bytes

/-! ## Addresses -/

theorem addressAt_displace (valuation : Valuation) (p : Pointer)
    (bytes : Int64) :
    (p.displace bytes).addressAt valuation =
      p.addressAt valuation + bytes.toBitVec := by
  simp only [addressAt, displace, Int64.toBitVec_add, BitVec.add_assoc]

theorem addressAt_constant (valuation : Valuation) (address : UInt64) :
    (constant address).addressAt valuation = address.toBitVec := by
  simp only [addressAt, constant, Word.value_constant]
  exact BitVec.zero_add _

theorem addressAt_ofWord {w : Word} (hw : w.WellFormed arena vars)
    (valuation : Valuation) :
    (ofWord arch w).addressAt valuation =
      BitVec.ofNat 64 (w.value valuation) := by
  have hresize : BitVec.ofNat 64 (w.value valuation) =
      BitVec.ofNat 64 ((w.resize addressWidth).value valuation) := by
    rw [Word.value_resize, addressWidth, bitVec_ofNat_mod]
  rw [hresize]
  rcases ofWord_cases arch w with ⟨value, hvalue, h⟩ | ⟨base, addend, h,
    ⟨rfl, rfl⟩ | hsplit⟩ <;>
    rw [h]
  · rw [(Word.toUInt64?_eq_some hvalue).2, addressAt_constant,
      bitVec_ofNat_toNat]
  · exact BitVec.add_zero _
  · obtain ⟨_, _, _, _, hsum⟩ :=
      Word.splitAddend?_sound (hw.resize addressWidth) hsplit
    have hwidth := Word.width_resize w addressWidth
    have hvalue : (w.resize addressWidth).value valuation =
        (base.value valuation + addend.toNat) % 2 ^ 64 := by
      rw [hsum hwidth.le, hwidth, addressWidth]
    symm
    calc
      BitVec.ofNat 64 ((w.resize addressWidth).value valuation)
          = BitVec.ofNat 64 (base.value valuation) +
              BitVec.ofNat 64 addend.toNat := by
            rw [hvalue, bitVec_ofNat_mod, BitVec.ofNat_add]
      _ = BitVec.ofNat 64 (base.value valuation) + addend.toBitVec := by
        rw [bitVec_ofNat_toNat]

/-! ## Distances -/

private theorem baseDifference_yields {stops : Fault → Prop} {session : Session}
    {p q : Pointer} (hnode : session.nextNode = arena.length)
    (hp : p.WellFormed arch arena vars) (hq : q.WellFormed arch arena vars) :
    SymM.Yields stops (p.baseDifference q) session arena fun after _ result =>
      SymM.NodesOnly session after ∧ ∀ delta, result = some delta →
        (∀ valuation, BitVec.ofNat 64 (p.base.value valuation) =
          BitVec.ofNat 64 (q.base.value valuation) + delta.toBitVec) ∧
        ∀ v, p.base.Mentions v ↔ q.base.Mentions v := by
  unfold baseDifference
  split
  case isTrue hidentical =>
      refine SymM.yields_pure hnode ⟨rfl, ?_⟩
      rintro delta hdelta
      obtain rfl : 0 = delta := Option.some.inj hdelta
      refine ⟨fun valuation => ?_,
        Word.mentions_iff_of_identical hp.base hq.base hidentical⟩
      rw [Word.value_eq_of_identical hp.base hq.base hidentical]
      exact (BitVec.add_zero _).symm
  case isFalse =>
      have hwidth := hp.width.trans hq.width.symm
      refine (Word.sub_yields hnode hp.base hq.base hwidth).bind
        fun after later w hle hafter ⟨hnodes, _, negated, carry, _, hneg,
          hadded⟩ => ?_
      refine SymM.yields_pure hafter ⟨hnodes, fun delta hdelta => ?_⟩
      obtain ⟨hliteral, hvalue⟩ := Word.toUInt64?_eq_some hdelta
      refine ⟨fun valuation => ?_,
        Word.mentions_iff_of_literal_sub (hp.base.mono hle)
        (hq.base.mono hle) hneg hadded hliteral⟩
      have hsum := hadded.value_eq valuation
      rw [hvalue, hneg.value_eq, hp.width, hq.width, addressWidth] at hsum
      have hq' := q.base.value_lt valuation
      rw [hq.width, addressWidth] at hq'
      rw [← bitVec_ofNat_toNat, hsum]
      apply BitVec.eq_of_toNat_eq
      simp only [BitVec.toNat_ofNat, BitVec.toNat_add]
      omega

theorem difference_yields {stops : Fault → Prop} {session : Session}
    {p q : Pointer} (hnode : session.nextNode = arena.length)
    (hp : p.WellFormed arch arena vars) (hq : q.WellFormed arch arena vars) :
    SymM.Yields stops (p.difference q) session arena fun after _ result =>
      SymM.NodesOnly session after ∧ ∀ distance, result = some distance →
        (∀ valuation, p.addressAt valuation =
          q.addressAt valuation + distance.toBitVec) ∧
        p.SameRestrict q := by
  refine (baseDifference_yields hnode hp hq).bind
    fun after later delta hle hafter ⟨hnodes, hdelta⟩ => ?_
  refine SymM.yields_pure hafter ⟨hnodes, ?_⟩
  intro distance hdistance
  obtain ⟨value, rfl, rfl⟩ := Option.map_eq_some_iff.mp hdistance
  obtain ⟨haddress, hvars⟩ := hdelta value rfl
  constructor
  · intro valuation
    simp only [addressAt, haddress valuation, Int64.toBitVec_add,
      Int64.toBitVec_sub, UInt64.toBitVec_toInt64]
    bv_omega
  · intro id
    rw [hp.restrict, hq.restrict]
    simp only [Word.HasTag, hvars]

theorem difference_of_identical {p q : Pointer}
    (hsame : p.base.identical q.base = true) (session : Session) :
    p.difference q session =
      .ok (some (p.displacement - q.displacement)) session := by
  have hzero : p.baseDifference q = pure (some 0) := by
    rw [baseDifference, if_pos hsame]
  rw [difference, hzero, pure_bind, Option.map_some,
    show (0 : UInt64).toInt64 = 0 from rfl, Int64.zero_add]
  rfl

theorem difference_of_base_eq {p q : Pointer} (hbase : p.base = q.base)
    (session : Session) :
    p.difference q session =
      .ok (some (p.displacement - q.displacement)) session := by
  apply difference_of_identical
  rw [hbase]
  exact q.base.identical_self

theorem difference_displace (p : Pointer) (bytes : Int64) (session : Session) :
    (p.displace bytes).difference p session = .ok (some bytes) session := by
  have hsum : (p.displace bytes).displacement - p.displacement = bytes := by
    rw [displace, Int64.add_comm, Int64.add_sub_cancel]
  have hbase : (p.displace bytes).base = p.base := rfl
  rw [difference_of_base_eq hbase, hsum]

/-! ## Aliasing -/

theorem canOverlap_eq_false_iff {p q : Pointer} :
    p.canOverlap q = false ↔
      (∃ id, id ∈ p.restrict) ∧ (∃ id, id ∈ q.restrict) ∧
        ∀ id ∈ p.restrict, id ∉ q.restrict := by
  simp only [canOverlap, Bool.or_eq_false_iff,
    List.isEmpty_eq_false_iff_exists_mem, List.any_eq_false, decide_eq_true_eq,
    and_assoc]

theorem canOverlap_comm (p q : Pointer) : p.canOverlap q = q.canOverlap p := by
  have hiff : p.canOverlap q = false ↔ q.canOverlap p = false := by
    simp only [canOverlap_eq_false_iff]
    constructor
    · rintro ⟨hp, hq, hapart⟩
      exact ⟨hq, hp, fun id hid hid' => hapart id hid' hid⟩
    · rintro ⟨hq, hp, hapart⟩
      exact ⟨hp, hq, fun id hid hid' => hapart id hid' hid⟩
  cases hqp : q.canOverlap p with
  | false => exact hiff.mpr hqp
  | true => simpa [hqp] using hiff

theorem SameRestrict.canOverlap_eq {p q : Pointer} (h : p.SameRestrict q)
    (other : Pointer) :
    p.canOverlap other = q.canOverlap other := by
  have hiff : p.canOverlap other = false ↔ q.canOverlap other = false := by
    simp only [canOverlap_eq_false_iff, h _]
  cases hq : q.canOverlap other with
  | false => exact hiff.mpr hq
  | true => simpa [hq] using hiff

end Pointer

end SymbolicMachine
