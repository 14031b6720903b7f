import SymbolicMachine.Proofs.Machine.Concrete
import SymbolicMachine.Proofs.Machine.Execution

/-!
# Choosing fresh variables

Fresh variables stand for data that is not known.  Once the concrete machine has
read the data, the variables can be given its bits, and no word that was made
before changes its value.
-/

namespace SymbolicMachine

def AgreeOff (first last : Nat) (valuation other : Valuation) : Prop :=
  ∀ v : Var, ¬ (first ≤ v.id ∧ v.id < last) → other v = valuation v

namespace AgreeOff

variable {first mid last : Nat} {valuation other further : Valuation}

theorem refl (first last : Nat) (valuation : Valuation) :
    AgreeOff first last valuation valuation :=
  fun _ _ => rfl

theorem trans (h : AgreeOff first mid valuation other)
    (h' : AgreeOff mid last other further) (hfirst : first ≤ mid)
    (hlast : mid ≤ last) : AgreeOff first last valuation further := by
  intro v hv
  rw [h' v (by omega), h v (by omega)]

theorem widen (h : AgreeOff mid last valuation other) (hfirst : first ≤ mid) :
    AgreeOff first last valuation other :=
  fun v hv => h v (by omega)

theorem issued (h : AgreeOff first last valuation other)
    (hlast : last ≤ Var.taggedBase) (v : Var) (hv : Issued first v) :
    other v = valuation v := by
  apply h
  rcases hv with hlt | htagged <;> omega

end AgreeOff

/-! ## Words that do not change -/

section Congruence

variable {arch : Architecture} {arena : Arena} {vars : Var → Prop}
  {valuation other : Valuation}

private theorem Word.BitsWellFormed.map_eval_congr {bits : List Bit}
    (hbits : Word.BitsWellFormed arena vars bits)
    (h : ∀ v, vars v → other v = valuation v) :
    bits.map (Bit.eval other) = bits.map (Bit.eval valuation) := by
  apply List.map_congr_left
  intro b hb
  exact Bit.eval_congr fun v hv => h v ((hbits b hb).vars v hv)

theorem Word.WellFormed.value_congr {w : Word} (hw : w.WellFormed arena vars)
    (h : ∀ v, vars v → other v = valuation v) :
    w.value other = w.value valuation := by
  rw [Word.value, Word.value, hw.bits.map_eval_congr h]

private theorem Pointer.WellFormed.addressAt_congr {p : Pointer}
    (hp : p.WellFormed arch arena vars)
    (h : ∀ v, vars v → other v = valuation v) :
    p.addressAt other = p.addressAt valuation := by
  rw [Pointer.addressAt, Pointer.addressAt, hp.base.value_congr h]

theorem Machine.WellFormed.registerValue_congr {machine : Machine} {next : Nat}
    (hmachine : machine.WellFormed arch arena next)
    (h : ∀ v, Issued next v → other v = valuation v) (id : RegisterId) :
    machine.registerValue other id = machine.registerValue valuation id := by
  rw [Machine.registerValue, Machine.registerValue,
    (hmachine.readRegister _).value_congr h]

theorem Memory.Agrees.congr {memory : Memory} {ram : Ram}
    {history : List Footprint} (hagrees : memory.Agrees valuation ram history)
    (hmemory : memory.WellFormed arch arena vars)
    (h : ∀ v, vars v → other v = valuation v) :
    memory.Agrees other ram history := by
  intro region hregion offset byte hbyte
  have hold := hagrees region hregion offset byte hbyte
  have hanchor := (hmemory region hregion).anchor.addressAt_congr h
  constructor
  · rw [((hmemory region hregion).byte hbyte).value_congr h, hanchor]
    exact hold.value_eq
  · rw [hanchor]
    exact hold.written

end Congruence

/-! ## Words that take a value -/

private theorem Word.exists_value_freshWord (valuation : Valuation)
    (first : Nat) {width x : Nat} (hx : x < 2 ^ width) :
    ∃ other, AgreeOff first (first + width) valuation other ∧
      (freshWord first width).value other = x := by
  let other : Valuation := fun v =>
    if first ≤ v.id ∧ v.id < first + width then x.testBit (v.id - first)
    else valuation v
  refine ⟨other, fun v hv => if_neg hv, ?_⟩
  have hbits : (freshWord first width).bits.map (Bit.eval other) =
      (List.range width).map x.testBit := by
    simp only [freshWord, ofBits, List.map_map, List.range'_eq_map_range]
    apply List.map_congr_left
    intro i hi
    have hlt := List.mem_range.mp hi
    simp [other, hlt]
  calc
    (freshWord first width).value other
        = natOfBits ((List.range width).map x.testBit) := by rw [value, hbits]
    _ = x % 2 ^ width := natOfBits_map_testBit x width
    _ = x := Nat.mod_eq_of_lt hx

private theorem Ram.load_succ_at (ram : Ram) (anchor : BitVec 64) (offset : Int)
    (count : Nat) :
    ram.load (anchor + BitVec.ofInt 64 offset) (count + 1) =
      (ram (anchor + BitVec.ofInt 64 offset)).toNat +
        2 ^ 8 * ram.load (anchor + BitVec.ofInt 64 (offset + 1)) count := by
  rw [Ram.load, BitVec.ofInt_add, BitVec.add_assoc]
  rfl

section Reading

variable {arch : Architecture} {arena : Arena} {first last : Nat}
  {valuation : Valuation} {ram : Ram}

theorem Region.Reads.exists_value {region : Region} {offset : Int}
    {count start : Nat} {bits : List Bit}
    (h : region.Reads offset count first last bits) (hstart : start ≤ first)
    (hlast : last ≤ Var.taggedBase)
    (hregion : region.WellFormed arch arena (Issued start)) {anchor : BitVec 64}
    (hbytes : ∀ key byte, region.bytes[key]? = some byte →
      byte.value valuation = (ram (anchor + BitVec.ofInt 64 key)).toNat) :
    ∃ other, AgreeOff first last valuation other ∧
      Word.natOfBits (bits.map (Bit.eval other)) =
        ram.load (anchor + BitVec.ofInt 64 offset) count := by
  induction h generalizing valuation with
  | nil => exact ⟨valuation, .refl _ _ _, rfl⟩
  | @stored offset count first last byte bits hbyte hrest ih =>
      obtain ⟨other, hoff, hvalue⟩ := ih hstart hlast hbytes
      refine ⟨other, hoff, ?_⟩
      have hwidth : byte.bits.length = 8 := hregion.byte_width hbyte
      have hsame :=
        (hregion.byte hbyte).value_congr ((hoff.widen hstart).issued hlast)
      have hhead : Word.natOfBits (byte.bits.map (Bit.eval other)) =
          (ram (anchor + BitVec.ofInt 64 offset)).toNat :=
        hsame.trans (hbytes offset byte hbyte)
      rw [Ram.load_succ_at, List.map_append, Word.natOfBits_append,
        List.length_map, hwidth, hhead, hvalue]
  | @fresh offset count first last bits hnone hrest ih =>
      have hle := hrest.first_le
      obtain ⟨mid, hmid, hhead⟩ := Word.exists_value_freshWord valuation first
        (ram (anchor + BitVec.ofInt 64 offset)).isLt
      have hkept : ∀ key byte, region.bytes[key]? = some byte →
          byte.value mid = (ram (anchor + BitVec.ofInt 64 key)).toNat := by
        intro key byte hbyte
        rw [(hregion.byte hbyte).value_congr
          ((hmid.widen hstart).issued (by omega))]
        exact hbytes key byte hbyte
      obtain ⟨other, hoff, hvalue⟩ := ih (by omega) hlast hkept
      refine ⟨other, hmid.trans hoff (by omega) hle, ?_⟩
      have hword : (Word.freshWord first 8).WellFormed arena fun v => v.id <
          first + 8 :=
        Word.freshWord_wellFormed fun _ _ hlt => hlt
      have hsame := hword.value_congr fun v hv => hoff v (by omega)
      have hhead' : Word.natOfBits ((Word.freshWord first 8).bits.map
          (Bit.eval other)) = (ram (anchor + BitVec.ofInt 64 offset)).toNat :=
        hsame.trans hhead
      rw [Ram.load_succ_at, List.map_append, Word.natOfBits_append,
        List.length_map, Word.length_freshWord, hhead', hvalue]

theorem Memory.Answers.exists_value {memory : Memory} {pointer : Pointer}
    {count : Nat} {answer : Word} {history : List Footprint}
    (h : memory.Answers pointer (count * 8) first last answer)
    (hmemory : memory.WellFormed arch arena (Issued first))
    (hlast : last ≤ Var.taggedBase)
    (hagrees : memory.Agrees valuation ram history) :
    ∃ other, AgreeOff first last valuation other ∧
      answer.value other = ram.load (pointer.addressAt valuation) count := by
  rcases h with hfrom | ⟨id, hid, rfl, rfl⟩
  · obtain ⟨region, hregion, offset, bits, hreaches, hreads, hlength, rfl⟩ :=
      hfrom.bits_eq hmemory
    rw [show (count * 8 + 7) / 8 = count by omega] at hreads
    obtain ⟨other, hoff, hvalue⟩ :=
      hreads.exists_value le_rfl hlast (hmemory region hregion)
        fun key byte hbyte => (hagrees region hregion key byte hbyte).value_eq
    refine ⟨other, hoff, ?_⟩
    have hlt := Word.natOfBits_lt (bits.map (Bit.eval other))
    rw [List.length_map, hreads.length_eq (hmemory region hregion)] at hlt
    rw [hreaches.address_eq valuation, ← hvalue, Word.value_resize]
    exact Nat.mod_eq_of_lt hlt
  · have hlt := ram.load_lt (pointer.addressAt valuation) count
    rw [Nat.mul_comm] at hlt
    obtain ⟨other, hoff, hvalue⟩ := Word.exists_value_freshWord valuation id hlt
    exact ⟨other, hoff.widen hid, hvalue⟩

end Reading

end SymbolicMachine
