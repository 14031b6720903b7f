import SymbolicMachine.Machine
import SymbolicMachine.Proofs.Memory.Regions
import SymbolicMachine.Proofs.Word.Expressions

/-!
# The register file

Under a valuation the machine holds 64 bits for every base register.  A slice
reads its bits; a write replaces the bits of its slice and keeps or clears the
others, and leaves all other registers alone.
-/

namespace SymbolicMachine

theorem RegisterSlice.isFull_iff {slice : RegisterSlice} :
    slice.isFull = true ↔ slice.offset = 0 ∧ slice.count = registerWidth := by
  simp [isFull]

namespace Machine

structure WellFormed (arch : Architecture) (arena : Arena) (next : Nat)
    (machine : Machine) :
    Prop where
  register : ∀ {key : RegisterSlice} {word : Word},
    machine.registers[key]? = some word → word.WellFormed arena (Issued next)
  register_width : ∀ {key : RegisterSlice} {word : Word},
    machine.registers[key]? = some word → word.width = registerWidth
  memory : machine.memory.WellFormed arch arena (Issued next)

variable {arch : Architecture} {arena : Arena} {next : Nat} {machine : Machine}

theorem wellFormed_new : ({} : Machine).WellFormed arch arena next := by
  constructor
  · intro key word hword
    exact absurd hword (by simp)
  · intro key word hword
    exact absurd hword (by simp)
  · intro region hregion
    cases hregion

theorem WellFormed.grow (h : machine.WellFormed arch arena next) {later : Arena}
    {last : Nat} (hle : arena <+: later) (hvars : next ≤ last) :
    machine.WellFormed arch later last where
  register :=
    fun hword => ((h.register hword).mono hle).weaken fun _ => Issued.mono hvars
  register_width := h.register_width
  memory := fun region hregion =>
    ((h.memory region hregion).mono hle).weaken fun _ => Issued.mono hvars

theorem WellFormed.readRegister (h : machine.WellFormed arch arena next)
    (slice : RegisterSlice) :
    (machine.readRegister slice).WellFormed arena (Issued next) := by
  unfold Machine.readRegister
  split
  case h_1 word hword =>
    exact ((h.register hword).shiftRight slice.offset).resize slice.count
  case h_2 => exact Word.ofTag_wellFormed fun i _ => issued_ofTag next _ _

@[simp] theorem width_readRegister (machine : Machine) (slice : RegisterSlice) :
    (machine.readRegister slice).width = slice.count := by
  unfold readRegister
  split
  · exact Word.width_resize _ _
  · exact Word.width_ofTag _ _ _

theorem WellFormed.readOperand (h : machine.WellFormed arch arena next)
    (operand : Operand) :
    (machine.readOperand operand).WellFormed arena (Issued next) := by
  cases operand with
  | register slice => exact h.readRegister slice
  | immediate constant =>
      exact Word.constant_wellFormed constant.value constant.width

@[simp] theorem width_readOperand (machine : Machine) (operand : Operand) :
    (machine.readOperand operand).width = operand.width := by
  cases operand with
  | register slice => exact machine.width_readRegister slice
  | immediate constant => exact Word.width_constant _ _

/-! ## Reading -/

theorem readRegister_congr {after : Machine} {slice : RegisterSlice}
    (h : after.registers[slice.canonical]? =
      machine.registers[slice.canonical]?) :
    after.readRegister slice = machine.readRegister slice := by
  simp only [readRegister, h]

theorem readRegister_of_some {slice : RegisterSlice} {word : Word}
    (hword : machine.registers[slice.canonical]? = some word) :
    machine.readRegister slice =
      (word.shiftRight slice.offset).resize slice.count := by
  simp only [readRegister, hword]

theorem readRegister_of_none {slice : RegisterSlice}
    (hnew : machine.registers[slice.canonical]? = none) :
    machine.readRegister slice = slice.initial := by
  simp only [readRegister, hnew]

theorem readRegister_full {id : RegisterId} {word : Word}
    (hword : machine.registers[RegisterSlice.full id]? = some word)
    (hwidth : word.width = registerWidth) :
    machine.readRegister (.full id) = word := by
  have hshift : word.shiftRight 0 = word := by
    cases word
    simp [Word.shiftRight, Word.shiftRightBits]
  calc
    machine.readRegister (.full id) =
      (word.shiftRight 0).resize registerWidth :=
      readRegister_of_some hword
    _ = word := by rw [hshift, Word.resize_of_width hwidth]

def FullSlots (machine : Machine) : Prop :=
  ∀ (key : RegisterSlice) (word : Word),
    machine.registers[key]? = some word → word.width = registerWidth

theorem WellFormed.fullSlots (h : machine.WellFormed arch arena next) :
    machine.FullSlots :=
  fun _ _ => h.register_width

theorem FullSlots.slot_eq (h : machine.FullSlots) (slice : RegisterSlice) :
    machine.slot slice = machine.readRegister slice.canonical := by
  cases hword : machine.registers[slice.canonical]? with
  | some word =>
      have hread : machine.readRegister slice.canonical = word :=
        readRegister_full hword (h _ _ hword)
      rw [hread, Machine.slot, hword, Option.getD_some]
  | none =>
      have hread : machine.readRegister slice.canonical =
          slice.canonical.initial := readRegister_of_none hword
      rw [hread, Machine.slot, hword, Option.getD_none]

def registerValue (valuation : Valuation) (machine : Machine)
    (id : RegisterId) : BitVec 64 :=
  BitVec.ofNat 64 ((machine.readRegister (.full id)).value valuation)

theorem registerValue_of_eq {after : Machine} (valuation : Valuation)
    {id : RegisterId} (h : after.registers[RegisterSlice.full id]? =
      machine.registers[RegisterSlice.full id]?) :
    after.registerValue valuation id = machine.registerValue valuation id := by
  have hread : after.readRegister (.full id) =
      machine.readRegister (.full id) :=
    readRegister_congr h
  rw [registerValue, registerValue, hread]

theorem registerValue_eq_of_getElem? (valuation : Valuation) {id : RegisterId}
    {word : Word}
    (hword : machine.registers[RegisterSlice.full id]? = some word) :
    machine.registerValue valuation id =
      BitVec.ofNat 64 (word.value valuation) := by
  have hread : machine.readRegister (.full id) =
      (word.shiftRight 0).resize registerWidth := readRegister_of_some hword
  calc
    machine.registerValue valuation id
        = BitVec.ofNat 64 ((word.value valuation >>> 0) % 2 ^ 64) := by
          rw [registerValue, hread, Word.value_resize, Word.value_shiftRight,
            registerWidth]
    _ = BitVec.ofNat 64 (word.value valuation) := by
      rw [Nat.shiftRight_zero, bitVec_ofNat_mod]

theorem getLsbD_registerValue_of_new (valuation : Valuation) {id : RegisterId}
    (hnew : machine.registers[RegisterSlice.full id]? = none) {k : Nat}
    (hk : k < 64) :
    (machine.registerValue valuation id).getLsbD k =
      valuation (.ofTag id.tag k) := by
  have hread : machine.readRegister (.full id) =
      .ofTag id.tag 0 registerWidth :=
    readRegister_of_none hnew
  rw [registerValue, hread, BitVec.getLsbD_ofNat,
    Word.testBit_value_ofTag _ (by exact hk), Nat.zero_add]
  simp [hk]

theorem value_readRegister (h : machine.WellFormed arch arena next)
    (valuation : Valuation) (slice : RegisterSlice) :
    (machine.readRegister slice).value valuation =
      ((machine.registerValue valuation
      slice.base).extractLsb' slice.offset slice.count).toNat := by
  have hinside := slice.inside
  rw [registerWidth] at hinside
  cases hword : machine.registers[slice.canonical]? with
  | some word =>
      have hlt := word.value_lt valuation
      rw [h.register_width hword, registerWidth] at hlt
      rw [readRegister_of_some hword,
        registerValue_eq_of_getElem? valuation hword,
        BitVec.extractLsb'_toNat, BitVec.toNat_ofNat, Nat.mod_eq_of_lt hlt,
        Word.value_resize, Word.value_shiftRight]
  | none =>
      rw [readRegister_of_none hword]
      apply Nat.eq_of_testBit_eq
      intro i
      rw [BitVec.testBit_toNat, BitVec.getLsbD_extractLsb']
      by_cases hi : i < slice.count
      · rw [getLsbD_registerValue_of_new valuation hword (by omega)]
        rw [RegisterSlice.initial, Word.testBit_value_ofTag _ hi]
        simp [hi]
      · have hwidth : slice.initial.width = slice.count :=
          Word.width_ofTag _ _ _
        rw [Word.testBit_value_of_le valuation (by omega)]
        simp [hi]

/-! ## Single bits -/

def registerBit (machine : Machine) (id : RegisterId) (k : Nat) : Bit :=
  (machine.readRegister (.full id)).bitAt k

theorem getElem?_bits_readRegister (machine : Machine) (slice : RegisterSlice)
    {i : Nat} (hi : i < slice.count) :
    (machine.readRegister slice).bits[i]? =
      some (machine.registerBit slice.base (slice.offset + i)) := by
  have hk : slice.offset + i < registerWidth := by
    have hinside := slice.inside
    omega
  cases hword : machine.registers[slice.canonical]? with
  | some word =>
      have hfull : machine.readRegister (.full slice.base) =
          (word.shiftRight 0).resize registerWidth := readRegister_of_some hword
      rw [readRegister_of_some hword, registerBit, hfull,
        Word.getElem?_bits_resize _ hi, Word.bitAt_resize _ hk,
        Word.bitAt_shiftRight, Word.bitAt_shiftRight, Nat.zero_add]
  | none =>
      have hfull : machine.readRegister (.full slice.base) =
          .ofTag slice.base.tag 0 registerWidth := readRegister_of_none hword
      rw [readRegister_of_none hword, registerBit, hfull]
      simp [RegisterSlice.initial, Word.ofTag, Word.ofBits, Word.bitAt, hi, hk]

theorem eval_registerBit (machine : Machine) (valuation : Valuation)
    (id : RegisterId) {k : Nat} (hk : k < registerWidth) :
    (machine.registerBit id k).eval valuation =
      (machine.registerValue valuation id).getLsbD k := by
  have hbit : (machine.readRegister (.full id)).bits[k]? =
      some (machine.registerBit id k) := by
    simpa [RegisterSlice.full] using machine.getElem?_bits_readRegister
      (.full id) hk
  have hlt : k < 64 := hk
  rw [registerValue, BitVec.getLsbD_ofNat, Word.testBit_value, hbit]
  simp [hlt]

/-! ## Writing -/

/--
What a write of `value` to a slice makes of the 64 bits of its base register.
-/
def placed (arch : Architecture) (slice : RegisterSlice) (slot : BitVec 64)
    (value : BitVec slice.count) : BitVec 64 :=
  if slice.isFull ∨ arch.partialWrite slice = .zeroExtend then value.setWidth 64
  else slot &&& ~~~slice.mask.toBitVec ||| value.setWidth 64 <<< slice.offset

theorem getLsbD_mask (slice : RegisterSlice) (k : Nat) :
    slice.mask.toBitVec.getLsbD k =
      decide (slice.offset ≤ k ∧ k < slice.stop) := by
  have hinside := slice.inside
  rw [registerWidth] at hinside
  have hmask : slice.mask.toBitVec =
      BitVec.ofNat 64 ((1 <<< slice.count - 1) <<< slice.offset) := rfl
  rw [hmask, BitVec.getLsbD_ofNat, Nat.testBit_shiftLeft, Nat.shiftLeft_eq,
    Nat.one_mul, Nat.testBit_two_pow_sub_one, RegisterSlice.stop]
  by_cases hlow : slice.offset ≤ k
  · by_cases hhigh : k < slice.offset + slice.count
    · simp [hlow, hhigh, show k < 64 by omega,
        show k - slice.offset < slice.count by omega]
    · simp [hhigh, show ¬ k - slice.offset < slice.count by omega]
  · simp [hlow]

theorem getLsbD_placed_of_merge {slice : RegisterSlice} {slot : BitVec 64}
    {value : BitVec slice.count}
    (hmerge : ¬ (slice.isFull ∨ arch.partialWrite slice = .zeroExtend))
    {k : Nat} (hk : k < 64) :
    (placed arch slice slot value).getLsbD k =
      if slice.offset ≤ k ∧ k < slice.stop then value.getLsbD (k - slice.offset)
      else slot.getLsbD k := by
  rw [placed, if_neg hmerge, BitVec.getLsbD_or, BitVec.getLsbD_and,
    BitVec.getLsbD_not, getLsbD_mask, BitVec.getLsbD_shiftLeft,
    BitVec.getLsbD_setWidth, RegisterSlice.stop]
  by_cases hlow : slice.offset ≤ k
  · by_cases hhigh : k < slice.offset + slice.count
    · simp [hlow, hhigh, hk, show ¬ k < slice.offset by omega,
        show k - slice.offset < 64 by omega]
    · have hvalue : value.getLsbD (k - slice.offset) = false :=
        BitVec.getLsbD_of_ge _ _ (by omega)
      simp [hhigh, hk, hvalue]
  · simp [hlow, hk, show k < slice.offset by omega]

theorem getLsbD_placed_of_zeroExtend {slice : RegisterSlice} {slot : BitVec 64}
    {value : BitVec slice.count} (hzero : arch.partialWrite slice = .zeroExtend)
    {k : Nat} (hk : slice.count ≤ k) :
    (placed arch slice slot value).getLsbD k = false := by
  calc
    (placed arch slice slot value).getLsbD k
        = (value.setWidth 64).getLsbD k := by
          rw [placed, if_pos (.inr hzero)]
    _ = false := by
      rw [BitVec.getLsbD_setWidth, BitVec.getLsbD_of_ge _ _ hk,
        Bool.and_false]

theorem getLsbD_placed_congr {slice : RegisterSlice} {slot other : BitVec 64}
    {value : BitVec slice.count} {k : Nat} (hk : k < 64)
    (h : ¬ (slice.offset ≤ k ∧ k < slice.stop) →
      slot.getLsbD k = other.getLsbD k) :
    (placed arch slice slot value).getLsbD k =
      (placed arch slice other value).getLsbD k := by
  by_cases hwhole : slice.isFull ∨ arch.partialWrite slice = .zeroExtend
  · rw [placed, placed, if_pos hwhole, if_pos hwhole]
  · rw [getLsbD_placed_of_merge hwhole hk, getLsbD_placed_of_merge hwhole hk]
    split
    case isTrue => rfl
    case isFalse hout => exact h hout

structure Placed (arch : Architecture) (machine : Machine)
    (slice : RegisterSlice) (value : Word) (after : Machine) : Prop where
  memory_eq : after.memory = machine.memory
  other : ∀ key, key ≠ slice.canonical →
    after.registers[key]? = machine.registers[key]?
  slot : ∀ valuation, after.registerValue valuation slice.base =
    placed arch slice (machine.registerValue valuation slice.base)
      (BitVec.ofNat slice.count (value.value valuation))

theorem Placed.other_base {slice : RegisterSlice} {value : Word}
    {after : Machine} (h : machine.Placed arch slice value after)
    {id : RegisterId} (hid : id ≠ slice.base) :
    after.registers[RegisterSlice.full id]? =
      machine.registers[RegisterSlice.full id]? := by
  apply h.other
  intro heq
  exact hid (RegisterSlice.full_inj.mp heq)

private theorem merge_yields {stops : Fault → Prop} {session : Session}
    {slice : RegisterSlice} {slot value : Word}
    (hnode : session.nextNode = arena.length)
    (hslot : slot.WellFormed arena (Issued next))
    (hvalue : value.WellFormed arena (Issued next))
    (hwidth : slot.width = registerWidth) :
    SymM.Yields stops (merge slice slot value) session arena
      fun after later w =>
      SymM.NodesOnly session after ∧ w.WellFormed later (Issued next) ∧
        w.width = registerWidth ∧
        ∀ valuation, BitVec.ofNat 64 (w.value valuation) =
          BitVec.ofNat 64 (slot.value valuation) &&& ~~~slice.mask.toBitVec |||
            BitVec.ofNat 64 (value.value valuation) <<< slice.offset := by
  have hmask : (Word.constant slice.mask registerWidth).WellFormed arena
      (Issued next) :=
    Word.constant_wellFormed slice.mask registerWidth
  refine (SymM.yields_ofNodeM hnode (Word.not_yields hmask)).bind
    fun after₁ arena₁ mask hle₁ hnode₁ ⟨hnodes₁, hmask', _, hmaskWidth,
      hmaskValue⟩ => ?_
  rw [Word.width_constant] at hmaskWidth hmaskValue
  refine (Word.and_yields hnode₁ (hslot.mono hle₁) hmask'
    (hwidth.trans hmaskWidth.symm)).bind
    fun after₂ arena₂ kept hle₂ hnode₂ ⟨hnodes₂, hkept, hkeptWidth,
      hkeptValue⟩ => ?_
  have hshifted :=
    ((hvalue.mono (hle₁.trans hle₂)).resize registerWidth).shiftLeft
      slice.offset
  refine (Word.or_yields hnode₂ hkept hshifted
    (by simp [hkeptWidth, hwidth])).mono
    fun after₃ arena₃ w _ _ ⟨hnodes₃, hw, hwWidth, hwValue⟩ => ?_
  refine ⟨(hnodes₁.trans hnodes₂).trans hnodes₃, hw,
    hwWidth.trans (hkeptWidth.trans hwidth), ?_⟩
  intro valuation
  have hinverted :
      BitVec.ofNat 64 (2 ^ registerWidth - 1 - slice.mask.toNat %
        2 ^ registerWidth) =
      ~~~slice.mask.toBitVec := by
    have hlt := slice.mask.toNat_lt
    apply BitVec.eq_of_toNat_eq
    rw [BitVec.toNat_not, BitVec.toNat_ofNat, registerWidth]
    change _ = 2 ^ 64 - 1 - slice.mask.toNat
    omega
  have hmoved : BitVec.ofNat 64
      (((value.resize registerWidth).shiftLeft slice.offset).value valuation) =
        BitVec.ofNat 64 (value.value valuation) <<< slice.offset := by
    apply BitVec.eq_of_toNat_eq
    simp [BitVec.toNat_shiftLeft, registerWidth]
  rw [hwValue, hkeptValue, hmaskValue, Word.value_constant, BitVec.ofNat_or,
    BitVec.ofNat_and, hinverted, hmoved]

def newSlot (arch : Architecture) (machine : Machine) (slice : RegisterSlice)
    (value : Word) : SymM Word :=
  if slice.isFull ∨ arch.partialWrite slice = .zeroExtend then
    pure ((value.resize slice.count).resize registerWidth)
  else merge slice (machine.slot slice) (value.resize slice.count)

theorem writeRegister_eq (arch : Architecture) (machine : Machine)
    (slice : RegisterSlice) (value : Word) :
    machine.writeRegister arch slice value = (do
      record .trace
        s!"{arch.sliceText slice} := {arch.wordText (value.resize slice.count)}"
      let slot ← newSlot arch machine slice value
      return { machine with registers :=
        machine.registers.insert slice.canonical slot }) := by
  unfold writeRegister newSlot
  split <;> rfl

private theorem newSlot_yields {stops : Fault → Prop} {session : Session}
    {value : Word} (slice : RegisterSlice)
    (hnode : session.nextNode = arena.length)
    (hmachine : machine.WellFormed arch arena next)
    (hvalue : value.WellFormed arena (Issued next)) :
    SymM.Yields stops (newSlot arch machine slice value) session arena
      fun last later slot => SymM.NodesOnly session last ∧
        slot.WellFormed later (Issued next) ∧ slot.width = registerWidth ∧
        ∀ valuation, BitVec.ofNat 64 (slot.value valuation) =
          placed arch slice (machine.registerValue valuation slice.base)
            (BitVec.ofNat slice.count (value.value valuation)) := by
  have hcut : ∀ valuation,
      BitVec.ofNat 64 ((value.resize slice.count).value valuation) =
      (BitVec.ofNat slice.count (value.value valuation)).setWidth 64 := by
    intro valuation
    apply BitVec.eq_of_toNat_eq
    simp
  unfold newSlot
  split
  case isTrue hwhole =>
      refine SymM.yields_pure hnode ⟨rfl, (hvalue.resize _).resize _,
        Word.width_resize _ _, ?_⟩
      intro valuation
      rw [placed, if_pos hwhole, Word.value_resize, registerWidth,
        bitVec_ofNat_mod, hcut]
  case isFalse hpart =>
      rw [hmachine.fullSlots.slot_eq]
      refine (merge_yields hnode (hmachine.readRegister _)
        (hvalue.resize slice.count) (width_readRegister _ _)).mono
        fun last later slot _ _ ⟨hnodes, hw, hwidth, hw'⟩ => ?_
      refine ⟨hnodes, hw, hwidth, fun valuation => ?_⟩
      rw [placed, if_neg hpart, hw', hcut]
      rfl

theorem writeRegister_yields (stops : Fault → Prop) {session : Session}
    {value : Word} (slice : RegisterSlice)
    (hnode : session.nextNode = arena.length)
    (hmachine : machine.WellFormed arch arena next)
    (hvalue : value.WellFormed arena (Issued next)) :
    SymM.Yields stops (machine.writeRegister arch slice value) session arena
      fun last later after => last.nextVar = session.nextVar ∧
        after.WellFormed arch later next ∧
        machine.Placed arch slice value after := by
  rw [writeRegister_eq]
  refine (SymM.yields_record hnode).bind
    fun last₁ arena₁ _ hle₁ hnode₁ ⟨hvars₁, _⟩ => ?_
  refine (newSlot_yields slice hnode₁ (hmachine.grow hle₁ le_rfl)
    (hvalue.mono hle₁)).bind
    fun last₂ arena₂ slot hle₂ hnode₂ ⟨hnodes₂, hslot, hwidth, hbits⟩ => ?_
  have hget : ∀ key, (machine.registers.insert slice.canonical slot)[key]? =
      if key = slice.canonical then some slot else machine.registers[key]? := by
    intro key
    rw [Std.TreeMap.getElem?_insert]
    by_cases hkey : key = slice.canonical
    · simp [hkey]
    · simp [hkey, Ne.symm hkey]
  refine SymM.yields_pure hnode₂ ⟨hnodes₂.nextVar_eq.trans hvars₁, ?_, rfl, ?_,
    ?_⟩
  · have hold := hmachine.grow (hle₁.trans hle₂) le_rfl
    constructor
    · intro key word hword
      rw [hget] at hword
      split at hword
      · exact Option.some.inj hword ▸ hslot
      · exact hold.register hword
    · intro key word hword
      rw [hget] at hword
      split at hword
      · exact Option.some.inj hword ▸ hwidth
      · exact hold.register_width hword
    · exact hold.memory
  · intro key hkey
    rw [hget, if_neg hkey]
  · intro valuation
    rw [← hbits valuation]
    apply registerValue_eq_of_getElem?
    exact (hget _).trans (if_pos rfl)

end Machine

end SymbolicMachine
