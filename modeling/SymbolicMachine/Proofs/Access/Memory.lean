import SymbolicMachine.Access
import SymbolicMachine.Architecture.Amd64
import SymbolicMachine.Proofs.Machine.Execution
import SymbolicMachine.Proofs.Memory.Coherence

/-!
# Memory accesses

An access to memory is compared with its target by the distance between the two.
The windows are compared as numbers, while addresses wrap around; since an
instruction touches at most eight bytes, the two comparisons agree.
-/

namespace SymbolicMachine

/-! ## Windows -/

/--
The `size` bytes from `distance` on reach into the `count` bytes from zero on.
-/
def Meets (distance : Int) (size count : Nat) : Prop :=
  distance < count ∧ 0 < distance + size

private theorem meets_iff {first target : BitVec 64} {distance : Int64}
    {size count : Nat} (hfirst : first = target + distance.toBitVec)
    (hsize : 0 < size ∧ size ≤ 8) (hcount : 0 < count ∧ count < 2 ^ 29) :
    Meets distance.toInt size count ↔
      ∃ address, InRange first size address ∧ InRange target count address := by
  have hupper := distance.toInt_lt
  have hlower := distance.le_toInt
  have hdistance : (first - target).toNat =
      (distance.toInt % 2 ^ 64).toNat := by
    rw [hfirst, show target + distance.toBitVec - target =
      distance.toBitVec by bv_omega,
      ← BitVec.ofInt_int64ToInt, BitVec.toNat_ofInt]
    rfl
  constructor
  · rintro ⟨hbefore, hafter⟩
    by_cases hsign : distance.toInt ≤ 0
    · refine ⟨target, inRange_iff.mpr ?_, inRange_iff.mpr ?_⟩
      · have hback : (target - first).toNat =
            (2 ^ 64 - (first - target).toNat) % 2 ^ 64 := by
          bv_omega
        omega
      · rw [BitVec.sub_self]
        exact hcount.1
    · refine ⟨first, inRange_iff.mpr ?_, inRange_iff.mpr ?_⟩
      · rw [BitVec.sub_self]
        exact hsize.1
      · omega
  · rintro ⟨address, haccess, htarget⟩
    rw [inRange_iff] at haccess htarget
    have hsum : (address - target).toNat =
        ((address - first).toNat + (first - target).toNat) % 2 ^ 64 := by
      bv_omega
    constructor <;> omega

/-! ## The answer for a distance -/

def FitsInt32 (bits : Int) : Prop :=
  -2 ^ 31 ≤ bits ∧ bits < 2 ^ 31

private theorem Effects.bitsOfBytes?_of_fits {bytes : Int}
    (h : FitsInt32 (8 * bytes)) :
    bitsOfBytes? bytes = some (8 * bytes) := by
  obtain ⟨hlower, hupper⟩ := h
  rw [bitsOfBytes?, if_pos, Int.mul_comm]
  rw [show Int32.minValue.toInt = -2 ^ 31 from rfl,
    show Int32.maxValue.toInt = 2 ^ 31 - 1 from rfl]
  omega

private theorem Effects.bitsOfBytes?_of_not_fits {bytes : Int}
    (h : ¬ FitsInt32 (8 * bytes)) :
    bitsOfBytes? bytes = none := by
  rw [bitsOfBytes?, if_neg]
  rw [show Int32.minValue.toInt = -2 ^ 31 from rfl,
    show Int32.maxValue.toInt = 2 ^ 31 - 1 from rfl]
  rw [FitsInt32] at h
  omega

/--
What is reported about an access of `size` bytes to `count` bytes at a distance.
-/
inductive Reports (kind : AccessKind) (size count : Nat) : Option Int64 →
    Access → Prop
  | anywhere : Reports kind size count none (.unknown kind)
  | apart {distance : Int64} : ¬ Meets distance.toInt size count →
      Reports kind size count (some distance) .none
  | located {distance : Int64} : Meets distance.toInt size count →
      FitsInt32 (8 * distance.toInt) →
      Reports kind size count (some distance)
        (.known kind (8 * distance.toInt) (8 * size))
  | tooFar {distance : Int64} : Meets distance.toInt size count →
      ¬ FitsInt32 (8 * distance.toInt) →
      Reports kind size count (some distance) (.unknown kind)

namespace Reports

variable {kind : AccessKind} {size count : Nat} {distance : Option Int64}
  {answer : Access} {first target : BitVec 64}

private theorem not_shared (h : Reports kind size count distance .none)
    (haddress : ∀ d, distance = some d → first = target + d.toBitVec)
    (hsize : 0 < size ∧ size ≤ 8) (hcount : 0 < count ∧ count < 2 ^ 29) :
    ¬ ∃ address, InRange first size address ∧ InRange target count address := by
  cases h with
  | apart hmeets => rwa [← meets_iff (haddress _ rfl) hsize hcount]

theorem shared {reported : AccessKind} {offset bits : Int}
    (h : Reports kind size count distance (.known reported offset bits))
    (haddress : ∀ d, distance = some d → first = target + d.toBitVec)
    (hsize : 0 < size ∧ size ≤ 8) (hcount : 0 < count ∧ count < 2 ^ 29) :
    first = target + BitVec.ofInt 64 (offset / 8) ∧
      ∃ address, InRange first size address ∧ InRange target count address := by
  cases h with
  | @located d hmeets hfits =>
      constructor
      · rw [Int.mul_ediv_cancel_left _ (by decide), BitVec.ofInt_int64ToInt]
        exact haddress d rfl
      · rwa [← meets_iff (haddress d rfl) hsize hcount]

private theorem unknown_iff (h : Reports kind size count distance answer) :
    (∃ reported, answer = .unknown reported) ↔ distance = none ∨
      ∃ d, distance = some d ∧ Meets d.toInt size count ∧
        ¬ FitsInt32 (8 * d.toInt) := by
  cases h with
  | anywhere => simp
  | apart hmeets => simp [hmeets]
  | located hmeets hfits => simp [hfits]
  | tooFar hmeets hfits => simp [hmeets, hfits]

end Reports

namespace Effects

theorem memoryAccess_reports {effects : Effects} {pointer target : Pointer}
    {bitCount : Nat} {session after : Session} {distance : Option Int64}
    (hsize : effects.accessSize ≤ 8) (hcount : bitCount / 8 < 2 ^ 29)
    (hoverlap : pointer.canOverlap target = true)
    (hdistance : pointer.difference target session = .ok distance after) :
    ∃ answer last,
      effects.memoryAccess pointer target bitCount session = .ok answer last ∧
      Reports effects.memoryKind effects.accessSize (bitCount / 8) distance
        answer := by
  have hmax : Int64.maxValue.toInt = 2 ^ 63 - 1 := by decide
  simp only [memoryAccess, hoverlap, Bool.not_true, Bool.false_eq_true,
    if_false]
  rw [SymM.bind_of_ok hdistance]
  cases distance with
  | none => exact ⟨_, _, rfl, .anywhere⟩
  | some distance =>
      dsimp only
      have hwhole : min (effects.accessSize : Int) Int64.maxValue.toInt =
          effects.accessSize := by
        omega
      rw [hwhole]
      by_cases hmeets : Meets distance.toInt effects.accessSize (bitCount / 8)
      · obtain ⟨hbefore, hafter⟩ := hmeets
        have hend : min (distance.toInt + effects.accessSize)
            Int64.maxValue.toInt = distance.toInt + effects.accessSize := by
          omega
        have hbits : FitsInt32 (8 * (effects.accessSize : Int)) := by
          constructor <;> omega
        rw [hend, if_neg (by omega), add_sub_cancel_left,
          bitsOfBytes?_of_fits hbits]
        by_cases hfits : FitsInt32 (8 * distance.toInt)
        · rw [bitsOfBytes?_of_fits hfits]
          exact ⟨_, _, rfl, .located ⟨hbefore, hafter⟩ hfits⟩
        · rw [bitsOfBytes?_of_not_fits hfits]
          exact ⟨_, _, rfl, .tooFar ⟨hbefore, hafter⟩ hfits⟩
      · have hbeside : distance.toInt ≥ (bitCount / 8 : Nat) ∨
            min (distance.toInt + effects.accessSize) Int64.maxValue.toInt ≤
              0 := by
          rw [Meets] at hmeets
          omega
        rw [if_pos hbeside]
        exact ⟨_, _, rfl, .apart hmeets⟩

private theorem memoryAccess_none {effects : Effects} {pointer target : Pointer}
    {bitCount : Nat} (session : Session)
    (hoverlap : pointer.canOverlap target = false) :
    effects.memoryAccess pointer target bitCount session =
      .ok .none session := by
  simp only [memoryAccess, hoverlap, Bool.not_false, if_true]
  rfl

end Effects

/-! ## Instructions that access memory -/

private theorem Operand.width_range (operand : Operand) :
    0 < operand.width ∧ operand.width ≤ 64 := by
  cases operand with
  | register slice =>
      have hinside := slice.inside
      rw [registerWidth] at hinside
      exact ⟨slice.count_pos, by rw [width]; omega⟩
  | immediate constant => exact constant.inside

namespace Instr

variable {instr : Instr} {location : MemoryLocation}

theorem accessSize_range (hlocation : instr.location? = some location) :
    0 < instr.accessSize ∧ instr.accessSize ≤ 8 := by
  cases instr with
  | load target base displacement =>
      have hpos := target.count_pos
      have hle := Machine.byteCount_le target
      rw [RegisterSlice.byteCount] at hle
      rw [accessSize, RegisterSlice.byteCount]
      omega
  | store base displacement source =>
      have hwidth := source.width_range
      rw [accessSize, Operand.byteCount]
      omega
  | nop => cases hlocation
  | move => cases hlocation
  | unary => cases hlocation
  | binary => cases hlocation

private theorem addressNeeded_effects {kind : AccessKind}
    {filter : AccessFilter} (hkind : instr.memoryAccess? = some kind)
    (hlocation : instr.location? = some location)
    (hfilter : filter = none ∨ filter = some kind) :
    instr.effects.addressNeeded filter = .ok (some location) := by
  cases instr <;> cases hkind <;> cases hlocation <;>
    rcases hfilter with rfl | rfl <;> rfl

private theorem memoryKind_effects {kind : AccessKind}
    (hkind : instr.memoryAccess? = some kind) :
    instr.effects.memoryKind = kind := by
  cases instr <;> cases hkind <;> rfl

end Instr

theorem testAccess_of_memoryAccess {arch : Architecture}
    {session traced last : Session} {instr : Instr} {kind : AccessKind}
    {location : MemoryLocation} {filter : AccessFilter}
    {trace : RegisterSlice → SymM Word} {base : Word} {target : Pointer}
    {bitCount : Nat} {answer : Access} (hkind : instr.memoryAccess? = some kind)
    (hlocation : instr.location? = some location)
    (hfilter : filter = none ∨ filter = some kind)
    (htrace : trace location.base session = .ok base traced)
    (hanswer : instr.effects.memoryAccess
      ((Pointer.ofWord arch base).displace location.displacement)
      target bitCount traced = .ok answer last) :
    testAccess arch trace instr.effects filter
      (.memory target bitCount) session = .ok (.ok answer) last := by
  simp only [testAccess, Instr.addressNeeded_effects hkind hlocation hfilter]
  rw [SymM.bind_of_ok htrace, SymM.bind_of_ok hanswer]
  rfl

/--
How an instruction accesses memory is reported soundly and as exactly as the
distance is known.  Where no access is reported the ranges are disjoint, where a
part is reported it is the one that is accessed, and an access is unknown only
if its distance is not a constant or too large to be told in bits.
-/
theorem memory_access_sound_and_exact {arch : Architecture}
    {session traced : Session} {pool : List Word} {machines : List Machine}
    {base : Word} {target : Pointer}
    (hreached : Machine.Reached arch traced pool machines) (hbase : base ∈ pool)
    (htarget : Pointer.Built arch pool target) {instr : Instr}
    {kind : AccessKind} {location : MemoryLocation}
    (hkind : instr.memoryAccess? = some kind)
    (hlocation : instr.location? = some location) {filter : AccessFilter}
    (hfilter : filter = none ∨ filter = some kind)
    (trace : RegisterSlice → SymM Word)
    (htrace : trace location.base session = .ok base traced) {bitCount : Nat}
    (hbits : 8 ≤ bitCount ∧ bitCount < 2 ^ 32) :
    let pointer := (Pointer.ofWord arch base).displace location.displacement
    let shared valuation address :=
      InRange (pointer.addressAt valuation) instr.accessSize address ∧
        InRange (target.addressAt valuation) (bitCount / 8) address
    ∃ answer last,
      testAccess arch trace instr.effects filter
        (.memory target bitCount) session = .ok (.ok answer) last ∧
      (answer = .none → ∀ valuation,
        (pointer.canOverlap target = true ∨ ¬ ∃ address,
          shared valuation address) →
        ¬ ∃ address, shared valuation address) ∧
      (∀ reported offset count, answer = .known reported offset count →
        reported = kind ∧ count = 8 * instr.accessSize ∧ 8 ∣ offset ∧
        ∀ valuation, pointer.addressAt valuation =
            target.addressAt valuation + BitVec.ofInt 64 (offset / 8) ∧
          ∃ address, shared valuation address) ∧
      ((∃ reported, answer = .unknown reported) ↔
        pointer.canOverlap target = true ∧
        ∃ distance after,
        pointer.difference target traced = .ok distance after ∧
          (distance = none ∨ ∃ d, distance = some d ∧
            Meets d.toInt instr.accessSize (bitCount / 8) ∧
            ¬ FitsInt32 (8 * d.toInt))) := by
  intro pointer shared
  obtain ⟨arena, hpool, _⟩ := hreached.wellFormed
  have hpointer : pointer.WellFormed arch arena (Issued traced.nextVar) :=
    (Pointer.ofWord_wellFormed (hpool.wellFormed base hbase)).displace _
  cases hoverlap : pointer.canOverlap target with
  | false =>
      refine ⟨.none, traced,
        testAccess_of_memoryAccess hkind hlocation hfilter htrace
        (Effects.memoryAccess_none traced hoverlap), ?_, ?_, ?_⟩
      · rintro _ valuation (hcan | happart)
        · cases hcan
        · exact happart
      · rintro _ _ _ ⟨⟩
      · constructor
        · rintro ⟨_, ⟨⟩⟩
        · rintro ⟨⟨⟩, _⟩
  | true =>
      have hsize := Instr.accessSize_range hlocation
      have hcount : 0 < bitCount / 8 ∧ bitCount / 8 < 2 ^ 29 := by omega
      obtain ⟨distance, after, _, hdistance, _, _, _, hsome⟩ :=
        SymM.Yields.exists_ok (Pointer.difference_yields hpool.nodes hpointer
          (htarget.wellFormed hpool))
      have hle : instr.effects.accessSize ≤ 8 := hsize.2
      obtain ⟨answer, last, hanswer, hreports⟩ :=
        Effects.memoryAccess_reports hle hcount.2 hoverlap hdistance
      rw [Instr.memoryKind_effects hkind] at hreports
      refine ⟨answer, last,
        testAccess_of_memoryAccess hkind hlocation hfilter htrace hanswer, ?_,
        ?_, ?_⟩
      · rintro rfl valuation _
        exact hreports.not_shared (fun d hd => (hsome d hd).1 valuation)
          hsize hcount
      · rintro reported offset count rfl
        have hshared valuation :=
          hreports.shared (fun d hd => (hsome d hd).1 valuation) hsize hcount
        cases hreports with
        | located => exact ⟨rfl, rfl, Int.dvd_mul_right _ _, hshared⟩
      · rw [hreports.unknown_iff]
        constructor
        · intro hunknown
          exact ⟨rfl, distance, after, hdistance, hunknown⟩
        · rintro ⟨_, found, _, hfound, hunknown⟩
          rw [hdistance] at hfound
          cases hfound
          exact hunknown

theorem memory_access_sound_and_exact_stack_slot :
    let stack := RegisterSlice.full Amd64.rsp
    let instr :=
      Instr.store stack ⟨8, 64, by decide⟩ (.immediate ⟨7, 32, by decide⟩)
    let pointer := (Pointer.ofWord Amd64.standard stack.initial).displace 8
    let slot := (Pointer.ofWord Amd64.standard stack.initial).displace 10
    Machine.Reached Amd64.standard {} [stack.initial] [{}] ∧
      Pointer.Built Amd64.standard [stack.initial] slot ∧
      instr.memoryAccess? = some .write ∧ instr.location? = some ⟨stack, 8⟩ ∧
      ∃ last, testAccess Amd64.standard (pure ·.initial) instr.effects none
        (.memory slot 32) {} =
          .ok (.ok (.known .write (-16) 32)) last ∧
        ∀ valuation, pointer.addressAt valuation =
            slot.addressAt valuation + BitVec.ofInt 64 (-2) ∧
          ∃ address, InRange (pointer.addressAt valuation) 4 address ∧
            InRange (slot.addressAt valuation) 4 address := by
  intro stack instr pointer slot
  have hreached : Machine.Reached Amd64.standard {} [stack.initial] [{}] :=
    (Machine.Reached.start {}).readRegister stack List.mem_cons_self
  have hbuilt : Pointer.Built Amd64.standard [stack.initial] slot :=
    .displace 10 (.ofWord List.mem_cons_self)
  have hkind : instr.memoryAccess? = some .write := rfl
  have hlocation : instr.location? = some ⟨stack, 8⟩ := rfl
  have hbits : 8 ≤ 32 ∧ 32 < 2 ^ 32 := by decide
  have hcheck : SymM.endsWith
      (testAccess Amd64.standard (pure ·.initial) instr.effects none
        (.memory slot 32)) {}
      (fun found _ => match found with
        | .ok answer => answer = .known .write (-16) 32
        | .error _ => false) = true := by
    decide +kernel
  obtain ⟨found, after, hfound, hpart⟩ := SymM.exists_ok_of_endsWith hcheck
  obtain ⟨answer, last, hanswer, _, hknown, _⟩ :=
    memory_access_sound_and_exact hreached List.mem_cons_self hbuilt hkind
      hlocation (.inl rfl) (pure ·.initial) rfl hbits
  rw [hanswer] at hfound
  cases hfound
  obtain rfl : answer = .known .write (-16) 32 := of_decide_eq_true hpart
  exact ⟨hreached, hbuilt, hkind, hlocation, after, hanswer,
    (hknown _ _ _ rfl).2.2.2⟩

end SymbolicMachine
