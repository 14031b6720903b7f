import SymbolicMachine.Proofs.Machine.Concrete
import SymbolicMachine.Proofs.Machine.Execution

/-!
# The register file as a map

The registers of a machine are a map from base registers and positions to
expressions.  A write puts the bits of its value at the positions of its slice,
and keeps or clears the others. What the machine stores for this is full
registers of 64 bits, one for every base that was written, and a slice reads the
very expressions that the map has.
-/

namespace SymbolicMachine

private theorem Word.WellFormed.normal_bitAt {arena : Arena} {vars : Var → Prop}
    {w : Word} (h : w.WellFormed arena vars) (k : Nat) :
    (w.bitAt k).Normal := by
  by_cases hk : k < w.width
  · exact (h.bits _ (List.mem_of_getElem? (Word.getElem?_bits hk))).normal
  · rw [Word.bitAt_of_le (not_lt.mp hk)]
    trivial

namespace RegisterSlice

def Spans (slice : RegisterSlice) (k : Nat) : Prop :=
  slice.offset ≤ k ∧ k < slice.stop

instance (slice : RegisterSlice) (k : Nat) : Decidable (slice.Spans k) :=
  inferInstanceAs (Decidable (_ ∧ _))

private theorem Spans.sub_lt {slice : RegisterSlice} {k : Nat}
    (h : slice.Spans k) :
    k - slice.offset < slice.count := by
  obtain ⟨hlow, hhigh⟩ := h
  rw [stop] at hhigh
  omega

end RegisterSlice

/-! ## The map -/

def RegisterFile : Type :=
  RegisterId → Nat → Formula

namespace RegisterFile

def initial : RegisterFile :=
  fun id k => .var (.ofTag id.tag k)

def read (file : RegisterFile) (slice : RegisterSlice) : List Formula :=
  (List.range' slice.offset slice.count).map (file slice.base)

def write (arch : Architecture) (file : RegisterFile) (slice : RegisterSlice)
    (value : Word) : RegisterFile := fun id k =>
  if id ≠ slice.base then file id k
  else if slice.Spans k then (value.bitAt (k - slice.offset)).formula
  else if slice.isFull ∨ arch.partialWrite slice = .zeroExtend then
    .literal false
  else file id k

def after (arch : Architecture) (writes : List (RegisterSlice × Word)) :
    RegisterFile :=
  writes.foldr (fun entry file => file.write arch entry.1 entry.2) initial

private theorem read_write (arch : Architecture) (file : RegisterFile)
    (slice : RegisterSlice) (value : Word) :
    (file.write arch slice value).read slice =
      (value.resize slice.count).bits.map Bit.formula := by
  have hbit : ∀ i < slice.count,
      file.write arch slice value slice.base (slice.offset + i) =
      (value.bitAt i).formula := by
    intro i hi
    have hspans : slice.Spans (slice.offset + i) := by
      rw [RegisterSlice.Spans, RegisterSlice.stop]
      omega
    rw [write, if_neg (not_not.mpr rfl), if_pos hspans, Nat.add_sub_cancel_left]
  apply List.ext_getElem?
  intro i
  by_cases hi : i < slice.count
  · rw [read, List.getElem?_map, List.getElem?_map, List.getElem?_range' hi,
      Word.getElem?_bits_resize _ hi, Nat.one_mul, Option.map_some,
      Option.map_some, hbit i hi]
  · have hwidth : (value.resize slice.count).bits.length = slice.count :=
      value.width_resize _
    rw [List.getElem?_eq_none (by simpa [read] using hi),
      List.getElem?_eq_none (by simpa [hwidth] using hi)]

end RegisterFile

namespace Machine

variable {arch : Architecture} {arena : Arena} {machine : Machine}
  {session last : Session}

/-! ## One write -/

theorem formula_merge {slice : RegisterSlice} {slot value w : Word}
    (hslot : ∀ k, (slot.bitAt k).Normal) (hvalue : ∀ k, (value.bitAt k).Normal)
    (hslotWidth : slot.width = registerWidth)
    (hvalueWidth : value.width = slice.count)
    (hrun : merge slice slot value session = .ok w last) {k : Nat}
    (hk : k < registerWidth) :
    (w.bitAt k).formula =
      if slice.Spans k then (value.bitAt (k - slice.offset)).formula
      else (slot.bitAt k).formula := by
  obtain ⟨mask, mid, hmask, hrun⟩ := SymM.bind_eq_ok.mp hrun
  obtain ⟨kept, mid', hkept, hor⟩ := SymM.bind_eq_ok.mp hrun
  have hmaskBit : mask.bitAt k = .literal !decide (slice.Spans k) := by
    have hmaskEq : mask =
        ((Word.constant slice.mask registerWidth).not session.nextNode).1 := by
      cases hmask
      rfl
    obtain ⟨now, hbit⟩ := Word.bitAt_not
      (hk.trans_eq (Word.width_constant slice.mask registerWidth).symm)
      session.nextNode
    rw [hmaskEq, hbit, Word.bitAt_constant _ hk]
    have htest : slice.mask.toNat.testBit k = decide (slice.Spans k) :=
      getLsbD_mask slice k
    rw [htest]
    rfl
  obtain ⟨now, hkeptBit⟩ :=
    Word.bitAt_bitwise hkept (hk.trans_eq hslotWidth.symm)
  have hkeptWidth : kept.width = registerWidth := by
    rw [(Word.bitwise_eq_ok hor).1, Word.width_shiftLeft, Word.width_resize]
  obtain ⟨now', hbit⟩ := Word.bitAt_bitwise hor (hk.trans_eq hkeptWidth.symm)
  have hwidth : k < (value.resize registerWidth).width := by
    rwa [Word.width_resize]
  rw [hbit, hkeptBit, hmaskBit, Word.bitAt_shiftLeft _ hwidth,
    Word.bitAt_resize _ (by omega : k - slice.offset < registerWidth)]
  by_cases hspans : slice.Spans k
  · rw [if_pos hspans.1, if_pos hspans, decide_eq_true hspans, Bool.not_true,
      Bit.and_false]
    exact Bit.formula_false_or (hvalue _) now'
  · have hempty : (if slice.offset ≤ k then value.bitAt (k - slice.offset)
        else .literal false) = Bit.literal false := by
      split
      case isTrue hlow =>
          have hhigh : ¬ k < slice.stop := fun h => hspans ⟨hlow, h⟩
          rw [RegisterSlice.stop] at hhigh
          exact Word.bitAt_of_le (by omega)
      case isFalse => rfl
    rw [hempty, if_neg hspans, decide_eq_false hspans, Bool.not_false,
      Bit.and_true (hslot k)]
    exact Bit.formula_or_false (hslot k) now'

private theorem formula_newSlot {slice : RegisterSlice} {value slot : Word}
    (hmachine : machine.WellFormed arch arena session.nextVar)
    (hvalue : value.WellFormed arena (Issued session.nextVar))
    (hzero : arch.partialWrite slice = .zeroExtend → slice.offset = 0)
    (hrun : newSlot arch machine slice value session = .ok slot last) {k : Nat}
    (hk : k < registerWidth) :
    (slot.bitAt k).formula =
      if slice.Spans k then (value.bitAt (k - slice.offset)).formula
      else if slice.isFull ∨ arch.partialWrite slice = .zeroExtend then
        .literal false
      else (machine.registerBit slice.base k).formula := by
  unfold newSlot at hrun
  by_cases hwhole : slice.isFull = true ∨ arch.partialWrite slice = .zeroExtend
  · rw [if_pos hwhole] at hrun
    cases hrun
    have hoffset : slice.offset = 0 := by
      rcases hwhole with hfull | hpolicy
      · exact (RegisterSlice.isFull_iff.mp hfull).1
      · exact hzero hpolicy
    rw [Word.bitAt_resize _ hk, if_pos hwhole]
    by_cases hspans : slice.Spans k
    · have hlow := hspans.sub_lt
      rw [hoffset, Nat.sub_zero] at hlow
      rw [if_pos hspans, Word.bitAt_resize _ hlow, hoffset, Nat.sub_zero]
    · have hhigh : slice.count ≤ k := by
        simp only [RegisterSlice.Spans, RegisterSlice.stop, hoffset] at hspans
        omega
      rw [if_neg hspans, Word.bitAt_of_le (by rwa [Word.width_resize])]
      rfl
  · rw [if_neg hwhole] at hrun
    rw [hmachine.fullSlots.slot_eq] at hrun
    have hnormal := (hvalue.resize slice.count).normal_bitAt
    rw [formula_merge (hmachine.readRegister _).normal_bitAt hnormal
      (width_readRegister _ _) (Word.width_resize _ _) hrun hk, if_neg hwhole]
    by_cases hspans : slice.Spans k
    · rw [if_pos hspans, if_pos hspans, Word.bitAt_resize _ hspans.sub_lt]
    · rw [if_neg hspans, if_neg hspans]
      rfl

def Refines (machine : Machine) (file : RegisterFile) : Prop :=
  ∀ id k, k < registerWidth → (machine.registerBit id k).formula = file id k

private theorem refines_initial : ({} : Machine).Refines .initial := by
  intro id k hk
  have hread : ({} : Machine).readRegister (.full id) =
      .ofTag id.tag 0 registerWidth := by
    exact readRegister_of_none Std.TreeMap.getElem?_emptyc
  have hbit : (Word.ofTag id.tag 0 registerWidth).bits[k]? =
      some (.var (.ofTag id.tag k)) := by
    simp [Word.ofTag, Word.ofBits, hk]
  rw [registerBit, hread, Word.bitAt_of_getElem? hbit]
  rfl

theorem Refines.readRegister {file : RegisterFile} (h : machine.Refines file)
    (slice : RegisterSlice) :
    (machine.readRegister slice).bits.map Bit.formula = file.read slice := by
  have hinside := slice.inside
  apply List.ext_getElem?
  intro i
  by_cases hi : i < slice.count
  · rw [List.getElem?_map, getElem?_bits_readRegister machine slice hi,
      RegisterFile.read, List.getElem?_map, List.getElem?_range' hi,
      Option.map_some, Option.map_some, h _ _ (by omega), Nat.one_mul]
  · have hwidth : (machine.readRegister slice).bits.length = slice.count :=
      machine.width_readRegister slice
    have hnone : (machine.readRegister slice).bits.length ≤ i :=
      hwidth ▸ not_lt.mp hi
    rw [List.getElem?_eq_none (by rwa [List.length_map]),
      List.getElem?_eq_none (by simpa [RegisterFile.read] using hi)]

theorem registerBit_of_getElem? {id : RegisterId} {word : Word}
    (hword : machine.registers[RegisterSlice.full id]? = some word) {k : Nat}
    (hk : k < registerWidth) : machine.registerBit id k = word.bitAt k := by
  have hread : machine.readRegister (.full id) =
      (word.shiftRight 0).resize registerWidth := readRegister_of_some hword
  calc
    machine.registerBit id k
        = ((word.shiftRight 0).resize registerWidth).bitAt k := by
          rw [registerBit, hread]
    _ = word.bitAt (0 + k) := by
      rw [Word.bitAt_resize _ hk, Word.bitAt_shiftRight]
    _ = word.bitAt k := by
      rw [Nat.zero_add]

private theorem registerBit_congr {after : Machine} {id : RegisterId}
    (h : after.registers[RegisterSlice.full id]? =
      machine.registers[RegisterSlice.full id]?) (k : Nat) :
    after.registerBit id k = machine.registerBit id k := by
  have hread : after.readRegister (.full id) =
      machine.readRegister (.full id) :=
    readRegister_congr h
  rw [registerBit, registerBit, hread]

theorem writeRegister_eq_ok {slice : RegisterSlice} {value : Word}
    {after : Machine}
    (hrun : machine.writeRegister arch slice value session = .ok after last) :
    ∃ mid slot, mid.nextVar = session.nextVar ∧
      newSlot arch machine slice value mid = .ok slot last ∧
      after = { machine with
        registers := machine.registers.insert slice.canonical slot } := by
  rw [writeRegister_eq] at hrun
  obtain ⟨_, mid, hrecord, hrest⟩ := SymM.bind_eq_ok.mp hrun
  obtain ⟨slot, last', hslot, hstored⟩ := SymM.bind_eq_ok.mp hrest
  cases hstored
  have hvars : mid.nextVar = session.nextVar := by
    cases hrecord
    rfl
  exact ⟨mid, slot, hvars, hslot, rfl⟩

theorem Refines.writeRegister {file : RegisterFile} (h : machine.Refines file)
    (hmachine : machine.WellFormed arch arena session.nextVar)
    {slice : RegisterSlice} {value : Word}
    (hvalue : value.WellFormed arena (Issued session.nextVar))
    (hzero : arch.partialWrite slice = .zeroExtend → slice.offset = 0)
    {after : Machine}
    (hrun : machine.writeRegister arch slice value session = .ok after last) :
    after.Refines (file.write arch slice value) := by
  obtain ⟨mid, slot, hvars, hslot, rfl⟩ := writeRegister_eq_ok hrun
  rw [← hvars] at hmachine hvalue
  intro id k hk
  rw [RegisterFile.write]
  by_cases hid : id = slice.base
  · have hget : (machine.registers.insert slice.canonical
        slot)[RegisterSlice.full id]? = some slot := by
      rw [hid]
      exact Std.TreeMap.getElem?_insert_self
    rw [if_neg (not_not.mpr hid), registerBit_of_getElem? hget hk,
      formula_newSlot hmachine hvalue hzero hslot hk, hid, h _ _ hk]
  · have hget : (machine.registers.insert slice.canonical
        slot)[RegisterSlice.full id]? =
          machine.registers[RegisterSlice.full id]? := by
      simp [Std.TreeMap.getElem?_insert, RegisterSlice.canonical, Ne.symm hid]
    rw [if_pos hid, registerBit_congr hget]
    exact h id k hk

theorem readRegister_writeRegister {slice : RegisterSlice} {value : Word}
    (hmachine : machine.WellFormed arch arena session.nextVar)
    (hvalue : value.WellFormed arena (Issued session.nextVar))
    (hzero : arch.partialWrite slice = .zeroExtend → slice.offset = 0)
    (hrun : machine.writeRegister arch slice value session = .ok next last) :
    (next.readRegister slice).SameExpressions (value.resize slice.count) := by
  have hself : machine.Refines fun id k => (machine.registerBit id k).formula :=
    fun _ _ _ => rfl
  have hnext := hself.writeRegister hmachine hvalue hzero hrun
  exact (hnext.readRegister slice).trans
    (RegisterFile.read_write arch _ slice value)

/-! ## Runs of writes -/

private theorem Reached.new_mem {pool : List Word} {machines : List Machine}
    (h : Reached arch session pool machines) : {} ∈ machines := by
  induction h with
  | start => exact List.mem_singleton.mpr rfl
  | make _ _ _ ih => exact ih
  | readRegister _ _ _ ih => exact ih
  | writeRegister _ _ _ _ _ ih => exact List.mem_cons_of_mem _ ih
  | readMemory _ _ _ _ ih => exact ih
  | writeMemory _ _ _ _ _ ih => exact List.mem_cons_of_mem _ ih
  | execute _ _ _ _ ih => exact List.mem_cons_of_mem _ ih

/--
What one can get to from a new machine by writes to its registers.  Between
writes, words are made and registers are read.  The list has the writes, the
last one first.
-/
inductive RegisterRun (arch : Architecture) :
    Session → List Word → Machine → List (RegisterSlice × Word) → Prop
  | start {session : Session} {pool : List Word} {machines : List Machine} :
      Reached arch session pool machines → RegisterRun arch session pool {} []
  | make {session after : Session} {pool words : List Word} {machine : Machine}
      {writes : List (RegisterSlice × Word)} (step : Word.Step) :
      RegisterRun arch session pool machine writes →
      step.run pool session = .ok words after →
      RegisterRun arch after (words ++ pool) machine writes
  | read {session : Session} {pool : List Word} {machine : Machine}
      {writes : List (RegisterSlice × Word)} (slice : RegisterSlice) :
      RegisterRun arch session pool machine writes →
      RegisterRun arch session (machine.readRegister slice :: pool)
        machine writes
  | write {session after : Session} {pool : List Word} {machine next : Machine}
      {writes : List (RegisterSlice × Word)} {value : Word}
        (slice : RegisterSlice) :
      RegisterRun arch session pool machine writes → value ∈ pool →
      machine.writeRegister arch slice value session = .ok next after →
      RegisterRun arch after pool next ((slice, value) :: writes)

namespace RegisterRun

variable {pool : List Word} {writes : List (RegisterSlice × Word)}

theorem reached (h : RegisterRun arch session pool machine writes) :
    ∃ machines, Reached arch session pool machines ∧ machine ∈ machines := by
  induction h with
  | start hreached => exact ⟨_, hreached, hreached.new_mem⟩
  | make step _ hstep ih =>
      obtain ⟨machines, hreached, hmem⟩ := ih
      exact ⟨machines, hreached.make step hstep, hmem⟩
  | read slice _ ih =>
      obtain ⟨machines, hreached, hmem⟩ := ih
      exact ⟨machines, hreached.readRegister slice hmem, hmem⟩
  | write slice _ hvalue hwrite ih =>
      obtain ⟨machines, hreached, hmem⟩ := ih
      exact ⟨_, hreached.writeRegister slice hmem hvalue hwrite,
        List.mem_cons_self⟩

theorem wellFormed (h : RegisterRun arch session pool machine writes) :
    ∃ arena, Word.Pool session arena pool ∧
      machine.WellFormed arch arena session.nextVar := by
  obtain ⟨machines, hreached, hmem⟩ := h.reached
  obtain ⟨arena, hpool, hmachines⟩ := hreached.wellFormed
  exact ⟨arena, hpool, hmachines machine hmem⟩

theorem refines (hzero : arch.ZeroExtendsAtStart)
    (h : RegisterRun arch session pool machine writes) :
    machine.Refines (.after arch writes) := by
  induction h with
  | start => exact refines_initial
  | make _ _ _ ih => exact ih
  | read _ _ ih => exact ih
  | write slice hrun hvalue hwrite ih =>
      obtain ⟨arena, hpool, hmachine⟩ := hrun.wellFormed
      exact ih.writeRegister hmachine (hpool.wellFormed _ hvalue) (hzero slice)
        hwrite

theorem contains_iff (h : RegisterRun arch session pool machine writes)
    (key : RegisterSlice) :
    key ∈ machine.registers ↔ ∃ entry ∈ writes, entry.1.canonical = key := by
  induction h with
  | start => simp
  | make _ _ _ ih => exact ih
  | read _ _ ih => exact ih
  | write slice _ _ hwrite ih =>
      obtain ⟨_, slot, _, _, rfl⟩ := writeRegister_eq_ok hwrite
      rw [Std.TreeMap.mem_insert, Std.LawfulEqCmp.compare_eq_iff_eq, ih]
      simp

end RegisterRun

def slots (machine : Machine) : List (RegisterSlice × Word) :=
  machine.registers.toList

/--
The registers are a map from base registers to 64 bits.  Every slice reads the
expressions that the map has after the writes so far.  A further write succeeds,
and of the machine it changes its base register alone.  Slots are full registers
of 64 bits, of the written bases only.
-/
theorem registers_refine_map {arch : Architecture}
    (hzero : arch.ZeroExtendsAtStart) {session : Session} {pool : List Word}
    {machine : Machine} {writes : List (RegisterSlice × Word)}
    (hrun : RegisterRun arch session pool machine writes) :
    (∀ slice, (machine.readRegister slice).bits.map Bit.formula =
      (RegisterFile.after arch writes).read slice) ∧
    (∀ slice, ∀ value ∈ pool, ∃ next after,
      machine.writeRegister arch slice value session = .ok next after ∧
      next.memory = machine.memory ∧
      ∀ key, key ≠ slice.canonical →
        next.registers[key]? = machine.registers[key]?) ∧
    (∀ entry ∈ machine.slots, entry.1.offset = 0 ∧ entry.1.count = 64 ∧
      entry.2.width = 64 ∧
      ∃ write ∈ writes, write.1.base = entry.1.base) ∧
    (∀ write ∈ writes, ∃ entry ∈ machine.slots,
      entry.1.base = write.1.base) := by
  obtain ⟨arena, hpool, hmachine⟩ := hrun.wellFormed
  refine ⟨(hrun.refines hzero).readRegister, ?_, ?_, ?_⟩
  · intro slice value hvalue
    obtain ⟨next, after, later, hwrite, _, _, _, _, hplaced⟩ :=
      (writeRegister_yields (fun _ => False) slice hpool.nodes hmachine
        (hpool.wellFormed value hvalue)).exists_ok
    exact ⟨next, after, hwrite, hplaced.memory_eq, hplaced.other⟩
  · intro entry hentry
    have hget : machine.registers[entry.1]? = some entry.2 :=
      Std.TreeMap.mem_toList_iff_getElem?_eq_some.mp hentry
    have hmem : entry.1 ∈ machine.registers := by
      rw [Std.TreeMap.mem_iff_isSome_getElem?, hget]
      rfl
    obtain ⟨write, hwrite, hkey⟩ := (hrun.contains_iff entry.1).mp hmem
    have hwidth := hmachine.register_width hget
    rw [← hkey]
    exact ⟨rfl, rfl, hwidth, write, hwrite, rfl⟩
  · intro write hwrite
    have hmem : write.1.canonical ∈ machine.registers :=
      (hrun.contains_iff _).mpr ⟨write, hwrite, rfl⟩
    rw [Std.TreeMap.mem_iff_isSome_getElem?] at hmem
    obtain ⟨word, hget⟩ := Option.isSome_iff_exists.mp hmem
    have hstored := Std.TreeMap.mem_toList_iff_getElem?_eq_some.mpr hget
    exact ⟨(write.1.canonical, word), hstored, rfl⟩

theorem registers_refine_map_second_byte :
    let eax : RegisterSlice := ⟨⟨1⟩, 0, 32, by decide, by decide⟩
    let ah : RegisterSlice := ⟨⟨1⟩, 8, 8, by decide, by decide⟩
    let value := Word.ofTag 7 0 40
    ∃ session machine,
      RegisterRun Amd64.standard session [value] machine
        [(ah, value), (eax, value)] ∧
      (machine.readRegister ⟨⟨1⟩, 4, 32, by decide, by decide⟩).bits.map
          Bit.formula =
        (List.range' 4 4 ++ List.range' 0 8 ++ List.range' 16 16).map
          (fun i => .var (.ofTag 7 i)) ++
        List.replicate 4 (.literal false) := by
  intro eax ah value
  have hzero := Amd64.zeroExtendsAtStart Amd64.standard (by simp)
  have hstart : RegisterRun Amd64.standard {} [value] {} [] :=
    (RegisterRun.start (Reached.start {})).make (.tagged 7 0 40) rfl
  have hvalue : value ∈ [value] := List.mem_singleton.mpr rfl
  obtain ⟨first, mid, hfirst, _⟩ :=
    (registers_refine_map hzero hstart).2.1 eax value hvalue
  have hlow := hstart.write eax hvalue hfirst
  obtain ⟨machine, session, hsecond, _⟩ :=
    (registers_refine_map hzero hlow).2.1 ah value hvalue
  have hrun := hlow.write ah hvalue hsecond
  have hread :=
    (registers_refine_map hzero hrun).1 ⟨⟨1⟩, 4, 32, by decide, by decide⟩
  exact ⟨session, machine, hrun, hread.trans (by decide)⟩

end Machine

end SymbolicMachine
