import SymbolicMachine.Proofs.Machine.Choice
import SymbolicMachine.Replay

/-!
# Simulation

Under a suitable valuation the symbolic machine is the concrete one, instruction
after instruction.  The valuation is found on the way: tagged variables have the
bits of the initial registers, and the variables of a load take the value that
the concrete machine loads.  The history lists the footprints of the stores so
far, at concrete addresses.
-/

namespace SymbolicMachine

namespace Machine

/--
Under the valuation the machine holds the registers and the known bytes of the
state.
-/
structure Simulates (valuation : Valuation) (machine : Machine) (state : State)
    (history : List Footprint) : Prop where
  registers : ∀ id, machine.registerValue valuation id = state.registers id
  memory : machine.memory.Agrees valuation state.memory history

def storePrint (arch : Architecture) (machine : Machine) (state : State)
    (base : RegisterSlice) (displacement : Immediate) (source : Operand) :
    Footprint :=
  ⟨machine.pointer arch base displacement.signed,
    state.address base displacement, source.byteCount⟩

variable {arch : Architecture} {arena : Arena} {next : Nat}
  {machine after : Machine} {valuation other : Valuation} {state : State}
  {history : List Footprint}

namespace Simulates

theorem congr (h : machine.Simulates valuation state history)
    (hmachine : machine.WellFormed arch arena next)
    (hsame : ∀ v, Issued next v → other v = valuation v) :
    machine.Simulates other state history where
  registers :=
    fun id => (hmachine.registerValue_congr hsame id).trans (h.registers id)
  memory := h.memory.congr hmachine.memory hsame

theorem value_readRegister (h : machine.Simulates valuation state history)
    (hmachine : machine.WellFormed arch arena next) (slice : RegisterSlice) :
    (machine.readRegister slice).value valuation =
      (state.read slice).toNat := by
  rw [Machine.value_readRegister hmachine, h.registers, State.read]

theorem value_readOperand (h : machine.Simulates valuation state history)
    (hmachine : machine.WellFormed arch arena next) (operand : Operand) :
    (machine.readOperand operand).value valuation =
      (state.readOperand operand).toNat := by
  cases operand with
  | register slice => exact h.value_readRegister hmachine slice
  | immediate constant =>
      change (Word.constant constant.value constant.width).value valuation =
        (constant.value.toBitVec.setWidth constant.width).toNat
      rw [Word.value_constant, BitVec.toNat_setWidth]
      rfl

theorem addressAt_pointer (h : machine.Simulates valuation state history)
    (hmachine : machine.WellFormed arch arena next) (base : RegisterSlice)
    (displacement : Immediate) :
    (machine.pointer arch base displacement.signed).addressAt valuation =
      state.address base displacement := by
  calc
    (machine.pointer arch base displacement.signed).addressAt valuation
        = BitVec.ofNat 64 ((machine.readRegister base).value valuation) +
            displacement.signed.toBitVec :=
          hmachine.addressAt_pointer base displacement.signed valuation
    _ = state.address base displacement := by
      rw [h.value_readRegister hmachine, State.address, BitVec.ofNat_toNat]

theorem placed {slice : RegisterSlice} {word : Word}
    {value : BitVec slice.count} (h : machine.Simulates valuation state history)
    (hzero : arch.ZeroExtendsAtStart)
    (hplaced : machine.Placed arch slice word after)
    (hvalue : BitVec.ofNat slice.count (word.value valuation) = value) :
    after.Simulates valuation (state.write arch slice value) history := by
  constructor
  · intro id
    change _ = if id = slice.base then _ else _
    by_cases hid : id = slice.base
    · rw [if_pos hid, hid, hplaced.slot, hvalue, placed_eq_written hzero,
        h.registers]
    · rw [if_neg hid, registerValue_of_eq valuation (hplaced.other_base hid)]
      exact h.registers id
  · rw [hplaced.memory_eq]
    exact h.memory

theorem stored {base : RegisterSlice} {displacement : Immediate}
    {source : Operand} {region : Region} {offset : Int}
    (h : machine.Simulates valuation state history)
    (hmachine : machine.WellFormed arch arena next)
    (hregisters : after.registers = machine.registers)
    (hwrote : machine.memory.Wrote
      (machine.pointer arch base displacement.signed)
      ((machine.readOperand source).wholeBytes.partsOf 8) region offset
      after.memory)
    (hapart : ∀ earlier ∈ history,
      (storePrint arch machine state base displacement
        source).pointer.canOverlap earlier.pointer = false →
      earlier.Apart (storePrint arch machine state base displacement source)) :
    after.Simulates valuation
      (state.step arch (.store base displacement source))
      (storePrint arch machine state base displacement source :: history) := by
  have hwidth : (machine.readOperand source).wholeBytes.width =
      source.byteCount * 8 := by
    rw [Word.width_wholeBytes, Word.byteCount, width_readOperand,
      Operand.byteCount]
  have hvalue : (machine.readOperand source).wholeBytes.value valuation =
      (state.readOperand source).toNat := by
    rw [Word.value_wholeBytes, h.value_readOperand hmachine]
  have hcount : source.byteCount * 8 / 8 = source.byteCount :=
    Nat.mul_div_cancel _ (by decide)
  have hprint : footprint valuation
      (machine.pointer arch base displacement.signed)
        (machine.readOperand source).wholeBytes =
          storePrint arch machine state base displacement source := by
    rw [footprint, storePrint, h.addressAt_pointer hmachine, hwidth, hcount]
  have hagrees :=
    hwrote.agrees hmachine.memory (by omega) h.memory (hprint ▸ hapart)
  rw [hprint, hvalue, hwidth, hcount, h.addressAt_pointer hmachine] at hagrees
  refine ⟨fun id => ?_, hagrees⟩
  have hsame : after.registerValue valuation id =
      machine.registerValue valuation id :=
    registerValue_of_eq valuation (by rw [hregisters])
  exact hsame.trans (h.registers id)

end Simulates

end Machine

/-! ## One instruction -/

def Instr.AmountFits : Instr → Prop
  | .binary op target (.register amount) =>
      op.isShift = true → amount.count ≤ target.count
  | _ => True

def Instr.footprint? (arch : Architecture) (machine : Machine) (state : State) :
    Instr → Option Footprint
  | .store base displacement source =>
      some (machine.storePrint arch state base displacement source)
  | _ => none

namespace Machine

variable {arch : Architecture} {arena : Arena} {first last : Nat}
  {machine after : Machine} {valuation : Valuation} {state : State}
  {history : List Footprint}

private theorem shiftFits (machine : Machine) {op : BinaryOp}
    {target : RegisterSlice} {source : Operand}
    (h : (Instr.binary op target source).AmountFits) :
    ShiftFits op (machine.readRegister target)
      (machine.readOperand source) := by
  intro hshift
  cases source with
  | register amount =>
      left
      rw [width_readRegister, width_readOperand]
      exact h hshift
  | immediate constant =>
      exact .inr (Word.toUInt64?_constant _ constant.inside.2)

private theorem Performed.simulates {instr : Instr}
    (h : Performed arch machine first last instr after)
    (hmachine : machine.WellFormed arch arena first)
    (hlast : last ≤ Var.taggedBase) (hzero : arch.ZeroExtendsAtStart)
    (hfits : instr.AmountFits)
    (hsim : machine.Simulates valuation state history)
    (hapart : ∀ print ∈ instr.footprint? arch machine state,
      ∀ earlier ∈ history, print.pointer.canOverlap earlier.pointer = false →
        earlier.Apart print) :
    ∃ other, AgreeOff first last valuation other ∧
      after.Simulates other (state.step arch instr)
        ((instr.footprint? arch machine state).toList ++ history) := by
  cases h with
  | nop => exact ⟨valuation, .refl _ _ _, hsim⟩
  | @move extension target source _ hplaced =>
      refine ⟨valuation, .refl _ _ _, hsim.placed hzero hplaced ?_⟩
      rw [extension.value_resize valuation (width_readOperand _ _),
        hsim.value_readOperand hmachine]
      simp
  | @unary op target value _ hmeaning hplaced =>
      refine ⟨valuation, .refl _ _ _, hsim.placed hzero hplaced ?_⟩
      rw [hmeaning, hsim.value_readRegister hmachine]
      simp
  | @binary op target source value _ hmeaning hplaced =>
      refine ⟨valuation, .refl _ _ _, hsim.placed hzero hplaced ?_⟩
      rw [hmeaning, BinaryOp.denote_operand (width_readRegister _ _)
        (machine.shiftFits hfits), width_readOperand,
        hsim.value_readRegister hmachine, hsim.value_readOperand hmachine]
      simp
  | @load target base displacement value _ hanswers hplaced =>
      obtain ⟨other, hoff, hvalue⟩ :=
        hanswers.exists_value hmachine.memory hlast hsim.memory
      refine ⟨other, hoff, ?_⟩
      rw [hsim.addressAt_pointer hmachine] at hvalue
      exact (hsim.congr hmachine (hoff.issued hlast)).placed hzero hplaced
        (by rw [hvalue])
  | @store base displacement source _ region offset hregisters hwrote =>
      exact ⟨valuation, .refl _ _ _,
        hsim.stored hmachine hregisters hwrote (hapart _ rfl)⟩

end Machine

/-! ## Blocks -/

def storePrints (arch : Architecture) :
    Block → List Machine → State → List Footprint
  | instr :: block, machine :: machines, state =>
      (instr.footprint? arch machine state).toList ++
        storePrints arch block machines (state.step arch instr)
  | _, _, _ => []

/-- Stores through pointers that cannot overlap touch different addresses. -/
def StoresApart (prints : List Footprint) : Prop :=
  ∀ a ∈ prints, ∀ b ∈ prints, a.pointer.canOverlap b.pointer = false → a.Apart b

theorem StoresApart.mono {prints more : List Footprint} (h : StoresApart more)
    (hsubset : prints ⊆ more) : StoresApart prints :=
  fun a ha b hb => h a (hsubset ha) b (hsubset hb)

namespace Replay

def Follows (valuation : Valuation) (arch : Architecture) (state : State)
    (block : Block) (replay : Replay) : Prop :=
  ∀ i ≤ block.length, ∃ machine, replay.state? i = some machine ∧ ∀ slice,
    (machine.readRegister slice).value valuation =
      ((state.run arch (block.take i)).read slice).toNat

variable {arch : Architecture} {arena : Arena} {session : Session}
  {machine : Machine}

private theorem runFrom_yields (hzero : arch.ZeroExtendsAtStart) {block : Block}
    (hfits : ∀ instr ∈ block, instr.AmountFits)
    (hnode : session.nextNode = arena.length)
    (hmachine : machine.WellFormed arch arena session.nextVar) :
    SymM.Yields (· = .offsetOverflow) (runFrom arch machine block) session arena
      fun last _ replay => session.nextVar ≤ last.nextVar ∧
        ∀ valuation state history, machine.Simulates valuation state history →
          last.nextVar ≤ Var.taggedBase →
          StoresApart (storePrints arch block replay.states state ++ history) →
          ∃ other, AgreeOff session.nextVar last.nextVar valuation other ∧
            replay.Follows other arch state block := by
  -- Whether variables run out is known at the end only, so valuations are
  -- chosen in the answer.
  induction block generalizing session arena machine with
  | nil =>
      refine SymM.yields_pure hnode ⟨le_rfl,
        fun valuation state history hsim _ _ => ?_⟩
      refine ⟨valuation, .refl _ _ _, fun i hi => ?_⟩
      obtain rfl : i = 0 := Nat.le_zero.mp hi
      exact ⟨machine, rfl, hsim.value_readRegister hmachine⟩
  | cons instr block ih =>
      simp only [List.forall_mem_cons] at hfits
      refine (Machine.execute_yields instr hnode hmachine).bind
        fun mid later next hle hmid ⟨hvars, hnext, hperformed⟩ => ?_
      refine (ih hfits.2 hmid hnext).bind
        fun last final rest hle' hlast ⟨hvars', hrest⟩ => ?_
      refine SymM.yields_pure hlast ⟨hvars.trans hvars', ?_⟩
      intro valuation state history hsim htagged hapart
      simp only [storePrints, List.append_assoc] at hapart
      have hstep : ∀ print ∈ instr.footprint? arch machine state,
          ∀ earlier ∈ history,
            print.pointer.canOverlap earlier.pointer = false →
            earlier.Apart print := by
        intro print hprint earlier hearlier hoverlap
        rw [Pointer.canOverlap_comm] at hoverlap
        have hmem := List.mem_append_left
          (storePrints arch block rest.states (state.step arch instr) ++
            history)
          (Option.mem_toList.mpr hprint)
        exact hapart earlier (by simp [hearlier]) print hmem hoverlap
      obtain ⟨between, hoff, hbetween⟩ :=
        hperformed.simulates hmachine (hvars'.trans htagged) hzero hfits.1
          hsim hstep
      obtain ⟨other, hoff', hfollows⟩ := hrest between _ _ hbetween htagged
        (hapart.mono fun print hprint => by
          simp only [List.mem_append] at hprint ⊢
          rcases hprint with hlater | hnow | hearlier
          · exact .inr (.inl hlater)
          · exact .inl hnow
          · exact .inr (.inr hearlier))
      have hwhole := hoff.trans hoff' hvars hvars'
      refine ⟨other, hwhole, fun i hi => ?_⟩
      cases i with
      | zero =>
          have hnow := hsim.congr hmachine (hwhole.issued htagged)
          exact ⟨machine, rfl, hnow.value_readRegister hmachine⟩
      | succ i => exact hfollows i (Nat.le_of_succ_le_succ hi)

private theorem exists_valuation_tagged (registers : RegisterId → BitVec 64) :
    ∃ valuation : Valuation, ∀ id : RegisterId, ∀ i < 64,
      valuation (.ofTag id.tag i) = (registers id).getLsbD i := by
  refine ⟨fun v => (v.tag?.bind fun tagged => (RegisterId.ofTag? tagged.1).map
    fun id =>
    (registers id).getLsbD tagged.2).getD false, fun id i hi => ?_⟩
  have htag : id.tag < Var.tagCount := by
    have hlt := id.number.toNat_lt
    rw [RegisterId.tag, Var.tagCount]
    omega
  have hindex : i < Var.indicesPerTag := by
    rw [Var.indicesPerTag]
    omega
  simp [Var.tag?_ofTag htag hindex]

private theorem simulates_new {valuation : Valuation} {state : State}
    (h : ∀ id : RegisterId, ∀ i < 64,
      valuation (.ofTag id.tag i) = (state.registers id).getLsbD i) :
    Machine.Simulates valuation {} state [] := by
  constructor
  · intro id
    apply BitVec.eq_of_getLsbD_eq
    intro i hi
    rw [Machine.getLsbD_registerValue_of_new valuation (by simp) hi, h id i hi]
  · intro region hregion
    cases hregion

/--
Symbolic execution simulates concrete execution.  Unless an offset of the memory
overflows, the fresh variables run out or stores that cannot overlap meet, there
is one valuation that gives the tagged variables the bits of the initial
registers, and under which every register that is traced, at any point, has the
value it has in the concrete run.
-/
theorem run_simulates_concrete {arch : Architecture}
    (hzero : arch.ZeroExtendsAtStart) {block : Block}
    (hfits : ∀ instr ∈ block, instr.AmountFits) (initial : State)
    (session : Session) :
    (∃ last, run arch block session = .error .offsetOverflow last) ∨
    ∃ replay last, run arch block session = .ok replay last ∧
      (last.nextVar ≤ Var.taggedBase →
        StoresApart (storePrints arch block replay.states initial) →
        ∃ valuation : Valuation,
          (∀ id : RegisterId, ∀ i < 64,
            valuation (.ofTag id.tag i) = (initial.registers id).getLsbD i) ∧
          ∀ i ≤ block.length, ∀ slice now, ∃ word,
            replay.trace i slice now = .ok word now ∧
            word.value valuation =
              ((initial.run arch (block.take i)).read slice).toNat) := by
  obtain ⟨start, hstart⟩ := exists_valuation_tagged initial.registers
  obtain ⟨arena, hnode⟩ := SymM.exists_arena session
  have hyields := runFrom_yields hzero hfits hnode Machine.wellFormed_new
  cases hrun : run arch block session with
  | error fault last =>
      left
      obtain rfl := hyields.of_error hrun
      exact ⟨last, rfl⟩
  | ok replay last =>
      right
      obtain ⟨_, _, _, _, hfollows⟩ := hyields.of_ok hrun
      refine ⟨replay, last, rfl, fun htagged hapart => ?_⟩
      obtain ⟨valuation, hoff, htrace⟩ :=
        hfollows start initial [] (simulates_new hstart) htagged
          (by simpa using hapart)
      refine ⟨valuation, fun id i hi => ?_, fun i hi slice now => ?_⟩
      · rw [hoff.issued htagged _ (issued_ofTag _ _ _), hstart id i hi]
      · obtain ⟨machine, hstate, hvalue⟩ := htrace i hi
        refine ⟨machine.readRegister slice, ?_, hvalue slice⟩
        simp only [trace, hstate]
        rfl

theorem run_simulates_concrete_two_frames :
    let stack := RegisterSlice.full Amd64.rsp
    let frame := RegisterSlice.full Amd64.rbp
    let block : Block :=
      [.store stack ⟨0, 64, by decide⟩ (.immediate ⟨7, 8, by decide⟩),
        .store frame ⟨0, 64, by decide⟩ (.immediate ⟨9, 8, by decide⟩),
      .load ⟨⟨1⟩, 0, 16, by decide, by decide⟩ stack ⟨0, 64, by decide⟩]
    let initial : State :=
      ⟨fun id => if id = Amd64.rbp then 4096 else 0, fun _ => 0⟩
    ∃ replay last, run Amd64.framed block {} = .ok replay last ∧
      last.nextVar ≤ Var.taggedBase ∧
      StoresApart (storePrints Amd64.framed block replay.states initial) ∧
      ∃ valuation : Valuation,
        (∀ id : RegisterId, ∀ i < 64,
          valuation (.ofTag id.tag i) = (initial.registers id).getLsbD i) ∧
        ∀ i ≤ 3, ∀ slice now, ∃ word, replay.trace i slice now = .ok word now ∧
          word.value valuation =
            ((initial.run Amd64.framed (block.take i)).read slice).toNat := by
  intro stack frame block initial
  have hcheck : SymM.endsWith (run Amd64.framed block) {} (fun replay last =>
      last.nextVar ≤ Var.taggedBase ∧
      (storePrints Amd64.framed block replay.states initial).map
        (fun print => (print.pointer.restrict, print.first, print.count)) =
          [([Amd64.rsp], 0, 1), ([Amd64.rbp], 4096, 1)]) = true := by
    decide +kernel
  obtain ⟨replay, last, hrun, hprints⟩ := SymM.exists_ok_of_endsWith hcheck
  obtain ⟨htagged, hprints⟩ := of_decide_eq_true hprints
  have hapart : StoresApart (storePrints Amd64.framed block replay.states
      initial) := by
    have hcases :
        ∀ print ∈ storePrints Amd64.framed block replay.states initial,
        print.pointer.restrict = [Amd64.rsp] ∧ print.first = 0 ∧
          print.count = 1 ∨
        print.pointer.restrict = [Amd64.rbp] ∧ print.first = 4096 ∧
          print.count = 1 := by
      intro print hprint
      have hmem := List.mem_map_of_mem (f := fun print : Footprint =>
        (print.pointer.restrict, print.first, print.count)) hprint
      rw [hprints] at hmem
      simpa using hmem
    intro a ha b hb hoverlap address hin
    rw [inRange_iff] at hin ⊢
    rcases hcases a ha with ⟨hrestrict, hfirst, hcount⟩ | ⟨hrestrict, hfirst,
      hcount⟩ <;>
      rcases hcases b hb with ⟨hrestrict', hfirst', hcount'⟩ | ⟨hrestrict',
        hfirst', hcount'⟩
    · simp [Pointer.canOverlap, hrestrict, hrestrict'] at hoverlap
    · rw [hfirst, hcount] at hin
      rw [hfirst', hcount']
      bv_omega
    · rw [hfirst, hcount] at hin
      rw [hfirst', hcount']
      bv_omega
    · simp [Pointer.canOverlap, hrestrict, hrestrict'] at hoverlap
  have hzero := Amd64.zeroExtendsAtStart Amd64.framed (by simp)
  have hfits : ∀ instr ∈ block, instr.AmountFits := by
    simp [block, Instr.AmountFits]
  rcases run_simulates_concrete hzero hfits initial {} with ⟨_, herror⟩ | ⟨_, _,
    hok, hfollows⟩
  · rw [hrun] at herror
    cases herror
  · rw [hrun] at hok
    cases hok
    exact ⟨replay, last, hrun, htagged, hapart, hfollows htagged hapart⟩

end Replay

end SymbolicMachine
