import SymbolicMachine.Instr.Effects
import SymbolicMachine.Proofs.Machine.Operations
import SymbolicMachine.Proofs.Machine.Registers
import SymbolicMachine.Proofs.Memory.Coherence

/-!
# Execution

One instruction writes one slice of the registers, or memory, or nothing.
`Performed` says for each instruction what the machine after it is.  Nothing can
stop an instruction but a byte offset out of range, which only accesses to
memory have, and machines stay well formed.
-/

namespace SymbolicMachine

/--
An answer was read from memory, or is made of variables that no one has seen.
-/
def Memory.Answers (memory : Memory) (pointer : Pointer)
    (bitCount first last : Nat) (answer : Word) : Prop :=
  memory.ReadFrom pointer bitCount first last answer ∨
    ∃ id, first ≤ id ∧ id + bitCount = last ∧ answer = .freshWord id bitCount

def Word.wholeBytes (w : Word) : Word :=
  w.resize (w.byteCount * 8)

@[simp] theorem Word.width_wholeBytes (w : Word) :
    w.wholeBytes.width = w.byteCount * 8 :=
  w.width_resize _

theorem Word.width_wholeBytes_mod (w : Word) : w.wholeBytes.width % 8 = 0 := by
  rw [width_wholeBytes]
  omega

theorem Word.value_wholeBytes (valuation : Valuation) (w : Word) :
    w.wholeBytes.value valuation = w.value valuation := by
  have hle : w.width ≤ w.byteCount * 8 := by
    rw [byteCount]
    omega
  rw [wholeBytes, value_resize]
  exact Nat.mod_eq_of_lt
    (lt_of_lt_of_le (w.value_lt valuation)
      (Nat.pow_le_pow_right (by decide) hle))

def Instr.CanStop (instr : Instr) (fault : Fault) : Prop :=
  fault = .offsetOverflow ∧ instr.memoryAccess?.isSome = true

namespace Machine

variable {arch : Architecture} {arena : Arena} {next : Nat} {machine : Machine}
  {session : Session}

/-! ## Memory accesses -/

theorem WellFormed.pointer (h : machine.WellFormed arch arena next)
    (base : RegisterSlice) (displacement : Int64) :
    (machine.pointer arch base displacement).WellFormed arch arena
      (Issued next) :=
  (Pointer.ofWord_wellFormed (h.readRegister base)).displace displacement

theorem WellFormed.addressAt_pointer (h : machine.WellFormed arch arena next)
    (base : RegisterSlice) (displacement : Int64) (valuation : Valuation) :
    (machine.pointer arch base displacement).addressAt valuation =
      BitVec.ofNat 64 ((machine.readRegister base).value valuation) +
        displacement.toBitVec := by
  rw [Machine.pointer, Pointer.addressAt_displace,
    Pointer.addressAt_ofWord (h.readRegister base)]

theorem readMemory_yields {pointer : Pointer} {byteCount : Nat}
    (hcount : byteCount ≤ 8) (hnode : session.nextNode = arena.length)
    (hmachine : machine.WellFormed arch arena session.nextVar)
    (hpointer : pointer.WellFormed arch arena (Issued session.nextVar)) :
    SymM.Yields (· = .offsetOverflow) (machine.readMemory pointer byteCount)
      session arena fun after later value => session.nextVar ≤ after.nextVar ∧
        value.WellFormed later (Issued after.nextVar) ∧
        machine.memory.Answers pointer (byteCount * 8) session.nextVar
          after.nextVar value := by
  have hsize : byteCount * 8 < UInt64.size := by
    rw [UInt64.size]
    omega
  unfold readMemory
  simp only [hsize, if_true]
  refine (Memory.read_yields (byteCount * 8) hnode hmachine.memory
    hpointer).bind fun after later result hle hafter ⟨hvars, hresult⟩ => ?_
  cases result with
  | some value =>
      have hfrom := hresult value rfl
      have hmemory : machine.memory.WellFormed arch later
          (Issued session.nextVar) :=
        (hmachine.grow hle le_rfl).memory
      exact SymM.yields_pure hafter ⟨hvars, (hfrom.wellFormed hmemory).2,
        .inl hfrom⟩
  | none =>
      refine (SymM.yields_record hafter).bind
        fun after₁ arena₁ _ _ hnode₁ ⟨hvars₁, _⟩ => ?_
      have hwidth : ¬ Word.maxWidth < byteCount * 8 := by
        rw [Word.maxWidth]
        omega
      refine (Word.fresh_yields hnode₁ fun h => absurd h hwidth).mono
        fun after₂ arena₂ w _ _ hw => ?_
      obtain ⟨hnext, rfl, rfl⟩ := hw
      refine ⟨by omega, Word.freshWord_wellFormed fun id _ hlt =>
        .inl (hnext ▸ hlt), ?_⟩
      exact .inr ⟨after₁.nextVar, by omega, hnext.symm, rfl⟩

private theorem writeMemory_yields {pointer : Pointer} {value : Word}
    (hnode : session.nextNode = arena.length)
    (hmachine : machine.WellFormed arch arena session.nextVar)
    (hpointer : pointer.WellFormed arch arena (Issued session.nextVar))
    (hvalue : value.WellFormed arena (Issued session.nextVar)) :
    SymM.Yields (· = .offsetOverflow) (machine.writeMemory arch pointer value)
      session arena fun last later after => last.nextVar = session.nextVar ∧
        after.WellFormed arch later session.nextVar ∧
        after.registers = machine.registers ∧
        ∃ region offset,
          machine.memory.Wrote pointer (value.wholeBytes.partsOf 8)
            region offset
          after.memory := by
  have hbytes := value.width_wholeBytes_mod
  unfold writeMemory
  refine (SymM.yields_record hnode).bind
    fun after₁ arena₁ _ hle₁ hnode₁ ⟨hvars₁, _⟩ => ?_
  refine (Memory.write_yields hnode₁ (hmachine.grow hle₁ le_rfl).memory
    (hpointer.mono hle₁) hbytes).bind
    fun after₂ arena₂ memory hle₂ hnode₂ ⟨hvars₂, region, offset, hwrote⟩ => ?_
  have hle := hle₁.trans hle₂
  have hold := hmachine.grow hle le_rfl
  refine SymM.yields_pure hnode₂ ⟨hvars₂.trans hvars₁, ?_, rfl, region, offset,
    hwrote⟩
  exact ⟨hold.register, hold.register_width,
    hwrote.wellFormed hold.memory (hpointer.mono hle)
    ((hvalue.mono hle).resize _) hbytes⟩

/-! ## Instructions -/

/--
What an instruction makes of the machine.  Fresh variables from `first` to
`last` are used.
-/
inductive Performed (arch : Architecture) (machine : Machine)
    (first last : Nat) : Instr → Machine → Prop
  | nop : Performed arch machine first last .nop machine
  | move {extension : Extension} {target : RegisterSlice} {source : Operand}
      {after : Machine} :
      machine.Placed arch target
        (extension.resize (machine.readOperand source) target.count) after →
      Performed arch machine first last (.move extension target source) after
  | unary {op : UnaryOp} {target : RegisterSlice} {value : Word}
      {after : Machine} :
      (∀ valuation, value.value valuation =
        (op.denote (BitVec.ofNat target.count
          ((machine.readRegister target).value valuation))).toNat) →
      machine.Placed arch target value after →
      Performed arch machine first last (.unary op target) after
  | binary {op : BinaryOp} {target : RegisterSlice} {source : Operand}
      {value : Word} {after : Machine} :
      (∀ valuation, value.value valuation = (op.denote
        (BitVec.ofNat target.count
          ((machine.readRegister target).value valuation))
        (BitVec.ofNat (op.operand (machine.readRegister target)
          (machine.readOperand source)).width
          ((op.operand (machine.readRegister target)
            (machine.readOperand source)).value valuation))).toNat) →
      machine.Placed arch target value after →
      Performed arch machine first last (.binary op target source) after
  | load {target base : RegisterSlice} {displacement : Immediate} {value : Word}
      {after : Machine} :
      machine.memory.Answers (machine.pointer arch base displacement.signed)
        (target.byteCount * 8) first last value →
      machine.Placed arch target value after →
      Performed arch machine first last (.load target base displacement) after
  | store {base : RegisterSlice} {displacement : Immediate} {source : Operand}
      {after : Machine}
      {region : Region} {offset : Int} : after.registers = machine.registers →
      machine.memory.Wrote (machine.pointer arch base displacement.signed)
        ((machine.readOperand source).wholeBytes.partsOf 8) region
          offset after.memory →
      Performed arch machine first last (.store base displacement source) after

theorem byteCount_le (slice : RegisterSlice) : slice.byteCount ≤ 8 := by
  have hinside := slice.inside
  rw [registerWidth] at hinside
  rw [RegisterSlice.byteCount]
  omega

theorem place_yields {stops : Fault → Prop} {mid : Session} {later : Arena}
    {value : Word} (target : RegisterSlice)
    (hnode : mid.nextNode = later.length) (hle : arena <+: later)
    (hvars : session.nextVar ≤ mid.nextVar)
    (hmachine : machine.WellFormed arch arena session.nextVar)
    (hvalue : value.WellFormed later (Issued mid.nextVar)) :
    SymM.Yields stops (machine.writeRegister arch target value) mid later
      fun last final after => session.nextVar ≤ last.nextVar ∧
        last.nextVar = mid.nextVar ∧
        after.WellFormed arch final last.nextVar ∧
        machine.Placed arch target value after := by
  refine (writeRegister_yields stops target hnode (hmachine.grow hle hvars)
    hvalue).mono fun last final after _ _ ⟨hlast, hafter, hplaced⟩ => ?_
  rw [hlast]
  exact ⟨hvars, rfl, hafter, hplaced⟩

private theorem perform_yields (instr : Instr)
    (hnode : session.nextNode = arena.length)
    (hmachine : machine.WellFormed arch arena session.nextVar) :
    SymM.Yields instr.CanStop (machine.perform arch instr) session arena
      fun last later after => session.nextVar ≤ last.nextVar ∧
        after.WellFormed arch later last.nextVar ∧
        Performed arch machine session.nextVar last.nextVar instr after := by
  cases instr with
  | nop => exact SymM.yields_pure hnode ⟨le_rfl, hmachine, .nop⟩
  | move extension target source =>
      have hvalue :=
        extension.wellFormed_resize (hmachine.readOperand source) target.count
      refine (place_yields target hnode List.prefix_rfl le_rfl hmachine
        hvalue).mono fun last later after _ _ ⟨hvars, _, hafter, hplaced⟩ => ?_
      exact ⟨hvars, hafter, .move hplaced⟩
  | unary op target =>
      refine (op.apply_yields (width_readRegister _ _) hnode
        (hmachine.readRegister target)).bind
        fun mid later value hle hmid ⟨hnodes, hvalue, hmeaning⟩ => ?_
      rw [← hnodes.nextVar_eq] at hvalue
      refine (place_yields target hmid hle hnodes.nextVar_eq.ge hmachine
        hvalue).mono fun last final after _ _ ⟨hvars, _, hafter, hplaced⟩ => ?_
      exact ⟨hvars, hafter, .unary hmeaning hplaced⟩
  | binary op target source =>
      refine (op.apply_yields (width_readRegister _ _) hnode
        (hmachine.readRegister target) (hmachine.readOperand source)).bind
        fun mid later value hle hmid ⟨hnodes, hvalue, hmeaning⟩ => ?_
      rw [← hnodes.nextVar_eq] at hvalue
      refine (place_yields target hmid hle hnodes.nextVar_eq.ge hmachine
        hvalue).mono fun last final after _ _ ⟨hvars, _, hafter, hplaced⟩ => ?_
      exact ⟨hvars, hafter, .binary hmeaning hplaced⟩
  | load target base displacement =>
      have hread := readMemory_yields (byteCount_le target) hnode hmachine
        (hmachine.pointer base displacement.signed)
      refine (hread.widen fun _ hfault => ⟨hfault, rfl⟩).bind
        fun mid later value hle hmid ⟨hvars, hvalue, hanswers⟩ => ?_
      refine (place_yields target hmid hle hvars hmachine hvalue).mono
        fun last final after _ _ ⟨hvars', hlast, hafter, hplaced⟩ => ?_
      rw [← hlast] at hanswers
      exact ⟨hvars', hafter, .load hanswers hplaced⟩
  | store base displacement source =>
      have hwrite := writeMemory_yields hnode hmachine
        (hmachine.pointer base displacement.signed)
          (hmachine.readOperand source)
      refine (hwrite.widen fun _ hfault => ⟨hfault, rfl⟩).mono
        fun last later after _ _ ⟨hlast, hafter, hregisters, region, offset,
          hwrote⟩ => ?_
      rw [hlast]
      exact ⟨le_rfl, hafter, .store hregisters hwrote⟩

private theorem execute_stops_yields (instr : Instr)
    (hnode : session.nextNode = arena.length)
    (hmachine : machine.WellFormed arch arena session.nextVar) :
    SymM.Yields instr.CanStop (machine.execute arch instr) session arena
      fun last later after => session.nextVar ≤ last.nextVar ∧
        after.WellFormed arch later last.nextVar ∧
        Performed arch machine session.nextVar last.nextVar instr after := by
  refine (SymM.yields_record hnode).bind
    fun mid later _ hle hmid ⟨hvars, _⟩ => ?_
  rw [← hvars] at hmachine ⊢
  exact perform_yields instr hmid (hmachine.grow hle le_rfl)

theorem execute_yields (instr : Instr) (hnode : session.nextNode = arena.length)
    (hmachine : machine.WellFormed arch arena session.nextVar) :
    SymM.Yields (· = .offsetOverflow) (machine.execute arch instr) session arena
      fun last later after => session.nextVar ≤ last.nextVar ∧
        after.WellFormed arch later last.nextVar ∧
        Performed arch machine session.nextVar last.nextVar instr after :=
  (execute_stops_yields instr hnode hmachine).widen fun _ hfault => hfault.1

theorem execute_ends {instr : Instr} (hmemory : instr.memoryAccess? = none)
    (hnode : session.nextNode = arena.length)
    (hmachine : machine.WellFormed arch arena session.nextVar) :
    ∃ after last later, machine.execute arch instr session = .ok after last ∧
      after.WellFormed arch later last.nextVar ∧
      Performed arch machine session.nextVar last.nextVar instr after := by
  have hnever : ∀ fault, instr.CanStop fault → False := by
    intro fault hfault
    have hsome := hfault.2
    rw [hmemory] at hsome
    cases hsome
  obtain ⟨after, last, later, hrun, _, _, _, hafter, hperformed⟩ :=
    ((execute_stops_yields instr hnode hmachine).widen hnever).exists_ok
  exact ⟨after, last, later, hrun, hafter, hperformed⟩

/-! ## Machines that can be met -/

/--
The sessions, words and machines that one can get to: by making words, by using
the registers and the memory of machines and by executing instructions.  A
machine stays at hand after it was used.
-/
inductive Reached (arch : Architecture) :
    Session → List Word → List Machine → Prop
  | start (session : Session) : Reached arch session [] [{}]
  | make {session after : Session} {pool words : List Word}
      {machines : List Machine}
      (step : Word.Step) : Reached arch session pool machines →
      step.run pool session = .ok words after →
      Reached arch after (words ++ pool) machines
  | readRegister {session : Session} {pool : List Word}
      {machines : List Machine}
      {machine : Machine} (slice : RegisterSlice) :
        Reached arch session pool machines →
      machine ∈ machines →
        Reached arch session (machine.readRegister slice :: pool) machines
  | writeRegister {session after : Session} {pool : List Word}
      {machines : List Machine}
      {machine next : Machine} {value : Word} (slice : RegisterSlice) :
      Reached arch session pool machines → machine ∈ machines → value ∈ pool →
      machine.writeRegister arch slice value session = .ok next after →
      Reached arch after pool (next :: machines)
  | readMemory {session after : Session} {pool : List Word}
      {machines : List Machine}
      {machine : Machine} {pointer : Pointer} {bitCount : Nat}
        {answer : Option Word} :
      Reached arch session pool machines → machine ∈ machines →
      Pointer.Built arch pool pointer →
      machine.memory.read pointer bitCount session = .ok answer after →
      Reached arch after (answer.toList ++ pool) machines
  | writeMemory {session after : Session} {pool : List Word}
      {machines : List Machine}
      {machine next : Machine} {pointer : Pointer} {value : Word} :
      Reached arch session pool machines → machine ∈ machines →
      Pointer.Built arch pool pointer →
      value ∈ pool → machine.writeMemory arch pointer value session =
        .ok next after →
      Reached arch after pool (next :: machines)
  | execute {session after : Session} {pool : List Word}
      {machines : List Machine}
      {machine next : Machine} (instr : Instr) :
        Reached arch session pool machines →
      machine ∈ machines → machine.execute arch instr session = .ok next after →
      Reached arch after pool (next :: machines)

theorem Reached.wellFormed {pool : List Word} {machines : List Machine}
    (h : Reached arch session pool machines) :
    ∃ arena, Word.Pool session arena pool ∧
      ∀ machine ∈ machines, machine.WellFormed arch arena session.nextVar := by
  induction h with
  | start session =>
      obtain ⟨arena, hnode⟩ := SymM.exists_arena session
      exact ⟨arena, ⟨hnode, by simp⟩, by simp [wellFormed_new]⟩
  | make step _ hstep ih =>
      obtain ⟨arena, hpool, hmachines⟩ := ih
      obtain ⟨later, hle, hnode, hvars, hwords⟩ :=
        (step.run_growsPool hpool).of_ok hstep
      exact ⟨later, (hpool.grow hle hnode hvars).append hwords,
        fun m hm => (hmachines m hm).grow hle hvars⟩
  | @readRegister session pool machines machine slice _ hmem ih =>
      obtain ⟨arena, hpool, hmachines⟩ := ih
      have hword : ∀ w ∈ [machine.readRegister slice],
          w.WellFormed arena (Issued session.nextVar) := by
        simpa using (hmachines machine hmem).readRegister slice
      exact ⟨arena, hpool.append hword, hmachines⟩
  | writeRegister slice _ hmem hvalue hwrite ih =>
      obtain ⟨arena, hpool, hmachines⟩ := ih
      obtain ⟨later, hle, hnode, hvars, hnext, _⟩ :=
        (writeRegister_yields (fun _ => False) slice hpool.nodes
          (hmachines _ hmem) (hpool.wellFormed _ hvalue)).of_ok hwrite
      rw [← hvars] at hnext
      exact ⟨later, hpool.grow hle hnode hvars.ge,
        List.forall_mem_cons.mpr ⟨hnext,
          fun m hm => (hmachines m hm).grow hle hvars.ge⟩⟩
  | readMemory _ hmem hpointer hread ih =>
      obtain ⟨arena, hpool, hmachines⟩ := ih
      have hmachine := hmachines _ hmem
      obtain ⟨later, hle, hnode, hvars, hanswer⟩ :=
        (Memory.read_yields _ hpool.nodes hmachine.memory
          (hpointer.wellFormed hpool)).of_ok hread
      refine ⟨later, (hpool.grow hle hnode hvars).append fun w hw => ?_,
        fun m hm => (hmachines m hm).grow hle hvars⟩
      exact ((hanswer w (Option.mem_toList.mp hw)).wellFormed
        (hmachine.grow hle le_rfl).memory).2
  | writeMemory _ hmem hpointer hvalue hwrite ih =>
      obtain ⟨arena, hpool, hmachines⟩ := ih
      obtain ⟨later, hle, hnode, hvars, hnext, _⟩ :=
        (writeMemory_yields hpool.nodes (hmachines _ hmem)
          (hpointer.wellFormed hpool) (hpool.wellFormed _ hvalue)).of_ok hwrite
      rw [← hvars] at hnext
      exact ⟨later, hpool.grow hle hnode hvars.ge,
        List.forall_mem_cons.mpr ⟨hnext,
          fun m hm => (hmachines m hm).grow hle hvars.ge⟩⟩
  | execute instr _ hmem hexecute ih =>
      obtain ⟨arena, hpool, hmachines⟩ := ih
      obtain ⟨later, hle, hnode, hvars, hnext, _⟩ :=
        (execute_yields instr hpool.nodes (hmachines _ hmem)).of_ok hexecute
      exact ⟨later, hpool.grow hle hnode hvars,
        List.forall_mem_cons.mpr ⟨hnext,
          fun m hm => (hmachines m hm).grow hle hvars⟩⟩

theorem Reached.build {pool words : List Word} {machines : List Machine}
    {after : Session} {steps : List Word.Step}
    (h : Reached arch session pool machines)
    (hrun : Word.build pool steps session = .ok words after) :
    Reached arch after words machines := by
  induction steps generalizing session pool with
  | nil =>
      cases hrun
      exact h
  | cons step steps ih =>
      obtain ⟨made, mid, hstep, hrest⟩ := SymM.bind_eq_ok.mp hrun
      exact ih (h.make step hstep) hrest

/--
If steps in a new session end with a pool that passes a check, such a pool can
be met.
-/
theorem exists_reached (arch : Architecture) {steps : List Word.Step}
    {check : List Word → Session → Bool}
    (h : SymM.endsWith (Word.build [] steps) {} check = true) :
    ∃ session pool,
      Reached arch session pool [{}] ∧ check pool session = true := by
  obtain ⟨pool, session, hrun, hcheck⟩ := SymM.exists_ok_of_endsWith h
  exact ⟨session, pool, (Reached.start {}).build hrun, hcheck⟩

theorem Reached.performed {pool : List Word} {machines : List Machine}
    (h : Reached arch session pool machines) (hmem : machine ∈ machines)
    {instr : Instr} {after : Machine} {last : Session}
    (hrun : machine.execute arch instr session = .ok after last) :
    Performed arch machine session.nextVar last.nextVar instr after := by
  obtain ⟨arena, hpool, hmachines⟩ := h.wellFormed
  obtain ⟨_, _, _, _, _, hperformed⟩ :=
    (execute_yields instr hpool.nodes (hmachines machine hmem)).of_ok hrun
  exact hperformed

end Machine

end SymbolicMachine
