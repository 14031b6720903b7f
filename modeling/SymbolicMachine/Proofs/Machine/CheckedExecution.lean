import Mathlib.Data.Set.List
import SymbolicMachine.Access
import SymbolicMachine.Proofs.Instr.Arguments
import SymbolicMachine.Proofs.Machine.Spill
import SymbolicMachine.Proofs.Memory.Separation

/-!
# Execution of checked instructions

Accepted arguments have a place in one of the cases of the interpreter, so an
accepted instruction is never refused when it runs: it runs as the typed
instruction that it stands for, alone and in a replay.

What is told about it, by the signature of its opcode and by its effects, is
what the run does.  Only the register of the first operand may change, and only
if the signature has it written.  Memory is accessed exactly if a location is
told, at this location and with the size that is told, and it changes only if a
write is told.  On the machines that can be met, execution stops only where an
access leaves the offsets of a region.
-/

namespace SymbolicMachine

namespace Instr

variable {instr : Instr}

private theorem isSome_location? (instr : Instr) :
    instr.effects.location.isSome = instr.effects.accessesMemory := by
  cases instr <;> rfl

theorem location_of_memoryOperand? {index : Nat}
    (h : instr.opcode.memoryOperand? = some index) :
    ∃ base displacement, instr.operands[index]? = some (.register base) ∧
      instr.operands[index + 1]? = some (.immediate displacement) ∧
      instr.effects.location = some ⟨base, displacement.signed⟩ := by
  cases instr <;> cases h
  · exact ⟨_, _, rfl, rfl, rfl⟩
  · exact ⟨_, _, rfl, rfl, rfl⟩

private theorem signature_of_target? {target : RegisterSlice}
    (h : instr.target? = some target) :
    instr.raw.arguments[0]? = some (.register target) ∧
      ∃ kind, instr.opcode.signature[0]? = some kind ∧ kind.writes = true := by
  cases instr <;> cases h
  all_goals exact ⟨rfl, _, rfl, rfl⟩

private theorem readWriteFilter_of_addressNeeded {filter : AccessFilter}
    {error : AccessError}
    (h : instr.effects.addressNeeded filter = .error error) :
    error = .readWriteFilter := by
  have hlocation := instr.isSome_location?
  unfold Effects.addressNeeded at h
  split_ifs at h with hnone hfilter hadmits
  · cases h
    rfl
  · rw [Bool.not_eq_true', Bool.not_eq_false] at hnone
    obtain ⟨location, hsome⟩ :=
      Option.isSome_iff_exists.mp (hlocation.trans hnone)
    rw [hsome] at h
    cases h

private theorem readWriteFilter_of_testAccess {arch : Architecture}
    {trace : RegisterSlice → SymM Word} {filter : AccessFilter}
    {target : Target} {error : AccessError} {session last : Session}
    (h : testAccess arch trace instr.effects filter target session =
      .ok (.error error) last) :
    error = .readWriteFilter := by
  cases target with
  | register slice => cases h
  | memory pointer bitCount =>
      unfold testAccess at h
      cases hneeded : instr.effects.addressNeeded filter with
      | error needed =>
          rw [hneeded] at h
          cases h
          exact readWriteFilter_of_addressNeeded hneeded
      | ok needed =>
          rw [hneeded] at h
          cases needed with
          | none => cases h
          | some location =>
              obtain ⟨_, _, _, hrest⟩ := SymM.bind_eq_ok.mp h
              obtain ⟨_, _, _, hanswer⟩ := SymM.bind_eq_ok.mp hrest
              cases hanswer

end Instr

namespace Machine

variable {arch : Architecture} {arena : Arena} {machine next : Machine}
  {session last : Session} {instr : Instr}

/-! ## Regions of reached machines -/

theorem Reached.separated {pool : List Word} {machines : List Machine}
    (h : Reached arch session pool machines) :
    ∀ machine ∈ machines, machine.memory.Separated := by
  induction h with
  | start => simp [Memory.Separated]
  | make _ _ _ ih => exact ih
  | readRegister _ _ _ ih => exact ih
  | readMemory _ _ _ _ ih => exact ih
  | writeRegister slice _ hmem _ hwrite ih =>
      have hkept := ih _ hmem
      obtain ⟨_, slot, _, _, rfl⟩ := writeRegister_eq_ok hwrite
      exact List.forall_mem_cons.mpr ⟨hkept, ih⟩
  | writeMemory hreached hmem hpointer _ hwrite ih =>
      obtain ⟨arena, hpool, hmachines⟩ := hreached.wellFormed
      obtain ⟨start, memory, hstart, hwritten, rfl⟩ := writeMemory_eq_ok hwrite
      refine List.forall_mem_cons.mpr ⟨?_, ih⟩
      exact (ih _ hmem).write (hstart.trans hpool.nodes)
        (hmachines _ hmem).memory (hpointer.wellFormed hpool)
        (Word.width_wholeBytes_mod _) hwritten
  | execute instr hreached hmem hrun ih =>
      obtain ⟨arena, hpool, hmachines⟩ := hreached.wellFormed
      have hmemory :=
        execute_memory hpool.nodes (hmachines _ hmem) (ih _ hmem) hrun
      exact List.forall_mem_cons.mpr ⟨hmemory.1, ih⟩

/-! ## Running what was accepted -/

theorem readArgument_argument (machine : Machine) (operand : Operand) :
    machine.readArgument operand.argument = machine.readOperand operand := by
  cases operand <;> rfl

private theorem writeRegister_resize (arch : Architecture) (machine : Machine)
    (slice : RegisterSlice) (value : Word) :
    machine.writeRegister arch slice (value.resize slice.count) =
      machine.writeRegister arch slice value := by
  have hcut : (value.resize slice.count).resize slice.count =
      value.resize slice.count := Word.resize_of_width (Word.width_resize _ _)
  simp only [writeRegister, hcut]

private theorem accessFrom_immediate (arch : Architecture) (machine : Machine)
    (opcode : Opcode) (base : RegisterSlice) (index : Nat)
    (displacement : Immediate) (access : Pointer → SymM Machine) :
    machine.accessFrom arch opcode base index
        (Operand.immediate displacement).argument access =
      (do
        let next ← access (machine.pointer arch base displacement.signed)
        return .ok next) := by
  simp [accessFrom, Argument.signed?]

/-- Every typed instruction has its case, and none of the refusals is met. -/
theorem performRaw_raw (arch : Architecture) (machine : Machine)
    (instr : Instr) :
    machine.performRaw arch instr.raw =
      (do return .ok (← machine.perform arch instr)) := by
  cases instr with
  | nop => rfl
  | move extension target source =>
      cases extension with
      | zero =>
          have hcase :
              machine.performRaw arch (Instr.move .zero target source).raw =
                (do return Except.ok (← machine.writeRegister arch target
                  (machine.readArgument source.argument))) := rfl
          rw [hcase, readArgument_argument, ← writeRegister_resize]
          rfl
      | sign =>
          have hcase :
              machine.performRaw arch (Instr.move .sign target source).raw =
                (do return Except.ok (← machine.writeRegister arch target
                  ((machine.readArgument source.argument).resizeSigned
                    target.count))) := rfl
          rw [hcase, readArgument_argument]
          rfl
  | unary op target =>
      have hcase :
          machine.performRaw arch (Instr.unary op target).raw = (do
            let value ← op.apply (machine.readRegister target)
            return Except.ok (← machine.writeRegister arch target value)) := rfl
      rw [hcase, perform, bind_assoc]
  | binary op target source =>
      have hcase :
          machine.performRaw arch (Instr.binary op target source).raw = (do
            let value ← op.apply (machine.readRegister target)
              (machine.readArgument source.argument)
            return Except.ok (← machine.writeRegister arch target value)) := rfl
      rw [hcase, readArgument_argument, perform, bind_assoc]
  | load target base displacement =>
      have hcase : machine.performRaw arch
          (Instr.load target base displacement).raw =
            machine.accessFrom arch .load base 2
              (Operand.immediate displacement).argument (fun pointer => do
                let value ← machine.readMemory pointer target.byteCount
                machine.writeRegister arch target value) := rfl
      rw [hcase, accessFrom_immediate]
      rfl
  | store base displacement source =>
      have hcase : machine.performRaw arch
          (Instr.store base displacement source).raw =
            machine.accessFrom arch .store base 1
              (Operand.immediate displacement).argument (fun pointer =>
                machine.writeMemory arch pointer
                  (machine.readArgument source.argument)) := rfl
      rw [hcase, accessFrom_immediate, readArgument_argument]
      rfl

theorem executeRaw_raw (arch : Architecture) (machine : Machine)
    (instr : Instr) :
    machine.executeRaw arch instr.raw =
      (do return .ok (← machine.execute arch instr)) := by
  have hcount : instr.raw.arguments.length = instr.operands.length :=
    List.length_map _
  rw [executeRaw, performRaw_raw, hcount, execute, bind_assoc]
  rfl

private theorem executeRaw_eq_ok_iff {result : Except IllegalInstr Machine} :
    machine.executeRaw arch instr.raw session = .ok result last ↔
      ∃ after, result = .ok after ∧
        machine.execute arch instr session = .ok after last := by
  rw [executeRaw_raw, SymM.bind_eq_ok]
  constructor
  · rintro ⟨after, mid, hrun, hresult⟩
    cases hresult
    exact ⟨after, rfl, hrun⟩
  · rintro ⟨after, rfl, hrun⟩
    exact ⟨after, last, hrun, rfl⟩

theorem executeRaw_ok_iff :
    machine.executeRaw arch instr.raw session = .ok (.ok next) last ↔
      machine.execute arch instr session = .ok next last := by
  rw [executeRaw_eq_ok_iff]
  constructor
  · rintro ⟨after, hafter, hrun⟩
    cases hafter
    exact hrun
  · intro hrun
    exact ⟨next, rfl, hrun⟩

private theorem execute_of_executeRaw_error {fault : Fault}
    (h : machine.executeRaw arch instr.raw session = .error fault last) :
    machine.execute arch instr session = .error fault last := by
  rw [executeRaw_raw] at h
  cases hrun : machine.execute arch instr session with
  | ok after mid =>
      rw [SymM.bind_of_ok hrun] at h
      cases h
  | error other mid =>
      rw [SymM.bind_of_error hrun] at h
      cases h
      rfl

/-! ## What a run does -/

/-- All bytes that are told to be accessed have an offset. -/
def EffectsInside (arch : Architecture) (machine : Machine) (effects : Effects)
    (session : Session) : Prop :=
  ∀ location, effects.location = some location →
    machine.accessOffset arch location session + effects.accessSize ≤ 2 ^ 63

/-- What is told about an instruction holds of a run of it that has ended. -/
structure RunAsTold (arch : Architecture) (machine : Machine) (instr : RawInstr)
    (session : Session) (after : Machine) (last : Session) : Prop where
  registers : ∀ key, after.registers[key]? ≠ machine.registers[key]? →
    ∃ target kind, instr.arguments[0]? = some (.register target) ∧
      target.canonical = key ∧
      instr.opcode.signature[0]? = some kind ∧ kind.writes = true
  memory : after.memory ≠ machine.memory → instr.effects.writesMemory = true
  /-- With any other memory the run is the same. -/
  unused : instr.effects.accessesMemory = false → ∀ memory,
    ({ machine with memory } : Machine).executeRaw arch instr session =
      .ok (.ok { after with memory }) last
  loaded : ∀ location, instr.effects.location = some location →
    instr.effects.writesMemory = false →
    ∃ start mid value target, start.nextNode = session.nextNode ∧
      machine.readMemory
        (machine.pointer arch location.base location.displacement)
        instr.effects.accessSize start = .ok value mid ∧
      instr.arguments[0]? = some (.register target) ∧
      machine.writeRegister arch target value mid = .ok after last
  stored : ∀ location, instr.effects.location = some location →
    instr.effects.writesMemory = true →
    ∃ start value, start.nextNode = session.nextNode ∧
      value.width = instr.effects.accessSize * 8 ∧
      machine.memory.write
        (machine.pointer arch location.base location.displacement) value start =
        .ok after.memory last

theorem writeRegister_withMemory {slice : RegisterSlice} {value : Word}
    (memory : Memory)
    (hrun : machine.writeRegister arch slice value session = .ok next last) :
    ({ machine with memory } : Machine).writeRegister arch slice value session =
      .ok { next with memory } last := by
  rw [writeRegister_eq] at hrun ⊢
  obtain ⟨_, mid, hrecord, hrest⟩ := SymM.bind_eq_ok.mp hrun
  obtain ⟨slot, _, hslot, hnext⟩ := SymM.bind_eq_ok.mp hrest
  cases hnext
  exact SymM.bind_eq_ok.mpr ⟨_, mid, hrecord,
    SymM.bind_eq_ok.mpr ⟨slot, last, hslot, rfl⟩⟩

private theorem execute_withMemory (memory : Memory)
    (hnone : instr.memoryAccess? = none)
    (hrun : machine.execute arch instr session = .ok next last) :
    ({ machine with memory } : Machine).execute arch instr session =
      .ok { next with memory } last := by
  obtain ⟨_, mid, hrecord, hperform⟩ := SymM.bind_eq_ok.mp hrun
  refine SymM.bind_eq_ok.mpr ⟨_, mid, hrecord, ?_⟩
  cases instr with
  | nop =>
      cases hperform
      rfl
  | move extension target source =>
      exact writeRegister_withMemory memory hperform
  | unary op target =>
      obtain ⟨value, half, happly, hwrite⟩ := SymM.bind_eq_ok.mp hperform
      exact SymM.bind_eq_ok.mpr ⟨value, half, happly,
        writeRegister_withMemory memory hwrite⟩
  | binary op target source =>
      obtain ⟨value, half, happly, hwrite⟩ := SymM.bind_eq_ok.mp hperform
      exact SymM.bind_eq_ok.mpr ⟨value, half, happly,
        writeRegister_withMemory memory hwrite⟩
  | load target base displacement => cases hnone
  | store base displacement source => cases hnone

private theorem execute_load_eq_ok {target base : RegisterSlice}
    {displacement : Immediate}
    (hrun : machine.execute arch (.load target base displacement) session =
      .ok next last) :
    ∃ start mid value, start.nextNode = session.nextNode ∧
      machine.readMemory (machine.pointer arch base displacement.signed)
        target.byteCount start = .ok value mid ∧
      machine.writeRegister arch target value mid = .ok next last := by
  obtain ⟨start, hrecord, hnodes, _⟩ := SymM.record_ends .debug _ session
  have hperform := (SymM.bind_of_ok hrecord).symm.trans hrun
  obtain ⟨value, mid, hread, hwrite⟩ := SymM.bind_eq_ok.mp hperform
  exact ⟨start, mid, value, hnodes, hread, hwrite⟩

private theorem Performed.registers_of_ne {first final : Nat}
    (h : Performed arch machine first final instr next) {key : RegisterSlice}
    (hne : next.registers[key]? ≠ machine.registers[key]?) :
    ∃ target, instr.target? = some target ∧ target.canonical = key := by
  by_contra hnone
  apply hne
  apply h.registers_of_target
  intro target htarget hkey
  exact hnone ⟨target, htarget, hkey.symm⟩

theorem execute_asTold (hnode : session.nextNode = arena.length)
    (hmachine : machine.WellFormed arch arena session.nextVar)
    (hrun : machine.execute arch instr session = .ok next last) :
    machine.RunAsTold arch instr.raw session next last where
  registers := by
    intro key hne
    obtain ⟨_, _, _, _, _, hperformed⟩ :=
      (execute_yields instr hnode hmachine).of_ok hrun
    obtain ⟨target, htarget, hkey⟩ := hperformed.registers_of_ne hne
    obtain ⟨hargument, kind, hkind, hwrites⟩ :=
      Instr.signature_of_target? htarget
    exact ⟨target, kind, hargument, hkey, hkind, hwrites⟩
  memory := by
    intro hne
    by_contra hread
    rw [instr.effects_raw] at hread
    have hnever : instr.memoryAccess? ≠ some .write := by
      simpa [Instr.effects] using hread
    obtain ⟨_, _, _, _, hmemory⟩ :=
      memory_eq_of_execute hnode hmachine hnever hrun
    exact hne hmemory
  unused := by
    intro haccesses memory
    rw [instr.effects_raw] at haccesses
    have hnone : instr.memoryAccess? = none := by
      simpa [Instr.effects] using haccesses
    exact executeRaw_ok_iff.mpr (execute_withMemory memory hnone hrun)
  loaded := by
    rw [instr.effects_raw]
    intro location hlocation hread
    cases instr <;> cases hlocation
    case load target base displacement =>
        obtain ⟨start, mid, value, hstart, hloaded, hwrite⟩ :=
          execute_load_eq_ok hrun
        exact ⟨start, mid, value, target, hstart, hloaded, rfl, hwrite⟩
    case store => cases hread
  stored := by
    rw [instr.effects_raw]
    intro location hlocation hwrites
    cases instr <;> cases hlocation
    case load => cases hwrites
    case store base displacement source =>
        obtain ⟨start, memory, hstart, hwrite, rfl⟩ := execute_store_eq_ok hrun
        exact ⟨start, _, hstart, machine.width_storedWord source, hwrite⟩

end Machine

/-! ## Replays of accepted blocks -/

namespace Replay

theorem runRawFrom_raw (arch : Architecture) (machine : Machine)
    (block : Block) :
    runRawFrom arch machine (block.map Instr.raw) =
      (do return .ok (← runFrom arch machine block)) := by
  induction block generalizing machine with
  | nil => rfl
  | cons instr block ih =>
      rw [List.map_cons, runRawFrom, Machine.executeRaw_raw, runFrom]
      simp only [bind_assoc, pure_bind, ih]
      rfl

/-- A block of accepted instructions is replayed as the typed block. -/
theorem runRaw_of_accepted {block : List RawInstr}
    (h : ∀ instr ∈ block, ∃ opcode arguments,
      RawInstr.make opcode arguments = .ok instr) :
    ∃ typed : Block, typed.map Instr.raw = block ∧ ∀ arch,
      runRaw arch block = (do return .ok (← run arch typed)) := by
  have htyped : block ∈ Set.range (List.map Instr.raw) := by
    rw [Set.range_list_map]
    intro instr hmem
    obtain ⟨opcode, arguments, haccepted⟩ := h instr hmem
    exact (Instr.make_eq_ok_iff_raw.mp haccepted).2
  obtain ⟨typed, rfl⟩ := htyped
  exact ⟨typed, rfl, fun arch => runRawFrom_raw arch {} typed⟩

end Replay

/--
Arguments are accepted exactly if they fit the opcode, and kept as they are.  A
location is told exactly if memory is accessed, it is the one of the arguments
that the opcode names, and the analysis does not miss it.  No run refuses what
was accepted: every run is one of the typed instruction.  On a machine that can
be met, the instruction ends exactly if all bytes that it accesses have an
offset, and nothing else stops it.  When it has ended, it has done what is told
about it.
-/
theorem checked_instruction_executes_as_told (opcode : Opcode)
    (arguments : List Argument) :
    ((∃ instr, RawInstr.make opcode arguments = .ok instr) ↔
      RawInstr.Fits ⟨opcode, arguments⟩) ∧
    ∀ instr, RawInstr.make opcode arguments = .ok instr →
      instr.opcode = opcode ∧ instr.arguments = arguments ∧
      instr.effects.location.isSome = instr.effects.accessesMemory ∧
      (∀ index, opcode.memoryOperand? = some index →
        ∃ base value width displacement,
          arguments[index]? = some (.register base) ∧
          arguments[index + 1]? = some (.immediate value width) ∧
          signedValue? value width = some displacement ∧
          instr.effects.location = some ⟨base, displacement⟩) ∧
      (∀ arch trace filter target session error last,
        testAccess arch trace instr.effects filter target session =
          .ok (.error error) last → error = .readWriteFilter) ∧
      (∀ arch machine session illegal last,
        Machine.executeRaw arch machine instr session ≠
          .ok (.error illegal) last) ∧
      (∃ typed : Instr, instr.typed? = some typed ∧ ∀ arch machine,
        Machine.executeRaw arch machine instr =
          (do return .ok (← machine.execute arch typed))) ∧
      ∀ arch session pool machines,
        Machine.Reached arch session pool machines → ∀ machine ∈ machines,
          ((∃ after last,
            machine.executeRaw arch instr session = .ok (.ok after) last) ↔
              machine.EffectsInside arch instr.effects session) ∧
          (∀ fault last,
            machine.executeRaw arch instr session = .error fault last →
              fault = .offsetOverflow) ∧
          ∀ after last,
            machine.executeRaw arch instr session = .ok (.ok after) last →
              machine.RunAsTold arch instr session after last := by
  constructor
  · constructor
    · rintro ⟨instr, haccepted⟩
      obtain ⟨rfl, hfits⟩ := RawInstr.make_eq_ok_iff.mp haccepted
      exact hfits
    · intro hfits
      exact ⟨_, RawInstr.make_eq_ok_iff.mpr ⟨rfl, hfits⟩⟩
  intro instr haccepted
  obtain ⟨hinstr, typed, rfl⟩ := Instr.make_eq_ok_iff_raw.mp haccepted
  obtain ⟨rfl, rfl⟩ := RawInstr.mk.inj hinstr
  refine ⟨rfl, rfl, ?_, ?_, ?_, ?_, ⟨typed, typed.typed?_raw,
    fun arch machine => machine.executeRaw_raw arch typed⟩, ?_⟩
  · rw [typed.effects_raw]
    exact typed.isSome_location?
  · intro index hindex
    obtain ⟨base, displacement, hbase, hnext, hlocation⟩ :=
      Instr.location_of_memoryOperand? hindex
    refine ⟨base, displacement.value, displacement.width, displacement.signed,
      ?_, ?_, displacement.signedValue?_eq, ?_⟩
    · rw [List.getElem?_map, hbase]
      rfl
    · rw [List.getElem?_map, hnext]
      rfl
    · rw [typed.effects_raw, hlocation]
  · intro arch trace filter target session error last herror
    rw [typed.effects_raw] at herror
    exact Instr.readWriteFilter_of_testAccess herror
  · intro arch machine session illegal last hrefused
    obtain ⟨_, hresult, _⟩ := Machine.executeRaw_eq_ok_iff.mp hrefused
    cases hresult
  · intro arch session pool machines hreached machine hmem
    obtain ⟨arena, hpool, hmachines⟩ := hreached.wellFormed
    have hwell := hmachines machine hmem
    have hends := Machine.execute_endsIff typed hpool.nodes hwell
      (hreached.separated machine hmem)
    refine ⟨?_, ?_, ?_⟩
    · rw [typed.effects_raw]
      simp only [Machine.executeRaw_ok_iff]
      exact hends.exists_ok_iff
    · intro fault last hstopped
      exact hends.fault_eq (Machine.execute_of_executeRaw_error hstopped)
    · intro after last hrun
      exact Machine.execute_asTold hpool.nodes hwell
        (Machine.executeRaw_ok_iff.mp hrun)

/-- Thirteen bits are stored below the stack, as two bytes. -/
theorem checked_instruction_executes_as_told_spill :
    let bits : RegisterSlice := ⟨⟨1⟩, 3, 13, by decide, by decide⟩
    let arguments : List Argument :=
      [.register (.full Amd64.rsp), .immediate 0xf8 8, .register bits]
    ∃ instr after last, RawInstr.make .store arguments = .ok instr ∧
      instr.effects.location = some ⟨.full Amd64.rsp, -8⟩ ∧
      instr.effects.accessSize = 2 ∧
      ({} : Machine).EffectsInside Amd64.standard instr.effects {} ∧
      ({} : Machine).executeRaw Amd64.standard instr {} = .ok (.ok after) last ∧
      (∀ key : RegisterSlice,
        after.registers[key]? = ({} : Machine).registers[key]?) ∧
      ∃ start value, value.width = 16 ∧
        ({} : Memory).write
          (({} : Machine).pointer Amd64.standard (.full Amd64.rsp) (-8)) value
          start = .ok after.memory last := by
  intro bits arguments
  let instr : RawInstr := ⟨.store, arguments⟩
  have haccepted : RawInstr.make .store arguments = .ok instr := by rfl
  have hlocation : instr.effects.location = some ⟨.full Amd64.rsp, -8⟩ := by rfl
  have hsize : instr.effects.accessSize = 2 := by decide
  have hcheck : SymM.endsWith (({} : Machine).executeRaw Amd64.standard instr)
      {} (fun result _ => result.isOk) = true := by
    decide +kernel
  obtain ⟨result, last, hrun, hresult⟩ := SymM.exists_ok_of_endsWith hcheck
  obtain ⟨_, _, _, _, _, _, _, hmachines⟩ :=
    (checked_instruction_executes_as_told .store arguments).2 instr haccepted
  obtain ⟨hends, _, htold⟩ :=
    hmachines Amd64.standard {} [] [{}] (.start {}) {} (by simp)
  cases result with
  | error illegal => cases hresult
  | ok after =>
      have hdone := htold after last hrun
      obtain ⟨start, value, _, hwidth, hwrite⟩ := hdone.stored _ hlocation rfl
      rw [hsize] at hwidth
      refine ⟨instr, after, last, haccepted, hlocation, hsize,
        hends.mp ⟨after, last, hrun⟩, hrun, ?_, start, value, hwidth, hwrite⟩
      intro key
      by_contra hne
      obtain ⟨_, kind, _, _, hkind, hwrites⟩ := hdone.registers key hne
      cases hkind
      cases hwrites

end SymbolicMachine
