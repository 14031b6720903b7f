import SymbolicMachine.Architecture.Amd64
import SymbolicMachine.Proofs.Machine.Execution
import SymbolicMachine.Proofs.Memory.Offsets
import SymbolicMachine.Replay

/-!
# Replays that complete

A replay stops, or leaves a state that cannot be listed, for one reason only: an
access comes to the end of the offsets of a region.  A load may go up to the
last offset; a store has to end before it.
-/

namespace SymbolicMachine

theorem RegisterSlice.byteCount_pos (slice : RegisterSlice) :
    0 < slice.byteCount := by
  have hcount := slice.count_pos
  rw [byteCount]
  omega

theorem Operand.byteCount_pos (operand : Operand) : 0 < operand.byteCount := by
  have hwidth : 0 < operand.width := by
    cases operand with
    | register slice => exact slice.count_pos
    | immediate constant => exact constant.inside.1
  rw [byteCount]
  omega

namespace Machine

variable {arch : Architecture} {arena : Arena} {machine : Machine}
  {session : Session}

/-! ## Offsets of an access -/

def accessOffset (arch : Architecture) (machine : Machine)
    (location : MemoryLocation) (session : Session) : Int :=
  (machine.memory.target
    (machine.pointer arch location.base location.displacement) session).offset

/-- All bytes that the instruction accesses have an offset. -/
def AccessInside (arch : Architecture) (machine : Machine) (instr : Instr)
    (session : Session) : Prop :=
  ∀ location, instr.location? = some location →
    machine.accessOffset arch location session + instr.accessSize ≤ 2 ^ 63

def StoreListable (arch : Architecture) (machine : Machine) (instr : Instr)
    (session : Session) : Prop :=
  instr.memoryAccess? = some .write → ∀ location,
  instr.location? = some location →
    machine.accessOffset arch location session + instr.accessSize ≤ lastOffset

private theorem accessInside_iff {instr : Instr} {location : MemoryLocation}
    (h : instr.location? = some location) :
    machine.AccessInside arch instr session ↔
      machine.accessOffset arch location session + instr.accessSize ≤
        2 ^ 63 := by
  simp [AccessInside, h]

private theorem storeListable_iff {instr : Instr} {location : MemoryLocation}
    (hwrites : instr.memoryAccess? = some .write)
    (h : instr.location? = some location) :
    machine.StoreListable arch instr session ↔
      machine.accessOffset arch location session + instr.accessSize ≤
        lastOffset := by
  simp [StoreListable, hwrites, h]

private theorem readMemory_endsIff {pointer : Pointer} {byteCount : Nat}
    (hpos : 0 < byteCount) (hcount : byteCount ≤ 8)
    (hnode : session.nextNode = arena.length)
    (hmachine : machine.WellFormed arch arena session.nextVar)
    (hseparated : machine.memory.Separated)
    (hpointer : pointer.WellFormed arch arena (Issued session.nextVar)) :
    SymM.EndsIff
      ((machine.memory.target pointer session).offset + byteCount ≤ 2 ^ 63)
      (machine.readMemory pointer byteCount) session := by
  have hsize : byteCount * 8 < UInt64.size := by
    rw [UInt64.size]
    omega
  have hbytes : (byteCount * 8 + 7) / 8 = byteCount := by omega
  have hread := Memory.read_endsIff hnode hmachine.memory hseparated hpointer
    (by omega : 0 < byteCount * 8) (by omega)
  rw [hbytes] at hread
  unfold readMemory
  simp only [hsize, if_true]
  apply hread.bind_ends
  intro answer after _
  cases answer with
  | some value => exact ⟨value, after, rfl⟩
  | none =>
      have hwidth : byteCount * 8 ≤ Word.maxWidth := by
        rw [Word.maxWidth]
        omega
      exact ⟨_, _, Word.fresh_of_le hwidth _⟩

private theorem load_endsIff (target base : RegisterSlice)
    (displacement : Immediate) (hnode : session.nextNode = arena.length)
    (hmachine : machine.WellFormed arch arena session.nextVar)
    (hseparated : machine.memory.Separated) :
    SymM.EndsIff
      (machine.accessOffset arch ⟨base, displacement.signed⟩ session +
        target.byteCount ≤ 2 ^ 63)
      (machine.execute arch (.load target base displacement)) session := by
  obtain ⟨mid, hrecord, hmid, hvars⟩ := SymM.record_ends .debug _ session
  rw [← hmid] at hnode
  rw [← hvars] at hmachine
  have hpointer := hmachine.pointer base displacement.signed
  apply SymM.endsIff_bind_of_ok hrecord
  rw [accessOffset, ← machine.memory.target_congr _ hmid]
  apply (readMemory_endsIff target.byteCount_pos (byteCount_le target) hnode
    hmachine hseparated hpointer).bind_ends
  intro value after hread
  obtain ⟨later, hle, hafter, hvars, hvalue, _⟩ :=
    (readMemory_yields (byteCount_le target) hnode hmachine hpointer).of_ok
      hread
  have hwrite :=
    writeRegister_yields (fun _ => False) target hafter
      (hmachine.grow hle hvars) hvalue
  obtain ⟨next, last, _, hrun, _⟩ := hwrite.exists_ok
  exact ⟨next, last, hrun⟩

private theorem execute_store_eq (base : RegisterSlice)
    (displacement : Immediate) (source : Operand)
    (hnode : session.nextNode = arena.length)
    (hmachine : machine.WellFormed arch arena session.nextVar) :
    ∃ mid, machine.execute arch (.store base displacement source) session = (do
      let pointer := machine.pointer arch base displacement.signed
      let memory ← (machine.memory.target pointer session).store pointer
        ((machine.readOperand source).wholeBytes.partsOf 8)
      return { machine with memory }) mid := by
  have hbytes := (machine.readOperand source).width_wholeBytes_mod
  obtain ⟨mid, hrecord, hmid, hvars⟩ := SymM.record_ends .debug _ session
  obtain ⟨mid', hrecord', hmid', hvars'⟩ := SymM.record_ends .trace _ mid
  have hnode' : mid'.nextNode = arena.length := hmid'.trans (hmid.trans hnode)
  obtain ⟨last, hwrite⟩ := Memory.write_eq_store hnode' hmachine.memory
    (hmachine.pointer base displacement.signed) hbytes
  rw [machine.memory.target_congr _ (hmid'.trans hmid)] at hwrite
  let store : Instr := .store base displacement source
  have hperform :
      machine.execute arch store session = machine.perform arch store mid :=
    SymM.bind_of_ok hrecord
  refine ⟨last, ?_⟩
  rw [hperform]
  exact (SymM.bind_of_ok hrecord').trans (SymM.bind_congr hwrite)

theorem width_storedWord (machine : Machine) (source : Operand) :
    (machine.readOperand source).wholeBytes.width = source.byteCount * 8 := by
  rw [Word.width_wholeBytes, Word.byteCount, width_readOperand]
  rfl

theorem length_storedBytes (machine : Machine) (source : Operand) :
    ((machine.readOperand source).wholeBytes.partsOf 8).length =
      source.byteCount := by
  rw [Memory.length_bytes (Word.width_wholeBytes_mod _), width_storedWord,
    Nat.mul_div_cancel _ (by decide)]

private theorem storedBytes_ne_nil (machine : Machine) (source : Operand) :
    (machine.readOperand source).wholeBytes.partsOf 8 ≠ [] := by
  apply List.ne_nil_of_length_pos
  rw [length_storedBytes]
  exact source.byteCount_pos

private theorem execute_endsIff_of_no_access {instr : Instr}
    (hmemory : instr.memoryAccess? = none) (hlocation : instr.location? = none)
    (hnode : session.nextNode = arena.length)
    (hmachine : machine.WellFormed arch arena session.nextVar) :
    SymM.EndsIff (machine.AccessInside arch instr session)
      (machine.execute arch instr) session := by
  obtain ⟨after, last, _, hrun, _⟩ := execute_ends hmemory hnode hmachine
  apply (SymM.endsIff_of_ok hrun).mpr
  intro location hsome
  rw [hlocation] at hsome
  cases hsome

/-- An instruction ends exactly if all bytes that it accesses have an offset. -/
theorem execute_endsIff (instr : Instr)
    (hnode : session.nextNode = arena.length)
    (hmachine : machine.WellFormed arch arena session.nextVar)
    (hseparated : machine.memory.Separated) :
    SymM.EndsIff (machine.AccessInside arch instr session)
      (machine.execute arch instr) session := by
  cases instr with
  | load target base displacement =>
      rw [accessInside_iff rfl]
      exact load_endsIff target base displacement hnode hmachine hseparated
  | store base displacement source =>
      obtain ⟨mid, hstore⟩ :=
        execute_store_eq base displacement source hnode hmachine
      have hends := Located.store_endsIff
        (machine.memory.target
          (machine.pointer arch base displacement.signed) session)
        (machine.pointer arch base displacement.signed)
        (machine.storedBytes_ne_nil source) mid
      rw [length_storedBytes] at hends
      rw [accessInside_iff rfl, SymM.endsIff_congr hstore]
      exact hends.bind_ends fun memory after _ => ⟨{ machine with memory },
        after, rfl⟩
  | _ => exact execute_endsIff_of_no_access rfl rfl hnode hmachine

theorem Performed.memory_eq {first last : Nat} {instr : Instr} {after : Machine}
    (h : Performed arch machine first last instr after)
    (hread : instr.memoryAccess? ≠ some .write) :
    after.memory = machine.memory := by
  cases h with
  | nop => rfl
  | move hplaced => exact hplaced.memory_eq
  | unary _ hplaced => exact hplaced.memory_eq
  | binary _ hplaced => exact hplaced.memory_eq
  | load _ hplaced => exact hplaced.memory_eq
  | store => exact absurd rfl hread

theorem execute_memory {instr : Instr} {after : Machine} {last : Session}
    (hnode : session.nextNode = arena.length)
    (hmachine : machine.WellFormed arch arena session.nextVar)
    (hseparated : machine.memory.Separated)
    (hrun : machine.execute arch instr session = .ok after last) :
    after.memory.Separated ∧ (machine.memory.Listable →
      (after.memory.Listable ↔ machine.StoreListable arch instr session)) := by
  by_cases hwrites : instr.memoryAccess? = some .write
  · cases instr with
    | store base displacement source =>
        have hpointer := hmachine.pointer base displacement.signed
        obtain ⟨_, _, _, _, htargets, _⟩ :=
          Memory.locate_target hnode hmachine.memory hpointer
        obtain ⟨mid, hstore⟩ :=
          execute_store_eq base displacement source hnode hmachine
        rw [hstore] at hrun
        obtain ⟨memory, _, hwrite, hafter⟩ := SymM.bind_eq_ok.mp hrun
        cases hafter
        obtain ⟨region, hover, rfl⟩ := Located.store_eq_ok hwrite
        refine ⟨hseparated.replace htargets hover.anchor_eq,
          fun hlistable => ?_⟩
        have hiff :=
          hlistable.replace_iff htargets hover
            (machine.storedBytes_ne_nil source)
        rw [length_storedBytes] at hiff
        rw [storeListable_iff rfl rfl]
        exact hiff
    | _ => cases hwrites
  · obtain ⟨_, _, _, _, _, hperformed⟩ :=
      (execute_yields instr hnode hmachine).of_ok hrun
    rw [hperformed.memory_eq hwrites]
    exact ⟨hseparated, fun hlistable => iff_of_true hlistable fun h =>
      absurd h hwrites⟩

/-! ## Listing -/

private theorem forM_record_ends (level : Level) (texts : List String)
    (session : Session) :
    ∃ after, texts.forM (record level) session = .ok () after := by
  induction texts generalizing session with
  | nil => exact ⟨session, rfl⟩
  | cons text texts ih =>
      obtain ⟨mid, hrecord, _⟩ := SymM.record_ends level text session
      obtain ⟨after, hrest⟩ := ih mid
      exact ⟨after, (SymM.bind_of_ok hrecord).trans hrest⟩

theorem dump_endsIff (arch : Architecture) (machine : Machine)
    (session : Session) :
    SymM.EndsIff machine.memory.Listable (machine.dump arch) session := by
  rcases machine.memory.entries_cases with ⟨hlistable, entries,
    hentries⟩ | ⟨hlast, herror⟩
  · obtain ⟨lines, hlines⟩ : ∃ lines, machine.lines arch = .ok lines := by
      rw [Machine.lines, hentries]
      exact ⟨_, rfl⟩
    obtain ⟨after, hrecord⟩ := forM_record_ends .info lines session
    have hdump : machine.dump arch session =
        .ok ("\n".intercalate lines) after := by
      rw [dump, hlines]
      exact SymM.bind_of_ok hrecord
    exact (SymM.endsIff_of_ok hdump).mpr hlistable
  · have hlines : machine.lines arch = .error .offsetOverflow := by
      rw [Machine.lines, herror]
      rfl
    have hdump : machine.dump arch session =
        .error .offsetOverflow session := by
      rw [dump, hlines]
      rfl
    exact (SymM.endsIff_of_error hdump).mpr ⟨rfl, hlast⟩

end Machine

/-! ## Runs -/

/--
Along the run of a block from a machine, every access keeps to the offsets of
the region that it goes to, and every store ends before the last of them.
-/
def OffsetsFit (arch : Architecture) (machine : Machine) :
    Block → Session → Prop
  | [], _ => True
  | instr :: block, session =>
      machine.AccessInside arch instr session ∧
        machine.StoreListable arch instr session ∧
        ∀ next after, machine.execute arch instr session = .ok next after →
          OffsetsFit arch next block after

namespace Replay

variable {arch : Architecture} {arena : Arena} {machine : Machine}
  {session last : Session}

def machines (replay : Replay) : List Machine :=
  replay.states ++ [replay.final]

theorem runFrom_cons_ok {instr : Instr} {block : Block} {replay : Replay} :
    runFrom arch machine (instr :: block) session = .ok replay last ↔
      ∃ next mid rest, machine.execute arch instr session = .ok next mid ∧
        runFrom arch next block mid = .ok rest last ∧
        replay = { rest with states := machine :: rest.states } := by
  constructor
  · intro hrun
    obtain ⟨next, mid, hexecute, hrest⟩ := SymM.bind_eq_ok.mp hrun
    obtain ⟨rest, _, hrest, hreplay⟩ := SymM.bind_eq_ok.mp hrest
    cases hreplay
    exact ⟨next, mid, rest, hexecute, hrest, rfl⟩
  · rintro ⟨next, mid, rest, hexecute, hrest, rfl⟩
    exact SymM.bind_eq_ok.mpr ⟨next, mid, hexecute,
      SymM.bind_eq_ok.mpr ⟨rest, last, hrest, rfl⟩⟩

private theorem first_mem_machines {block : Block} {replay : Replay}
    (hrun : runFrom arch machine block session = .ok replay last) :
    machine ∈ replay.machines := by
  cases block with
  | nil =>
      cases hrun
      exact List.mem_singleton.mpr rfl
  | cons instr block =>
      obtain ⟨next, mid, rest, _, _, rfl⟩ := runFrom_cons_ok.mp hrun
      exact List.mem_cons_self

private theorem runFrom_stops {block : Block}
    (hnode : session.nextNode = arena.length)
    (hmachine : machine.WellFormed arch arena session.nextVar) :
    SymM.Yields (· = .offsetOverflow) (runFrom arch machine block) session arena
      fun _ _ _ => True := by
  induction block generalizing machine session arena with
  | nil => exact SymM.yields_pure hnode trivial
  | cons instr block ih =>
      apply (Machine.execute_yields instr hnode hmachine).bind
      intro mid later next _ hmid hnext
      apply (ih hmid hnext.2.1).bind
      intro last final rest _ hlast _
      exact SymM.yields_pure hlast trivial

private theorem runFrom_completes_iff {block : Block}
    (hnode : session.nextNode = arena.length)
    (hmachine : machine.WellFormed arch arena session.nextVar)
    (hseparated : machine.memory.Separated)
    (hlistable : machine.memory.Listable) :
    (∃ replay last, runFrom arch machine block session = .ok replay last ∧
      ∀ state ∈ replay.machines, state.memory.Listable) ↔
        OffsetsFit arch machine block session := by
  induction block generalizing machine session arena with
  | nil =>
      exact iff_of_true ⟨⟨[], machine⟩, session, rfl, by simpa [machines]⟩
        trivial
  | cons instr block ih =>
      have hends :=
        (Machine.execute_endsIff instr hnode hmachine hseparated).exists_ok_iff
      have hstep : ∀ {next mid},
          machine.execute arch instr session = .ok next mid →
          (next.memory.Listable ↔ machine.StoreListable arch instr session) ∧
          (next.memory.Listable →
            ((∃ rest last, runFrom arch next block mid = .ok rest last ∧
            ∀ state ∈ rest.machines,
            state.memory.Listable) ↔ OffsetsFit arch next block mid)) := by
        intro next mid hexecute
        obtain ⟨later, _, hmid, _, hnext, _⟩ :=
          (Machine.execute_yields instr hnode hmachine).of_ok hexecute
        obtain ⟨hapart, hiff⟩ :=
          Machine.execute_memory hnode hmachine hseparated hexecute
        exact ⟨hiff hlistable, ih hmid hnext hapart⟩
      constructor
      · rintro ⟨replay, last, hrun, hall⟩
        obtain ⟨next, mid, rest, hexecute, hrest, rfl⟩ :=
          runFrom_cons_ok.mp hrun
        have hstates : ∀ state ∈ rest.machines, state.memory.Listable :=
          fun state hstate => hall state (List.mem_cons_of_mem _ hstate)
        have hnext := hstates next (first_mem_machines hrest)
        obtain ⟨hiff, hblock⟩ := hstep hexecute
        refine ⟨hends.mp ⟨next, mid, hexecute⟩, hiff.mp hnext, ?_⟩
        intro other after hother
        rw [hexecute] at hother
        cases hother
        exact (hblock hnext).mp ⟨rest, last, hrest, hstates⟩
      · rintro ⟨hinside, hstore, hall⟩
        obtain ⟨next, mid, hexecute⟩ := hends.mpr hinside
        obtain ⟨hiff, hblock⟩ := hstep hexecute
        obtain ⟨rest, last, hrest, hstates⟩ :=
          (hblock (hiff.mpr hstore)).mpr (hall next mid hexecute)
        refine ⟨_, last, runFrom_cons_ok.mpr ⟨next, mid, rest, hexecute, hrest,
          rfl⟩, ?_⟩
        intro state hstate
        rcases List.mem_cons.mp hstate with rfl | hstate
        · exact hlistable
        · exact hstates state hstate

private theorem dumps_iff_listable (arch : Architecture) (replay : Replay) :
    (∀ index machine, replay.state? index = some machine → ∀ now, ∃ text after,
        machine.dump arch now = .ok text after) ↔
      ∀ state ∈ replay.machines, state.memory.Listable := by
  constructor
  · intro hdumps state hstate
    obtain ⟨index, hindex⟩ := List.getElem?_of_mem hstate
    exact (state.dump_endsIff arch {}).exists_ok_iff.mp
      (hdumps index state hindex {})
  · intro hlistable index machine hstate now
    have hmem : machine ∈ replay.machines := List.mem_of_getElem? hstate
    exact (machine.dump_endsIff arch now).exists_ok_iff.mpr
      (hlistable machine hmem)

/--
A replay completes, and every state of it can be listed, exactly if the offsets
of its accesses fit.  Nothing else can stop it.
-/
theorem completes_iff_offsets_fit (arch : Architecture) (block : Block)
    (session : Session) :
    ((∃ replay last, run arch block session = .ok replay last ∧
        ∀ index machine, replay.state? index = some machine →
          ∀ now, ∃ text after, machine.dump arch now = .ok text after) ↔
      OffsetsFit arch {} block session) ∧
    (∀ fault last, run arch block session = .error fault last →
      fault = .offsetOverflow) ∧
    ∀ (machine : Machine) now fault after,
      machine.dump arch now = .error fault after → fault = .offsetOverflow := by
  obtain ⟨arena, hnode⟩ := SymM.exists_arena session
  have hnew : ({} : Machine).WellFormed arch arena session.nextVar :=
    Machine.wellFormed_new
  refine ⟨?_, ?_, ?_⟩
  · simp only [dumps_iff_listable]
    exact runFrom_completes_iff hnode hnew .nil
      fun _ h => absurd h List.not_mem_nil
  · intro fault last hrun
    exact (runFrom_stops hnode hnew).of_error hrun
  · intro machine now fault after hdump
    exact (machine.dump_endsIff arch now).fault_eq hdump

/-! ## The end of the offsets -/

private theorem byte_inside : 0 < 8 ∧ 8 ≤ 64 := by decide

def accessLast (access : Immediate → Instr) : Block :=
  let rax : RegisterSlice := ⟨⟨1⟩, 0, 64, by decide, by decide⟩
  [.move .zero rax (.immediate ⟨0, 64, by decide⟩),
    .store rax ⟨0, 64, by decide⟩ (.immediate ⟨1, 8, byte_inside⟩),
    access ⟨0x7fffffffffffffff, 64, by decide⟩]

/--
Eight bytes from the last offset on cannot be loaded.  A byte can be stored
there, but then the state cannot be listed.
-/
theorem last_offset_not_replayed_or_listed :
    let rax : RegisterSlice := ⟨⟨1⟩, 0, 64, by decide, by decide⟩
    let rbx : RegisterSlice := ⟨⟨6⟩, 0, 64, by decide, by decide⟩
    (∃ last, run Amd64.standard (accessLast (.load rbx rax)) {} =
      .error .offsetOverflow last) ∧
      ∃ replay last after,
        run Amd64.standard
          (accessLast (.store rax · (.immediate ⟨2, 8, by decide⟩))) {} =
            .ok replay last ∧
        replay.final.dump Amd64.standard last =
          .error .offsetOverflow after := by
  intro rax rbx
  constructor
  · have hstops : SymM.stopsWith
        (run Amd64.standard (accessLast (.load rbx rax))) {} .offsetOverflow =
          true := by
      decide +kernel
    exact SymM.exists_error_of_stopsWith hstops
  · have hends : SymM.endsWith
        (run Amd64.standard
          (accessLast (.store rax · (.immediate ⟨2, 8, by decide⟩)))) {}
        (fun replay last => SymM.stopsWith (replay.final.dump Amd64.standard)
          last .offsetOverflow) = true := by
      decide +kernel
    obtain ⟨replay, last, hrun, hstops⟩ := SymM.exists_ok_of_endsWith hends
    obtain ⟨after, hdump⟩ := SymM.exists_error_of_stopsWith hstops
    exact ⟨replay, last, after, hrun, hdump⟩

end Replay

end SymbolicMachine
