import SymbolicMachine.Proofs.Machine.Spill

/-!
# Registers at constant distances

Copies of full registers, and constants added to them or subtracted from them,
never leave the initial registers: each register is one of these plus a number
modulo `2 ^ 64`.  A pointer from a register knows both.  Its base is the initial
word as it was, its displacement is the number, and registers that go back to
one initial register are at a known distance.
-/

namespace SymbolicMachine

/-! ## The reference -/

structure Origin where
  source : RegisterId
  net : UInt64
  deriving DecidableEq, Repr

inductive Adjustment where
  | copy (target source : RegisterId)
  | add (target : RegisterId) (constant : Immediate)
  | sub (target : RegisterId) (constant : Immediate)
  deriving DecidableEq, Repr

namespace Adjustment

def instr : Adjustment → Instr
  | .copy target source => .move .zero (.full target) (.register (.full source))
  | .add target constant => .binary .add (.full target) (.immediate constant)
  | .sub target constant => .binary .sub (.full target) (.immediate constant)

def target : Adjustment → RegisterId
  | .copy target _ => target
  | .add target _ => target
  | .sub target _ => target

def origin (origins : RegisterId → Origin) : Adjustment → Origin
  | .copy _ source => origins source
  | .add target constant =>
      { origins target with net := (origins target).net + constant.unsigned }
  | .sub target constant =>
      { origins target with net := (origins target).net - constant.unsigned }

def track (origins : RegisterId → Origin) (step : Adjustment) : RegisterId →
    Origin :=
  fun id => if id = step.target then step.origin origins else origins id

end Adjustment

/--
The origins of all registers after some adjustments, the first of which comes
first.
-/
def Origin.after (steps : List Adjustment) : RegisterId → Origin :=
  steps.foldl Adjustment.track fun id => ⟨id, 0⟩

/-! ## Pointers from initial registers -/

private theorem Pointer.ofWord_initial (arch : Architecture) (id : RegisterId) :
    ofWord arch (RegisterSlice.full id).initial =
      ⟨(RegisterSlice.full id).initial, 0,
        restrictOf arch (RegisterSlice.full id).initial⟩ :=
  ofWord_of_open (Word.width_ofTag _ _ _) rfl

namespace Machine

variable {arch : Architecture} {arena : Arena} {machine next : Machine}
  {session last : Session} {origins : RegisterId → Origin}

def Tracks (arch : Architecture) (machine : Machine)
    (origins : RegisterId → Origin) : Prop :=
  ∀ id, Pointer.ofWord arch (machine.readRegister (.full id)) =
    (Pointer.ofWord arch
      (RegisterSlice.full (origins id).source).initial).displace
      (origins id).net.toInt64

private theorem tracks_new : ({} : Machine).Tracks arch fun id => ⟨id, 0⟩ := by
  intro id
  have hread : ({} : Machine).readRegister (.full id) =
      (RegisterSlice.full id).initial := by
    simp only [readRegister, Std.TreeMap.getElem?_emptyc]
  rw [hread]
  exact (Pointer.displace_zero _).symm

/-! ## One adjustment -/

private theorem readRegister_of_copy {target source : RegisterId}
    (hrun : machine.execute arch (Adjustment.copy target source).instr session =
      .ok next last) :
    next.readRegister (.full target) = machine.readRegister (.full source) := by
  obtain ⟨start, hrecord, _⟩ := SymM.record_ends .debug _ session
  have hwidth : (machine.readRegister (.full source)).width = registerWidth :=
    machine.width_readRegister _
  have hcut : Extension.zero.resize
      (machine.readOperand (.register (.full source)))
        (RegisterSlice.full target).count =
          machine.readRegister (.full source) :=
    Word.resize_of_width hwidth
  have hwrite : machine.writeRegister arch (.full target)
      (machine.readRegister (.full source)) start = .ok next last := by
    rw [← hcut]
    exact (SymM.bind_of_ok hrecord).symm.trans hrun
  exact readRegister_writeRegister_full hwidth hwrite

theorem Tracks.execute {step : Adjustment} (h : machine.Tracks arch origins)
    (hnode : session.nextNode = arena.length)
    (hmachine : machine.WellFormed arch arena session.nextVar)
    (hrun : machine.execute arch step.instr session = .ok next last) :
    next.Tracks arch (step.track origins) := by
  intro id
  unfold Adjustment.track
  by_cases hid : id = step.target
  · rw [if_pos hid, hid]
    cases step with
    | copy target source =>
        rw [Adjustment.target, readRegister_of_copy hrun]
        exact h source
    | add target constant =>
        rw [Adjustment.target,
          ofWord_of_adjusts (.add constant) hnode hmachine hrun, h target,
          Pointer.displace_displace, ← UInt64.toInt64_add]
        rfl
    | sub target constant =>
        rw [Adjustment.target,
          ofWord_of_adjusts (.sub constant) hnode hmachine hrun, h target,
          Pointer.displace_displace, ← UInt64.toInt64_add,
          ← UInt64.sub_eq_add_neg]
        rfl
  · obtain ⟨_, _, _, _, _, hperformed⟩ :=
      (execute_yields step.instr hnode hmachine).of_ok hrun
    rw [if_neg hid, hperformed.readRegister_of_target]
    · exact h id
    · intro target htarget
      cases step <;> cases htarget <;> exact hid

/-! ## Runs of adjustments -/

private theorem Tracks.executeAll (steps : List Adjustment)
    (h : machine.Tracks arch origins) (hnode : session.nextNode = arena.length)
    (hmachine : machine.WellFormed arch arena session.nextVar) :
    ∃ final last, (steps.map Adjustment.instr).foldlM (Machine.execute arch)
      machine session =
        .ok final last ∧
      final.Tracks arch (steps.foldl Adjustment.track origins) := by
  induction steps generalizing machine session arena origins with
  | nil => exact ⟨machine, session, rfl, h⟩
  | cons step steps ih =>
      have hmemory : step.instr.memoryAccess? = none := by
        cases step <;> rfl
      obtain ⟨next, mid, _, hrun, _⟩ := execute_ends hmemory hnode hmachine
      obtain ⟨later, _, hmid, _, hnext, _⟩ :=
        (execute_yields step.instr hnode hmachine).of_ok hrun
      obtain ⟨final, last, hrest, hfinal⟩ :=
        ih (h.execute hnode hmachine hrun) hmid hnext
      refine ⟨final, last, ?_, hfinal⟩
      rw [List.map_cons, List.foldlM_cons]
      exact (SymM.bind_of_ok hrun).trans hrest

end Machine

/--
Constant adjustments are tracked exactly.  They never stop, and after them a
pointer from a full register has for its base the very word of the initial
register that the reference names, and is displaced by the net number of bytes,
modulo `2 ^ 64`.  So two registers with one source are at the distance of their
net numbers.
-/
theorem constant_adjustments_tracked (arch : Architecture) (session : Session)
    (steps : List Adjustment) :
    ∃ machine last,
      (steps.map Adjustment.instr).foldlM (Machine.execute arch) {} session =
        .ok machine last ∧
      ∀ r d,
        (machine.pointer arch (.full r) d).base =
          (RegisterSlice.full (Origin.after steps r).source).initial ∧
        (machine.pointer arch (.full r) d).displacement =
          (Origin.after steps r).net.toInt64 + d ∧
        ∀ r' d',
          (Origin.after steps r).source = (Origin.after steps r').source →
          ∀ now,
          (machine.pointer arch (.full r) d).difference
            (machine.pointer arch (.full r') d') now =
            .ok (some ((Origin.after steps r).net.toInt64 + d -
              ((Origin.after steps r').net.toInt64 + d'))) now := by
  obtain ⟨arena, hnode⟩ := SymM.exists_arena session
  obtain ⟨machine, last, hrun, htracks⟩ :=
    Machine.tracks_new.executeAll steps hnode Machine.wellFormed_new
  have hpointer : ∀ r d,
      (machine.pointer arch (.full r) d).base =
        (RegisterSlice.full (Origin.after steps r).source).initial ∧
      (machine.pointer arch (.full r) d).displacement =
        (Origin.after steps r).net.toInt64 + d := by
    intro r d
    rw [Machine.pointer, htracks r, Pointer.ofWord_initial,
      Pointer.displace_displace]
    exact ⟨rfl, Int64.zero_add _⟩
  refine ⟨machine, last, hrun, fun r d => ⟨(hpointer r d).1, (hpointer r d).2,
    ?_⟩⟩
  intro r' d' hsource now
  have hbase : (machine.pointer arch (.full r) d).base =
      (machine.pointer arch (.full r') d').base := by
    rw [(hpointer r d).1, (hpointer r' d').1, hsource]
  rw [Pointer.difference_of_base_eq hbase, (hpointer r d).2, (hpointer r' d').2]

theorem constant_adjustments_tracked_frame_pointer :
    let steps : List Adjustment := [.copy Amd64.rbp Amd64.rsp,
      .sub Amd64.rsp ⟨0x28, 8, by decide⟩, .add Amd64.rbp ⟨0xf8, 8, by decide⟩]
    Origin.after steps Amd64.rsp = ⟨Amd64.rsp, -0x28⟩ ∧
      Origin.after steps Amd64.rbp = ⟨Amd64.rsp, 0xf8⟩ ∧
      ∃ machine last,
        (steps.map Adjustment.instr).foldlM (Machine.execute Amd64.standard)
          {} {} = .ok machine last ∧
        (machine.pointer Amd64.standard (.full Amd64.rbp) 0).base =
          (RegisterSlice.full Amd64.rsp).initial ∧
        ∀ now, (machine.pointer Amd64.standard (.full Amd64.rsp) 4).difference
          (machine.pointer Amd64.standard (.full Amd64.rbp) 0) now =
            .ok (some (-0x11c)) now := by
  intro steps
  obtain ⟨machine, last, hrun, htracked⟩ :=
    constant_adjustments_tracked Amd64.standard {} steps
  have hnumber : (Origin.after steps Amd64.rsp).net.toInt64 + 4 -
      ((Origin.after steps Amd64.rbp).net.toInt64 + 0) = -0x11c := by
    decide
  refine ⟨by decide, by decide, machine, last, hrun, (htracked Amd64.rbp 0).1,
    fun now => ?_⟩
  rw [(htracked Amd64.rsp 4).2.2 Amd64.rbp 0 (by decide), hnumber]

end SymbolicMachine
