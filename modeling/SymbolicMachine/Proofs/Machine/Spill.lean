import SymbolicMachine.Proofs.Access.Registers
import SymbolicMachine.Proofs.Machine.Completion
import SymbolicMachine.Proofs.Machine.ReadBack
import SymbolicMachine.Proofs.Machine.RegisterFile
import SymbolicMachine.Proofs.Word.Literals

/-!
# Spilling and restoring a register

Constants that are added to an address go to the displacement of the pointer to
it, and its base stays the very same word.  So a register that moves by
constants only, like a stack pointer, leads back to what was stored relative to
it, and a load restores the bits of a register that was stored.
-/

namespace SymbolicMachine

variable {arch : Architecture} {arena : Arena} {vars : Var → Prop}
  {session after : Session}

/-! ## Adding a constant -/

namespace Word

theorem toUInt64?_of_value {w : Word} {x : UInt64}
    (hliteral : w.allLiteral = true)
    (hvalue : ∀ valuation, w.value valuation = x.toNat) :
    w.toUInt64? = some x := by
  have hlt : w.value (fun _ => false) < 2 ^ 64 := hvalue _ ▸ x.toNat_lt
  obtain ⟨y, hy⟩ := toUInt64?_of_literal (allLiteral_iff.mp hliteral) hlt
  have hsame : y.toNat = x.toNat :=
    ((toUInt64?_eq_some hy).2 fun _ => false).symm.trans (hvalue _)
  rw [hy, UInt64.toNat_inj.mp hsame]

theorem allLiteral_eq_false_of_open {w : Word} (hwidth : w.width ≤ 64)
    (hopen : w.toUInt64? = none) : w.allLiteral = false := by
  by_contra hliteral
  rw [Bool.not_eq_false] at hliteral
  have hlt : w.value (fun _ => false) < 2 ^ 64 :=
    lt_of_lt_of_le (w.value_lt _) (Nat.pow_le_pow_right (by decide) hwidth)
  obtain ⟨x, hx⟩ := toUInt64?_of_literal (allLiteral_iff.mp hliteral) hlt
  rw [hx] at hopen
  cases hopen

private theorem add_eq_ok {a b w : Word}
    (hrun : a.add b session = .ok w after) :
    w = ofSum a b w.bits := by
  by_cases hwidth : a.width = b.width
  · simp only [Word.add, requireSameWidth, hwidth, if_true, pure_bind] at hrun
    cases hrun
    rw [bits_ofSum]
  · simp only [Word.add, requireSameWidth, hwidth, if_false] at hrun
    cases hrun

private theorem sub_eq_ok {a b w : Word}
    (hrun : a.sub b session = .ok w after) :
    ∃ negated mid,
      b.neg session = .ok negated mid ∧ a.add negated mid = .ok w after := by
  obtain ⟨_, start, hrequire, hrest⟩ := SymM.bind_eq_ok.mp hrun
  have hstart : start = session := by
    unfold requireSameWidth at hrequire
    split at hrequire <;> cases hrequire
    rfl
  rw [hstart] at hrest
  exact SymM.bind_eq_ok.mp hrest

theorem Negated.toUInt64?_eq {w c : Word} {x : UInt64} (h : Negated arena w c)
    (hwidth : w.width = 64) (hx : w.toUInt64? = some x) :
    c.toUInt64? = some (-x) := by
  obtain ⟨hliteral, hvalue⟩ := toUInt64?_eq_some hx
  apply toUInt64?_of_value (h.allLiteral (allLiteral_iff.mpr hliteral))
  intro valuation
  calc
    c.value valuation
        = (2 ^ 64 - x.toNat) % 2 ^ 64 := by rw [h.value_eq, hvalue, hwidth]
    _ = (-x).toNat := (UInt64.toNat_neg x).symm

theorem Added.toUInt64?_eq {a b w : Word} {carry : Bit} {x y : UInt64}
    (h : Added arena a.bits b.bits w.bits carry) (hwidth : a.width = 64)
    (hx : a.toUInt64? = some x) (hy : b.toUInt64? = some y) :
    w.toUInt64? = some (x + y) := by
  obtain ⟨haliteral, havalue⟩ := toUInt64?_eq_some hx
  obtain ⟨hbliteral, hbvalue⟩ := toUInt64?_eq_some hy
  have hliteral :=
    h.allLiteral (allLiteral_iff.mpr haliteral) (allLiteral_iff.mpr hbliteral)
  apply toUInt64?_of_value hliteral.1
  intro valuation
  calc
    w.value valuation = (x.toNat + y.toNat) % 2 ^ 64 := by
      rw [h.value_eq, havalue, hbvalue, hwidth]
    _ = (x + y).toNat := (UInt64.toNat_add x y).symm

private theorem Added.toUInt64?_eq_none {a b w : Word} {carry : Bit}
    {y : UInt64} (h : Added arena a.bits b.bits w.bits carry)
    (ha : a.WellFormed arena vars) (hwidth : a.width ≤ 64)
    (hopen : a.toUInt64? = none) (hy : b.toUInt64? = some y) :
    w.toUInt64? = none := by
  cases hw : w.toUInt64? with
  | none => rfl
  | some x =>
      have hliteral :=
        h.allLiteral_left ha (allLiteral_iff.mpr (toUInt64?_eq_some hy).1)
          (allLiteral_iff.mpr (toUInt64?_eq_some hw).1)
      rw [allLiteral_eq_false_of_open hwidth hopen] at hliteral
      cases hliteral

private theorem addendOf_eq (operand : Word) (value : UInt64) {sum : List Bit}
    (hwide : 64 ≤ sum.length) :
    addendOf operand value sum = ⟨(operand.splitAddend?.getD (operand, 0)).1,
      (operand.splitAddend?.getD (operand, 0)).2 + value, sum⟩ := by
  have hkeep : ∀ total, truncateValue total sum.length = total := by
    intro total
    rw [truncateValue, if_neg (not_lt.mpr hwide)]
  unfold addendOf
  cases operand.splitAddend? with
  | none => simp [hkeep]
  | some split => simp [hkeep]

private theorem splitAddend?_ofSum {a b : Word} {x : UInt64} {sum : List Bit}
    (ha : a.toUInt64? = none) (hb : b.toUInt64? = some x) :
    (ofSum a b sum).splitAddend? =
      some ((addendOf a x sum).base, (addendOf a x sum).value) := by
  have hsame : identicalBits sum sum = true := (ofBits sum).identical_self
  have hrecord : ofSum a b sum = ⟨sum, some (addendOf a x sum)⟩ := by
    simp only [ofSum, ha, hb]
  rw [hrecord]
  exact if_pos hsame

end Word

namespace Pointer

theorem ofWord_of_open {w : Word} (hwidth : w.width = addressWidth)
    (hopen : w.toUInt64? = none) :
    ofWord arch w = ⟨(w.splitAddend?.getD (w, 0)).1,
      (w.splitAddend?.getD (w, 0)).2.toInt64,
      restrictOf arch (w.splitAddend?.getD (w, 0)).1⟩ := by
  unfold ofWord
  simp only [Word.resize_of_width hwidth, hopen]

theorem ofWord_of_concrete {w : Word} {x : UInt64}
    (hwidth : w.width = addressWidth) (hvalue : w.toUInt64? = some x) :
    ofWord arch w = constant x := by
  unfold ofWord
  simp only [Word.resize_of_width hwidth, hvalue]

theorem ofWord_add {w k sum : Word} {x : UInt64}
    (hnode : session.nextNode = arena.length) (hw : w.WellFormed arena vars)
    (hk : k.WellFormed arena vars) (hwidth : w.width = addressWidth)
    (hkwidth : k.width = addressWidth) (hx : k.toUInt64? = some x)
    (hrun : w.add k session = .ok sum after) : sum.width = addressWidth ∧
      ofWord arch sum = (ofWord arch w).displace x.toInt64 := by
  have hadd : SymM.Yields (fun _ => False) (w.add k) session arena _ :=
    Word.add_yields hnode hw hk (hwidth.trans hkwidth.symm)
  obtain ⟨later, hle, _, _, _, carry, hadded⟩ := hadd.of_ok hrun
  have hsumWidth : sum.width = addressWidth := hadded.width_eq.trans hwidth
  refine ⟨hsumWidth, ?_⟩
  cases hconcrete : w.toUInt64? with
  | some y =>
      have hsum := hadded.toUInt64?_eq hwidth hconcrete hx
      rw [ofWord_of_concrete hsumWidth hsum,
        ofWord_of_concrete hwidth hconcrete]
      simp only [constant, displace, UInt64.toInt64_add]
  | none =>
      have hopen :=
        hadded.toUInt64?_eq_none (hw.mono hle) hwidth.le hconcrete hx
      have hsplit : sum.splitAddend? = some ((w.splitAddend?.getD (w, 0)).1,
          (w.splitAddend?.getD (w, 0)).2 + x) := by
        have hlength : 64 ≤ sum.bits.length := hsumWidth.ge
        rw [Word.add_eq_ok hrun, Word.splitAddend?_ofSum hconcrete hx,
          Word.addendOf_eq w x hlength]
      rw [ofWord_of_open hsumWidth hopen, ofWord_of_open hwidth hconcrete,
        hsplit]
      simp only [Option.getD_some, displace, UInt64.toInt64_add]

end Pointer

/-! ## Moving a register -/

def Immediate.unsigned (immediate : Immediate) : UInt64 :=
  .ofNat (immediate.value.toNat % 2 ^ immediate.width)

private theorem Immediate.toNat_unsigned (immediate : Immediate) :
    immediate.unsigned.toNat = immediate.value.toNat % 2 ^ immediate.width := by
  have hlt : immediate.value.toNat % 2 ^ immediate.width < 2 ^ 64 :=
    lt_of_le_of_lt (Nat.mod_le _ _) immediate.value.toNat_lt
  rw [unsigned, UInt64.toNat_ofNat', Nat.mod_eq_of_lt hlt]

private theorem Immediate.toUInt64?_resize_word (immediate : Immediate) :
    (immediate.word.resize registerWidth).toUInt64? =
      some immediate.unsigned := by
  have hclosed : (immediate.word.resize registerWidth).WellFormed []
      fun _ => False :=
    (Word.constant_wellFormed _ _).resize registerWidth
  apply Word.toUInt64?_of_value hclosed.allLiteral
  intro valuation
  have hlt := immediate.unsigned.toNat_lt
  rw [toNat_unsigned] at hlt
  rw [Word.value_resize, word, Word.value_constant, toNat_unsigned]
  exact Nat.mod_eq_of_lt hlt

inductive Instr.Adjusts (base : RegisterId) : Instr → UInt64 → Prop
  | add (constant : Immediate) :
      Adjusts base (.binary .add (.full base) (.immediate constant))
        constant.unsigned
  | sub (constant : Immediate) :
      Adjusts base (.binary .sub (.full base) (.immediate constant))
        (-constant.unsigned)

private theorem Instr.Adjusts.not_write {base : RegisterId} {instr : Instr}
    {amount : UInt64} (h : instr.Adjusts base amount) :
    instr.memoryAccess? ≠ some .write := by
  intro hwrite
  cases h <;> cases hwrite

namespace Machine

variable {machine next : Machine} {base : RegisterId} {last : Session}

theorem newSlot_full {value : Word} (hwidth : value.width = registerWidth) :
    newSlot arch machine (.full base) value = pure value := by
  have hfull : (RegisterSlice.full base).isFull = true := by
    simp [RegisterSlice.isFull, RegisterSlice.full]
  have hcut : value.resize (RegisterSlice.full base).count = value :=
    Word.resize_of_width hwidth
  rw [newSlot, if_pos (.inl hfull), hcut, Word.resize_of_width hwidth]

theorem readRegister_writeRegister_full {value : Word}
    (hwidth : value.width = registerWidth)
    (hrun : machine.writeRegister arch (.full base) value session =
      .ok next last) :
    next.readRegister (.full base) = value := by
  obtain ⟨mid, slot, _, hslot, rfl⟩ := writeRegister_eq_ok hrun
  rw [newSlot_full hwidth] at hslot
  cases hslot
  exact readRegister_full Std.TreeMap.getElem?_insert_self hwidth

private theorem execute_binary_eq_ok {op : BinaryOp} {target : RegisterSlice}
    {source : Operand}
    (hrun : machine.execute arch (.binary op target source) session =
      .ok next last) :
    ∃ start mid value, start.nextNode = session.nextNode ∧
      op.apply (machine.readRegister target) (machine.readOperand source)
        start = .ok value mid ∧
      machine.writeRegister arch target value mid = .ok next last := by
  obtain ⟨start, hrecord, hnodes, _⟩ := SymM.record_ends .debug _ session
  have hperform := (SymM.bind_of_ok hrecord).symm.trans hrun
  obtain ⟨value, mid, happly, hwrite⟩ := SymM.bind_eq_ok.mp hperform
  exact ⟨start, mid, value, hnodes, happly, hwrite⟩

private theorem exists_add_of_adjusts {instr : Instr} {amount : UInt64}
    (h : instr.Adjusts base amount) (hnode : session.nextNode = arena.length)
    (hrun : machine.execute arch instr session = .ok next last) :
    ∃ start mid later sum k, start.nextNode = later.length ∧ arena <+: later ∧
      k.WellFormed later (Issued session.nextVar) ∧ k.width = registerWidth ∧
      k.toUInt64? = some amount ∧
      (machine.readRegister (.full base)).add k start = .ok sum mid ∧
      machine.writeRegister arch (.full base) sum mid = .ok next last := by
  have hleft : (machine.readRegister (.full base)).width = registerWidth :=
    machine.width_readRegister _
  have hoperand : ∀ constant : Immediate,
      (constant.word.resize registerWidth).WellFormed arena
        (Issued session.nextVar) :=
    fun constant => (Word.constant_wellFormed _ _).resize _
  cases h with
  | add constant =>
      obtain ⟨start, mid, sum, hstart, hadd, hwrite⟩ :=
        execute_binary_eq_ok hrun
      simp only [BinaryOp.apply, hleft] at hadd
      exact ⟨start, mid, arena, sum, _, hstart.trans hnode, List.prefix_rfl,
        hoperand constant, Word.width_resize _ _,
        constant.toUInt64?_resize_word, hadd, hwrite⟩
  | sub constant =>
      obtain ⟨start, mid, sum, hstart, hsub, hwrite⟩ :=
        execute_binary_eq_ok hrun
      simp only [BinaryOp.apply, hleft] at hsub
      obtain ⟨negated, half, hneg, hadd⟩ := Word.sub_eq_ok hsub
      have hyields : SymM.Yields (fun _ => False)
          (constant.word.resize registerWidth).neg start arena _ :=
        Word.neg_yields (hstart.trans hnode) (hoperand constant)
      obtain ⟨later, hle, hhalf, _, hnegated, hmeaning⟩ := hyields.of_ok hneg
      have hwidth := Word.width_resize constant.word registerWidth
      exact ⟨half, mid, later, sum, negated, hhalf, hle, hnegated,
        hmeaning.width_eq.trans hwidth,
        hmeaning.toUInt64?_eq hwidth constant.toUInt64?_resize_word, hadd,
        hwrite⟩

theorem ofWord_of_adjusts {instr : Instr} {amount : UInt64}
    (h : instr.Adjusts base amount) (hnode : session.nextNode = arena.length)
    (hmachine : machine.WellFormed arch arena session.nextVar)
    (hrun : machine.execute arch instr session = .ok next last) :
    Pointer.ofWord arch (next.readRegister (.full base)) =
      (Pointer.ofWord arch (machine.readRegister (.full base))).displace
        amount.toInt64 := by
  obtain ⟨start, mid, later, sum, k, hstart, hle, hk, hkwidth, hamount, hadd,
    hwrite⟩ :=
    exists_add_of_adjusts h hnode hrun
  have hleft : (machine.readRegister (.full base)).width = registerWidth :=
    machine.width_readRegister _
  have hword := (hmachine.readRegister (.full base)).mono hle
  obtain ⟨hwidth, hpointer⟩ :=
    Pointer.ofWord_add hstart hword hk hleft hkwidth hamount hadd
  rw [readRegister_writeRegister_full hwidth hwrite]
  exact hpointer

/--
A run that stores nothing, and that changes a base register by adding and
subtracting constants only, which come to `total`.
-/
inductive Moves (arch : Architecture) (base : RegisterId) (machine : Machine)
    (session : Session) : UInt64 → Machine → Session → Prop
  | stay : Moves arch base machine session 0 machine session
  | keep {total : UInt64} {now next : Machine} {mid last : Session}
      {instr : Instr} :
      Moves arch base machine session total now mid →
      instr.memoryAccess? ≠ some .write →
      now.execute arch instr mid = .ok next last →
      next.readRegister (.full base) = now.readRegister (.full base) →
      Moves arch base machine session total next last
  | adjust {total amount : UInt64} {now next : Machine} {mid last : Session}
      {instr : Instr} :
      Moves arch base machine session total now mid →
      instr.Adjusts base amount →
      now.execute arch instr mid = .ok next last →
      Moves arch base machine session (total + amount) next last

theorem Performed.registers_of_target {first last : Nat} {instr : Instr}
    (h : Performed arch machine first last instr next) {key : RegisterSlice}
    (htarget : ∀ target, instr.target? = some target → key ≠ target.canonical) :
    next.registers[key]? = machine.registers[key]? := by
  cases hwritten : instr.target? with
  | none => rw [h.registers_eq hwritten]
  | some target =>
      obtain ⟨value, hplaced⟩ := h.placed hwritten
      exact hplaced.other _ (htarget target hwritten)

theorem Performed.readRegister_of_target {first last : Nat} {instr : Instr}
    (h : Performed arch machine first last instr next)
    (htarget : ∀ target, instr.target? = some target → base ≠ target.base) :
    next.readRegister (.full base) = machine.readRegister (.full base) := by
  apply readRegister_congr
  apply h.registers_of_target
  intro target hwritten heq
  exact htarget target hwritten (RegisterSlice.full_inj.mp heq)

theorem Reached.readRegister_of_target {pool : List Word}
    {machines : List Machine} (h : Reached arch session pool machines)
    (hmem : machine ∈ machines) {instr : Instr}
    (hrun : machine.execute arch instr session = .ok next last)
    (htarget : ∀ target, instr.target? = some target → base ≠ target.base) :
    next.readRegister (.full base) = machine.readRegister (.full base) :=
  (h.performed hmem hrun).readRegister_of_target htarget

theorem memory_eq_of_execute {instr : Instr}
    (hnode : session.nextNode = arena.length)
    (hmachine : machine.WellFormed arch arena session.nextVar)
    (hread : instr.memoryAccess? ≠ some .write)
    (hrun : machine.execute arch instr session = .ok next last) :
    ∃ later, arena <+: later ∧ last.nextNode = later.length ∧
      next.WellFormed arch later last.nextVar ∧
      next.memory = machine.memory := by
  obtain ⟨later, hle, hlast, _, hnext, hperformed⟩ :=
    (execute_yields instr hnode hmachine).of_ok hrun
  exact ⟨later, hle, hlast, hnext, hperformed.memory_eq hread⟩

private theorem Moves.displaces {total : UInt64}
    (h : Moves arch base machine session total next last)
    (hnode : session.nextNode = arena.length)
    (hmachine : machine.WellFormed arch arena session.nextVar) :
    ∃ later, arena <+: later ∧ last.nextNode = later.length ∧
      next.WellFormed arch later last.nextVar ∧ next.memory = machine.memory ∧
      Pointer.ofWord arch (next.readRegister (.full base)) =
        (Pointer.ofWord arch (machine.readRegister (.full base))).displace
          total.toInt64 := by
  induction h with
  | stay =>
      exact ⟨arena, List.prefix_rfl, hnode, hmachine, rfl,
        (Pointer.displace_zero _).symm⟩
  | keep _ hread hrun hbase ih =>
      obtain ⟨later, hle, hmid, hnow, hmemory, hpointer⟩ := ih
      obtain ⟨final, hle', hlast, hnext, hmemory'⟩ :=
        memory_eq_of_execute hmid hnow hread hrun
      exact ⟨final, hle.trans hle', hlast, hnext, hmemory'.trans hmemory,
        hbase ▸ hpointer⟩
  | adjust _ hadjusts hrun ih =>
      obtain ⟨later, hle, hmid, hnow, hmemory, hpointer⟩ := ih
      obtain ⟨final, hle', hlast, hnext, hmemory'⟩ :=
        memory_eq_of_execute hmid hnow hadjusts.not_write hrun
      refine ⟨final, hle.trans hle', hlast, hnext, hmemory'.trans hmemory, ?_⟩
      rw [ofWord_of_adjusts hadjusts hmid hnow hrun, hpointer,
        Pointer.displace_displace, UInt64.toInt64_add]

/-! ## Storing and loading -/

theorem writeMemory_eq_ok {pointer : Pointer} {value : Word}
    (hrun : machine.writeMemory arch pointer value session = .ok next last) :
    ∃ start memory, start.nextNode = session.nextNode ∧
      machine.memory.write pointer value.wholeBytes start = .ok memory last ∧
      next = { machine with memory } := by
  obtain ⟨start, hrecord, hstart, _⟩ := SymM.record_ends .trace _ session
  have hwrites := (SymM.bind_of_ok hrecord).symm.trans hrun
  obtain ⟨memory, _, hwrite, hnext⟩ := SymM.bind_eq_ok.mp hwrites
  cases hnext
  exact ⟨start, memory, hstart, hwrite, rfl⟩

theorem execute_store_eq_ok {pointed : RegisterSlice} {displacement : Immediate}
    {source : Operand}
    (hrun : machine.execute arch (.store pointed displacement source) session =
      .ok next last) :
    ∃ start memory, start.nextNode = session.nextNode ∧
      machine.memory.write (machine.pointer arch pointed displacement.signed)
        (machine.readOperand source).wholeBytes start = .ok memory last ∧
      next = { machine with memory } := by
  obtain ⟨mid, hrecord, hmid, _⟩ := SymM.record_ends .debug _ session
  have hperform := (SymM.bind_of_ok hrecord).symm.trans hrun
  obtain ⟨start, memory, hstart, hwrite, hnext⟩ := writeMemory_eq_ok hperform
  exact ⟨start, memory, hstart.trans hmid, hwrite, hnext⟩

private theorem execute_load {target pointed : RegisterSlice}
    {displacement : Immediate} {value : Word} (hzero : arch.ZeroExtendsAtStart)
    (hnode : session.nextNode = arena.length)
    (hmachine : machine.WellFormed arch arena session.nextVar)
    (hread : ∀ start, start.nextNode = session.nextNode → ∃ mid,
      machine.memory.read (machine.pointer arch pointed displacement.signed)
        (target.byteCount * 8) start = .ok (some value) mid) :
    ∃ next last,
      machine.execute arch (.load target pointed displacement) session =
        .ok next last ∧
      (next.readRegister target).SameExpressions
        (value.resize target.count) := by
  obtain ⟨start, hrecord, hstart, hvars⟩ := SymM.record_ends .debug _ session
  rw [← hstart] at hnode
  rw [← hvars] at hmachine
  obtain ⟨mid, hfound⟩ := hread start hstart
  have hbits : target.byteCount * 8 < UInt64.size := by
    have hcount := byteCount_le target
    rw [UInt64.size]
    omega
  have hload : machine.readMemory
      (machine.pointer arch pointed displacement.signed)
        target.byteCount start = .ok value mid := by
    unfold readMemory
    simp only [hbits, if_true]
    exact SymM.bind_of_ok hfound
  obtain ⟨later, hle, hmid, hvars', hvalue, _⟩ :=
    (readMemory_yields (byteCount_le target) hnode hmachine
      (hmachine.pointer pointed displacement.signed)).of_ok hload
  have hgrown := hmachine.grow hle hvars'
  obtain ⟨next, last, _, hwrite, _⟩ :=
    (writeRegister_yields (fun _ => False) target hmid hgrown hvalue).exists_ok
  refine ⟨next, last, ?_,
    readRegister_writeRegister hgrown hvalue (hzero target) hwrite⟩
  let pointer := machine.pointer arch pointed displacement.signed
  calc
    machine.execute arch (.load target pointed displacement) session
        = (machine.readMemory pointer target.byteCount >>=
            machine.writeRegister arch target) start := SymM.bind_of_ok hrecord
    _ = machine.writeRegister arch target value mid := SymM.bind_of_ok hload
    _ = .ok next last := hwrite

end Machine

private theorem Word.bits_resize_wholeBytes (w : Word) :
    ((ofBits w.wholeBytes.bits).resize w.width).bits = w.bits := by
  have hle : w.width ≤ w.byteCount * 8 := by
    rw [byteCount]
    omega
  have hwhole : (ofBits w.wholeBytes.bits).width = w.byteCount * 8 :=
    w.width_wholeBytes
  rw [bits_resize_of_le (by rw [hwhole]; exact hle)]
  simp only [ofBits, wholeBytes, resize, if_pos hle, zeroExtend, extendWith]
  exact List.take_left' rfl

/--
A register that was stored relative to a base register is restored by a load,
after any run that stores nothing and moves the base register by constants only.
The displacement of the load makes up for the total of these, modulo `2 ^ 64`.
The load does not stop.
-/
theorem restore_returns_spilled_register {arch : Architecture}
    (hzero : arch.ZeroExtendsAtStart) {session : Session} {pool : List Word}
    {machines : List Machine}
    (hreached : Machine.Reached arch session pool machines) {machine : Machine}
    (hmachine : machine ∈ machines) {base : RegisterId}
    {src dst : RegisterSlice} (hcount : dst.count = src.count)
    {d d' : Immediate} {stored now : Machine} {mid last : Session}
    (hstore : machine.execute arch (.store (.full base) d (.register src))
      session = .ok stored mid) {total : UInt64}
    (hmoves : Machine.Moves arch base stored mid total now last)
    (hback : d'.signed = d.signed - total.toInt64) :
    ∃ final after,
      now.execute arch (.load dst (.full base) d') last = .ok final after ∧
      (final.readRegister dst).SameExpressions (machine.readRegister src) := by
  obtain ⟨arena, hpool, hmachines⟩ := hreached.wellFormed
  have hwell := hmachines machine hmachine
  have hpointer := hwell.pointer (.full base) d.signed
  obtain ⟨start, memory, hstart, hwrite, rfl⟩ :=
    Machine.execute_store_eq_ok hstore
  obtain ⟨stage, hle, hmid, _, hstored, _⟩ :=
    (Machine.execute_yields _ hpool.nodes hwell).of_ok hstore
  obtain ⟨later, hle', hlast, hnow, hmemory, hbase⟩ :=
    hmoves.displaces hmid hstored
  have hsame : now.pointer arch (.full base) d'.signed =
      machine.pointer arch (.full base) d.signed := by
    rw [Machine.pointer, hbase, hback, Pointer.displace_displace,
      Int64.add_comm, Int64.sub_add_cancel]
    rfl
  have hbytes : dst.byteCount * 8 =
      (machine.readRegister src).wholeBytes.width := by
    rw [Word.width_wholeBytes, Word.byteCount, Machine.width_readRegister,
      ← hcount]
    rfl
  have hread : ∀ other, other.nextNode = last.nextNode → ∃ again,
      now.memory.read (now.pointer arch (.full base) d'.signed)
        (dst.byteCount * 8) other =
        .ok (some (.ofBits (machine.readRegister src).wholeBytes.bits))
          again := by
    intro other hother
    have hnodes : arena.length ≤ other.nextNode := by
      rw [hother, hlast]
      exact (hle.trans hle').length_le
    have hpos : 0 < (machine.readRegister src).wholeBytes.width := by
      have hcountPos := dst.byteCount_pos
      omega
    rw [hmemory, hsame, hbytes]
    exact Memory.read_written_whole (hstart.trans hpool.nodes) hwell.memory
      hpointer (Word.width_wholeBytes_mod _) hwrite hpos hnodes
  obtain ⟨final, after, hload, hfinal⟩ :=
    Machine.execute_load hzero hlast hnow hread
  refine ⟨final, after, hload, ?_⟩
  have hwidth : dst.count = (machine.readRegister src).width :=
    hcount.trans (machine.width_readRegister src).symm
  rw [hwidth, Word.SameExpressions, Word.bits_resize_wholeBytes] at hfinal
  exact hfinal

theorem restore_returns_spilled_register_moved_stack :
    let src : RegisterSlice := ⟨⟨1⟩, 3, 13, by decide, by decide⟩
    let dst : RegisterSlice := ⟨⟨6⟩, 40, 13, by decide, by decide⟩
    let below : Immediate := ⟨0xf8, 8, by decide⟩
    let above : Immediate := ⟨4, 8, by decide⟩
    ∃ stored now final mid last after,
      ({} : Machine).execute Amd64.standard
        (.store (.full Amd64.rsp) below (.register src)) {} = .ok stored mid ∧
      Machine.Moves Amd64.standard Amd64.rsp stored mid (-12) now last ∧
      now.execute Amd64.standard (.load dst (.full Amd64.rsp) above) last =
        .ok final after ∧
      (final.readRegister dst).SameExpressions
        (({} : Machine).readRegister src) := by
  intro src dst below above
  have hcheck : SymM.endsWith (do
      let stored ← ({} : Machine).execute Amd64.standard
        (.store (.full Amd64.rsp) below (.register src))
      let grown ← stored.execute Amd64.standard
        (.binary .sub (.full Amd64.rsp) (.immediate ⟨16, 8, by decide⟩))
      let lost ← grown.execute Amd64.standard
        (.move .zero (.full src.base) (.immediate ⟨0, 64, by decide⟩))
      lost.execute Amd64.standard
        (.binary .add (.full Amd64.rsp) (.immediate ⟨4, 32, by decide⟩))) {}
      (fun _ _ => true) = true := by
    decide +kernel
  obtain ⟨now, last, hrun, _⟩ := SymM.exists_ok_of_endsWith hcheck
  obtain ⟨stored, mid, hspill, hrest⟩ := SymM.bind_eq_ok.mp hrun
  obtain ⟨grown, mid₁, hgrow, hrest⟩ := SymM.bind_eq_ok.mp hrest
  obtain ⟨lost, mid₂, hlose, hshrink⟩ := SymM.bind_eq_ok.mp hrest
  have hstart : Machine.Reached Amd64.standard {} [] [{}] := .start {}
  have hgrown := (hstart.execute _ (by simp) hspill).execute _ (by simp) hgrow
  have hkept : lost.readRegister (.full Amd64.rsp) =
      grown.readRegister (.full Amd64.rsp) := by
    apply hgrown.readRegister_of_target (by simp) hlose
    intro target htarget
    cases htarget
    decide
  have hmoves : Machine.Moves Amd64.standard Amd64.rsp stored mid (-12)
      now last :=
    .adjust (.keep (.adjust .stay (.sub _) hgrow) (by rintro ⟨⟩) hlose hkept)
      (.add _) hshrink
  obtain ⟨final, after, hload, hsame⟩ := restore_returns_spilled_register
    (Amd64.zeroExtendsAtStart Amd64.standard (by simp)) hstart (by simp)
    (by rfl : dst.count = src.count) hspill hmoves
      (by decide : above.signed = below.signed - _)
  exact ⟨stored, now, final, mid, last, after, hspill, hmoves, hload, hsame⟩

end SymbolicMachine
