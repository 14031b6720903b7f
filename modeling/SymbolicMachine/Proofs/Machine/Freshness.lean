import SymbolicMachine.Architecture.Amd64
import SymbolicMachine.Machine
import SymbolicMachine.Proofs.Word.Variables

/-!
# Fresh values

Fresh variables get into registers, stored bytes and the anchors of regions, and
they are handed out where nothing shows it: a read takes variables for the bytes
that it does not know, and takes others if it has no answer after all.  But a
machine holds no variable that was not handed out before.  The invariant is one
bound on all that occurs in the machine, and every operation keeps it; so the
value of memory that is not known has nothing in common with the machine.
-/

namespace SymbolicMachine

/-! ## Tagged variables -/

theorem taggedVar_eq_ok_iff {tag index : Nat} {v : Var} :
    taggedVar tag index = .ok v ↔ index < 256 ∧ v = .ofTag tag index := by
  unfold taggedVar
  split
  case isTrue hindex => simp [show index < 256 from hindex, eq_comm]
  case isFalse hindex => simp [show ¬ index < 256 from hindex]

private theorem Var.ofTag_of_tag?_eq_some {v : Var} {tag index : Nat}
    (hsize : v.id < 2 ^ 64) (h : v.tag? = some (tag, index)) :
    tag < 2 ^ 55 ∧ index < 256 ∧ v = ofTag tag index := by
  unfold tag? at h
  split_ifs at h with hlow
  obtain ⟨rfl, rfl⟩ := Prod.mk.inj (Option.some.inj h)
  unfold taggedBase indicesPerTag at *
  have htag : (v.id - 0x8000000000000000) / 256 < 2 ^ 55 := by omega
  refine ⟨htag, Nat.mod_lt _ (by decide), ?_⟩
  have hid : v.id = 0x8000000000000000 + (v.id - 0x8000000000000000) / 256 %
      2 ^ 55 * 256 +
      (v.id - 0x8000000000000000) % 256 := by
    rw [Nat.mod_eq_of_lt htag]
    omega
  exact congrArg Var.mk hid

/-! ## Pointers and regions -/

namespace Pointer

variable {vars : Var → Prop} {next : Nat}

private theorem difference_advances (p q : Pointer) :
    SymM.Advances next (p.difference q) fun _ _ => True := by
  have hall : ∀ w : Word, w.Within fun _ => True := fun _ _ _ => trivial
  have hbase : SymM.Advances next (p.baseDifference q) fun _ _ => True := by
    unfold baseDifference
    split
    · exact SymM.advances_pure trivial
    · exact ((hall p.base).sub (hall q.base)).bind
        fun _ _ _ _ => SymM.advances_pure trivial
  exact hbase.bind fun _ _ _ _ => SymM.advances_pure trivial

private theorem ofWord_within {arch : Architecture} {w : Word}
    (h : w.Within vars) :
    (ofWord arch w).base.Within vars := by
  have haddress := h.resize addressWidth
  unfold ofWord
  simp only
  split
  · exact Word.within_constant 0 addressWidth
  · cases hsplit : (w.resize addressWidth).splitAddend? with
    | none => exact haddress
    | some parts => exact haddress.splitAddend? hsplit

end Pointer

namespace Region

variable {vars : Var → Prop} {next : Nat} {region : Region}

def Occurs (v : Var) (region : Region) : Prop :=
  region.anchor.base.Occurs v ∨
    ∃ (offset : Int) (byte : Word),
    region.bytes[offset]? = some byte ∧ byte.Occurs v

structure Within (vars : Var → Prop) (region : Region) : Prop where
  anchor : region.anchor.base.Within vars
  byte : ∀ {offset : Int} {byte : Word}, region.bytes[offset]? = some byte →
    byte.Within vars

theorem Within.of_occurs (h : region.Within vars) {v : Var}
    (hv : region.Occurs v) : vars v := by
  rcases hv with hanchor | ⟨offset, byte, hbyte, hv⟩
  · exact h.anchor v hanchor
  · exact h.byte hbyte v hv

theorem Within.grow {later : Nat} (h : region.Within (Issued next))
    (hle : next ≤ later) :
    region.Within (Issued later) :=
  ⟨h.anchor.grow hle, fun hbyte => (h.byte hbyte).grow hle⟩

theorem Within.read (h : region.Within (Issued next)) (offset : Int)
    (count : Nat) :
    SymM.Advances next (region.read offset count) fun later result =>
      Word.BitsWithin (Issued later) result.1 := by
  induction count generalizing next offset with
  | zero => exact SymM.advances_pure (by simp [Word.BitsWithin])
  | succ count ih =>
      unfold Region.read
      by_cases hlast : offset > lastOffset
      · simp only [hlast, if_true]
        split <;> exact SymM.advances_throw _
      · simp only [hlast, if_false]
        split
        case h_1 byte hbyte =>
            refine (ih h (offset + 1)).bind fun later result hle hresult => ?_
            exact SymM.advances_pure
              (((h.byte hbyte).grow hle).bits.append hresult)
        case h_2 =>
            refine (Word.fresh_advances 8).bind fun later byte hle hbyte => ?_
            refine (ih (h.grow hle) (offset + 1)).bind
              fun last result hle' hresult => ?_
            exact SymM.advances_pure ((hbyte.grow hle').bits.append hresult)

theorem Within.write {next : Region} {offset : Int} {bytes : List Word}
    (h : region.Within vars) (hbytes : ∀ byte ∈ bytes, byte.Within vars)
    (hwrite : region.write offset bytes = .ok next) : next.Within vars := by
  induction bytes generalizing region offset with
  | nil =>
      cases hwrite
      exact h
  | cons byte bytes ih =>
      obtain ⟨hbyte, hbytes⟩ := List.forall_mem_cons.mp hbytes
      unfold Region.write at hwrite
      split_ifs at hwrite
      have hinserted :
          { region with bytes := region.bytes.insert offset byte }.Within
            vars := by
        refine ⟨h.anchor, fun {key stored} hstored => ?_⟩
        simp only [Std.TreeMap.getElem?_insert] at hstored
        split at hstored
        · cases hstored
          exact hbyte
        · exact h.byte hstored
      exact ih hinserted hbytes hwrite

end Region

/-! ## Memory -/

namespace Memory

variable {vars : Var → Prop} {next : Nat} {memory : Memory} {pointer : Pointer}

def Within (vars : Var → Prop) (memory : Memory) : Prop :=
  ∀ region ∈ memory.regions, region.Within vars

theorem Within.grow {later : Nat} (h : memory.Within (Issued next))
    (hle : next ≤ later) :
    memory.Within (Issued later) :=
  fun region hregion => (h region hregion).grow hle

private theorem locate_advances (pointer : Pointer) (regions : List Region) :
    SymM.Advances next (locate pointer regions) fun _ answer =>
      ∀ found, answer = some found →
        regions = found.before ++ found.region :: found.after := by
  induction regions generalizing next with
  | nil => exact SymM.advances_pure (by simp)
  | cons region regions ih =>
      refine (pointer.difference_advances region.anchor).bind
        fun _ distance _ _ => ?_
      cases distance with
      | some offset =>
          refine SymM.advances_pure fun found hfound => ?_
          cases hfound
          rfl
      | none =>
          refine ih.bind fun _ answer _ hanswer => SymM.advances_pure
            fun found hfound => ?_
          obtain ⟨inner, hinner, rfl⟩ := Option.map_eq_some_iff.mp hfound
          rw [hanswer inner hinner]
          rfl

theorem Within.read (h : memory.Within (Issued next)) (pointer : Pointer)
    (bitCount : Nat) :
    SymM.Advances next (memory.read pointer bitCount) fun later answer =>
      ∀ value, answer = some value → value.Within (Issued later) := by
  refine (locate_advances pointer memory.regions).bind
    fun later answer hle hsplit => ?_
  cases answer with
  | none => exact SymM.advances_pure (by simp)
  | some found =>
      have hregion : found.region ∈ memory.regions := by
        rw [hsplit found rfl]
        simp
      simp only
      split
      · exact SymM.advances_pure (by simp)
      · have hread :=
          ((h _ hregion).grow hle).read found.offset ((bitCount + 7) / 8)
        refine hread.bind fun last result _ hbits => SymM.advances_pure
          fun value hvalue => ?_
        split at hvalue
        · cases hvalue
          exact (Word.within_ofBits hbits).resize bitCount
        · cases hvalue

private theorem within_stored {before after : List Region} {region : Region}
    (hbefore : ∀ other ∈ before, other.Within vars)
    (hregion : region.Within vars)
    (hafter : ∀ other ∈ after, other.Within vars) :
    Within vars ⟨survivors pointer before ++
      region :: survivors pointer after⟩ := by
  intro other hother
  rcases List.mem_append.mp hother with hother | hother
  · exact hbefore other (List.mem_of_mem_filter hother)
  · rcases List.mem_cons.mp hother with rfl | hother
    · exact hregion
    · exact hafter other (List.mem_of_mem_filter hother)

private theorem recordInvalidated_advances (pointer : Pointer)
    (regions : List Region) :
    SymM.Advances next (recordInvalidated pointer regions) fun _ _ => True := by
  unfold recordInvalidated
  simp only
  split
  · exact SymM.advances_record _ _
  · exact SymM.advances_pure trivial

theorem Within.write (h : memory.Within vars)
    (hpointer : pointer.base.Within vars) {value : Word}
    (hvalue : value.Within vars) :
    SymM.Advances next (memory.write pointer value) fun _ => Within vars := by
  have hbytes : ∀ byte ∈ value.partsOf 8, byte.Within vars :=
    fun byte hbyte => hvalue.partsOf (by decide) hbyte
  unfold Memory.write
  split
  case isFalse =>
      exact SymM.advances_throw _
  case isTrue =>
      refine (locate_advances pointer memory.regions).bind
        fun _ answer _ hsplit => ?_
      cases answer with
      | none =>
          refine (recordInvalidated_advances pointer memory.regions).bind
            fun _ _ _ _ => ?_
          have hnew : ({ anchor := pointer } : Region).Within vars :=
            ⟨hpointer, fun hbyte => by simp at hbyte⟩
          refine (SymM.advances_ofExcept fun _ => hnew.write hbytes).bind
            fun _ region _ hregion => SymM.advances_pure ?_
          exact within_stored h hregion fun other hother =>
            absurd hother List.not_mem_nil
      | some found =>
          have hall : ∀ region ∈ found.before ++ found.region :: found.after,
              region.Within vars := hsplit found rfl ▸ h
          obtain ⟨hbefore, hrest⟩ := List.forall_mem_append.mp hall
          obtain ⟨hfound, hafter⟩ := List.forall_mem_cons.mp hrest
          refine (recordInvalidated_advances pointer found.others).bind
            fun _ _ _ _ => ?_
          refine (SymM.advances_ofExcept fun _ => hfound.write hbytes).bind
            fun _ region _ hregion => SymM.advances_pure ?_
          exact within_stored hbefore hregion hafter

end Memory

/-! ## The machine -/

namespace Machine

variable {arch : Architecture} {vars : Var → Prop} {next : Nat}
  {session : Session} {machine : Machine}

def Occurs (v : Var) (machine : Machine) : Prop :=
  (∃ (key : RegisterSlice) (word : Word),
      machine.registers[key]? = some word ∧ word.Occurs v) ∨
    ∃ region ∈ machine.memory.regions, region.Occurs v

structure Within (vars : Var → Prop) (machine : Machine) : Prop where
  register : ∀ {key : RegisterSlice} {word : Word},
    machine.registers[key]? = some word → word.Within vars
  memory : machine.memory.Within vars

private theorem merge_advances {slot value : Word} (hslot : slot.Within vars)
    (hvalue : value.Within vars) (slice : RegisterSlice) :
    SymM.Advances next (merge slice slot value) fun _ => Word.Within vars := by
  have hmask :=
    (Word.within_constant slice.mask registerWidth : Word.Within vars _).not
  refine (SymM.advances_ofNodeM hmask).bind fun _ mask _ hmask => ?_
  refine (hslot.and hmask).bind fun _ preserved _ hpreserved => ?_
  exact hpreserved.or ((hvalue.resize _).shiftLeft _)

namespace Within

theorem of_occurs (h : machine.Within vars) {v : Var} (hv : machine.Occurs v) :
    vars v := by
  rcases hv with ⟨key, word, hword, hv⟩ | ⟨region, hregion, hv⟩
  · exact h.register hword v hv
  · exact (h.memory region hregion).of_occurs hv

theorem grow {later : Nat} (h : machine.Within (Issued next))
    (hle : next ≤ later) :
    machine.Within (Issued later) :=
  ⟨fun hword => (h.register hword).grow hle, h.memory.grow hle⟩

theorem readRegister (h : machine.Within (Issued next))
    (slice : RegisterSlice) :
    (machine.readRegister slice).Within (Issued next) := by
  unfold Machine.readRegister
  split
  case h_1 word hword => exact ((h.register hword).shiftRight _).resize _
  case h_2 => exact Word.within_ofTag next _ _ _

theorem slot (h : machine.Within (Issued next)) (slice : RegisterSlice) :
    (machine.slot slice).Within (Issued next) := by
  unfold Machine.slot
  cases hword : machine.registers[slice.canonical]? with
  | some word => exact h.register hword
  | none => exact Word.within_ofTag next _ _ _

theorem readOperand (h : machine.Within (Issued next)) (operand : Operand) :
    (machine.readOperand operand).Within (Issued next) := by
  cases operand with
  | register slice => exact h.readRegister slice
  | immediate constant => exact Word.within_constant _ _

theorem pointer (h : machine.Within (Issued next)) (base : RegisterSlice)
    (displacement : Int64) :
    (machine.pointer arch base displacement).base.Within (Issued next) :=
  Pointer.ofWord_within (h.readRegister base)

theorem insert (h : machine.Within vars) (key : RegisterSlice) {slot : Word}
    (hslot : slot.Within vars) :
    { machine with registers := machine.registers.insert key slot }.Within
      vars := by
  refine ⟨fun {other word} hword => ?_, h.memory⟩
  simp only [Std.TreeMap.getElem?_insert] at hword
  split at hword
  · cases hword
    exact hslot
  · exact h.register hword

theorem writeRegister (h : machine.Within (Issued next)) {value : Word}
    (hvalue : value.Within (Issued next)) (slice : RegisterSlice) :
    SymM.Advances next (machine.writeRegister arch slice value)
      fun later machine => machine.Within (Issued later) := by
  have hcut := hvalue.resize slice.count
  have hstored : ∀ {later : Nat} {slot : Word},
      next ≤ later → slot.Within (Issued next) →
      SymM.Advances later (pure { machine with
          registers := machine.registers.insert slice.canonical slot })
        fun last machine => machine.Within (Issued last) :=
    fun hle hslot =>
      SymM.advances_pure ((h.insert slice.canonical hslot).grow hle)
  refine (SymM.advances_record _ _).bind fun later _ hle _ => ?_
  simp only
  split
  · exact hstored hle (hcut.resize _)
  · refine (merge_advances (h.slot slice) hcut slice).bind
      fun last slot hle' hslot => ?_
    exact hstored (hle.trans hle') hslot

theorem readMemory (h : machine.Within (Issued next)) (pointer : Pointer)
    (byteCount : Nat) :
    SymM.Advances next (machine.readMemory pointer byteCount) fun later value =>
      value.Within (Issued later) := by
  unfold Machine.readMemory
  simp only
  split
  case isFalse => exact SymM.advances_throw _
  case isTrue =>
      refine (h.memory.read pointer (byteCount * 8)).bind
        fun later answer hle hanswer => ?_
      cases answer with
      | some value => exact SymM.advances_pure (hanswer value rfl)
      | none =>
          exact (SymM.advances_record _ _).bind
            fun _ _ _ _ => Word.fresh_advances _

theorem writeMemory (h : machine.Within (Issued next)) {pointer : Pointer}
    {value : Word} (hpointer : pointer.base.Within (Issued next))
    (hvalue : value.Within (Issued next)) :
    SymM.Advances next (machine.writeMemory arch pointer value)
      fun later machine =>
      machine.Within (Issued later) := by
  refine (SymM.advances_record _ _).bind fun later _ hle _ => ?_
  refine (h.memory.write hpointer (hvalue.resize _)).bind
    fun last memory hle' hmemory => ?_
  have hnext : { machine with memory }.Within (Issued next) :=
    ⟨h.register, hmemory⟩
  exact SymM.advances_pure (hnext.grow (hle.trans hle'))

theorem perform (h : machine.Within (Issued next)) (instr : Instr) :
    SymM.Advances next (machine.perform arch instr) fun later machine =>
      machine.Within (Issued later) := by
  cases instr with
  | nop => exact SymM.advances_pure h
  | move extension target source =>
      apply h.writeRegister
      cases extension with
      | zero => exact (h.readOperand source).resize _
      | sign => exact (h.readOperand source).resizeSigned _
  | unary op target =>
      refine ((h.readRegister target).unary op).bind
        fun later value hle hvalue => ?_
      exact (h.grow hle).writeRegister (hvalue.grow hle) target
  | binary op target source =>
      refine ((h.readRegister target).binary (h.readOperand source) op).bind
        fun later value hle hvalue => ?_
      exact (h.grow hle).writeRegister (hvalue.grow hle) target
  | load target base displacement =>
      refine (h.readMemory _ target.byteCount).bind
        fun later value hle hvalue => ?_
      exact (h.grow hle).writeRegister hvalue target
  | store base displacement source =>
      exact h.writeMemory (h.pointer base displacement.signed)
        (h.readOperand source)

theorem execute (h : machine.Within (Issued next)) (instr : Instr) :
    SymM.Advances next (machine.execute arch instr) fun later machine =>
      machine.Within (Issued later) :=
  (SymM.advances_record _ _).bind fun _ _ hle _ => (h.grow hle).perform instr

end Within

/-! ## Histories -/

/--
The operations on one machine, in any order.  Between them the session may be
used for other things, which takes back no variable.
-/
inductive History (arch : Architecture) : Session → Machine → Prop
  | start (session : Session) : History arch session {}
  | elsewhere {session later : Session} {machine : Machine} :
      History arch session machine →
      session.nextVar ≤ later.nextVar → History arch later machine
  | execute {session after : Session} {machine next : Machine} (instr : Instr) :
      History arch session machine → machine.execute arch instr session =
        .ok next after →
      History arch after next
  | readMemory {session after : Session} {machine : Machine} {value : Word}
      (pointer : Pointer)
      (byteCount : Nat) : History arch session machine →
      machine.readMemory pointer byteCount session = .ok value after →
      History arch after machine
  | writeRegister {session after : Session} {machine next : Machine}
      {value : Word}
      (slice : RegisterSlice) : History arch session machine →
      value.Within (Issued session.nextVar) →
      machine.writeRegister arch slice value session = .ok next after →
      History arch after next
  | writeMemory {session after : Session} {machine next : Machine}
      {pointer : Pointer}
      {value : Word} : History arch session machine →
      pointer.base.Within (Issued session.nextVar) →
      value.Within (Issued session.nextVar) →
      machine.writeMemory arch pointer value session = .ok next after →
      History arch after next

theorem History.within (h : History arch session machine) :
    machine.Within (Issued session.nextVar) := by
  induction h with
  | start session =>
      exact ⟨fun hword => by simp at hword,
        fun region hregion => by cases hregion⟩
  | elsewhere _ hle ih => exact ih.grow hle
  | execute instr _ hrun ih => exact (ih.execute instr _ _ _ rfl hrun).2
  | readMemory pointer byteCount _ hrun ih =>
      exact ih.grow (ih.readMemory pointer byteCount _ _ _ rfl hrun).1
  | writeRegister slice _ hvalue hrun ih =>
      exact (ih.writeRegister hvalue slice _ _ _ rfl hrun).2
  | writeMemory _ hpointer hvalue hrun ih =>
      exact (ih.writeMemory hpointer hvalue _ _ _ rfl hrun).2

private theorem readMemory_of_read_eq_none {pointer : Pointer} {byteCount : Nat}
    {mid : Session} (hsize : byteCount * 8 < UInt64.size)
    (hread : machine.memory.read pointer (byteCount * 8) session =
      .ok none mid) :
    ∃ traced : Session, traced.nextVar = mid.nextVar ∧
      machine.readMemory pointer byteCount session =
        Word.fresh (byteCount * 8) traced := by
  unfold readMemory
  simp only [hsize, if_true]
  refine ⟨_, ?_,
    (SymM.bind_of_ok hread).trans (SymM.bind_of_ok (record_apply _ _ mid))⟩
  rfl

private theorem size_of_readMemory {pointer : Pointer} {byteCount : Nat}
    {value : Word} {after : Session}
    (h : machine.readMemory pointer byteCount session = .ok value after) :
    byteCount * 8 < UInt64.size := by
  by_contra hsize
  unfold readMemory at h
  simp only [hsize, if_false] at h
  cases h

/--
Whatever was done with the machine, a fresh variable in it has a number below
the next one.  Fresh words take the next numbers one after the other, and a
tagged variable is known by its tag and its index and is never one of them.  So
the value of memory that is not known, which is a fresh word, has no variable in
common with the machine.
-/
theorem undefined_values_fresh (h : History arch session machine) :
    (∀ v, machine.Occurs v → v.tag? = none → v.id < session.nextVar) ∧
    (∀ (start after : Session) (width : Nat) (word : Word),
      Word.fresh width start = .ok word after ↔
        width ≤ Word.maxWidth ∧
        word = .ofBits ((List.range' start.nextVar width).map
          fun id => .var ⟨id⟩) ∧
        after = { start with nextVar := start.nextVar + width }) ∧
    (∀ tag < 2 ^ 55, ∀ index < 256,
      ∃ v, taggedVar tag index = .ok v ∧ v.tag? = some (tag, index)) ∧
    (∀ (v : Var) (tag index : Nat), v.id < 2 ^ 64 → v.tag? = some (tag, index) →
      tag < 2 ^ 55 ∧ index < 256 ∧ taggedVar tag index = .ok v) ∧
    (∀ tag < 2 ^ 55, ∀ tag' < 2 ^ 55, ∀ index index' v,
      taggedVar tag index = .ok v → taggedVar tag' index' = .ok v →
        tag = tag' ∧ index = index') ∧
    (∀ tag index v, taggedVar tag index = .ok v → v.tag? ≠ none) ∧
    ∀ pointer byteCount mid,
      machine.memory.read pointer (byteCount * 8) session = .ok none mid →
      (byteCount * 8 ≤ Word.maxWidth →
        ∃ value after,
          machine.readMemory pointer byteCount session = .ok value after) ∧
      ∀ value after,
        machine.readMemory pointer byteCount session = .ok value after →
        session.nextVar ≤ mid.nextVar ∧
        after.nextVar = mid.nextVar + byteCount * 8 ∧
        value = .ofBits ((List.range' mid.nextVar (byteCount * 8)).map
          fun id => .var ⟨id⟩) ∧
        (after.nextVar ≤ 2 ^ 63 → ∀ v, value.Occurs v →
          v.tag? = none ∧ ¬ machine.Occurs v) := by
  have hissued := h.within
  have htagged : ∀ {tag index}, tag < 2 ^ 55 → index < 256 →
      (Var.ofTag tag index).tag? = some (tag, index) := Var.tag?_ofTag
  refine ⟨?_, ?_, ?_, ?_, ?_, ?_, ?_⟩
  · intro v hv huntagged
    exact (hissued.of_occurs hv).resolve_right
      (Var.tag?_eq_none_iff.mp huntagged).not_ge
  · intro start after width word
    exact Word.fresh_eq_ok_iff
  · intro tag htag index hindex
    exact ⟨_, taggedVar_eq_ok_iff.mpr ⟨hindex, rfl⟩, htagged htag hindex⟩
  · intro v tag index hsize hv
    obtain ⟨htag, hindex, heq⟩ := Var.ofTag_of_tag?_eq_some hsize hv
    exact ⟨htag, hindex, taggedVar_eq_ok_iff.mpr ⟨hindex, heq⟩⟩
  · intro tag htag tag' htag' index index' v hv hv'
    obtain ⟨hindex, rfl⟩ := taggedVar_eq_ok_iff.mp hv
    obtain ⟨hindex', hsame⟩ := taggedVar_eq_ok_iff.mp hv'
    have hback := htagged htag' hindex'
    rw [← hsame, htagged htag hindex] at hback
    exact Prod.mk.inj (Option.some.inj hback)
  · intro tag index v hv huntagged
    obtain ⟨_, rfl⟩ := taggedVar_eq_ok_iff.mp hv
    have hlow := Var.tag?_eq_none_iff.mp huntagged
    rcases issued_ofTag 0 tag index with hzero | hhigh
    · exact absurd hzero (Nat.not_lt_zero _)
    · omega
  · intro pointer byteCount mid hread
    have hmid :=
      (hissued.memory.read pointer (byteCount * 8) session none mid rfl hread).1
    refine ⟨fun hwidth => ?_, fun value after hrun => ?_⟩
    · have hsize : byteCount * 8 < UInt64.size :=
        lt_of_le_of_lt hwidth (by decide)
      obtain ⟨traced, _, hfresh⟩ := readMemory_of_read_eq_none hsize hread
      exact ⟨_, _, hfresh.trans (Word.fresh_of_le hwidth traced)⟩
    · obtain ⟨traced, hvars, hfresh⟩ :=
        readMemory_of_read_eq_none (size_of_readMemory hrun) hread
      obtain ⟨_, hvalue, hafter⟩ :=
        Word.fresh_eq_ok_iff.mp (hfresh.symm.trans hrun)
      rw [hvars] at hvalue
      have hnext : after.nextVar = mid.nextVar + byteCount * 8 := by
        rw [hafter, hvars]
      refine ⟨hmid, hnext, hvalue, fun hlimit v hv => ?_⟩
      rw [hvalue] at hv
      obtain ⟨hlow, hhigh⟩ := Word.occurs_freshWord.mp hv
      have huntagged : v.id < Var.taggedBase := by
        unfold Var.taggedBase
        omega
      refine ⟨Var.tag?_eq_none_iff.mpr huntagged, fun hold => ?_⟩
      rcases hissued.of_occurs hold with hearlier | htag
      · omega
      · omega

/--
A register is loaded from memory that is not known and stored back.  Eight bytes
further on a read finds the region but no byte of it, and the variables that it
took are not those of the answer.
-/
theorem undefined_values_fresh_beside_stored :
    let stack := RegisterSlice.full Amd64.rsp
    ∃ session machine mid value after, History Amd64.standard session machine ∧
      machine.Occurs ⟨0⟩ ∧
      machine.memory.read (machine.pointer Amd64.standard stack 8)
        (8 * 8) session = .ok none mid ∧
      machine.readMemory (machine.pointer Amd64.standard stack 8) 8 session =
        .ok value after ∧
      value.Occurs ⟨128⟩ ∧ ∀ v, value.Occurs v → ¬ machine.Occurs v := by
  intro stack
  let frame := RegisterSlice.full Amd64.rbp
  let here : Immediate := ⟨0, 64, by decide⟩
  have hcheck : SymM.endsWith (do
      let loaded ← ({} : Machine).execute Amd64.standard
          (.load frame stack here)
      let machine ← loaded.execute Amd64.standard
          (.store stack here (.register frame))
      let answer ← machine.memory.read (machine.pointer Amd64.standard stack 8)
          (8 * 8)
      return (machine, answer)) {}
      (fun result mid => mid.nextVar = 128 ∧ result.2.isNone ∧
        ((result.1.registers[frame]?.bind Word.lsb?).bind Bit.var?) =
          some ⟨0⟩) = true := by
    decide +kernel
  obtain ⟨⟨machine, answer⟩, mid, hrun, hresult⟩ :=
    SymM.exists_ok_of_endsWith hcheck
  obtain ⟨hnext, hnone, hlsb⟩ := of_decide_eq_true hresult
  obtain ⟨loaded, first, hload, hrest⟩ := SymM.bind_eq_ok.mp hrun
  obtain ⟨stored, session, hstore, hrest⟩ := SymM.bind_eq_ok.mp hrest
  obtain ⟨unknown, last, hread, hend⟩ := SymM.bind_eq_ok.mp hrest
  cases hend
  obtain rfl := Option.isNone_iff_eq_none.mp hnone
  have hhistory : History Amd64.standard session machine :=
    ((History.start {}).execute _ hload).execute _ hstore
  have hzero : machine.Occurs ⟨0⟩ := by
    obtain ⟨bit, hbit, hvar⟩ := Option.bind_eq_some_iff.mp hlsb
    obtain ⟨word, hword, hhead⟩ := Option.bind_eq_some_iff.mp hbit
    refine .inl ⟨frame, word, hword, .bit (List.mem_of_mem_head? hhead) ?_⟩
    cases bit with
    | var v => exact (Option.some.inj hvar).symm
    | _ => cases hvar
  obtain ⟨_, _, _, _, _, _, hunknown⟩ := undefined_values_fresh hhistory
  obtain ⟨hreturns, hvalue⟩ := hunknown _ 8 mid hread
  obtain ⟨value, after, hvalueRun⟩ := hreturns (by decide)
  obtain ⟨_, hafter, hbits, hapart⟩ := hvalue value after hvalueRun
  refine ⟨session, machine, mid, value, after, hhistory, hzero, hread,
    hvalueRun, ?_, ?_⟩
  · rw [hbits]
    exact Word.occurs_freshWord.mpr (by simp [hnext])
  · intro v hv
    exact (hapart (by rw [hafter, hnext]; decide) v hv).2

end Machine

end SymbolicMachine
