import SymbolicMachine.Proofs.Access.Registers

/-!
# Register reads

A slice that an instruction does not read does not flow into the rest of the
machine.  Two machines that hold the same expressions outside the slice hold the
same values there after the instruction, and also in the bits that it writes.
-/

namespace SymbolicMachine

/-! ## Agreement outside a slice -/

def RegisterSlice.Covers (slice : RegisterSlice) (id : RegisterId) (k : Nat) :
    Prop :=
  slice.base = id ∧ slice.offset ≤ k ∧ k < slice.stop

private theorem RegisterSlice.not_covers_of_not_overlaps
    {slice other : RegisterSlice} (h : slice.overlaps other = false) {i : Nat}
    (hi : i < slice.count) :
    ¬ other.Covers slice.base (slice.offset + i) := by
  rintro ⟨hbase, hlow, hhigh⟩
  simp only [overlaps, hbase, true_and, decide_eq_false_iff_not, stop] at h
  simp only [stop] at hhigh
  omega

namespace Machine

/--
The machines hold the same expressions in all bits that `slice` does not cover.
-/
def AgreeOutside (slice : RegisterSlice) (left right : Machine) : Prop :=
  ∀ id, ∀ k < registerWidth, ¬ slice.Covers id k →
    (left.registerBit id k).formula = (right.registerBit id k).formula

namespace AgreeOutside

variable {slice : RegisterSlice} {left right : Machine}

theorem getLsbD_eq (h : left.AgreeOutside slice right) (valuation : Valuation)
    {id : RegisterId} {k : Nat} (hk : k < registerWidth)
    (hout : ¬ slice.Covers id k) :
    (left.registerValue valuation id).getLsbD k =
      (right.registerValue valuation id).getLsbD k := by
  rw [← eval_registerBit left valuation id hk,
    ← eval_registerBit right valuation id hk]
  simp only [Bit.eval, h id k hk hout]

theorem readRegister (h : left.AgreeOutside slice right)
    {register : RegisterSlice} (hapart : register.overlaps slice = false) :
    (left.readRegister register).SameExpressions
      (right.readRegister register) := by
  apply List.ext_getElem?
  intro i
  rw [List.getElem?_map, List.getElem?_map]
  by_cases hi : i < register.count
  · have hinside := register.inside
    rw [getElem?_bits_readRegister left register hi,
      getElem?_bits_readRegister right register hi, Option.map_some,
      Option.map_some, h register.base (register.offset + i) (by omega)
        (RegisterSlice.not_covers_of_not_overlaps hapart hi)]
  · have hwidth : ∀ machine : Machine,
        (machine.readRegister register).bits[i]? = none := by
      intro machine
      apply List.getElem?_eq_none
      have hcount := machine.width_readRegister register
      rw [Word.width] at hcount
      omega
    rw [hwidth left, hwidth right]

theorem readOperand (h : left.AgreeOutside slice right) {operand : Operand}
    (hapart : ∀ register, operand = .register register →
      register.overlaps slice = false) :
    (left.readOperand operand).SameExpressions (right.readOperand operand) := by
  cases operand with
  | register register => exact h.readRegister (hapart register rfl)
  | immediate constant => exact .refl _

end AgreeOutside

end Machine

/-! ## What an instruction reads -/

namespace Instr

def sources : Instr → List Operand
  | .nop => []
  | .move _ _ source => [source]
  | .unary _ target => [.register target]
  | .binary _ target source => [.register target, source]
  | .load _ base displacement => [.register base, .immediate displacement]
  | .store base displacement source =>
      [.register base, .immediate displacement, source]

private theorem exists_reading_use {instr : Instr} {source : Operand}
    (hsource : source ∈ instr.sources) :
    ∃ kind : AccessKind, kind.reads = true ∧
      ⟨kind, source.register?⟩ ∈ instr.effects.operands := by
  cases instr with
  | nop => cases hsource
  | move extension target source =>
      rw [List.mem_singleton.mp hsource]
      exact ⟨.read, rfl, .tail _ (.head _)⟩
  | unary op target =>
      rw [List.mem_singleton.mp hsource]
      exact ⟨.readWrite, rfl, .head _⟩
  | binary op target source =>
      rcases List.mem_pair.mp hsource with rfl | rfl
      · exact ⟨.readWrite, rfl, .head _⟩
      · exact ⟨.read, rfl, .tail _ (.head _)⟩
  | load target base displacement =>
      rcases List.mem_pair.mp hsource with rfl | rfl
      · exact ⟨.read, rfl, .tail _ (.head _)⟩
      · exact ⟨.read, rfl, .tail _ (.tail _ (.head _))⟩
  | store base displacement source =>
      simp only [sources, List.mem_cons, List.not_mem_nil, or_false] at hsource
      rcases hsource with rfl | rfl | rfl
      · exact ⟨.read, rfl, .head _⟩
      · exact ⟨.read, rfl, .tail _ (.head _)⟩
      · exact ⟨.read, rfl, .tail _ (.tail _ (.head _))⟩

private theorem source_not_overlaps {instr : Instr}
    {slice register : RegisterSlice}
    (h : instr.effects.registerAccess (some .read) slice = .none)
    (hsource : .register register ∈ instr.sources) :
    register.overlaps slice = false := by
  obtain ⟨kind, hreads, huse⟩ := exists_reading_use hsource
  exact Effects.not_overlaps_of_registerAccess_none h huse rfl hreads

end Instr

/-! ## What an instruction computes -/

private theorem BinaryOp.operand_sameExpressions (op : BinaryOp)
    {left other right right' : Word} (hleft : left.SameExpressions other)
    (hright : right.SameExpressions right') :
    (op.operand left right).SameExpressions (op.operand other right') := by
  simp only [operand, hright.toUInt64?_eq, hleft.width_eq]
  split
  · exact hright
  · exact hright.resize other.width

namespace Machine

variable {arch : Architecture} {slice target : RegisterSlice} {instr : Instr}
  {left right afterLeft afterRight : Machine} {first last first' last' : Nat}

private theorem Performed.placed_same
    (hleft : Performed arch left first last instr afterLeft)
    (hright : Performed arch right first' last' instr afterRight)
    (hmemory : instr.memoryAccess? = none)
    (htarget : instr.target? = some target) (hsame : ∀ source ∈ instr.sources,
      (left.readOperand source).SameExpressions (right.readOperand source)) :
    ∃ value other, left.Placed arch target value afterLeft ∧
      right.Placed arch target other afterRight ∧
      ∀ valuation, value.value valuation = other.value valuation := by
  cases hleft with
  | nop => cases htarget
  | load => cases hmemory
  | store => cases hmemory
  | @move extension _ source _ hplaced =>
      cases htarget
      cases hright with
      | move hplaced' =>
          refine ⟨_, _, hplaced, hplaced', fun valuation => ?_⟩
          have hsource := hsame source (.head _)
          rw [extension.value_resize valuation (width_readOperand _ _),
            extension.value_resize valuation (width_readOperand _ _),
            hsource.value_eq]
  | @unary op _ value _ hmeaning hplaced =>
      cases htarget
      cases hright with
      | unary hmeaning' hplaced' =>
          refine ⟨_, _, hplaced, hplaced', fun valuation => ?_⟩
          have hoperand : (left.readRegister target).SameExpressions
              (right.readRegister target) :=
            hsame (.register target) (.head _)
          rw [hmeaning, hmeaning', hoperand.value_eq]
  | @binary op _ source value _ hmeaning hplaced =>
      cases htarget
      cases hright with
      | binary hmeaning' hplaced' =>
          refine ⟨_, _, hplaced, hplaced', fun valuation => ?_⟩
          have hoperand : (left.readRegister target).SameExpressions
              (right.readRegister target) :=
            hsame (.register target) (.head _)
          have hused :=
            op.operand_sameExpressions hoperand
              (hsame source (.tail _ (.head _)))
          rw [hmeaning, hmeaning', hoperand.value_eq, hused.width_eq,
            hused.value_eq]

theorem AgreeOutside.placed (h : left.AgreeOutside slice right)
    {value other : Word} (hleft : left.Placed arch target value afterLeft)
    (hright : right.Placed arch target other afterRight)
    (valuation : Valuation)
    (hvalue : value.value valuation = other.value valuation) {id : RegisterId}
    {k : Nat} (hk : k < registerWidth)
    (hseen : ¬ slice.Covers id k ∨ target.Covers id k) :
    (afterLeft.registerValue valuation id).getLsbD k =
      (afterRight.registerValue valuation id).getLsbD k := by
  by_cases hid : id = target.base
  · rw [hid, hleft.slot, hright.slot, hvalue]
    apply getLsbD_placed_congr hk
    intro hout
    apply h.getLsbD_eq valuation hk
    rcases hseen with hslice | htarget
    · rwa [hid] at hslice
    · exact absurd htarget.2 hout
  · rw [registerValue_of_eq valuation (hleft.other_base hid),
      registerValue_of_eq valuation (hright.other_base hid)]
    apply h.getLsbD_eq valuation hk
    rcases hseen with hslice | htarget
    · exact hslice
    · exact absurd htarget.1.symm hid

end Machine

/-! ## Slices that are not read -/

private theorem registerAccess_of_testAccess {arch : Architecture}
    {trace : RegisterSlice → SymM Word} {effects : Effects}
    {filter : AccessFilter} {slice : RegisterSlice} {access : Access}
    {session after : Session}
    (h : testAccess arch trace effects filter (.register slice) session =
      .ok (.ok access) after) :
    effects.registerAccess filter slice = access := by
  have hresult :
      EStateM.Result.ok
          (Except.ok (effects.registerAccess filter slice)) session =
        (EStateM.Result.ok (Except.ok access) after :
          EStateM.Result Fault Session (Except AccessError Access)) := h
  injection hresult with hok
  injection hok

/--
Two machines that hold the same expressions outside a slice execute an
instruction for which no read of the slice is reported.  Both come to an end,
and then hold the same values in all bits outside the slice and in those bits of
it that were written.
-/
theorem unread_slice_noninterference {arch : Architecture}
    {session session' : Session} {pool pool' : List Word}
    {machines machines' : List Machine}
    (hreached : Machine.Reached arch session pool machines)
    (hreached' : Machine.Reached arch session' pool' machines')
    {left right : Machine} (hleft : left ∈ machines)
    (hright : right ∈ machines') (instr : Instr)
    (hmemory : instr.memoryAccess? = none) (slice : RegisterSlice)
    (trace : RegisterSlice → SymM Word)
    (hnone : testAccess arch trace instr.effects (some .read)
      (.register slice) session = .ok (.ok .none) session)
    (hagree : left.AgreeOutside slice right) :
    ∃ afterLeft last afterRight last',
      left.execute arch instr session = .ok afterLeft last ∧
      right.execute arch instr session' = .ok afterRight last' ∧
      ∀ valuation id, ∀ k < registerWidth,
        (¬ slice.Covers id k ∨ ∃ target, instr.target? = some target ∧
          target.Covers id k) →
        (afterLeft.registerBit id k).eval valuation =
          (afterRight.registerBit id k).eval valuation := by
  obtain ⟨arena, hpool, hmachines⟩ := hreached.wellFormed
  obtain ⟨arena', hpool', hmachines'⟩ := hreached'.wellFormed
  obtain ⟨afterLeft, last, _, hrun, _, hperformed⟩ :=
    Machine.execute_ends hmemory hpool.nodes (hmachines left hleft)
  obtain ⟨afterRight, last', _, hrun', _, hperformed'⟩ :=
    Machine.execute_ends hmemory hpool'.nodes (hmachines' right hright)
  have hunread := registerAccess_of_testAccess hnone
  have hsame : ∀ source ∈ instr.sources,
      (left.readOperand source).SameExpressions (right.readOperand source) := by
    intro source hsource
    apply hagree.readOperand
    rintro register rfl
    exact Instr.source_not_overlaps hunread hsource
  refine ⟨afterLeft, last, afterRight, last', hrun, hrun', ?_⟩
  intro valuation id k hk hseen
  rw [Machine.eval_registerBit _ _ _ hk, Machine.eval_registerBit _ _ _ hk]
  cases htarget : instr.target? with
  | none =>
      have hout : ¬ slice.Covers id k := by simpa [htarget] using hseen
      have hkept : ∀ {first last : Nat} {machine after : Machine},
          Machine.Performed arch machine first last instr after →
          after.registerValue valuation id =
            machine.registerValue valuation id := by
        intro first last machine after hdone
        exact Machine.registerValue_of_eq valuation
          (by rw [hdone.registers_eq htarget])
      rw [hkept hperformed, hkept hperformed']
      exact hagree.getLsbD_eq valuation hk hout
  | some target =>
      obtain ⟨value, other, hplaced, hplaced', hvalue⟩ :=
        hperformed.placed_same hperformed' hmemory htarget hsame
      apply hagree.placed hplaced hplaced' valuation (hvalue valuation) hk
      simpa [htarget] using hseen

def lowWord : RegisterSlice :=
  ⟨⟨1⟩, 0, 16, by decide, by decide⟩

def setLowWord : Instr :=
  .move .zero lowWord (.immediate ⟨0x1234, 16, by decide⟩)

def copyToSecondByte : Instr :=
  .move .zero secondByte
    (.register
      { secondByte with base := ⟨6⟩, offset := 0, inside := by decide })

theorem unread_slice_noninterference_low_word :
    ∃ right session, Machine.Reached Amd64.standard session [] [right, {}] ∧
      testAccess Amd64.standard (pure ·.initial) copyToSecondByte.effects
        (some .read) (.register lowWord) {} = .ok (.ok .none) {} ∧
      Machine.AgreeOutside lowWord {} right ∧
      ∃ afterLeft last afterRight last',
        Machine.execute Amd64.standard {} copyToSecondByte {} =
          .ok afterLeft last ∧
        right.execute Amd64.standard copyToSecondByte session =
          .ok afterRight last' ∧
        ∀ valuation, ∀ k < registerWidth, 8 ≤ k →
          (afterLeft.registerBit ⟨1⟩ k).eval valuation =
            (afterRight.registerBit ⟨1⟩ k).eval valuation := by
  have hcheck : SymM.endsWith (Machine.execute Amd64.standard {} setLowWord) {}
      (fun after _ =>
      decide (∀ k < registerWidth, 16 ≤ k →
        (Machine.registerBit {} ⟨1⟩ k).formula =
          (after.registerBit ⟨1⟩ k).formula)) = true := by
    decide +kernel
  obtain ⟨right, session, hrun, hhigh⟩ := SymM.exists_ok_of_endsWith hcheck
  have hstart : Machine.Reached Amd64.standard {} [] [{}] := .start {}
  have hreached := hstart.execute setLowWord List.mem_cons_self hrun
  have htarget : setLowWord.target? = some lowWord := rfl
  obtain ⟨value, hplaced⟩ :=
    (hstart.performed List.mem_cons_self hrun).placed htarget
  have hagree : Machine.AgreeOutside lowWord {} right := by
    intro id k hk hout
    by_cases hid : id = ⟨1⟩
    · subst hid
      have hle : 16 ≤ k := by
        by_contra hlt
        exact hout ⟨rfl, Nat.zero_le k, not_le.mp hlt⟩
      exact of_decide_eq_true hhigh k hk hle
    · rw [Machine.registerBit, Machine.registerBit,
        Machine.readRegister_congr (hplaced.other_base hid).symm]
  refine ⟨right, session, hreached, rfl, hagree, ?_⟩
  obtain ⟨afterLeft, last, afterRight, last', hleft, hright, hbits⟩ :=
    unread_slice_noninterference hstart hreached List.mem_cons_self
      List.mem_cons_self copyToSecondByte rfl lowWord (pure ·.initial)
        rfl hagree
  refine ⟨afterLeft, last, afterRight, last', hleft, hright, ?_⟩
  intro valuation k hk hlow
  apply hbits valuation ⟨1⟩ k hk
  by_cases hhalf : k < 16
  · exact .inr ⟨_, rfl, rfl, hlow, hhalf⟩
  · exact .inl fun hcovers => hhalf hcovers.2.2

end SymbolicMachine
