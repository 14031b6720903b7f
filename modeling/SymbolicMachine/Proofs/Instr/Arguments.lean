import Mathlib.Data.List.Forall2
import SymbolicMachine.Instr.Effects

/-!
# Arguments of instructions

An opcode and arguments are accepted exactly if they fit: there are as many
arguments as the signature says, what is written is a register, immediates have
1 to 64 bits, and a memory opcode has a register for the base and an immediate
after it.  Such lists are those of the typed instructions, one for each of them.
-/

namespace SymbolicMachine

theorem Argument.operand?_eq_immediate {value : UInt64} {width : Nat}
    (h : 0 < width ∧ width ≤ 64) :
    (Argument.immediate value width).operand? =
      some (.immediate ⟨value, width, h⟩) :=
  dif_pos h

def Operand.argument : Operand → Argument
  | .register slice => .register slice
  | .immediate constant => .immediate constant.value constant.width

@[simp] theorem Operand.argument_register (slice : RegisterSlice) :
    (Operand.register slice).argument = .register slice := rfl

@[simp] theorem Operand.argument_immediate (constant : Immediate) :
    (Operand.immediate constant).argument =
      .immediate constant.value constant.width := rfl

@[simp] theorem Operand.operand?_argument (operand : Operand) :
    operand.argument.operand? = some operand := by
  cases operand with
  | register slice => rfl
  | immediate constant => exact Argument.operand?_eq_immediate constant.inside

@[simp] theorem Operand.register?_argument (operand : Operand) :
    operand.argument.register? = operand.register? := by
  cases operand <;> rfl

@[simp] theorem Operand.width_argument (operand : Operand) :
    operand.argument.width = operand.width := by
  cases operand <;> rfl

def Instr.raw (instr : Instr) : RawInstr :=
  ⟨instr.opcode, instr.operands.map Operand.argument⟩

/-- What the signature and the memory operand of the opcode ask for. -/
structure RawInstr.Fits (instr : RawInstr) : Prop where
  count : instr.arguments.length = instr.opcode.signature.length
  sizes : ∀ value width, .immediate value width ∈ instr.arguments →
    0 < width ∧ width ≤ 64
  written : ∀ (i : Nat) kind argument, instr.opcode.signature[i]? = some kind →
    kind.writes = true → instr.arguments[i]? = some argument →
    ∃ slice, argument = .register slice
  memory : ∀ base, instr.opcode.memoryOperand? = some base →
    (∃ slice, instr.arguments[base]? = some (.register slice)) ∧
      ∃ value width, instr.arguments[base + 1]? = some (.immediate value width)

/-! ## Single arguments -/

theorem refuse_eq_ok_iff {condition : Prop} [Decidable condition]
    {illegality : Illegality} :
    refuse condition illegality = .ok () ↔ ¬ condition := by
  by_cases h : condition <;> simp [refuse, h]

theorem andThen_eq_ok_iff {first second : Except Illegality Unit} :
    (first >>= fun _ => second) = .ok () ↔
      first = .ok () ∧ second = .ok () := by
  cases first <;> simp [bind, Except.bind]

namespace Argument

structure Permitted (kind : AccessKind) (argument : Argument) : Prop where
  sized : argument.sized = true
  written : kind.writes = true → ∃ slice, argument = .register slice

private theorem isNone_register? {argument : Argument} :
    argument.register?.isNone = true ↔
      ¬ ∃ slice, argument = .register slice := by
  cases argument <;> simp [register?]

theorem check_eq_ok_iff {index : Nat} {kind : AccessKind}
    {argument : Argument} :
    argument.check index kind = .ok () ↔ argument.Permitted kind := by
  rw [check, andThen_eq_ok_iff, refuse_eq_ok_iff, refuse_eq_ok_iff, not_not,
    isNone_register?, not_and, not_not]
  exact ⟨fun h => ⟨h.1, h.2⟩, fun h => ⟨h.sized, h.written⟩⟩

private theorem checkAll_eq_ok_iff {index : Nat} {kinds : List AccessKind}
    {arguments : List Argument} (hlength : arguments.length = kinds.length) :
    checkAll index kinds arguments = .ok () ↔
      List.Forall₂ Permitted kinds arguments := by
  induction kinds generalizing index arguments with
  | nil =>
      obtain rfl : arguments = [] := List.length_eq_zero_iff.mp hlength
      exact iff_of_true rfl .nil
  | cons kind kinds ih =>
      cases arguments with
      | nil => cases hlength
      | cons argument arguments =>
          have hrest : arguments.length = kinds.length := Nat.succ.inj hlength
          rw [checkAll, andThen_eq_ok_iff, check_eq_ok_iff, ih hrest,
            List.forall₂_cons]

private theorem checkLocation_eq_ok_iff {arguments : List Argument} {base : Nat}
    (hlength : base + 1 < arguments.length) :
    checkLocation arguments base = .ok () ↔
      (∃ slice, arguments[base]? = some (.register slice)) ∧
        ∃ value width,
          arguments[base + 1]? = some (.immediate value width) := by
  have hbase : arguments[base]? = some arguments[base] :=
    List.getElem?_eq_getElem (by omega)
  have hnext : arguments[base + 1]? = some arguments[base + 1] :=
    List.getElem?_eq_getElem hlength
  rw [checkLocation, andThen_eq_ok_iff, refuse_eq_ok_iff, refuse_eq_ok_iff,
    hbase, hnext]
  cases arguments[base] <;> cases arguments[base + 1] <;> simp [register?]

end Argument

/-! ## Lists of arguments -/

namespace RawInstr

variable {opcode : Opcode} {arguments : List Argument}

theorem check_eq_ok_iff :
    check opcode arguments = .ok () ↔
      arguments.length = opcode.signature.length ∧
        Argument.checkAll 0 opcode.signature arguments = .ok () ∧
        ∀ base, opcode.memoryOperand? = some base →
          Argument.checkLocation arguments base = .ok () := by
  have hmemory : opcode.memoryOperand?.forM (Argument.checkLocation arguments) =
      .ok () ↔ ∀ base, opcode.memoryOperand? = some base →
        Argument.checkLocation arguments base = .ok () := by
    cases opcode.memoryOperand? <;> simp [Option.forM, pure, Except.pure]
  rw [check, andThen_eq_ok_iff, andThen_eq_ok_iff, andThen_eq_ok_iff,
    refuse_eq_ok_iff, refuse_eq_ok_iff, hmemory, ← and_assoc]
  refine and_congr_left fun _ => ?_
  omega

private theorem memoryOperand?_lt {base : Nat}
    (h : opcode.memoryOperand? = some base) :
    base + 1 < opcode.signature.length := by
  cases opcode <;> cases h <;> decide

theorem forall₂_permitted_iff
    (hlength : arguments.length = opcode.signature.length) :
    List.Forall₂ Argument.Permitted opcode.signature arguments ↔
      (∀ value width, .immediate value width ∈ arguments →
        0 < width ∧ width ≤ 64) ∧
      ∀ (i : Nat) kind argument, opcode.signature[i]? = some kind →
        kind.writes = true → arguments[i]? = some argument →
        ∃ slice, argument = .register slice := by
  rw [List.forall₂_iff_get]
  constructor
  · rintro ⟨_, hpermitted⟩
    constructor
    · intro value width hmem
      obtain ⟨i, hi, hargument⟩ := List.getElem_of_mem hmem
      have hsized := (hpermitted i (hlength ▸ hi) hi).sized
      rw [List.get_eq_getElem, hargument] at hsized
      exact of_decide_eq_true hsized
    · intro i kind argument hkind hwrites hargument
      obtain ⟨hi, rfl⟩ := List.getElem?_eq_some_iff.mp hkind
      obtain ⟨hi', rfl⟩ := List.getElem?_eq_some_iff.mp hargument
      exact (hpermitted i hi hi').written hwrites
  · rintro ⟨hsizes, hwritten⟩
    refine ⟨hlength.symm, fun i hi hi' => ⟨?_, ?_⟩⟩
    · cases hargument : arguments.get ⟨i, hi'⟩ with
      | register slice => rfl
      | immediate value width =>
          exact decide_eq_true
            (hsizes value width (hargument ▸ List.get_mem arguments ⟨i, hi'⟩))
    · intro hwrites
      exact hwritten i _ _ (List.getElem?_eq_getElem hi) hwrites
        (List.getElem?_eq_getElem hi')

theorem check_eq_ok_iff_fits :
    check opcode arguments = .ok () ↔ Fits ⟨opcode, arguments⟩ := by
  rw [check_eq_ok_iff]
  constructor
  · rintro ⟨hlength, hall, hlocation⟩
    have hpermitted := (Argument.checkAll_eq_ok_iff hlength).mp hall
    obtain ⟨hsizes, hwritten⟩ := (forall₂_permitted_iff hlength).mp hpermitted
    refine ⟨hlength, hsizes, hwritten, fun base hbase => ?_⟩
    have hinside := Nat.lt_of_lt_of_eq (memoryOperand?_lt hbase) hlength.symm
    exact (Argument.checkLocation_eq_ok_iff hinside).mp (hlocation base hbase)
  · intro h
    have hpermitted := (forall₂_permitted_iff h.count).mpr ⟨h.sizes, h.written⟩
    refine ⟨h.count, (Argument.checkAll_eq_ok_iff h.count).mpr hpermitted, ?_⟩
    intro base hbase
    have hinside := Nat.lt_of_lt_of_eq (memoryOperand?_lt hbase) h.count.symm
    exact (Argument.checkLocation_eq_ok_iff hinside).mpr (h.memory base hbase)

theorem make_eq_ok_iff {instr : RawInstr} :
    make opcode arguments = .ok instr ↔
      instr = ⟨opcode, arguments⟩ ∧ instr.Fits := by
  unfold make
  cases hcheck : check opcode arguments with
  | error illegality =>
      refine iff_of_false (fun h => by cases h) ?_
      rintro ⟨rfl, hfits⟩
      rw [check_eq_ok_iff_fits.mpr hfits] at hcheck
      cases hcheck
  | ok _ =>
      have hfits := check_eq_ok_iff_fits.mp hcheck
      constructor
      · intro h
        cases h
        exact ⟨rfl, hfits⟩
      · rintro ⟨rfl, _⟩
        rfl

/-! ## The typed instruction -/

private theorem exists_operand {argument : Argument}
    (hsizes : ∀ value width, .immediate value width ∈ arguments →
      0 < width ∧ width ≤ 64)
    (hmem : argument ∈ arguments) :
    ∃ operand : Operand, operand.argument = argument := by
  cases argument with
  | register slice => exact ⟨.register slice, rfl⟩
  | immediate value width =>
      exact ⟨.immediate ⟨value, width, hsizes value width hmem⟩, rfl⟩

theorem Fits.exists_typed (h : Fits ⟨opcode, arguments⟩) :
    ∃ instr : Instr, instr.raw = ⟨opcode, arguments⟩ := by
  have hoperand : ∀ argument ∈ arguments,
      ∃ operand : Operand, operand.argument = argument :=
    fun argument hmem => exists_operand h.sizes hmem
  cases opcode with
  | nop =>
      obtain rfl : arguments = [] := List.length_eq_zero_iff.mp h.count
      exact ⟨.nop, rfl⟩
  | move extension =>
      obtain ⟨first, source, rfl⟩ := List.length_eq_two.mp h.count
      obtain ⟨target, rfl⟩ := h.written 0 .write first rfl rfl rfl
      obtain ⟨operand, rfl⟩ := hoperand source (by simp)
      exact ⟨.move extension target operand, rfl⟩
  | unary op =>
      obtain ⟨first, rfl⟩ := List.length_eq_one_iff.mp h.count
      obtain ⟨target, rfl⟩ := h.written 0 .readWrite first rfl rfl rfl
      exact ⟨.unary op target, rfl⟩
  | binary op =>
      obtain ⟨first, source, rfl⟩ := List.length_eq_two.mp h.count
      obtain ⟨target, rfl⟩ := h.written 0 .readWrite first rfl rfl rfl
      obtain ⟨operand, rfl⟩ := hoperand source (by simp)
      exact ⟨.binary op target operand, rfl⟩
  | load =>
      obtain ⟨first, second, third, rfl⟩ := List.length_eq_three.mp h.count
      obtain ⟨target, rfl⟩ := h.written 0 .write first rfl rfl rfl
      obtain ⟨⟨base, hbase⟩, value, width, hdisplacement⟩ := h.memory 1 rfl
      cases hbase
      cases hdisplacement
      have hinside := h.sizes value width (by simp)
      exact ⟨.load target base ⟨value, width, hinside⟩, rfl⟩
  | store =>
      obtain ⟨first, second, source, rfl⟩ := List.length_eq_three.mp h.count
      obtain ⟨⟨base, hbase⟩, value, width, hdisplacement⟩ := h.memory 0 rfl
      cases hbase
      cases hdisplacement
      obtain ⟨operand, rfl⟩ := hoperand source (by simp)
      have hinside := h.sizes value width (by simp)
      exact ⟨.store base ⟨value, width, hinside⟩ operand, rfl⟩

end RawInstr

namespace Instr

private theorem operands_permitted (instr : Instr) :
    List.Forall₂ Argument.Permitted instr.opcode.signature
      instr.raw.arguments := by
  have hregister : ∀ kind slice, Argument.Permitted kind (.register slice) :=
    fun _ slice => ⟨rfl, fun _ => ⟨slice, rfl⟩⟩
  have hread : ∀ operand : Operand,
      Argument.Permitted .read operand.argument := by
    intro operand
    refine ⟨?_, fun h => by cases h⟩
    cases operand with
    | register slice => rfl
    | immediate constant => exact decide_eq_true constant.inside
  cases instr with
  | nop => exact .nil
  | move _ target source =>
      exact .cons (hregister _ target) (.cons (hread source) .nil)
  | unary _ target => exact .cons (hregister _ target) .nil
  | binary _ target source =>
      exact .cons (hregister _ target) (.cons (hread source) .nil)
  | load target base displacement =>
      exact .cons (hregister _ target) (.cons (hregister _ base)
        (.cons (hread (.immediate displacement)) .nil))
  | store base displacement source =>
      exact .cons (hregister _ base)
        (.cons (hread (.immediate displacement)) (.cons (hread source) .nil))

theorem fits_raw (instr : Instr) : instr.raw.Fits := by
  have hpermitted := instr.operands_permitted
  have hlength := hpermitted.length_eq.symm
  obtain ⟨hsizes, hwritten⟩ :=
    (RawInstr.forall₂_permitted_iff hlength).mp hpermitted
  refine ⟨hlength, hsizes, hwritten, fun base hbase => ?_⟩
  cases instr <;> cases hbase
  all_goals exact ⟨⟨_, rfl⟩, _, _, rfl⟩

@[simp] theorem typed?_raw (instr : Instr) : instr.raw.typed? = some instr := by
  cases instr with
  | load target base displacement =>
      simp only [raw, opcode, operands, List.map_cons, List.map_nil]
      simp [RawInstr.typed?, Argument.operand?_eq_immediate displacement.inside]
  | store base displacement source =>
      simp only [raw, opcode, operands, List.map_cons, List.map_nil]
      simp [RawInstr.typed?, Argument.operand?_eq_immediate displacement.inside]
  | _ => simp [raw, opcode, operands, RawInstr.typed?]

/-- The accepted instructions are those that have a typed form. -/
theorem make_eq_ok_iff_raw {opcode : Opcode} {arguments : List Argument}
    {instr : RawInstr} :
    RawInstr.make opcode arguments = .ok instr ↔
      instr = ⟨opcode, arguments⟩ ∧ ∃ typed : Instr, typed.raw = instr := by
  rw [RawInstr.make_eq_ok_iff]
  constructor
  · rintro ⟨rfl, hfits⟩
    exact ⟨rfl, hfits.exists_typed⟩
  · rintro ⟨hinstr, typed, rfl⟩
    exact ⟨hinstr, typed.fits_raw⟩

theorem effects_raw (instr : Instr) : instr.raw.effects = instr.effects := by
  have huses : List.zipWith (fun kind argument =>
        (⟨kind, argument.register?⟩ : OperandUse)) instr.opcode.signature
        (instr.operands.map Operand.argument) = instr.effects.operands := by
    rw [List.zipWith_map_right]
    simp [effects]
  have hlocation : instr.raw.location? = instr.location? := by
    cases instr <;>
      simp [RawInstr.location?, raw, opcode, operands, location?,
        Opcode.memoryOperand?, Argument.register?, Argument.signed?]
  have hsize : (instr.raw.memoryValue?.map Argument.byteCount).getD 0 =
      instr.accessSize := by
    cases instr <;>
      simp [RawInstr.memoryValue?, raw, opcode, operands, accessSize,
        Argument.byteCount, Operand.byteCount, RegisterSlice.byteCount]
    rfl
  simp only [RawInstr.effects, hlocation, hsize]
  simp only [raw, huses]
  rfl

end Instr

end SymbolicMachine
