import SymbolicMachine.Instr

/-!
# Instructions as they are given

An opcode comes with a list of arguments.  `RawInstr.make` refuses arguments
that do not fit the opcode and reports the first problem; the others are kept as
they are.  `RawInstr.typed?` is the instruction that they stand for.
-/

namespace SymbolicMachine

inductive Argument where
  | register (slice : RegisterSlice)
  | immediate (value : UInt64) (width : Nat)
  deriving DecidableEq, Repr

structure RawInstr where
  opcode : Opcode
  arguments : List Argument
  deriving DecidableEq, Repr

inductive Illegality where
  | operandMissing (index : Nat)
  | operandNotPermitted (index : Nat)
  | registerRequired (index : Nat)
  | immediateRequired (index : Nat)
  | immediateSize (index : Nat)
  deriving DecidableEq, Repr

structure IllegalInstr where
  opcode : Opcode
  illegality : Illegality
  deriving DecidableEq, Repr

def Illegality.message : Illegality → String
  | .operandMissing index => s!"operand {index} is missing"
  | .operandNotPermitted index => s!"operand {index} is not permitted"
  | .registerRequired index => s!"operand {index} must be a register"
  | .immediateRequired index => s!"operand {index} must be an immediate"
  | .immediateSize index => s!"operand {index} has an invalid immediate size"

def IllegalInstr.message (illegal : IllegalInstr) : String :=
  s!"illegal {illegal.opcode.mnemonic} instruction: {illegal.illegality.message}"

def refuse (condition : Prop) [Decidable condition] (illegality : Illegality) :
    Except Illegality Unit :=
  if condition then .error illegality else .ok ()

/-! ## Arguments -/

namespace Argument

def ofInt64 (value : Int64) : Argument :=
  .immediate value.toUInt64 64

def register? : Argument → Option RegisterSlice
  | .register slice => some slice
  | .immediate .. => none

def signed? : Argument → Option Int64
  | .register _ => none
  | .immediate value width => signedValue? value width

def width : Argument → Nat
  | .register slice => slice.count
  | .immediate _ width => width

def byteCount (argument : Argument) : Nat :=
  (argument.width + 7) / 8

def operand? : Argument → Option Operand
  | .register slice => some (.register slice)
  | .immediate value width =>
      if h : 0 < width ∧ width ≤ 64 then some (.immediate ⟨value, width, h⟩)
      else none

def sized : Argument → Bool
  | .register _ => true
  | .immediate _ width => 0 < width ∧ width ≤ 64

def check (index : Nat) (kind : AccessKind) (argument : Argument) :
    Except Illegality Unit := do
  refuse (¬ argument.sized) (.immediateSize index)
  refuse (kind.writes ∧ argument.register?.isNone) (.registerRequired index)

def checkAll : Nat → List AccessKind → List Argument → Except Illegality Unit
  | index, kind :: kinds, argument :: arguments => do
      argument.check index kind
      checkAll (index + 1) kinds arguments
  | _, _, _ => .ok ()

def checkLocation (arguments : List Argument) (base : Nat) :
    Except Illegality Unit := do
  refuse (arguments[base]?.bind register?).isNone (.registerRequired base)
  refuse (arguments[base + 1]?.bind register?).isSome
    (.immediateRequired (base + 1))

end Argument

/-! ## Checked instructions -/

namespace RawInstr

def check (opcode : Opcode) (arguments : List Argument) :
    Except Illegality Unit := do
  let expected := opcode.signature
  refuse (arguments.length < expected.length)
    (.operandMissing arguments.length)
  refuse (expected.length < arguments.length)
    (.operandNotPermitted expected.length)
  Argument.checkAll 0 expected arguments
  opcode.memoryOperand?.forM (Argument.checkLocation arguments)

/-- The instruction with the given opcode and arguments, if they fit. -/
def make (opcode : Opcode) (arguments : List Argument) :
    Except IllegalInstr RawInstr :=
  match check opcode arguments with
  | .ok () => .ok ⟨opcode, arguments⟩
  | .error illegality => .error ⟨opcode, illegality⟩

def typed? : RawInstr → Option Instr
  | ⟨.nop, []⟩ => some .nop
  | ⟨.move extension, [.register target, source]⟩ =>
      source.operand?.map (.move extension target)
  | ⟨.unary op, [.register target]⟩ => some (.unary op target)
  | ⟨.binary op, [.register target, source]⟩ =>
      source.operand?.map (.binary op target)
  | ⟨.load, [.register target, .register base, displacement]⟩ =>
      match displacement.operand? with
      | some (.immediate displacement) => some (.load target base displacement)
      | _ => none
  | ⟨.store, [.register base, displacement, source]⟩ =>
      match displacement.operand? with
      | some (.immediate displacement) =>
          source.operand?.map (.store base displacement)
      | _ => none
  | _ => none

end RawInstr

end SymbolicMachine
