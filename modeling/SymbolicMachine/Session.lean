import SymbolicMachine.Bit

/-!
# Sessions

Everything that outlives a single operation is kept in a session: the number of
the next node, the number of the next fresh variable, and the events recorded so
far.  `SymM` threads a session through a computation that may stop with a fault.
A fault leaves the session as it was when the fault arose.
-/

namespace SymbolicMachine

/--
Why a computation stopped.  A fault is a misuse of an operation or a number out
of range.
-/
inductive Fault where
  /-- A tagged value has no variable with this index. -/
  | tagIndex (index : Nat)
  /-- A word cannot be cut into parts without bits. -/
  | emptyPart
  /--
  The operands of a bitwise or arithmetic operation have different widths.
  -/
  | widthMismatch (left right : Nat)
  | bitIndex (index width : Nat)
  /-- Memory holds whole bytes only. -/
  | partialByte (width : Nat)
  /-- A byte would lie at an offset that a signed 64-bit number cannot hold. -/
  | offsetOverflow
  /-- A number of bits does not fit in 64 bits. -/
  | sizeOverflow
  /-- No word is that wide. -/
  | widthLimit (width : Nat)
  deriving DecidableEq, Repr

def Fault.message : Fault → String
  | .tagIndex index => s!"bit index {index} exceeds tagged value width"
  | .emptyPart => "part size must be non-zero"
  | .widthMismatch left right => s!"operands have {left} and {right} bits"
  | .bitIndex index width => s!"no bit {index} in a word of {width} bits"
  | .partialByte width => s!"{width} bits are not a whole number of bytes"
  | .offsetOverflow => "byte offset out of range"
  | .sizeOverflow => "number of bits out of range"
  | .widthLimit width => s!"a word cannot have {width} bits"

def taggedVar (tag index : Nat) : Except Fault Var :=
  if index < Var.indicesPerTag then .ok (.ofTag tag index)
  else .error (.tagIndex index)

inductive Level where
  | trace
  | debug
  | info
  | warn
  deriving DecidableEq, Repr

def Level.name : Level → String
  | .trace => "trace"
  | .debug => "debug"
  | .info => "info"
  | .warn => "warn"

structure Event where
  level : Level
  text : String
  deriving DecidableEq, Repr

structure Session where
  nextNode : Nat := 0
  nextVar : Nat := 0
  events : Array Event := #[]
  deriving Repr

abbrev SymM := EStateM Fault Session

def SymM.ofNodeM {α : Type} (x : NodeM α) : SymM α :=
  modifyGet fun session =>
    let (a, nextNode) := x.run session.nextNode
    (a, { session with nextNode })

instance : MonadLift NodeM SymM := ⟨SymM.ofNodeM⟩

def SymM.ofExcept {α : Type} : Except Fault α → SymM α
  | .ok a => pure a
  | .error fault => throw fault

instance : MonadLift (Except Fault) SymM := ⟨SymM.ofExcept⟩

def freshVars (count : Nat) : SymM (List Var) :=
  modifyGet fun session =>
    ((List.range' session.nextVar count).map Var.mk,
      { session with nextVar := session.nextVar + count })

def record (level : Level) (text : String) : SymM Unit :=
  modify fun session =>
    { session with events := session.events.push ⟨level, text⟩ }

theorem SymM.ofNodeM_apply {α : Type} (x : NodeM α) (session : Session) :
    SymM.ofNodeM x session =
      .ok (x session.nextNode).1
        { session with nextNode := (x session.nextNode).2 } := rfl

theorem record_apply (level : Level) (text : String) (session : Session) :
    record level text session =
      .ok () { session with events := session.events.push ⟨level, text⟩ } := rfl

end SymbolicMachine
