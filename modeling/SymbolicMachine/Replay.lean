import SymbolicMachine.Machine

/-!
# Replays

A replay runs a block from a new machine and keeps the state before every
instruction, so the value of a register can be asked for at each of them.
-/

namespace SymbolicMachine

structure Replay where
  /-- The state before each instruction. -/
  states : List Machine
  final : Machine

namespace Replay

def runFrom (arch : Architecture) (machine : Machine) : Block → SymM Replay
  | [] => return ⟨[], machine⟩
  | instr :: block => do
      let next ← machine.execute arch instr
      let replay ← runFrom arch next block
      return { replay with states := machine :: replay.states }

def run (arch : Architecture) (block : Block) : SymM Replay :=
  runFrom arch {} block

/-- The first instruction that is refused ends the run. -/
def runRawFrom (arch : Architecture) (machine : Machine) :
    List RawInstr → SymM (Except IllegalInstr Replay)
  | [] => return .ok ⟨[], machine⟩
  | instr :: block => do
      match ← machine.executeRaw arch instr with
      | .error illegal => return .error illegal
      | .ok next =>
          return (← runRawFrom arch next block).map fun replay =>
            { replay with states := machine :: replay.states }

def runRaw (arch : Architecture) (block : List RawInstr) :
    SymM (Except IllegalInstr Replay) :=
  runRawFrom arch {} block

/-- The state before instruction `index`; past the last one, the final state. -/
def state? (replay : Replay) (index : Nat) : Option Machine :=
  (replay.states ++ [replay.final])[index]?

def trace (replay : Replay) (index : Nat) (slice : RegisterSlice) :
    SymM Word := do
  match replay.state? index with
  | some machine => return machine.readRegister slice
  | none =>
      record .warn
        s!"instruction {index} was not replayed, tracing from the initial state"
      return slice.initial

end Replay

end SymbolicMachine
