import SymbolicMachine.Access
import SymbolicMachine.Architecture.Amd64
import SymbolicMachine.Replay
import SymbolicMachine.Proofs.Bit.Operators
import SymbolicMachine.Proofs.Word.Value
import SymbolicMachine.Word.Sized
import SymbolicMachine.Proofs.Word.Adder
import SymbolicMachine.Proofs.Session
import SymbolicMachine.Proofs.Word.WellFormed
import SymbolicMachine.Proofs.Word.Arithmetic
import SymbolicMachine.Proofs.Word.Shift
import SymbolicMachine.Proofs.Word.Construction
import SymbolicMachine.Proofs.Word.Tags
import SymbolicMachine.Proofs.Word.Subtraction
import SymbolicMachine.Proofs.Word.Expressions
import SymbolicMachine.Proofs.Memory.Regions
import SymbolicMachine.Proofs.Memory.Coherence
import SymbolicMachine.Proofs.Machine.Execution
import SymbolicMachine.Proofs.Machine.Addends
import SymbolicMachine.Proofs.Access.Registers
import SymbolicMachine.Proofs.Access.Noninterference
import SymbolicMachine.Proofs.Access.Memory
import SymbolicMachine.Proofs.Access.Distances
import SymbolicMachine.Proofs.Machine.Choice
import SymbolicMachine.Proofs.Machine.Simulation
import SymbolicMachine.Proofs.Bit.Identity
import SymbolicMachine.Proofs.Bit.Folding
import SymbolicMachine.Proofs.Machine.RegisterFile
import SymbolicMachine.Proofs.Machine.Shifts
import SymbolicMachine.Proofs.Memory.Offsets
import SymbolicMachine.Proofs.Machine.Completion
import SymbolicMachine.Proofs.Machine.ModularArithmetic
import SymbolicMachine.Proofs.Bit.Renumbering
import SymbolicMachine.Proofs.Machine.ShiftAmounts
import SymbolicMachine.Proofs.Word.Renumbering
import SymbolicMachine.Proofs.Machine.ReadBack
import SymbolicMachine.Proofs.Machine.Spill
import SymbolicMachine.Proofs.Machine.PartialWrites
import SymbolicMachine.Proofs.Machine.Tracking
import SymbolicMachine.Proofs.Memory.Separation
import SymbolicMachine.Proofs.Memory.Listing
import SymbolicMachine.Proofs.Pointer.Canonical
import SymbolicMachine.Proofs.Word.MatchedDifference
import SymbolicMachine.Proofs.Pointer.OppositeDistances
import SymbolicMachine.Proofs.Instr.Arguments
import SymbolicMachine.Proofs.Machine.CheckedExecution
import SymbolicMachine.Proofs.Register.Naming
import SymbolicMachine.Proofs.Word.Variables
import SymbolicMachine.Proofs.Machine.Freshness
import SymbolicMachine.Proofs.Memory.Reanchoring
import SymbolicMachine.Proofs.Machine.IndependentWrites
import SymbolicMachine.Proofs.Word.Concretization
import SymbolicMachine.Proofs.Word.Worklist
import SymbolicMachine.Proofs.Bit.NormalForm
import SymbolicMachine.Proofs.Machine.Cancellation
import SymbolicMachine.Proofs.Word.Numerals
import SymbolicMachine.Proofs.Word.Rendering
import SymbolicMachine.Proofs.Word.Parts
import SymbolicMachine.Proofs.Machine.Displacements
