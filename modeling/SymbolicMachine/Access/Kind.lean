/-!
# Kinds of access

Operands, memory and the questions of the access analysis all come as reads, as
writes, or as both.
-/

namespace SymbolicMachine

inductive AccessKind where
  | read
  | write
  | readWrite
  deriving DecidableEq, Repr

namespace AccessKind

def reads : AccessKind → Bool
  | .read | .readWrite => true
  | .write => false

def writes : AccessKind → Bool
  | .write | .readWrite => true
  | .read => false

end AccessKind

end SymbolicMachine
