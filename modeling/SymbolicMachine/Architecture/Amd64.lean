import SymbolicMachine.Architecture

/-!
# The amd64 registers

Sixteen general purpose registers with their narrower forms, the flags, and the
instruction pointer.  Registers are numbered from one in the order of `names`.
-/

namespace SymbolicMachine.Amd64

def names : List String :=
  ["rax", "eax", "ax", "ah", "al",
   "rbx", "ebx", "bx", "bh", "bl",
   "rcx", "ecx", "cx", "ch", "cl",
   "rdx", "edx", "dx", "dh", "dl",
   "rdi", "edi", "di", "dil",
   "rsi", "esi", "si", "sil",
   "rbp", "ebp", "bp", "bpl",
   "rsp", "esp", "sp", "spl",
   "r8", "r8d", "r8w", "r8b",
   "r9", "r9d", "r9w", "r9b",
   "r10", "r10d", "r10w", "r10b",
   "r11", "r11d", "r11w", "r11b",
   "r12", "r12d", "r12w", "r12b",
   "r13", "r13d", "r13w", "r13b",
   "r14", "r14d", "r14w", "r14b",
   "r15", "r15d", "r15w", "r15b",
   "eflags",
   "rip"]

def rbp : RegisterId := ⟨29⟩

def rsp : RegisterId := ⟨33⟩

def eflags : RegisterId := ⟨69⟩

def ofName? (name : String) : Option RegisterId :=
  (names.idxOf? name.toLower).map fun index => ⟨.ofNat (index + 1)⟩

def name (id : RegisterId) : String :=
  match id.number.toNat with
  | 0 => id.text
  | index + 1 => names[index]?.getD id.text

/--
Five registers from `first` on: eight bytes, four, two, the second byte, the
first byte.
-/
def highByteFamily (first : Nat) : List (RegisterId × Mapping) :=
  let id (index : Nat) : RegisterId := ⟨.ofNat (first + index)⟩
  let base := id 0
  [(id 0, ⟨base, 0, 8⟩), (id 1, ⟨base, 0, 4⟩), (id 2, ⟨base, 0, 2⟩),
    (id 3, ⟨base, 1, 1⟩), (id 4, ⟨base, 0, 1⟩)]

/-- Four registers from `first` on: eight bytes, four, two, one. -/
def lowByteFamily (first : Nat) : List (RegisterId × Mapping) :=
  let id (index : Nat) : RegisterId := ⟨.ofNat (first + index)⟩
  let base := id 0
  [(id 0, ⟨base, 0, 8⟩), (id 1, ⟨base, 0, 4⟩), (id 2, ⟨base, 0, 2⟩),
    (id 3, ⟨base, 0, 1⟩)]

/--
The flags fill a register of their own; the instruction pointer has no entry.
-/
def table : RegisterTable where
  entries :=
    [1, 6, 11, 16].flatMap highByteFamily ++
      (List.range' 21 12 4).flatMap lowByteFamily ++ [(eflags, ⟨eflags, 0, 8⟩)]

/--
A write to the low half of a general purpose register clears the high half.
-/
def partialWrite (slice : RegisterSlice) : PartialWrite :=
  if slice.offset = 0 ∧ slice.count = 32 ∧ slice.base ≠ eflags then .zeroExtend
  else .merge

def plain : Architecture where
  table := table
  name := name

def standard : Architecture :=
  { plain with
    restricted := fun id => id = rsp
    partialWrite := partialWrite }

def framed : Architecture :=
  { standard with restricted := fun id => id = rsp ∨ id = rbp }

end SymbolicMachine.Amd64
