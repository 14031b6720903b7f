/-!
# Register identifiers

Registers are numbered.  The number zero names no register.
-/

namespace SymbolicMachine

structure RegisterId where
  number : UInt16
  deriving DecidableEq, Repr

namespace RegisterId

instance : Ord RegisterId := ⟨compareOn number⟩

instance : Std.TransOrd RegisterId :=
  inferInstanceAs (Std.TransCmp (compareOn number))

instance : Std.LawfulEqOrd RegisterId where
  eq_of_compare {a b} h := by
    have hcompare : compare a.number b.number = .eq := h
    have hnumber := Std.LawfulEqCmp.eq_of_compare hcompare
    cases a
    cases b
    simp_all

def invalid : RegisterId := ⟨0⟩

def text (id : RegisterId) : String :=
  s!"reg{id.number}"

/-- The tag of the variables that hold the initial value of the register. -/
def tag (id : RegisterId) : Nat :=
  id.number.toNat

def ofTag? (tag : Nat) : Option RegisterId :=
  if tag < UInt16.size then some ⟨.ofNat tag⟩ else none

@[simp] theorem ofTag?_tag (id : RegisterId) : ofTag? id.tag = some id := by
  simp [ofTag?, tag, id.number.toNat_lt_size]

end RegisterId

end SymbolicMachine
