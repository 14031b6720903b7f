/-!
# Variables

A variable is known by its number.  The numbers below `2 ^ 63` belong to fresh
variables, which stand for undefined data and are handed out one after the
other.  The numbers from `2 ^ 63` on belong to tagged variables: variable
`index` of the value called `tag` always has the same number, so asking for it
twice gives the same variable.
-/

namespace SymbolicMachine

structure Var where
  id : Nat
  deriving DecidableEq, Repr

namespace Var

def taggedBase : Nat := 0x8000000000000000

/-- Each tag owns this many consecutive numbers. -/
def indicesPerTag : Nat := 256

/--
There is room for `2 ^ 55` tags; a larger tag is reduced modulo this number.
-/
def tagCount : Nat := 0x80000000000000

/--
The variable number `index`, below `indicesPerTag`, of the value called `tag`.
-/
def ofTag (tag index : Nat) : Var :=
  ⟨taggedBase + tag % tagCount * indicesPerTag + index⟩

def tag? (v : Var) : Option (Nat × Nat) :=
  if v.id < taggedBase then none
  else some ((v.id - taggedBase) / indicesPerTag,
    (v.id - taggedBase) % indicesPerTag)

theorem tag?_ofTag {tag index : Nat} (htag : tag < tagCount)
    (hindex : index < indicesPerTag) :
    (ofTag tag index).tag? = some (tag, index) := by
  have hlow : ¬ (ofTag tag index).id < taggedBase := by
    simp only [ofTag]
    omega
  have hraw : (ofTag tag index).id - taggedBase =
      index + indicesPerTag * tag := by
    simp only [ofTag, Nat.mod_eq_of_lt htag, Nat.mul_comm tag]
    omega
  simp only [tag?, hlow, if_false, hraw, Option.some.injEq, Prod.mk.injEq]
  constructor
  · rw [Nat.add_mul_div_left _ _ (by decide), Nat.div_eq_of_lt hindex,
      Nat.zero_add]
  · rw [Nat.add_mul_mod_self_left, Nat.mod_eq_of_lt hindex]

theorem tag?_eq_none_iff {v : Var} : v.tag? = none ↔ v.id < taggedBase := by
  simp only [tag?]
  split <;> simp_all

end Var

end SymbolicMachine
