import SymbolicMachine.Proofs.Bit.Operators
import SymbolicMachine.Proofs.Word.Value

/-!
# The adder

Operations on lists of bits work position by position.  `Zipped` and `Carried`
say of each position which bits its result was built from; what an adder
computes, and which variables its results can have, follows from them by
induction on the positions.
-/

namespace SymbolicMachine

structure Bit.WellFormed (arena : Arena) (vars : Var → Prop) (b : Bit) :
    Prop where
  fits : b.Fits arena
  normal : b.Normal
  vars : ∀ v, b.Mentions v → vars v

namespace Bit

variable {arena later : Arena} {vars : Var → Prop}

@[simp] theorem wellFormed_literal (value : Bool) :
    (literal value).WellFormed arena vars :=
  ⟨trivial, trivial, fun _ hv => hv.elim⟩

theorem WellFormed.mono (hle : arena <+: later) {b : Bit}
    (h : b.WellFormed arena vars) :
    b.WellFormed later vars :=
  ⟨h.fits.mono hle, h.normal, h.vars⟩

theorem WellFormed.weaken {wider : Var → Prop} (hvars : ∀ v, vars v → wider v)
    {b : Bit} (h : b.WellFormed arena vars) : b.WellFormed arena wider :=
  ⟨h.fits, h.normal, fun v hv => hvars v (h.vars v hv)⟩

theorem BuiltFrom.wellFormed {operands : List Bit} {meaning : Valuation → Bool}
    {b : Bit} (h : b.BuiltFrom arena operands meaning)
    (hoperands : ∀ x ∈ operands, x.WellFormed arena vars) :
    b.WellFormed arena vars where
  fits := h.fits
  normal := h.normal fun x hx => (hoperands x hx).normal
  vars := by
    intro v hv
    obtain ⟨x, hx, hxv⟩ := h.mentions v hv
    exact (hoperands x hx).vars v hxv

end Bit

namespace Word

/-! ## Position by position -/

inductive Zipped (rel : Bit → Bit → Bit → Prop) :
    List Bit → List Bit → List Bit → Prop
  | nil : Zipped rel [] [] []
  | cons {x y z : Bit} {xs ys zs : List Bit} : rel x y z → Zipped rel xs ys zs →
      Zipped rel (x :: xs) (y :: ys) (z :: zs)

namespace Zipped

theorem imp {rel rel' : Bit → Bit → Bit → Prop} {xs ys zs : List Bit}
    (h : Zipped rel xs ys zs) (hrel : ∀ x y z, rel x y z → rel' x y z) :
    Zipped rel' xs ys zs := by
  induction h with
  | nil => exact .nil
  | cons hhead _ ih => exact .cons (hrel _ _ _ hhead) ih

theorem length_eq {rel : Bit → Bit → Bit → Prop} {xs ys zs : List Bit}
    (h : Zipped rel xs ys zs) : zs.length = xs.length := by
  induction h with
  | nil => rfl
  | cons _ _ ih => simp [ih]

theorem map_eval {rel : Bit → Bit → Bit → Prop} {op : Bool → Bool → Bool}
    {xs ys zs : List Bit} (h : Zipped rel xs ys zs) (valuation : Valuation)
    (hrel : ∀ x y z, rel x y z →
      z.eval valuation = op (x.eval valuation) (y.eval valuation)) :
    zs.map (Bit.eval valuation) =
      List.zipWith op (xs.map (Bit.eval valuation))
        (ys.map (Bit.eval valuation)) := by
  induction h with
  | nil => rfl
  | cons hhead _ ih => simp [hrel _ _ _ hhead, ih]

theorem forall_result {rel : Bit → Bit → Bit → Prop} {good : Bit → Prop}
    {xs ys zs : List Bit} (h : Zipped rel xs ys zs) (hxs : ∀ x ∈ xs, good x)
    (hys : ∀ y ∈ ys, good y)
    (hrel : ∀ x y z, rel x y z → good x → good y → good z) :
    ∀ z ∈ zs, good z := by
  induction h with
  | nil => simp
  | cons hhead _ ih =>
      simp only [List.forall_mem_cons] at hxs hys ⊢
      exact ⟨hrel _ _ _ hhead hxs.1 hys.1, ih hxs.2 hys.2⟩

end Zipped

theorem zipBits_yields {op : Bit → Bit → NodeM Bit}
    {rel : Arena → Bit → Bit → Bit → Prop} {arena : Arena} {xs ys : List Bit}
    (hop : ∀ {later x y}, arena <+: later → x.Fits later → y.Fits later →
      NodeM.Yields (op x y) later fun last z => rel last x y z)
    (hmono : ∀ {later last x y z}, later <+: last → rel later x y z →
      rel last x y z)
    (hlength : xs.length = ys.length) (hxs : ∀ x ∈ xs, x.Fits arena)
    (hys : ∀ y ∈ ys, y.Fits arena) :
    NodeM.Yields (zipBits op xs ys) arena fun later zs => Zipped (rel later) xs
      ys zs := by
  induction xs generalizing ys arena with
  | nil =>
      obtain rfl : ys = [] := List.length_eq_zero_iff.mp hlength.symm
      exact NodeM.yields_pure .nil
  | cons x xs ih =>
      cases ys with
      | nil => simp at hlength
      | cons y ys =>
          simp only [List.forall_mem_cons] at hxs hys
          refine (hop List.prefix_rfl hxs.1 hys.1).bind
            fun arena₁ z hle₁ hz => ?_
          have htail :=
            ih (fun hle => hop (hle₁.trans hle)) (by simpa using hlength)
              (fun x' hx' => (hxs.2 x' hx').mono hle₁)
                (fun y' hy' => (hys.2 y' hy').mono hle₁)
          refine htail.bind fun arena₂ zs hle₂ hzs => ?_
          exact NodeM.yields_pure (.cons (hmono hle₂ hz) hzs)

def XorRel (arena : Arena) (x y z : Bit) : Prop :=
  z.BuiltFrom arena [x, y] (fun valuation => x.eval valuation ^^
    y.eval valuation) ∧
    (x.Normal → y.Normal → Bit.AllVars x y z ∨ (z.isLiteral = true ∧
      x.SameVars y))

theorem XorRel.mono {arena later : Arena} {x y z : Bit} (hle : arena <+: later)
    (h : XorRel arena x y z) : XorRel later x y z :=
  ⟨h.1.mono hle, h.2⟩

private theorem zipXor_yields {arena : Arena} {xs ys : List Bit}
    (hlength : xs.length = ys.length) (hxs : ∀ x ∈ xs, x.Fits arena)
    (hys : ∀ y ∈ ys, y.Fits arena) :
    NodeM.Yields (zipBits Bit.xor xs ys) arena fun later zs =>
      Zipped (XorRel later) xs ys zs :=
  zipBits_yields (fun _ hx hy => Bit.xor_yields hx hy) XorRel.mono
    hlength hxs hys

/-! ## Carries -/

/-- `carries` lists `carry` and the carry out of every position. -/
inductive Carried (arena : Arena) : Bit → List Bit → List Bit → List Bit → Prop
  | nil (carry : Bit) : Carried arena carry [] [] [carry]
  | cons {carry next x y : Bit} {xs ys carries : List Bit} :
      next.BuiltFrom arena [x, y, carry] (fun valuation =>
        Bool.atLeastTwo (x.eval valuation) (y.eval valuation)
          (carry.eval valuation)) →
      Carried arena next xs ys carries →
        Carried arena carry (x :: xs) (y :: ys) (carry :: carries)

namespace Carried

theorem ne_nil {arena : Arena} {carry : Bit} {xs ys carries : List Bit}
    (h : Carried arena carry xs ys carries) : carries ≠ [] := by
  cases h <;> simp

theorem length_eq {arena : Arena} {carry : Bit} {xs ys carries : List Bit}
    (h : Carried arena carry xs ys carries) :
    carries.length = xs.length + 1 := by
  induction h with
  | nil => rfl
  | cons _ _ ih => simp [ih]

theorem mono {arena later : Arena} {carry : Bit} {xs ys carries : List Bit}
    (hle : arena <+: later) (h : Carried arena carry xs ys carries) :
    Carried later carry xs ys carries := by
  induction h with
  | nil carry => exact .nil carry
  | cons hnext _ ih => exact .cons (hnext.mono hle) ih

theorem wellFormed {arena : Arena} {vars : Var → Prop} {carry : Bit}
    {xs ys carries : List Bit} (h : Carried arena carry xs ys carries)
    (hcarry : carry.WellFormed arena vars)
    (hxs : ∀ x ∈ xs, x.WellFormed arena vars)
    (hys : ∀ y ∈ ys, y.WellFormed arena vars) :
    ∀ k ∈ carries, k.WellFormed arena vars := by
  induction h with
  | nil => simpa using hcarry
  | cons hnext _ ih =>
      simp only [List.forall_mem_cons] at hxs hys ⊢
      refine ⟨hcarry, ih ?_ hxs.2 hys.2⟩
      exact hnext.wellFormed (by simp [hxs.1, hys.1, hcarry])

end Carried

theorem carries_yields {arena : Arena} {carry : Bit} {xs ys : List Bit}
    (hlength : xs.length = ys.length) (hcarry : carry.Fits arena)
    (hxs : ∀ x ∈ xs, x.Fits arena) (hys : ∀ y ∈ ys, y.Fits arena) :
    NodeM.Yields (carries carry xs ys) arena fun later ks =>
      Carried later carry xs ys ks ∧ ∀ k ∈ ks, k.Fits later := by
  induction xs generalizing ys arena carry with
  | nil =>
      obtain rfl : ys = [] := List.length_eq_zero_iff.mp hlength.symm
      exact NodeM.yields_pure ⟨.nil carry, by simpa using hcarry⟩
  | cons x xs ih =>
      cases ys with
      | nil => simp at hlength
      | cons y ys =>
          simp only [List.forall_mem_cons] at hxs hys
          refine (Bit.majority_yields hxs.1 hys.1 hcarry).bind
            fun arena₁ next hle₁ hnext => ?_
          have htail := ih (by simpa using hlength) hnext.fits
            (fun x' hx' => (hxs.2 x' hx').mono hle₁)
              (fun y' hy' => (hys.2 y' hy').mono hle₁)
          refine htail.bind fun arena₂ ks hle₂ ⟨hks, hfits⟩ => ?_
          refine NodeM.yields_pure ⟨.cons (hnext.mono hle₂) hks, ?_⟩
          simp only [List.forall_mem_cons]
          exact ⟨hcarry.mono (hle₁.trans hle₂), hfits⟩

/-! ## Sums -/

inductive Added (arena : Arena) (xs ys sum : List Bit) (carryOut : Bit) : Prop
  | intro (carries halves : List Bit) :
      Carried arena (.literal false) xs ys carries →
      Zipped (XorRel arena) xs ys halves →
      Zipped (XorRel arena) halves carries.dropLast sum →
      carryOut = carries.getLast?.getD (.literal false) →
      Added arena xs ys sum carryOut

/-- The ripple-carry adder, from any carry into the lowest position. -/
theorem natOfBits_summed {arena : Arena} {carry : Bit}
    {xs ys halves carries sum : List Bit}
    (hcarried : Carried arena carry xs ys carries)
    (hhalved : Zipped (XorRel arena) xs ys halves)
    (hsummed : Zipped (XorRel arena) halves carries.dropLast sum)
    (valuation : Valuation) :
    natOfBits (sum.map (Bit.eval valuation)) +
        2 ^ xs.length *
          ((carries.getLast?.getD (.literal false)).eval valuation).toNat =
      natOfBits (xs.map (Bit.eval valuation)) +
        natOfBits (ys.map (Bit.eval valuation)) +
        (carry.eval valuation).toNat := by
  induction hcarried generalizing halves sum with
  | nil carry =>
      cases hhalved
      cases hsummed
      simp
  | @cons carry next x y xs ys carries hnext htail ih =>
      rw [List.dropLast_cons_of_ne_nil htail.ne_nil] at hsummed
      cases hhalved with
      | cons hhalf hhalves =>
          cases hsummed with
          | @cons half _ s _ _ sums hsum hsums =>
              have hrest := ih hhalves hsums
              have hlast : (carry :: carries).getLast? = carries.getLast? := by
                cases hnil : carries with
                | nil => exact absurd hnil htail.ne_nil
                | cons k ks => simp [List.getLast?_cons]
              have hbit : s.eval valuation =
                  (x.eval valuation ^^ y.eval valuation ^^
                    carry.eval valuation) := by
                rw [hsum.1.eval_eq, hhalf.1.eval_eq]
              rw [hnext.eval_eq] at hrest
              simp only [List.map_cons, natOfBits_cons, hlast, hbit,
                List.length_cons]
              generalize natOfBits (List.map (Bit.eval valuation) sums) =
                lowSum at *
              generalize natOfBits (List.map (Bit.eval valuation) xs) =
                lowX at *
              generalize natOfBits (List.map (Bit.eval valuation) ys) =
                lowY at *
              generalize ((carries.getLast?.getD (.literal false)).eval
                valuation).toNat = out at *
              have hpow : 2 ^ (xs.length + 1) * out =
                  2 * (2 ^ xs.length * out) := by ring
              rw [hpow]
              generalize 2 ^ xs.length * out = high at *
              generalize x.eval valuation = bitX at *
              generalize y.eval valuation = bitY at *
              generalize carry.eval valuation = bitC at *
              cases bitX <;> cases bitY <;> cases bitC <;>
                simp [Bool.atLeastTwo] at hrest ⊢ <;> omega

namespace Added

variable {arena : Arena} {xs ys sum : List Bit} {carryOut : Bit}

theorem mono {later : Arena} (hle : arena <+: later)
    (h : Added arena xs ys sum carryOut) :
    Added later xs ys sum carryOut := by
  obtain ⟨carries, halves, hcarried, hhalved, hsummed, hout⟩ := h
  exact .intro carries halves (hcarried.mono hle)
    (hhalved.imp fun _ _ _ => XorRel.mono hle)
    (hsummed.imp fun _ _ _ => XorRel.mono hle) hout

theorem length_eq (h : Added arena xs ys sum carryOut) :
    sum.length = xs.length := by
  obtain ⟨carries, halves, _, hhalved, hsummed, _⟩ := h
  rw [hsummed.length_eq, hhalved.length_eq]

theorem natOfBits_eq (h : Added arena xs ys sum carryOut)
    (valuation : Valuation) :
    natOfBits (sum.map (Bit.eval valuation)) +
      2 ^ xs.length * (carryOut.eval valuation).toNat =
      natOfBits (xs.map (Bit.eval valuation)) +
        natOfBits (ys.map (Bit.eval valuation)) := by
  obtain ⟨carries, halves, hcarried, hhalved, hsummed, rfl⟩ := h
  simpa using natOfBits_summed hcarried hhalved hsummed valuation

theorem natOfBits_sum (h : Added arena xs ys sum carryOut)
    (valuation : Valuation) :
    natOfBits (sum.map (Bit.eval valuation)) =
      (natOfBits (xs.map (Bit.eval valuation)) +
        natOfBits (ys.map (Bit.eval valuation))) %
        2 ^ xs.length := by
  have hlt := natOfBits_lt (sum.map (Bit.eval valuation))
  rw [List.length_map, h.length_eq] at hlt
  let total := natOfBits (sum.map (Bit.eval valuation))
  let top := (carryOut.eval valuation).toNat
  symm
  calc
    (natOfBits (xs.map (Bit.eval valuation)) +
        natOfBits (ys.map (Bit.eval valuation))) % 2 ^ xs.length
        = (total + 2 ^ xs.length * top) % 2 ^ xs.length := by
          rw [← h.natOfBits_eq valuation]
    _ = total := by
      rw [Nat.add_mul_mod_self_left, Nat.mod_eq_of_lt hlt]

theorem wellFormed {vars : Var → Prop} (h : Added arena xs ys sum carryOut)
    (hxs : ∀ x ∈ xs, x.WellFormed arena vars)
    (hys : ∀ y ∈ ys, y.WellFormed arena vars) :
    (∀ s ∈ sum, s.WellFormed arena vars) ∧ carryOut.WellFormed arena vars := by
  obtain ⟨carries, halves, hcarried, hhalved, hsummed, rfl⟩ := h
  have hxor : ∀ x y z,
      XorRel arena x y z → x.WellFormed arena vars → y.WellFormed arena vars →
      z.WellFormed arena vars := by
    intro x y z hz hx hy
    exact hz.1.wellFormed (by simp [hx, hy])
  have hcarries := hcarried.wellFormed (Bit.wellFormed_literal false) hxs hys
  have hhalves := hhalved.forall_result hxs hys hxor
  refine ⟨hsummed.forall_result hhalves (fun k hk => ?_) hxor, ?_⟩
  · exact hcarries k (List.mem_of_mem_dropLast hk)
  · cases hlast : carries.getLast? with
    | none => exact Bit.wellFormed_literal false
    | some k => exact hcarries k (List.mem_of_getLast? hlast)

end Added

theorem addBits_yields {arena : Arena} {xs ys : List Bit}
    (hlength : xs.length = ys.length) (hxs : ∀ x ∈ xs, x.Fits arena)
    (hys : ∀ y ∈ ys, y.Fits arena) :
    NodeM.Yields (addBits xs ys) arena fun later result =>
      Added later xs ys result.1 result.2 := by
  refine (carries_yields hlength (Bit.fits_literal arena false) hxs hys).bind
    fun arena₁ ks hle₁ ⟨hks, hksFits⟩ => ?_
  refine (zipXor_yields hlength (fun x hx => (hxs x hx).mono hle₁)
    (fun y hy => (hys y hy).mono hle₁)).bind
    fun arena₂ halves hle₂ hhalves => ?_
  have hhalvesFits : ∀ z ∈ halves, z.Fits arena₂ :=
    hhalves.forall_result (fun x hx => (hxs x hx).mono (hle₁.trans hle₂))
      (fun y hy => (hys y hy).mono (hle₁.trans hle₂))
        fun x y z hz _ _ => hz.1.fits
  have hsumLength : halves.length = ks.dropLast.length := by
    rw [hhalves.length_eq, List.length_dropLast, hks.length_eq,
      Nat.add_sub_cancel]
  refine (zipXor_yields hsumLength hhalvesFits
    (fun k hk => (hksFits k (List.mem_of_mem_dropLast hk)).mono hle₂)).bind
    fun arena₃ sum hle₃ hsum => ?_
  refine NodeM.yields_pure (.intro ks halves ?_ ?_ hsum rfl)
  · exact hks.mono (hle₂.trans hle₃)
  · exact hhalves.imp fun x y z => XorRel.mono hle₃

end Word

end SymbolicMachine
