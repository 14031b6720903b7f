import SymbolicMachine.Proofs.Word.Literals

/-!
# Differences of matched words

Two words are matched if at each position they have two literals, or one and the
same variable. Their difference is the same under all valuations, but only
sometimes it folds to literals: the negation of the subtrahend carries through
its low zeros, and a carry from one variable does not fold with another one.  A
literal one stops the carry.  So the difference is literal exactly if there are
no two variables below the lowest literal one of the subtrahend.
-/

namespace SymbolicMachine

namespace Bit

inductive Matched : Bit → Bit → Prop
  | literal (x y : Bool) : Matched (.literal x) (.literal y)
  | var (v : Var) : Matched (.var v) (.var v)

namespace Matched

variable {p q : Bit}

private theorem iff_leaves :
    p.Matched q ↔ (p.isLiteral && q.isLiteral || p.sameLeaf q) = true := by
  constructor
  · intro h
    cases h <;> simp [isLiteral, literal?, sameLeaf]
  · intro h
    cases p with
    | literal x =>
        cases q with
        | literal y => exact .literal x y
        | _ => simp [isLiteral, literal?, sameLeaf] at h
    | var v =>
        cases q with
        | var w =>
            obtain rfl : v = w := by
              simpa [isLiteral, literal?, sameLeaf] using h
            exact .var v
        | _ => simp [isLiteral, literal?, sameLeaf] at h
    | _ => simp [isLiteral, literal?, sameLeaf] at h

instance : Decidable (p.Matched q) :=
  decidable_of_iff _ iff_leaves.symm

theorem symm (h : p.Matched q) : q.Matched p := by
  cases h with
  | literal x y => exact .literal y x
  | var v => exact .var v

theorem normal (h : p.Matched q) : p.Normal ∧ q.Normal := by
  cases h <;> exact ⟨trivial, trivial⟩

private theorem exists_over (h : p.Matched q) : ∃ v, p.Over v ∧ q.Over v := by
  cases h with
  | literal x y => exact ⟨⟨0⟩, trivial, trivial⟩
  | var v => exact ⟨v, rfl, rfl⟩

private theorem exists_total (h : p.Matched q) : ∃ total ≤ 2, ∀ valuation,
    (p.eval valuation).toNat + (!q.eval valuation).toNat = total := by
  cases h with
  | literal x y =>
      exact ⟨x.toNat + (!y).toNat, by cases x <;> cases y <;> decide,
        fun _ => rfl⟩
  | var v =>
      refine ⟨1, by decide, fun valuation => ?_⟩
      rw [eval_var]
      cases valuation v <;> rfl

end Matched

theorem Over.isLiteral_of_eval_eq {v : Var} {b : Bit} {value : Bool}
    (h : b.Over v) (hvalue : ∀ valuation, b.eval valuation = value) :
    b.isLiteral = true := by
  by_contra hopen
  rw [Bool.not_eq_true] at hopen
  have hsame := (hvalue fun _ => false).trans (hvalue fun _ => true).symm
  rcases h.eq_of_open hopen with rfl | ⟨node, rfl⟩ <;> simp at hsame

end Bit

namespace Word

variable {arena : Arena} {one : Bool} {p q k c nextK nextC difference : Bit}
  {ps qs differences : List Bit}

def varsBelowOne (bits : List Bit) : List Var :=
  (bits.takeWhile fun b => b.literal? != some true).filterMap Bit.var?

private theorem varsBelowOne_one (bits : List Bit) :
    varsBelowOne (.literal true :: bits) = [] := by
  simp [varsBelowOne, Bit.literal?]

theorem mem_varsBelowOne_cons (hq : q ≠ .literal true) {v : Var} :
    v ∈ varsBelowOne (q :: qs) ↔ q = .var v ∨ v ∈ varsBelowOne qs := by
  cases q with
  | literal value =>
      cases value with
      | false => simp [varsBelowOne, Bit.literal?, Bit.var?]
      | true => exact absurd rfl hq
  | var w => simp [varsBelowOne, Bit.literal?, Bit.var?, @eq_comm _ v w]
  | neg node x => simp [varsBelowOne, Bit.literal?, Bit.var?]
  | conj nodeX x nodeY y => simp [varsBelowOne, Bit.literal?, Bit.var?]

def OneVarBelow (w : Word) : Prop :=
  ∀ u ∈ varsBelowOne w.bits, ∀ v ∈ varsBelowOne w.bits, u = v

instance (w : Word) : Decidable w.OneVarBelow :=
  inferInstanceAs (Decidable (∀ u ∈ varsBelowOne w.bits,
    ∀ v ∈ varsBelowOne w.bits, u = v))

/-! ## One column -/

namespace Column

theorem total (h : Column arena one p q k c nextK nextC difference)
    (valuation : Valuation) :
    (p.eval valuation).toNat + (!q.eval valuation).toNat +
        (one.toNat + (k.eval valuation).toNat + (c.eval valuation).toNat) =
      (difference.eval valuation).toNat +
        2 * ((nextK.eval valuation).toNat + (nextC.eval valuation).toNat) := by
  obtain ⟨notQ, half, negQ, sum, hnot, hnextK, hhalf, hneg, hnextC, hsum,
    hdifference⟩ := h
  rw [hdifference.1.eval_eq, hsum.1.eval_eq, hnextC.eval_eq, hneg.1.eval_eq,
    hhalf.1.eval_eq, hnextK.eval_eq, hnot.1.eval_eq, Bit.eval_literal]
  cases p.eval valuation <;> cases q.eval valuation <;> cases one <;>
    cases k.eval valuation <;>
    cases c.eval valuation <;> rfl

theorem eval_nextK (h : Column arena one p q k c nextK nextC difference)
    (valuation : Valuation) :
    nextK.eval valuation =
      Bool.atLeastTwo (!q.eval valuation) one (k.eval valuation) := by
  obtain ⟨notQ, _, _, _, hnot, hnextK, _⟩ := h
  rw [hnextK.eval_eq, hnot.1.eval_eq]

theorem confined {v : Var} (h : Column arena one p q k c nextK nextC difference)
    (hp : p.Over v) (hq : q.Over v) (hk : k.Over v) (hc : c.Over v) :
    nextK.Over v ∧ nextC.Over v ∧ difference.Over v := by
  obtain ⟨notQ, half, negQ, sum, hnot, hnextK, hhalf, hneg, hnextC, hsum,
    hdifference⟩ := h
  have hone : (Bit.literal one).Over v := trivial
  have hnotOver : notQ.Over v := hnot.1.confined v (by simp [hq])
  have hhalfOver : half.Over v := hhalf.1.confined v (by simp [hnotOver, hone])
  have hnegOver : negQ.Over v := hneg.1.confined v (by simp [hhalfOver, hk])
  have hsumOver : sum.Over v := hsum.1.confined v (by simp [hp, hnegOver])
  exact ⟨hnextK.confined v (by simp [hnotOver, hone, hk]),
    hnextC.confined v (by simp [hp, hnegOver, hc]),
    hdifference.1.confined v (by simp [hsumOver, hc])⟩

end Column

/-! ## Columns that fold -/

def Steady (one : Bool) (k c : Bit) : Prop :=
  ∃ total : Bool, ∀ valuation,
    one.toNat + (k.eval valuation).toNat + (c.eval valuation).toNat =
      total.toNat

private theorem Column.steady
    (h : Column arena one p q k c nextK nextC difference)
    (hmatched : p.Matched q) (hsteady : Steady one k c) :
    (∃ value, ∀ valuation, difference.eval valuation = value) ∧
      Steady false nextK nextC := by
  obtain ⟨own, hown, hbits⟩ := hmatched.exists_total
  obtain ⟨carried, hcarried⟩ := hsteady
  have hle := carried.toNat_le
  have htotal : ∀ valuation,
      own + carried.toNat = (difference.eval valuation).toNat +
      2 * ((nextK.eval valuation).toNat + (nextC.eval valuation).toNat) := by
    intro valuation
    rw [← h.total valuation, hbits, hcarried]
  refine ⟨⟨decide ((own + carried.toNat) % 2 = 1), fun valuation => ?_⟩,
    decide (2 ≤ own + carried.toNat), fun valuation => ?_⟩
  · have hcolumn := htotal valuation
    cases hdifference : difference.eval valuation <;>
      simp [hdifference] at hcolumn ⊢ <;> omega
  · have hcolumn := htotal valuation
    have hbit := (difference.eval valuation).toNat_le
    by_cases hhigh : 2 ≤ own + carried.toNat
    · rw [decide_eq_true hhigh, Bool.toNat_false, Bool.toNat_true]
      omega
    · rw [decide_eq_false hhigh, Bool.toNat_false]
      omega

/--
The carries into the columns of a subtrahend with the given bits do not hinder
them from folding. Either its lowest literal one is passed, or the carries are
over the only variable below it.
-/
inductive Foldable (one : Bool) (k c : Bit) (qs : List Bit) : Prop
  | passed : one = false → k = .literal false → c.isLiteral = true →
      Foldable one k c qs
  | below (v : Var) : k.Over v → c.Over v → Steady one k c →
      (∀ u ∈ varsBelowOne qs, u = v) → Foldable one k c qs

private theorem Foldable.of_eval_false {v : Var} (hk : k.Over v) (hc : c.Over v)
    (hsteady : Steady false k c)
    (hfalse : ∀ valuation, k.eval valuation = false) :
    Foldable false k c qs := by
  obtain ⟨value, rfl⟩ := Bit.exists_literal (hk.isLiteral_of_eval_eq hfalse)
  obtain rfl : value = false := hfalse fun _ => false
  obtain ⟨total, htotal⟩ := hsteady
  have hvalue : ∀ valuation, c.eval valuation = total := by
    intro valuation
    have hcarry := htotal valuation
    cases hbit : c.eval valuation <;> cases total <;> simp [hbit] at hcarry ⊢
  exact .passed rfl rfl (hc.isLiteral_of_eval_eq hvalue)

/--
The difference of a column is literal, and the next column can be folded too.
-/
theorem Column.foldable (h : Column arena one p q k c nextK nextC difference)
    (hmatched : p.Matched q) (hstate : Foldable one k c (q :: qs)) :
    difference.isLiteral = true ∧ Foldable false nextK nextC qs := by
  cases hstate with
  | passed hone hk hc =>
      obtain ⟨value, rfl⟩ := Bit.exists_literal hc
      subst hone hk
      obtain ⟨v, hp, hq⟩ := hmatched.exists_over
      obtain ⟨hnextK, hnextC, hover⟩ := h.confined hp hq trivial trivial
      have hsteady : Steady false (.literal false) (.literal value) :=
        ⟨value, fun valuation => by simp⟩
      obtain ⟨⟨bit, hbit⟩, hnext⟩ := h.steady hmatched hsteady
      refine ⟨hover.isLiteral_of_eval_eq hbit,
        .of_eval_false hnextK hnextC hnext ?_⟩
      intro valuation
      rw [h.eval_nextK, Bit.eval_literal]
      cases q.eval valuation <;> rfl
  | below v hk hc hsteady hbelow =>
      obtain ⟨⟨bit, hbit⟩, hnext⟩ := h.steady hmatched hsteady
      by_cases hone : q = .literal true
      · subst hone
        have hp : p.Over v := by
          cases hmatched
          trivial
        obtain ⟨hnextK, hnextC, hover⟩ := h.confined hp trivial hk hc
        refine ⟨hover.isLiteral_of_eval_eq hbit,
          .of_eval_false hnextK hnextC hnext ?_⟩
        intro valuation
        obtain ⟨total, htotal⟩ := hsteady
        have hcarry := htotal valuation
        have hle := total.toNat_le
        rw [h.eval_nextK]
        cases one with
        | false => cases k.eval valuation <;> rfl
        | true =>
            cases hbitK : k.eval valuation with
            | false => rfl
            | true =>
                rw [hbitK, Bool.toNat_true] at hcarry
                omega
      · have hbits : p.Over v ∧ q.Over v := by
          cases hmatched with
          | literal x y => exact ⟨trivial, trivial⟩
          | var u =>
              have hu := hbelow u ((mem_varsBelowOne_cons hone).mpr (.inl rfl))
              exact ⟨hu, hu⟩
        obtain ⟨hnextK, hnextC, hover⟩ := h.confined hbits.1 hbits.2 hk hc
        refine ⟨hover.isLiteral_of_eval_eq hbit,
          .below v hnextK hnextC hnext ?_⟩
        intro u hu
        exact hbelow u ((mem_varsBelowOne_cons hone).mpr (.inr hu))

theorem Columns.isLiteral (h : Columns arena one k c ps qs differences)
    (hmatched : List.Forall₂ Bit.Matched ps qs) (hstate : Foldable one k c qs) :
    ∀ d ∈ differences, d.isLiteral = true := by
  induction h with
  | nil => simp
  | cons hcolumn _ ih =>
      cases hmatched with
      | cons hhead htail =>
          obtain ⟨hliteral, hnext⟩ := hcolumn.foldable hhead hstate
          exact List.forall_mem_cons.mpr ⟨hliteral, ih htail hnext⟩

theorem OneVarBelow.foldable {w : Word} (h : w.OneVarBelow) :
    Foldable true (.literal false) (.literal false) w.bits := by
  have hsteady : Steady true (.literal false) (.literal false) :=
    ⟨true, fun valuation => by simp⟩
  by_cases hvar : ∃ v, v ∈ varsBelowOne w.bits
  · obtain ⟨v, hv⟩ := hvar
    exact .below v trivial trivial hsteady fun u hu => h u hu v hv
  · exact .below ⟨0⟩ trivial trivial hsteady fun u hu => absurd ⟨u, hu⟩ hvar

/-! ## Columns that do not fold -/

/--
The negation still carries: below the column the subtrahend has only zeros and
the known variable, and it carries exactly if the variable is zero as well.
-/
structure Carrying (known : Var → Prop) (one : Bool) (k c : Bit) : Prop where
  within : CarriesWithin known k c
  single : ∀ u v, known u → known v → u = v
  once : one = true → k = .literal false
  carry : ∀ valuation,
  (one || k.eval valuation) = true ↔ ∀ v, known v → valuation v = false

variable {known : Var → Prop}

theorem Carrying.mentions (h : Carrying known one k c) {u : Var}
    (hu : known u) :
    k.Mentions u := by
  by_contra hnone
  have hclosed : ∀ v, ¬ k.Mentions v := by
    intro v hv
    exact hnone (h.single u v hu (h.within.vars_k v hv) ▸ hv)
  obtain ⟨value, rfl⟩ :=
    Bit.exists_literal (h.within.normal_k.isLiteral_of_closed hclosed)
  have hzeros := (h.carry fun _ => false).mpr fun _ _ => rfl
  have hones := (h.carry fun _ => true).mp hzeros u hu
  cases hones

private theorem Column.eq_of_known {u w : Var}
    (h : Column arena one (.var w) (.var w) k c nextK nextC difference)
    (hstate : Carrying known one k c) (hu : known u)
    (hliteral : difference.isLiteral = true) :
    u = w := by
  obtain ⟨notQ, half, negQ, sum, hnot, _, hhalf, hneg, _, hsum, hdifference⟩ :=
    h
  by_contra hne
  have hvar : (Bit.var w).Normal := trivial
  have hnotNormal : notQ.Normal := hnot.1.normal (by simp [hvar])
  have hhalfNormal := hhalf.normal hnotNormal trivial
  have hnegNormal := hneg.normal hhalfNormal hstate.within.normal_k
  have hhalfVars : half.SameVars (.var w) := fun v =>
    (hhalf.vars_of_literal_right hnotNormal rfl v).trans (hnot.2 v)
  have hnegMentions : negQ.Mentions u := by
    rcases hneg.2 hhalfNormal hstate.within.normal_k with hall | ⟨_, hsame⟩
    · exact (hall u).mpr (.inr (hstate.mentions hu))
    · exact absurd ((hhalfVars u).mp ((hsame u).mpr (hstate.mentions hu))) hne
  have hsumMentions : sum.Mentions w := by
    rcases hsum.2 hvar hnegNormal with hall | ⟨_, hsame⟩
    · exact (hall w).mpr (.inl rfl)
    · exact absurd ((hsame u).mpr hnegMentions) hne
  have hsumVars := hdifference.vars_of_literal (hsum.normal hvar hnegNormal)
    hstate.within.normal_c hliteral
  have hknown := hstate.within.vars_c w ((hsumVars w).mp hsumMentions)
  exact hne (hstate.single u w hu hknown)

private theorem Column.carrying
    (h : Column arena one p q k c nextK nextC difference)
    (hmatched : p.Matched q) (hq : q ≠ .literal true)
    (hliteral : difference.isLiteral = true) (hstate : Carrying known one k c) :
    Carrying (fun v => known v ∨ q.Mentions v) false nextK nextC where
  within :=
    (h.vars hstate.within hmatched.normal.1 hmatched.normal.2 hliteral).2
  single := by
    cases hmatched with
    | literal x y => simpa using hstate.single
    | var w =>
        have hknown : ∀ u, known u → u = w :=
          fun u hu => h.eq_of_known hstate hu hliteral
        rintro u v (hu | rfl) (hv | rfl)
        · exact hstate.single u v hu hv
        · exact hknown u hu
        · exact (hknown v hv).symm
        · rfl
  once := by
    intro hone
    cases hone
  carry := by
    intro valuation
    have hnextK : nextK.eval valuation =
        (!q.eval valuation && (one || k.eval valuation)) := by
      rw [h.eval_nextK]
      cases one with
      | false => cases q.eval valuation <;> cases k.eval valuation <;> rfl
      | true =>
          rw [hstate.once rfl, Bit.eval_literal]
          cases q.eval valuation <;> rfl
    rw [Bool.false_or, hnextK, Bool.and_eq_true, hstate.carry valuation]
    cases hmatched with
    | literal x y =>
        obtain rfl : y = false := by
          cases y <;> first | rfl | exact absurd rfl hq
        simp
    | var w => simp [or_imp, forall_and, and_comm]

theorem Columns.single (h : Columns arena one k c ps qs differences)
    (hmatched : List.Forall₂ Bit.Matched ps qs)
    (hliteral : ∀ d ∈ differences, d.isLiteral = true)
    (hstate : Carrying known one k c) {u v : Var}
    (hu : known u ∨ u ∈ varsBelowOne qs) (hv : known v ∨ v ∈ varsBelowOne qs) :
    u = v := by
  induction h generalizing known with
  | nil =>
      simp only [varsBelowOne, List.takeWhile_nil, List.filterMap_nil,
        List.not_mem_nil, or_false] at hu hv
      exact hstate.single u v hu hv
  | @cons one p q k c nextK nextC difference ps qs differences hcolumn _ ih =>
      simp only [List.forall_mem_cons] at hliteral
      cases hmatched with
      | cons hhead htail =>
          by_cases hone : q = .literal true
          · simp only [hone, varsBelowOne_one, List.not_mem_nil, or_false]
              at hu hv
            exact hstate.single u v hu hv
          · have hsplit : ∀ w, known w ∨ w ∈ varsBelowOne (q :: qs) →
                (known w ∨ q.Mentions w) ∨ w ∈ varsBelowOne qs := by
              intro w hw
              rw [mem_varsBelowOne_cons hone, ← or_assoc] at hw
              refine hw.imp_left (Or.imp_right ?_)
              rintro rfl
              exact rfl
            exact ih htail hliteral.2
              (hcolumn.carrying hhead hone hliteral.1 hstate) (hsplit u hu)
                (hsplit v hv)

private theorem carrying_start :
    Carrying (fun _ => False) true (.literal false) (.literal false) where
  within := ⟨trivial, trivial, fun _ => id, fun _ => id⟩
  single := fun _ _ hu => hu.elim
  once := fun _ => rfl
  carry := by simp

/-! ## The whole difference -/

theorem allLiteral_sub_iff {a b negated w : Word} {carry : Bit}
    (hneg : Negated arena b negated)
    (hadded : Added arena a.bits negated.bits w.bits carry)
    (hmatched : List.Forall₂ Bit.Matched a.bits b.bits) :
    w.allLiteral = true ↔ b.OneVarBelow := by
  have hcolumns := hneg.columns hadded
  rw [allLiteral_iff]
  constructor
  · intro hliteral u hu v hv
    exact hcolumns.single hmatched hliteral carrying_start (.inr hu) (.inr hv)
  · intro hbelow
    exact hcolumns.isLiteral hmatched hbelow.foldable

end Word

end SymbolicMachine
