import SymbolicMachine.Proofs.Word.Arithmetic

/-!
# Constant differences

A subtraction may come out constant although its operands are not.  It does so
only when the two operands have the same variables: going up the columns, an
exclusive or that is literal had operands with the same variables, and every
other one keeps the variables of both.
-/

namespace SymbolicMachine

theorem Bit.exists_literal {b : Bit} (h : b.isLiteral = true) :
    ∃ value, b = .literal value := by
  cases b with
  | literal value => exact ⟨value, rfl⟩
  | _ => cases h

namespace Word

variable {arena : Arena}

/--
One column of `p - q`.  The bit `q` is inverted and incremented by `one` with
the carry `k`, and the result is added to `p` with the carry `c`.
-/
inductive Column (arena : Arena) (one : Bool)
    (p q k c nextK nextC difference : Bit) : Prop
  | intro (notQ half negQ sum : Bit) :
      NotRel arena q notQ →
      nextK.BuiltFrom arena [notQ, .literal one, k] (fun valuation =>
        Bool.atLeastTwo (notQ.eval valuation) one (k.eval valuation)) →
      XorRel arena notQ (.literal one) half → XorRel arena half k negQ →
      nextC.BuiltFrom arena [p, negQ, c] (fun valuation =>
        Bool.atLeastTwo (p.eval valuation) (negQ.eval valuation)
          (c.eval valuation)) →
      XorRel arena p negQ sum → XorRel arena sum c difference →
      Column arena one p q k c nextK nextC difference

inductive Columns (arena : Arena) : Bool → Bit → Bit → List Bit → List Bit →
    List Bit → Prop
  | nil {one : Bool} {k c : Bit} : Columns arena one k c [] [] []
  | cons {one : Bool} {p q k c nextK nextC difference : Bit}
      {ps qs differences : List Bit} :
      Column arena one p q k c nextK nextC difference →
      Columns arena false nextK nextC ps qs differences →
      Columns arena one k c (p :: ps) (q :: qs) (difference :: differences)

structure CarriesWithin (known : Var → Prop) (k c : Bit) : Prop where
  normal_k : k.Normal
  normal_c : c.Normal
  vars_k : ∀ v, k.Mentions v → known v
  vars_c : ∀ v, c.Mentions v → known v

theorem XorRel.vars_of_literal {x y z : Bit} (h : XorRel arena x y z)
    (hx : x.Normal) (hy : y.Normal) (hz : z.isLiteral = true) :
    x.SameVars y := by
  obtain ⟨value, rfl⟩ := Bit.exists_literal hz
  rcases h.2 hx hy with hall | ⟨_, hsame⟩
  · intro v
    have hnone := (hall v).not.mp (Bit.mentions_literal v value).mp
    rw [not_or] at hnone
    exact iff_of_false hnone.1 hnone.2
  · exact hsame

theorem XorRel.vars_of_literal_right {x y z : Bit} (h : XorRel arena x y z)
    (hx : x.Normal) (hy : y.isLiteral = true) : z.SameVars x := by
  obtain ⟨value, rfl⟩ := Bit.exists_literal hy
  intro v
  rcases h.2 hx trivial with hall | ⟨hz, hsame⟩
  · rw [hall v, Bit.mentions_literal, or_false]
  · obtain ⟨other, rfl⟩ := Bit.exists_literal hz
    rw [hsame v, Bit.mentions_literal, Bit.mentions_literal]

theorem XorRel.normal {x y z : Bit} (h : XorRel arena x y z) (hx : x.Normal)
    (hy : y.Normal) :
    z.Normal :=
  h.1.normal (by simp [hx, hy])

theorem Column.vars {one : Bool} {p q k c nextK nextC difference : Bit}
    {known : Var → Prop} (h : Column arena one p q k c nextK nextC difference)
    (hcarries : CarriesWithin known k c) (hp : p.Normal) (hq : q.Normal)
    (hliteral : difference.isLiteral = true) :
    (∀ v, known v ∨ p.Mentions v ↔ known v ∨ q.Mentions v) ∧
      CarriesWithin (fun v => known v ∨ q.Mentions v) nextK nextC := by
  obtain ⟨notQ, half, negQ, sum, hnot, hnextK, hhalf, hneg, hnextC, hsum,
    hdifference⟩ := h
  have hnotNormal : notQ.Normal := hnot.1.normal (by simpa using hq)
  have honeNormal : (Bit.literal one).Normal := trivial
  have hhalfNormal := hhalf.normal hnotNormal honeNormal
  have hnegNormal := hneg.normal hhalfNormal hcarries.normal_k
  have hsumNormal := hsum.normal hp hnegNormal
  have hhalfVars : half.SameVars q := fun v =>
    (hhalf.vars_of_literal_right hnotNormal rfl v).trans (hnot.2 v)
  have hsumVars :=
    hdifference.vars_of_literal hsumNormal hcarries.normal_c hliteral
  have hnegVars : ∀ v, negQ.Mentions v → known v ∨ q.Mentions v := by
    intro v hv
    obtain ⟨x, hx, hxv⟩ := hneg.1.mentions v hv
    rcases List.mem_pair.mp hx with rfl | rfl
    · exact .inr ((hhalfVars v).mp hxv)
    · exact .inl (hcarries.vars_k v hxv)
  have hqVars : ∀ v, q.Mentions v → known v ∨ negQ.Mentions v := by
    intro v hv
    rcases hneg.2 hhalfNormal hcarries.normal_k with hall | ⟨_, hsame⟩
    · exact .inr ((hall v).mpr (.inl ((hhalfVars v).mpr hv)))
    · exact .inl (hcarries.vars_k v ((hsame v).mp ((hhalfVars v).mpr hv)))
  have hpVars : ∀ v, known v ∨ p.Mentions v ↔ known v ∨ negQ.Mentions v := by
    intro v
    rcases hsum.2 hp hnegNormal with hall | ⟨_, hsame⟩
    · have hknown : p.Mentions v ∨ negQ.Mentions v → known v := fun hv =>
        hcarries.vars_c v ((hsumVars v).mp ((hall v).mpr hv))
      constructor
      · rintro (hv | hv)
        · exact .inl hv
        · exact .inl (hknown (.inl hv))
      · rintro (hv | hv)
        · exact .inl hv
        · exact .inl (hknown (.inr hv))
    · rw [hsame v]
  refine ⟨fun v => ?_, ?_, ?_, ?_, ?_⟩
  · rw [hpVars v]
    constructor
    · rintro (hv | hv)
      · exact .inl hv
      · exact hnegVars v hv
    · rintro (hv | hv)
      · exact .inl hv
      · exact hqVars v hv
  · exact hnextK.normal (by simp [hnotNormal, honeNormal, hcarries.normal_k])
  · exact hnextC.normal (by simp [hp, hnegNormal, hcarries.normal_c])
  · intro v hv
    obtain ⟨x, hx, hxv⟩ := hnextK.mentions v hv
    simp only [List.mem_cons, List.not_mem_nil, or_false] at hx
    rcases hx with rfl | rfl | rfl
    · exact .inr ((hnot.2 v).mp hxv)
    · exact hxv.elim
    · exact .inl (hcarries.vars_k v hxv)
  · intro v hv
    obtain ⟨x, hx, hxv⟩ := hnextC.mentions v hv
    simp only [List.mem_cons, List.not_mem_nil, or_false] at hx
    rcases hx with rfl | rfl | rfl
    · rcases (hpVars v).mp (.inr hxv) with hv | hv
      · exact .inl hv
      · exact hnegVars v hv
    · exact hnegVars v hxv
    · exact .inl (hcarries.vars_c v hxv)

theorem Columns.vars {one : Bool} {k c : Bit} {ps qs differences : List Bit}
    {known : Var → Prop} (h : Columns arena one k c ps qs differences)
    (hcarries : CarriesWithin known k c) (hps : ∀ p ∈ ps, p.Normal)
    (hqs : ∀ q ∈ qs, q.Normal)
    (hliteral : ∀ d ∈ differences, d.isLiteral = true) (v : Var) :
    (known v ∨ ∃ p ∈ ps, p.Mentions v) ↔
      (known v ∨ ∃ q ∈ qs, q.Mentions v) := by
  induction h generalizing known with
  | nil => rfl
  | cons hcolumn _ ih =>
      simp only [List.forall_mem_cons] at hps hqs hliteral
      obtain ⟨hvars, hnext⟩ := hcolumn.vars hcarries hps.1 hqs.1 hliteral.1
      have htail := ih hnext hps.2 hqs.2 hliteral.2
      simp only [List.exists_mem_cons_iff, ← or_assoc]
      rw [hvars v]
      exact htail

private theorem columns_of_added {one : Bool} {k c : Bit}
    {ps qs notQs ones ks halves negQs cs sums differences : List Bit}
    (hnot : List.Forall₂ (NotRel arena) qs notQs)
    (hones : ∀ (i : Nat) (b : Bit), ones[i]? = some b →
      b = .literal (one && i == 0))
    (hks : Carried arena k notQs ones ks)
    (hhalves : Zipped (XorRel arena) notQs ones halves)
    (hnegQs : Zipped (XorRel arena) halves ks.dropLast negQs)
    (hcs : Carried arena c ps negQs cs)
    (hsums : Zipped (XorRel arena) ps negQs sums)
    (hdifferences : Zipped (XorRel arena) sums cs.dropLast differences) :
    Columns arena one k c ps qs differences := by
  induction hks generalizing one qs c ps halves negQs cs sums differences with
  | nil k =>
      cases hnot
      cases hhalves
      cases hnegQs
      cases hcs
      cases hsums
      cases hdifferences
      exact .nil
  | @cons k nextK notQ bit notQs ones ks hnextK hks ih =>
      obtain rfl : bit = .literal one := by simpa using hones 0 bit rfl
      have hrest : ∀ (i : Nat) (b : Bit),
          ones[i]? = some b → b = .literal (false && i == 0) := by
        intro i b hb
        simpa using hones (i + 1) b hb
      rw [List.dropLast_cons_of_ne_nil hks.ne_nil] at hnegQs
      obtain _ | ⟨hnotQ, hnotQs⟩ := hnot
      obtain _ | ⟨hhalf, hhalves⟩ := hhalves
      obtain _ | ⟨hnegQ, hnegQs⟩ := hnegQs
      obtain _ | ⟨hnextC, hcs⟩ := hcs
      rw [List.dropLast_cons_of_ne_nil hcs.ne_nil] at hdifferences
      obtain _ | ⟨hsum, hsums⟩ := hsums
      obtain _ | ⟨hdifference, hdifferences⟩ := hdifferences
      refine .cons ?_ (ih hnotQs hrest hhalves hnegQs hcs hsums hdifferences)
      exact .intro _ _ _ _ hnotQ hnextK hhalf hnegQ hnextC hsum hdifference

private theorem getElem?_constant_one {width i : Nat} {b : Bit}
    (h : (constant 1 width).bits[i]? = some b) : b = .literal (i == 0) := by
  obtain ⟨_, rfl⟩ := List.getElem?_eq_some_iff.mp h
  simp only [constant, ofBits, List.getElem_map, List.getElem_range]
  cases i with
  | zero => rfl
  | succ i =>
      rw [show (1 : UInt64).toNat = 1 from rfl, Nat.testBit_succ]
      simp

theorem Negated.columns {a b negated w : Word} {carry : Bit}
    (hneg : Negated arena b negated)
    (hadded : Added arena a.bits negated.bits w.bits carry) :
    Columns arena true (.literal false) (.literal false) a.bits b.bits
      w.bits := by
  obtain ⟨complement, negCarry, hnot, negCarries, negHalves, hnegCarried,
    hnegHalved, hnegSummed, _⟩ := hneg
  obtain ⟨carries, halves, hcarried, hhalved, hsummed, _⟩ := hadded
  have hones : ∀ (i : Nat) (bit : Bit),
      (constant 1 b.width).bits[i]? = some bit →
      bit = .literal (true && i == 0) := fun i bit => getElem?_constant_one
  exact columns_of_added hnot hones hnegCarried hnegHalved hnegSummed hcarried
    hhalved hsummed

theorem mentions_iff_of_literal_sub {vars : Var → Prop} {a b negated w : Word}
    {carry : Bit} (ha : a.WellFormed arena vars) (hb : b.WellFormed arena vars)
    (hneg : Negated arena b negated)
    (hadded : Added arena a.bits negated.bits w.bits carry)
    (hliteral : ∀ d ∈ w.bits, d.isLiteral = true) (v : Var) :
    a.Mentions v ↔ b.Mentions v := by
  have hstart : CarriesWithin (fun _ => False) (.literal false)
      (.literal false) :=
    ⟨trivial, trivial, fun _ => id, fun _ => id⟩
  simpa only [false_or, Mentions] using (hneg.columns hadded).vars hstart
    (fun p hp => (ha.bits p hp).normal) (fun q hq => (hb.bits q hq).normal)
    hliteral v

end Word

end SymbolicMachine
