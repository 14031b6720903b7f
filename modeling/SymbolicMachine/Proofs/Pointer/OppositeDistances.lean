import SymbolicMachine.Proofs.Bit.Identity
import SymbolicMachine.Proofs.Machine.Spill
import SymbolicMachine.Proofs.Memory.Location
import SymbolicMachine.Proofs.Word.MatchedDifference

/-!
# Distances in both directions

The distance between two pointers can be asked for in two directions.  If both
answers are known, one is the negative of the other.  That one is known does not
say that the other is, for the subtraction of the bases simplifies in one
direction better than in the other.  For matched bases it is told which
direction is known.
-/

namespace SymbolicMachine

theorem Word.identical_comm (a b : Word) : a.identical b = b.identical a := by
  have hflip : ∀ v w : Word, v.identical w = true → w.identical v = true := by
    intro v w h
    have hsame := (identicalBits_iff.mp h).flip
    exact identicalBits_iff.mpr (hsame.imp
      fun x y hxy => (x.identical_comm y).trans hxy)
  exact Bool.eq_iff_iff.mpr ⟨hflip a b, hflip b a⟩

private theorem Word.isSome_toUInt64?_iff {w : Word} (hwidth : w.width ≤ 64) :
    w.toUInt64?.isSome = true ↔ w.allLiteral = true := by
  cases hvalue : w.toUInt64? with
  | some value => simp [allLiteral_iff.mpr (toUInt64?_eq_some hvalue).1]
  | none => simp [allLiteral_eq_false_of_open hwidth hvalue]

namespace Pointer

variable {arch : Architecture} {arena : Arena} {vars : Var → Prop}
  {session : Session} {p q : Pointer}

private theorem difference_known_iff {stops : Fault → Prop}
    (hnode : session.nextNode = arena.length)
    (hp : p.WellFormed arch arena vars) (hq : q.WellFormed arch arena vars)
    (hmatched : List.Forall₂ Bit.Matched p.base.bits q.base.bits)
    (hdistinct : p.base.identical q.base = false) :
    SymM.Yields stops (p.difference q) session arena fun _ _ result =>
      result.isSome = true ↔ q.base.OneVarBelow := by
  have hsub : p.baseDifference q =
      (do return (← p.base.sub q.base).toUInt64?) := by
    rw [baseDifference, hdistinct, if_neg Bool.false_ne_true]
  rw [difference, hsub, bind_assoc]
  apply (Word.sub_yields hnode hp.base hq.base
    (hp.width.trans hq.width.symm)).bind
  rintro after later w _ hafter ⟨_, _, negated, carry, _, hneg, hadded⟩
  have hwidth : w.width ≤ 64 := (hadded.width_eq.trans hp.width).le
  refine SymM.yields_pure hafter ?_
  rw [Option.isSome_map, Word.isSome_toUInt64?_iff hwidth]
  exact Word.allLiteral_sub_iff hneg hadded hmatched

private theorem distance_neg (hp : p.WellFormed arch arena vars)
    (hq : q.WellFormed arch arena vars) {d e : Int64}
    (hthere : p.distance arena.length q = some d)
    (hback : q.distance arena.length p = some e) : e = -d := by
  have hforth := (distance_sound hp hq hthere).1 fun _ => false
  have hagain := (distance_sound hq hp hback).1 fun _ => false
  apply Int64.toBitVec_inj.mp
  rw [Int64.toBitVec_neg]
  rw [hforth] at hagain
  bv_omega

private theorem distance_known_iff (hp : p.WellFormed arch arena vars)
    (hq : q.WellFormed arch arena vars)
    (hmatched : List.Forall₂ Bit.Matched p.base.bits q.base.bits)
    (hdistinct : p.base.identical q.base = false) :
    (p.distance arena.length q).isSome = true ↔ q.base.OneVarBelow := by
  obtain ⟨_, _, _, hknown⟩ :=
    distance_of_yields (difference_known_iff rfl hp hq hmatched hdistinct)
  exact hknown

end Pointer

def lowBitSetAndCleared : List Word.Step :=
  [.tagged 3 0 64, .constant 0xfffffffffffffffe 64, .pair .and 1 0,
    .constant 1 64, .pair .or 1 0]

/--
The distance from the address with the low bit set is known, the one to it is
not.
-/
theorem distance_known_one_way :
    ∃ session pool p q last last',
      Machine.Reached Amd64.standard session pool [{}] ∧
      Pointer.Built Amd64.standard pool p ∧
      Pointer.Built Amd64.standard pool q ∧
      q.difference p session = .ok (some (-1)) last ∧
      p.difference q session = .ok none last' := by
  have hcheck : SymM.endsWith (Word.build [] lowBitSetAndCleared) {}
      (fun pool session =>
      pool.any fun w => pool.any fun v =>
        let p := Pointer.ofWord Amd64.standard w
        let q := Pointer.ofWord Amd64.standard v
        SymM.endsWith (q.difference p) session (fun distance _ => distance ==
          some (-1)) &&
          SymM.endsWith (p.difference q) session (fun distance _ => distance ==
            none)) = true := by
    decide +kernel
  obtain ⟨session, pool, hreached, hany⟩ :=
    Machine.exists_reached Amd64.standard hcheck
  obtain ⟨w, hw, hrow⟩ := List.any_eq_true.mp hany
  obtain ⟨v, hv, hpair⟩ := List.any_eq_true.mp hrow
  simp only [Bool.and_eq_true] at hpair
  obtain ⟨found, last, hfound, hdistance⟩ := SymM.exists_ok_of_endsWith hpair.1
  obtain ⟨missed, last', hmissed, hnone⟩ := SymM.exists_ok_of_endsWith hpair.2
  rw [beq_iff_eq] at hdistance hnone
  subst hdistance hnone
  exact ⟨session, pool, _, _, last, last', hreached, .ofWord hw, .ofWord hv,
    hfound, hmissed⟩

/--
To compare two pointers ends in both directions, with answers that stay the same
whenever they are asked for.  If both distances are known, they are the
negatives of each other.  Both are known for identical bases.  For bases that
are not identical and have two literals or one and the same variable at each
position, a distance is known exactly if there are no two variables below the
lowest literal one of the base that is subtracted.
-/
theorem opposite_distances_negate {arch : Architecture} {session : Session}
    {pool : List Word} {machines : List Machine}
    (hreached : Machine.Reached arch session pool machines) {p q : Pointer}
    (hp : Pointer.Built arch pool p) (hq : Pointer.Built arch pool q) :
    ∃ there back : Option Int64,
      (∀ later : Session, session.nextNode ≤ later.nextNode →
        (∃ last, p.difference q later = .ok there last) ∧
        ∃ last, q.difference p later = .ok back last) ∧
      (∀ d e, there = some d → back = some e → e = -d ∧ d = -e) ∧
      (p.base.identical q.base = true →
        there = some (p.displacement - q.displacement) ∧
        back = some (q.displacement - p.displacement)) ∧
      (p.base.identical q.base = false →
        List.Forall₂ Bit.Matched p.base.bits q.base.bits →
        (there.isSome = true ↔ q.base.OneVarBelow) ∧
        (back.isSome = true ↔ p.base.OneVarBelow)) := by
  obtain ⟨arena, hpool, _⟩ := hreached.wellFormed
  have hpWell := hp.wellFormed hpool
  have hqWell := hq.wellFormed hpool
  refine ⟨p.distance arena.length q, q.distance arena.length p, ?_, ?_, ?_, ?_⟩
  · intro later hlater
    rw [hpool.nodes] at hlater
    obtain ⟨last, hthere, _⟩ := Pointer.difference_eq hpWell hqWell hlater
    obtain ⟨last', hback, _⟩ := Pointer.difference_eq hqWell hpWell hlater
    exact ⟨⟨last, hthere⟩, last', hback⟩
  · intro d e hthere hback
    exact ⟨Pointer.distance_neg hpWell hqWell hthere hback,
      Pointer.distance_neg hqWell hpWell hback hthere⟩
  · intro hsame
    have hsame' : q.base.identical p.base = true :=
      (q.base.identical_comm p.base).trans hsame
    simp only [Pointer.distance, Pointer.difference_of_identical hsame,
      Pointer.difference_of_identical hsame', and_self]
  · intro hdistinct hmatched
    have hdistinct' : q.base.identical p.base = false :=
      (q.base.identical_comm p.base).trans hdistinct
    have hmatched' : List.Forall₂ Bit.Matched q.base.bits p.base.bits :=
      hmatched.flip.imp fun _ _ => Bit.Matched.symm
    exact ⟨Pointer.distance_known_iff hpWell hqWell hmatched hdistinct,
      Pointer.distance_known_iff hqWell hpWell hmatched' hdistinct'⟩

def lowBitsReplaced : List Word.Step :=
  [.tagged 3 0 64, .constant 0xfffffffffffffffc 64, .pair .and 1 0,
    .constant 1 64, .pair .or 1 0, .constant 2 64, .pair .or 3 0]

theorem opposite_distances_negate_low_bits :
    ∃ session pool p q last last',
      Machine.Reached Amd64.standard session pool [{}] ∧
      Pointer.Built Amd64.standard pool p ∧
      Pointer.Built Amd64.standard pool q ∧
      p.base.identical q.base = false ∧
      List.Forall₂ Bit.Matched p.base.bits q.base.bits ∧
      p.base.OneVarBelow ∧ p.difference q session = .ok (some (-1)) last ∧
      q.difference p session = .ok (some 1) last' := by
  have hcheck : SymM.endsWith (Word.build [] lowBitsReplaced) {}
      (fun pool session =>
      pool.any fun w => pool.any fun v =>
        let p := Pointer.ofWord Amd64.standard w
        let q := Pointer.ofWord Amd64.standard v
        !p.base.identical q.base &&
          decide (List.Forall₂ Bit.Matched p.base.bits q.base.bits) &&
          decide p.base.OneVarBelow &&
          SymM.endsWith (p.difference q) session fun distance _ => distance ==
            some (-1)) =
        true := by
    decide +kernel
  obtain ⟨session, pool, hreached, hany⟩ :=
    Machine.exists_reached Amd64.standard hcheck
  obtain ⟨w, hw, hrow⟩ := List.any_eq_true.mp hany
  obtain ⟨v, hv, hpair⟩ := List.any_eq_true.mp hrow
  simp only [Bool.and_eq_true, Bool.not_eq_true', decide_eq_true_eq, and_assoc]
    at hpair
  obtain ⟨hdistinct, hmatched, hbelow, hends⟩ := hpair
  obtain ⟨found, last, hfound, hdistance⟩ := SymM.exists_ok_of_endsWith hends
  rw [beq_iff_eq] at hdistance
  subst hdistance
  obtain ⟨there, back, hruns, hnegate, _, hknown⟩ :=
    opposite_distances_negate hreached (.ofWord hw) (.ofWord hv)
  obtain ⟨⟨_, hthere⟩, last', hback⟩ := hruns session le_rfl
  rw [hfound] at hthere
  cases hthere
  obtain ⟨e, rfl⟩ :=
    Option.isSome_iff_exists.mp ((hknown hdistinct hmatched).2.mpr hbelow)
  obtain rfl : e = 1 := (hnegate (-1) e rfl rfl).1
  exact ⟨session, pool, _, _, last, last', hreached, .ofWord hw, .ofWord hv,
    hdistinct, hmatched, hbelow, hfound, hback⟩

end SymbolicMachine
