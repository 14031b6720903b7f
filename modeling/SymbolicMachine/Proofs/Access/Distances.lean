import Mathlib.Data.List.Sort
import SymbolicMachine.Proofs.Access.Memory

/-!
# Known distances

A pointer stands for the address that it was made from, and a known distance
between two pointers is the distance of their addresses.  Two pointers at a
known distance depend on the same restricted registers.  So the alias test never
separates them, and what an access does to the other one is decided by the
distance.
-/

namespace SymbolicMachine

/-! ## Addresses -/

namespace Pointer

variable {arch : Architecture} {arena : Arena} {vars : Var → Prop}
  {session : Session}

theorem address_yields {stops : Fault → Prop} {p : Pointer}
    (hnode : session.nextNode = arena.length)
    (hp : p.WellFormed arch arena vars) :
    SymM.Yields stops p.address session arena fun _ _ word =>
      word.width = addressWidth ∧
        ∀ valuation,
          BitVec.ofNat 64 (word.value valuation) = p.addressAt valuation := by
  have hconstant :
      (Word.constant p.displacement.toUInt64 addressWidth).WellFormed
        arena vars :=
    Word.constant_wellFormed _ _
  have hwidth := hp.width.trans
    (Word.width_constant p.displacement.toUInt64 addressWidth).symm
  refine (Word.add_yields hnode hp.base hconstant hwidth).mono
    fun after later word _ _ ⟨_, _, carry, hadded⟩ => ?_
  refine ⟨hadded.width_eq.trans hp.width, fun valuation => ?_⟩
  have hdisplaced : (Word.constant p.displacement.toUInt64 addressWidth).value
      valuation = p.displacement.toUInt64.toNat % 2 ^ 64 :=
    Word.value_constant ..
  calc
    BitVec.ofNat 64 (word.value valuation)
        = BitVec.ofNat 64 ((p.base.value valuation +
            p.displacement.toUInt64.toNat % 2 ^ 64) % 2 ^ 64) := by
          rw [hadded.value_eq, hp.width, hdisplaced, addressWidth]
    _ = BitVec.ofNat 64 (p.base.value valuation) +
        BitVec.ofNat 64 p.displacement.toUInt64.toNat := by
      rw [bitVec_ofNat_mod, BitVec.ofNat_add, bitVec_ofNat_mod]
    _ = p.addressAt valuation := by
      rw [bitVec_ofNat_toNat]
      rfl

/-! ## Restricted registers in order -/

private theorem restrictOf_ascending (arch : Architecture) (w : Word) :
    (restrictOf arch w).Pairwise fun a b => a.tag < b.tag := by
  apply List.Pairwise.filter
  refine w.tags.ordered_toList.filterMap _
    fun tag tag' hlt id hid id' hid' => ?_
  rw [← RegisterId.ofTag?_eq_some_iff.mp hid,
    ← RegisterId.ofTag?_eq_some_iff.mp hid']
  exact Nat.compare_eq_lt.mp hlt

private theorem Built.restrict_ascending {words : List Word} {p : Pointer}
    (h : Built arch words p) :
    p.restrict.Pairwise fun a b => a.tag < b.tag := by
  induction h with
  | @ofWord w _ =>
      rcases ofWord_cases arch w with ⟨value, _, h⟩ | ⟨base, addend, h, _⟩ <;>
        rw [h]
      · exact .nil
      · exact restrictOf_ascending arch base
  | constant address => exact .nil
  | displace bytes _ ih => exact ih

private theorem Built.restrict_eq {words : List Word} {p q : Pointer}
    (hp : Built arch words p) (hq : Built arch words q) (h : p.SameRestrict q) :
    p.restrict = q.restrict := by
  have : Std.Irrefl fun a b : RegisterId => a.tag < b.tag :=
    ⟨fun _ => Nat.lt_irrefl _⟩
  have : Std.Antisymm fun a b : RegisterId => a.tag < b.tag :=
    ⟨fun _ _ hlt hgt => (Nat.lt_asymm hlt hgt).elim⟩
  exact hp.restrict_ascending.eq_of_mem_iff hq.restrict_ascending h

private theorem canOverlap_of_restrict_eq {p q : Pointer}
    (h : p.restrict = q.restrict) :
    p.canOverlap q = true := by
  by_contra hnot
  obtain ⟨⟨id, hid⟩, _, hapart⟩ :=
    canOverlap_eq_false_iff.mp (Bool.eq_false_iff.mpr hnot)
  exact hapart id hid (h ▸ hid)

end Pointer

/-! ## What the alias test lets through -/

namespace Memory

variable {memory next : Memory} {pointer : Pointer} {session after : Session}

private theorem write_keeps {value : Word}
    (h : memory.write pointer value session = .ok next after) :
    ∃ written, ∀ region ∈ next.regions,
      region = written ∨ pointer.canOverlap region.anchor = false := by
  unfold write at h
  split at h
  case isFalse => cases h
  obtain ⟨result, _, _, h⟩ := SymM.bind_eq_ok.mp h
  cases result with
  | some found =>
      obtain ⟨_, _, _, h⟩ := SymM.bind_eq_ok.mp h
      obtain ⟨written, _, _, h⟩ := SymM.bind_eq_ok.mp h
      cases h
      refine ⟨written, fun region hregion => ?_⟩
      simp only [List.mem_append, List.mem_cons] at hregion
      rcases hregion with hbefore | hwritten | hafter
      · exact .inr (mem_survivors hbefore).2
      · exact .inl hwritten
      · exact .inr (mem_survivors hafter).2
  | none =>
      obtain ⟨_, _, _, h⟩ := SymM.bind_eq_ok.mp h
      obtain ⟨written, _, _, h⟩ := SymM.bind_eq_ok.mp h
      cases h
      refine ⟨written, fun region hregion => ?_⟩
      simp only [List.mem_append, List.mem_singleton] at hregion
      rcases hregion with hother | hwritten
      · exact .inr (mem_survivors hother).2
      · exact .inl hwritten

private theorem read_eq_none {found : Located} (bitCount : Nat)
    (hlocate : locate pointer memory.regions session = .ok (some found) after)
    {region : Region} (hother : region ∈ found.others)
    (halias : pointer.canOverlap region.anchor = true) :
    memory.read pointer bitCount session = .ok none after := by
  have hany : found.others.any (aliases pointer) = true :=
    List.any_eq_true.mpr ⟨region, hother, halias⟩
  unfold read
  rw [SymM.bind_of_ok hlocate]
  simp only [hany, if_true]
  rfl

end Memory

private theorem Reports.none_iff {kind : AccessKind} {size count : Nat}
    {distance : Int64} {answer : Access}
    (h : Reports kind size count (some distance) answer) :
    answer = .none ↔ ¬ Meets distance.toInt size count := by
  cases h with
  | apart hmeets => simp [hmeets]
  | located hmeets => simp [hmeets]
  | tooFar hmeets => simp [hmeets]

/-! ## Pointers that can be made -/

section

variable {arch : Architecture} {session : Session} {pool : List Word}
  {machines : List Machine}

/--
A pointer stands for the address that it was made from, cut or extended to 64
bits, and displacing it adds to the address.  Comparing two pointers always
ends, and a distance that is found is the difference of the addresses.
-/
theorem pointer_address_and_difference
    (hreached : Machine.Reached arch session pool machines) :
    (∀ w ∈ pool, (Pointer.ofWord arch w).base.width = 64 ∧ ∀ valuation,
      (Pointer.ofWord arch w).addressAt valuation =
        BitVec.ofNat 64 (w.value valuation)) ∧
    (∀ address valuation,
      (Pointer.constant address).addressAt valuation = address.toBitVec) ∧
    ∀ p, Pointer.Built arch pool p →
      (∃ word last, p.address session = .ok word last ∧ word.width = 64 ∧
        ∀ valuation,
          BitVec.ofNat 64 (word.value valuation) = p.addressAt valuation) ∧
      (∀ bytes,
        (p.displace bytes).difference p session = .ok (some bytes) session ∧
        ∀ valuation, (p.displace bytes).addressAt valuation =
          p.addressAt valuation + bytes.toBitVec) ∧
      ∀ q, Pointer.Built arch pool q →
        ∃ distance last, p.difference q session = .ok distance last ∧
          ∀ d, distance = some d → ∀ valuation,
            p.addressAt valuation - q.addressAt valuation = d.toBitVec := by
  obtain ⟨arena, hpool, _⟩ := hreached.wellFormed
  refine ⟨fun w hw => ?_,
    fun address valuation => Pointer.addressAt_constant valuation address,
    fun p hp => ⟨?_, fun bytes => ?_, fun q hq => ?_⟩⟩
  · have hword := hpool.wellFormed w hw
    exact ⟨(Pointer.ofWord_wellFormed hword).width,
      Pointer.addressAt_ofWord hword⟩
  · obtain ⟨word, last, _, hrun, _, _, hword⟩ := SymM.Yields.exists_ok
      (Pointer.address_yields hpool.nodes (hp.wellFormed hpool))
    exact ⟨word, last, hrun, hword⟩
  · exact ⟨p.difference_displace bytes session,
      fun valuation => Pointer.addressAt_displace valuation p bytes⟩
  · obtain ⟨distance, last, _, hrun, _, _, _, hknown⟩ := SymM.Yields.exists_ok
      (Pointer.difference_yields hpool.nodes (hp.wellFormed hpool)
        (hq.wellFormed hpool))
    refine ⟨distance, last, hrun, fun d hd valuation => ?_⟩
    rw [(hknown d hd).1 valuation]
    bv_omega

def belowStack : List Word.Step :=
  [.tagged Amd64.rsp.tag 0 64, .constant 16 64, .pair .sub 1 0]

theorem pointer_address_and_difference_below_stack :
    ∃ session pool low top last,
      Machine.Reached Amd64.standard session pool [{}] ∧
      low ∈ pool ∧ top ∈ pool ∧
      (Pointer.ofWord Amd64.standard low).difference
        (Pointer.ofWord Amd64.standard top) session =
        .ok (some (-16)) last ∧
      ∀ valuation,
        (Pointer.ofWord Amd64.standard low).addressAt valuation =
          BitVec.ofNat 64 (low.value valuation) ∧
        (Pointer.ofWord Amd64.standard low).addressAt valuation -
          (Pointer.ofWord Amd64.standard top).addressAt valuation = -16 := by
  have hcheck : SymM.endsWith (Word.build [] belowStack) {} (fun pool session =>
      pool.any fun low => pool.any
        fun top => SymM.endsWith ((Pointer.ofWord Amd64.standard low).difference
          (Pointer.ofWord Amd64.standard top)) session fun distance _ =>
          distance == some (-16)) = true := by
    decide +kernel
  obtain ⟨session, pool, hreached, hany⟩ :=
    Machine.exists_reached Amd64.standard hcheck
  obtain ⟨low, hlow, hrow⟩ := List.any_eq_true.mp hany
  obtain ⟨top, htop, hpair⟩ := List.any_eq_true.mp hrow
  obtain ⟨found, last, hfound, hdistance⟩ := SymM.exists_ok_of_endsWith hpair
  rw [beq_iff_eq] at hdistance
  subst hdistance
  obtain ⟨haddress, _, hbuilt⟩ := pointer_address_and_difference hreached
  obtain ⟨_, _, hdifference⟩ := hbuilt _ (.ofWord hlow)
  obtain ⟨_, _, hrun', hknown⟩ := hdifference _ (.ofWord htop)
  rw [hfound] at hrun'
  cases hrun'
  exact ⟨session, pool, low, top, last, hreached, hlow, htop, hfound,
    fun valuation => ⟨(haddress low hlow).2 valuation, hknown _ rfl valuation⟩⟩

/--
Two pointers at a known distance have the same restricted registers, so they are
never taken for apart.  A write through one leaves no region of the other but
the one it wrote to, a read does not answer beside a region of the other, and
the analysis denies an access only if the distance does.
-/
theorem known_distance_not_separated
    (hreached : Machine.Reached arch session pool machines) {p q : Pointer}
    (hp : Pointer.Built arch pool p) (hq : Pointer.Built arch pool q)
    {distance : Int64} {last : Session}
    (hdistance : p.difference q session = .ok (some distance) last) :
    p.restrict = q.restrict ∧ p.canOverlap q = true ∧
    (∀ (memory next : Memory) value start after,
      memory.write p value start = .ok next after →
      ∃ written,
        ∀ region ∈ next.regions, region.anchor = q → region = written) ∧
    (∀ (memory : Memory) found bitCount start after,
      Memory.locate p memory.regions start = .ok (some found) after →
      (∃ region ∈ found.others, region.anchor = q) →
      memory.read p bitCount start = .ok none after) ∧
    ∀ (instr : Instr) kind location filter trace start base bitCount,
      instr.memoryAccess? = some kind → instr.location? = some location →
      filter = none ∨ filter = some kind →
      trace location.base start = .ok base session →
      (Pointer.ofWord arch base).displace location.displacement = p →
      bitCount < 2 ^ 32 →
      ∃ answer after,
        testAccess arch trace instr.effects filter (.memory q bitCount) start =
          .ok (.ok answer) after ∧
        (answer = .none ↔
          ¬ Meets distance.toInt instr.accessSize (bitCount / 8)) := by
  obtain ⟨arena, hpool, _⟩ := hreached.wellFormed
  obtain ⟨_, _, _, hrun, _, _, _, hknown⟩ := SymM.Yields.exists_ok
    (Pointer.difference_yields hpool.nodes (hp.wellFormed hpool)
      (hq.wellFormed hpool))
  rw [hdistance] at hrun
  cases hrun
  have hrestrict := hp.restrict_eq hq (hknown distance rfl).2
  have hoverlap := Pointer.canOverlap_of_restrict_eq hrestrict
  refine ⟨hrestrict, hoverlap, ?_, ?_, ?_⟩
  · intro memory next value start after hwrite
    obtain ⟨written, hregions⟩ := Memory.write_keeps hwrite
    refine ⟨written, fun region hregion hanchor => ?_⟩
    rcases hregions region hregion with hwritten | hapart
    · exact hwritten
    · rw [hanchor, hoverlap] at hapart
      cases hapart
  · rintro memory found bitCount start after hlocate ⟨region, hother, rfl⟩
    exact Memory.read_eq_none bitCount hlocate hother hoverlap
  · rintro instr kind location filter trace start base bitCount hkind hlocation
      hfilter htrace
      rfl hbits
    have hsize : instr.effects.accessSize ≤ 8 :=
      (Instr.accessSize_range hlocation).2
    obtain ⟨answer, after, hanswer, hreports⟩ :=
      Effects.memoryAccess_reports hsize (by omega : bitCount / 8 < 2 ^ 29)
        hoverlap hdistance
    exact ⟨answer, after,
      testAccess_of_memoryAccess hkind hlocation hfilter htrace hanswer,
      hreports.none_iff⟩

def oppositeHalves : List Word.Step :=
  [.tagged Amd64.rsp.tag 0 64, .unary .not 0, .reshape (.shiftLeft 63) 1,
    .reshape (.shiftLeft 63) 1]

theorem known_distance_not_separated_opposite_halves :
    ∃ session pool p q last, Machine.Reached Amd64.standard session pool [{}] ∧
      Pointer.Built Amd64.standard pool p ∧
      Pointer.Built Amd64.standard pool q ∧
      p.base.identical q.base = false ∧ p.restrict = [Amd64.rsp] ∧
      p.difference q session = .ok (some Int64.minValue) last ∧
      p.restrict = q.restrict ∧ p.canOverlap q = true := by
  have hcheck : SymM.endsWith (Word.build [] oppositeHalves) {}
      (fun pool session =>
      pool.any fun w => pool.any fun v =>
        let p := Pointer.ofWord Amd64.standard w
        let q := Pointer.ofWord Amd64.standard v
        !p.base.identical q.base && p.restrict == [Amd64.rsp] &&
          SymM.endsWith (p.difference q) session
            fun distance _ => distance == some Int64.minValue) = true := by
    decide +kernel
  obtain ⟨session, pool, hreached, hany⟩ :=
    Machine.exists_reached Amd64.standard hcheck
  obtain ⟨w, hw, hrow⟩ := List.any_eq_true.mp hany
  obtain ⟨v, hv, hpair⟩ := List.any_eq_true.mp hrow
  simp only [Bool.and_eq_true, Bool.not_eq_true', beq_iff_eq, and_assoc]
    at hpair
  obtain ⟨hbases, hrestricted, hends⟩ := hpair
  obtain ⟨found, last, hfound, hdistance⟩ := SymM.exists_ok_of_endsWith hends
  rw [beq_iff_eq] at hdistance
  subst hdistance
  obtain ⟨hrestrict, hoverlap, _⟩ :=
    known_distance_not_separated hreached (.ofWord hw) (.ofWord hv) hfound
  exact ⟨session, pool, _, _, last, hreached, .ofWord hw, .ofWord hv, hbases,
    hrestricted, hfound, hrestrict, hoverlap⟩

end

end SymbolicMachine
