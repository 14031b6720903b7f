import SymbolicMachine.Proofs.Access.Distances
import SymbolicMachine.Proofs.Machine.Spill

/-!
# What a pointer keeps of an address

The base of a pointer is canonical: it is zero, or a word that is not concrete
and from which no constant can be split off.  So a pointer that is made from the
address of another one is that very pointer.  Of the restricted registers a
pointer names all that its address depends on.
-/

namespace SymbolicMachine

namespace Pointer

variable {arch : Architecture} {arena : Arena} {vars : Var → Prop}
  {session : Session}

/-! ## Canonical bases -/

/-- Nothing more can be moved from the base to the displacement. -/
structure Canonical (arch : Architecture) (p : Pointer) : Prop where
  base : p.base = .constant 0 addressWidth ∨
    p.base.width = addressWidth ∧ p.base.toUInt64? = none ∧
      p.base.splitAddend? = none
  restrict : p.restrict = restrictOf arch p.base

private theorem restrictOf_constant (value : UInt64) (width : Nat) :
    restrictOf arch (.constant value width) = [] := by
  have hconstant : (Word.constant value width).WellFormed [] fun _ => False :=
    Word.constant_wellFormed value width
  rw [List.eq_nil_iff_forall_not_mem]
  intro id hid
  obtain ⟨_, v, _, ⟨b, hb, hmention⟩, _⟩ :=
    (mem_restrictOf_iff hconstant id).mp hid
  exact (hconstant.bits b hb).vars v hmention

private theorem constant_canonical (address : UInt64) :
    (constant address).Canonical arch :=
  ⟨.inl rfl, (restrictOf_constant 0 addressWidth).symm⟩

private theorem ofWord_canonical {w : Word} (hw : w.WellFormed arena vars) :
    (ofWord arch w).Canonical arch := by
  have hwidth := Word.width_resize w addressWidth
  have hresized : ofWord arch w = ofWord arch (w.resize addressWidth) := by
    simp only [ofWord, Word.resize_of_width hwidth]
  rw [hresized]
  cases hvalue : (w.resize addressWidth).toUInt64? with
  | some value =>
      rw [ofWord_of_concrete hwidth hvalue]
      exact constant_canonical value
  | none =>
      rw [ofWord_of_open hwidth hvalue]
      cases hsplit : (w.resize addressWidth).splitAddend? with
      | none => exact ⟨.inr ⟨hwidth, hvalue, hsplit⟩, rfl⟩
      | some split =>
          obtain ⟨_, hbaseWidth, hopen, hsettled, _⟩ :=
            Word.splitAddend?_sound (hw.resize addressWidth) hsplit
          exact ⟨.inr ⟨hbaseWidth.trans hwidth, hopen, hsettled⟩, rfl⟩

theorem Built.canonical {words : List Word} {p : Pointer}
    (h : Built arch words p) (hpool : Word.Pool session arena words) :
    p.Canonical arch := by
  induction h with
  | ofWord hw => exact ofWord_canonical (hpool.wellFormed _ hw)
  | constant address => exact constant_canonical address
  | displace bytes _ ih => exact ⟨ih.base, ih.restrict⟩

/-! ## Making a pointer again -/

private theorem Canonical.ofWord_base {p : Pointer} (h : p.Canonical arch) :
    ofWord arch p.base = ⟨p.base, 0, p.restrict⟩ := by
  rw [h.restrict]
  rcases h.base with hzero | ⟨hwidth, hopen, hsettled⟩
  · have hvalue : p.base.toUInt64? = some 0 := by
      rw [hzero]
      decide
    rw [ofWord_of_concrete (hzero ▸ Word.width_constant 0 addressWidth) hvalue,
      hzero, restrictOf_constant]
    rfl
  · rw [ofWord_of_open hwidth hopen, hsettled]
    rfl

private theorem Canonical.width_base {p : Pointer} (h : p.Canonical arch) :
    p.base.width = addressWidth := by
  rcases h.base with hzero | ⟨hwidth, _⟩
  · exact hzero ▸ Word.width_constant 0 addressWidth
  · exact hwidth

private theorem Canonical.ofWord_address {p : Pointer} {word : Word}
    {last : Session} (h : p.Canonical arch)
    (hnode : session.nextNode = arena.length)
    (hbase : p.base.WellFormed arena vars)
    (hrun : p.address session = .ok word last) :
    ofWord arch word = p := by
  have hconstant :
      (Word.constant p.displacement.toUInt64 addressWidth).toUInt64? =
      some p.displacement.toUInt64 := by
    apply Word.toUInt64?_of_value (Word.allLiteral_constant _ _)
    intro valuation
    rw [Word.value_constant]
    exact Nat.mod_eq_of_lt p.displacement.toUInt64.toNat_lt
  have hadded : ofWord arch word =
      (ofWord arch p.base).displace p.displacement.toUInt64.toInt64 :=
    (ofWord_add hnode hbase (Word.constant_wellFormed _ _) h.width_base
      (Word.width_constant _ _) hconstant hrun).2
  rw [hadded, h.ofWord_base]
  simp [displace]

/-! ## Registers that do not matter -/

private theorem addressAt_congr_of_mentions {p : Pointer}
    {valuation other : Valuation}
    (h : ∀ v, p.base.Mentions v → valuation v = other v) :
    p.addressAt valuation = p.addressAt other := by
  have hbits : p.base.bits.map (Bit.eval valuation) =
      p.base.bits.map (Bit.eval other) := by
    apply List.map_congr_left
    intro b hb
    exact Bit.eval_congr fun v hv => h v ⟨b, hb, hv⟩
  rw [addressAt, addressAt, Word.value, Word.value, hbits]

end Pointer

section

variable {arch : Architecture} {session : Session} {pool : List Word}
  {machines : List Machine}

/--
The base of a pointer is the zero of 64 bits, or a word of 64 bits with a bit
that is no literal and without a constant to split off.  Making the address of a
pointer ends, and the pointer to this address has the same base, displacement
and restricted registers; no distance is between the two.
-/
theorem pointer_to_address_rebuilds
    (hreached : Machine.Reached arch session pool machines) {p : Pointer}
    (hp : Pointer.Built arch pool p) :
    (p.base = .constant 0 64 ∨ p.base.width = 64 ∧
      (∃ b ∈ p.base.bits, b.isLiteral = false) ∧
      p.base.splitAddend? = none) ∧
    ∃ word last, p.address session = .ok word last ∧
      (Pointer.ofWord arch word).base.identical p.base = true ∧
      (Pointer.ofWord arch word).displacement = p.displacement ∧
      (Pointer.ofWord arch word).restrict = p.restrict ∧
      (Pointer.ofWord arch word).difference p last = .ok (some 0) last := by
  obtain ⟨arena, hpool, _⟩ := hreached.wellFormed
  have hwell := hp.wellFormed hpool
  have hcanonical := hp.canonical hpool
  obtain ⟨word, last, _, hrun, _⟩ :=
    SymM.Yields.exists_ok (Pointer.address_yields hpool.nodes hwell)
  have hsame := hcanonical.ofWord_address hpool.nodes hwell.base hrun
  refine ⟨?_, word, last, hrun, ?_⟩
  · refine hcanonical.base.imp id ?_
    rintro ⟨hwidth, hopen, hsettled⟩
    have hliteral := Word.allLiteral_eq_false_of_open hwidth.le hopen
    refine ⟨hwidth, ?_, hsettled⟩
    simpa [Word.allLiteral] using hliteral
  · rw [hsame]
    refine ⟨p.base.identical_self, rfl, rfl, ?_⟩
    rw [Pointer.difference_of_base_eq rfl, Int64.sub_self]

def twiceAdjusted : List Word.Step :=
  [.tagged Amd64.rsp.tag 0 64, .constant 16 64, .pair .sub 1 0, .constant 5 64,
    .pair .add 0 1]

theorem pointer_to_address_rebuilds_twice_adjusted :
    ∃ session pool p word last,
      Machine.Reached Amd64.standard session pool [{}] ∧
      Pointer.Built Amd64.standard pool p ∧ p.displacement = -4 ∧
      p.restrict = [Amd64.rsp] ∧
      p.base.splitAddend? = none ∧ p.address session = .ok word last ∧
      (Pointer.ofWord Amd64.standard word).base.identical p.base = true ∧
      (Pointer.ofWord Amd64.standard word).displacement = -4 ∧
      (Pointer.ofWord Amd64.standard word).restrict = [Amd64.rsp] ∧
      (Pointer.ofWord Amd64.standard word).difference p last =
        .ok (some 0) last := by
  have hcheck : SymM.endsWith (Word.build [] twiceAdjusted) {}
      (fun pool _ => pool.any fun w =>
      (Pointer.ofWord Amd64.standard w).displacement == -11 &&
        (Pointer.ofWord Amd64.standard w).restrict == [Amd64.rsp]) = true := by
    decide +kernel
  obtain ⟨session, pool, hreached, hany⟩ :=
    Machine.exists_reached Amd64.standard hcheck
  obtain ⟨w, hw, hpointer⟩ := List.any_eq_true.mp hany
  simp only [Bool.and_eq_true, beq_iff_eq] at hpointer
  obtain ⟨hdisplacement, hrestrict⟩ := hpointer
  let p := (Pointer.ofWord Amd64.standard w).displace 7
  have hbuilt : Pointer.Built Amd64.standard pool p := .displace 7 (.ofWord hw)
  have hmoved : p.displacement = -4 := by
    change (Pointer.ofWord Amd64.standard w).displacement + 7 = -4
    rw [hdisplacement]
    rfl
  obtain ⟨hbase, word, last, hrun, hsame, hkept, hrestrict', hzero⟩ :=
    pointer_to_address_rebuilds hreached hbuilt
  have hsettled : p.base.splitAddend? = none := by
    rcases hbase with hconstant | ⟨_, _, hsettled⟩
    · rw [hconstant]
      rfl
    · exact hsettled
  exact ⟨session, pool, p, word, last, hreached, hbuilt, hmoved, hrestrict,
    hsettled, hrun, hsame, hkept.trans hmoved, hrestrict'.trans hrestrict,
    hzero⟩

/--
Of the restricted registers, a pointer has those that its base mentions.  If it
does not have a restricted register, its address and the word it was made from,
cut or extended to 64 bits, have the same values under valuations that differ on
the variables of this register only.
-/
theorem restrict_covers_dependence
    (hreached : Machine.Reached arch session pool machines) {w : Word}
    (hw : w ∈ pool) :
    (∀ id, id ∈ (Pointer.ofWord arch w).restrict ↔
      arch.restricted id = true ∧ (Pointer.ofWord arch w).base.HasTag id.tag) ∧
    ∀ id, arch.restricted id = true → id ∉ (Pointer.ofWord arch w).restrict →
      ∀ valuation other : Valuation,
        (∀ v, (∀ index, v.tag? ≠ some (id.tag, index)) →
          valuation v = other v) →
        (Pointer.ofWord arch w).addressAt valuation =
          (Pointer.ofWord arch w).addressAt other ∧
        (w.resize 64).value valuation = (w.resize 64).value other := by
  obtain ⟨arena, hpool, _⟩ := hreached.wellFormed
  have hword := hpool.wellFormed w hw
  have hwell : (Pointer.ofWord arch w).WellFormed arch arena _ :=
    Pointer.ofWord_wellFormed hword
  refine ⟨hwell.restrict, ?_⟩
  intro id hrestricted hid valuation other hagree
  have haddress : (Pointer.ofWord arch w).addressAt valuation =
      (Pointer.ofWord arch w).addressAt other := by
    apply Pointer.addressAt_congr_of_mentions
    intro v hmentions
    apply hagree
    intro index htag
    exact hid ((hwell.restrict id).mpr ⟨hrestricted, v, index, hmentions, htag⟩)
  refine ⟨haddress, ?_⟩
  have hvalue : ∀ valuation, (w.resize 64).value valuation =
      ((Pointer.ofWord arch w).addressAt valuation).toNat := by
    intro valuation
    rw [Pointer.addressAt_ofWord hword, Word.value_resize, BitVec.toNat_ofNat]
  rw [hvalue, hvalue, haddress]

def stackAboveWord : List Word.Step :=
  [.tagged 1 0 64, .tagged Amd64.rsp.tag 0 64, .concat 1 0]

theorem restrict_covers_dependence_upper_half :
    let ones : Valuation :=
  fun v => v.tag?.any fun tag => tag.1 == Amd64.rsp.tag
    let zeros : Valuation := fun _ => false
    ∃ session pool w,
    Machine.Reached Amd64.standard session pool [{}] ∧ w ∈ pool ∧
      Amd64.standard.restricted Amd64.rsp = true ∧
      Amd64.rsp ∉ (Pointer.ofWord Amd64.standard w).restrict ∧
      w.value ones ≠ w.value zeros ∧
      (Pointer.ofWord Amd64.standard w).addressAt ones =
        (Pointer.ofWord Amd64.standard w).addressAt zeros ∧
      (w.resize 64).value ones = (w.resize 64).value zeros := by
  intro ones zeros
  have hcheck : SymM.endsWith (Word.build [] stackAboveWord) {}
      (fun pool _ => pool.any fun w =>
      !(Pointer.ofWord Amd64.standard w).restrict.contains Amd64.rsp &&
        w.value ones != w.value zeros) = true := by
    decide +kernel
  obtain ⟨session, pool, hreached, hany⟩ :=
    Machine.exists_reached Amd64.standard hcheck
  obtain ⟨w, hw, hpointer⟩ := List.any_eq_true.mp hany
  simp only [Bool.and_eq_true, Bool.not_eq_true', List.contains_eq_mem,
    decide_eq_false_iff_not, bne_iff_ne] at hpointer
  have hrestricted : Amd64.standard.restricted Amd64.rsp = true := by decide
  have hagree : ∀ v : Var, (∀ index, v.tag? ≠ some (Amd64.rsp.tag, index)) →
      ones v = zeros v := by
    intro v htag
    cases hv : v.tag? with
    | none => simp [ones, zeros, hv]
    | some tag =>
        have hother : tag.1 ≠ Amd64.rsp.tag := by
          rintro hsame
          exact htag tag.2 (by rw [hv, ← hsame])
        simp [ones, zeros, hv, hother]
  obtain ⟨_, hcovers⟩ := restrict_covers_dependence hreached hw
  exact ⟨session, pool, w, hreached, hw, hrestricted, hpointer.1, hpointer.2,
    hcovers _ hrestricted hpointer.1 ones zeros hagree⟩

end

end SymbolicMachine
