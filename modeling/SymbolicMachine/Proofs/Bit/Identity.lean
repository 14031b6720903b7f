import SymbolicMachine.Proofs.Bit.Operators

/-!
# Identity and meaning

Bits live in a heap.  Every operand sits in a node, and the number of a node
stands for one expression, however many bits name it.  In a heap the identity of
bits is an equivalence relation that respects their meaning, and the operators
compute what they are named for. Nothing is asked of the shape of the bits,
which may be made without simplification.
-/

namespace SymbolicMachine

namespace Bit

/-! ## Identity -/

theorem sameLeaf_comm (x y : Bit) : sameLeaf x y = sameLeaf y x := by
  cases x <;> cases y <;> simp [sameLeaf, eq_comm]

private theorem sameLeaf_congr {x y : Bit} (h : x.formula = y.formula)
    (z : Bit) :
    sameLeaf x z = sameLeaf y z := by
  cases x <;> cases y <;> simp_all [formula, sameLeaf]

theorem sameOperand_comm (nodeX : Nat) (x : Bit) (nodeY : Nat) (y : Bit) :
    sameOperand nodeX x nodeY y = sameOperand nodeY y nodeX x := by
  rw [sameOperand, sameOperand, sameLeaf_comm, Bool.beq_comm]

theorem sameOperand_trans {arena : Arena} {nodeX nodeY nodeZ : Nat}
    {x y z : Bit} (hx : arena[nodeX]? = some x.formula)
    (hy : arena[nodeY]? = some y.formula) (hz : arena[nodeZ]? = some z.formula)
    (hxy : sameOperand nodeX x nodeY y = true)
    (hyz : sameOperand nodeY y nodeZ z = true) :
    sameOperand nodeX x nodeZ z = true := by
  have hformulaXY := formula_eq_of_sameOperand hx hy hxy
  have hformulaYZ := formula_eq_of_sameOperand hy hz hyz
  simp only [sameOperand, Bool.or_eq_true, beq_iff_eq] at hxy hyz ⊢
  rcases hyz with hnode | hleaf
  · rcases hxy with hnode' | hleaf'
    · left
      rw [hnode', hnode]
    · right
      rw [sameLeaf_comm, ← sameLeaf_congr hformulaYZ, sameLeaf_comm]
      exact hleaf'
  · right
    rw [sameLeaf_congr hformulaXY]
    exact hleaf

theorem identical_comm (a b : Bit) : a.identical b = b.identical a := by
  cases a <;> cases b <;> simp only [identical]
  case literal.literal => rw [Bool.beq_comm]
  case var.var => rw [Bool.beq_comm]
  case neg.neg => rw [sameOperand_comm]
  case conj.conj nodeX x nodeY y nodeU u nodeV v =>
      rw [sameOperand_comm nodeX x nodeU u, sameOperand_comm nodeY y nodeV v,
        sameOperand_comm nodeX x nodeV v, sameOperand_comm nodeY y nodeU u,
        Bool.and_comm (sameOperand nodeV v nodeX x)]

private theorem identical_trans {arena : Arena} {a b c : Bit}
    (ha : a.Fits arena) (hb : b.Fits arena) (hc : c.Fits arena)
    (hab : a.identical b = true) (hbc : b.identical c = true) :
    a.identical c = true := by
  cases a <;> cases b <;> simp only [identical, Bool.false_eq_true] at hab <;>
    cases c <;> simp only [identical, Bool.false_eq_true] at hbc ⊢
  case literal.literal.literal => simp_all
  case var.var.var => simp_all
  case neg.neg.neg => exact sameOperand_trans ha.1 hb.1 hc.1 hab hbc
  case conj.conj.conj =>
      simp only [Bool.or_eq_true, Bool.and_eq_true] at hab hbc ⊢
      rcases hab with ⟨hleft, hright⟩ | ⟨hleft, hright⟩ <;>
        rcases hbc with ⟨hleft', hright'⟩ | ⟨hleft', hright'⟩
      · left
        exact ⟨sameOperand_trans ha.1.1 hb.1.1 hc.1.1 hleft hleft',
          sameOperand_trans ha.2.1 hb.2.1 hc.2.1 hright hright'⟩
      · right
        exact ⟨sameOperand_trans ha.1.1 hb.1.1 hc.2.1 hleft hleft',
          sameOperand_trans ha.2.1 hb.2.1 hc.1.1 hright hright'⟩
      · right
        exact ⟨sameOperand_trans ha.1.1 hb.2.1 hc.2.1 hleft hright',
          sameOperand_trans ha.2.1 hb.1.1 hc.1.1 hright hleft'⟩
      · left
        exact ⟨sameOperand_trans ha.1.1 hb.2.1 hc.1.1 hleft hright',
          sameOperand_trans ha.2.1 hb.1.1 hc.2.1 hright hleft'⟩

/-! ## Heaps -/

def nodes : Bit → List (Nat × Bit)
  | .literal _ => []
  | .var _ => []
  | .neg node x => (node, x) :: x.nodes
  | .conj nodeX x nodeY y => ((nodeX, x) :: x.nodes) ++ (nodeY, y) :: y.nodes

/--
A node stands for one expression in all the bits, and the numbers from `next` on
are free.
-/
structure Heap (next : Nat) (bits : List Bit) : Prop where
  below : ∀ entry ∈ bits.flatMap nodes, entry.1 < next
  determined : ∀ entry ∈ bits.flatMap nodes, ∀ other ∈ bits.flatMap nodes,
    entry.1 = other.1 → entry.2.formula = other.2.formula

private theorem fits_iff_forall_nodes {arena : Arena} {b : Bit} :
    b.Fits arena ↔ ∀ entry ∈ b.nodes,
      arena[entry.1]? = some entry.2.formula := by
  induction b with
  | literal value => simp [nodes]
  | var v => simp [nodes]
  | neg node x ih => simp only [Fits, nodes, List.forall_mem_cons, ih]
  | conj nodeX x nodeY y ihx ihy =>
      simp only [Fits, nodes, List.forall_mem_append, List.forall_mem_cons, ihx,
        ihy]

def heapArena (next : Nat) (bits : List Bit) : Arena :=
  (List.range next).map fun node =>
    (((bits.flatMap nodes).find? fun entry => entry.1 = node).map fun entry =>
      entry.2.formula).getD (.literal false)

theorem Heap.fits {next : Nat} {bits : List Bit} (h : Heap next bits) :
    ∀ b ∈ bits, b.Fits (heapArena next bits) := by
  intro b hb
  rw [fits_iff_forall_nodes]
  intro entry hentry
  have hmem : entry ∈ bits.flatMap nodes := List.mem_flatMap.mpr ⟨b, hb, hentry⟩
  have hlt := h.below entry hmem
  cases hfind : (bits.flatMap nodes).find? fun other => other.1 = entry.1 with
  | none =>
      have hnone := List.find?_eq_none.mp hfind entry hmem
      simp at hnone
  | some other =>
      have hnode : other.1 = entry.1 := by simpa using List.find?_some hfind
      have hformula :=
        h.determined other (List.mem_of_find?_eq_some hfind) entry hmem hnode
      simp only [heapArena, List.getElem?_map, List.getElem?_range hlt,
        Option.map_some, hfind, Option.getD_some, hformula]

private theorem Heap.of_fits {arena : Arena} {bits : List Bit}
    (h : ∀ b ∈ bits, b.Fits arena) :
    Heap arena.length bits := by
  have hentry : ∀ entry ∈ bits.flatMap nodes,
      arena[entry.1]? = some entry.2.formula := by
    intro entry hmem
    obtain ⟨b, hb, hentry⟩ := List.mem_flatMap.mp hmem
    exact fits_iff_forall_nodes.mp (h b hb) entry hentry
  constructor
  · intro entry hmem
    exact (List.getElem?_eq_some_iff.mp (hentry entry hmem)).1
  · intro entry hmem other hother hnode
    have hsame := hentry entry hmem
    rw [hnode, hentry other hother] at hsame
    exact (Option.some.inj hsame).symm

/--
The computation keeps the heap of `bits`, and its result in this heap means
`meaning`.
-/
def Computes (next : Nat) (bits : List Bit) (x : NodeM Bit)
    (meaning : Valuation → Bool) : Prop :=
  Heap (x next).2 ((x next).1 :: bits) ∧ ∀ valuation,
  (x next).1.eval valuation = meaning valuation

theorem Heap.computes {next : Nat} {bits : List Bit} (h : Heap next bits)
    {x : NodeM Bit} {meaning : Valuation → Bool}
    (hx : NodeM.Yields x (heapArena next bits) fun later c =>
      c.Fits later ∧ ∀ valuation, c.eval valuation = meaning valuation) :
    Computes next bits x meaning := by
  obtain ⟨later, hle, hlength, hfits, heval⟩ := hx
  have hnext : (heapArena next bits).length = next := by simp [heapArena]
  rw [hnext] at hlength hfits heval
  constructor
  · rw [hlength]
    apply Heap.of_fits
    rw [List.forall_mem_cons]
    exact ⟨hfits, fun b hb => (h.fits b hb).mono hle⟩
  · exact heval

theorem Heap.computes_built {next : Nat} {bits operands : List Bit}
    (h : Heap next bits) {x : NodeM Bit} {meaning : Valuation → Bool}
    (hx : NodeM.Yields x (heapArena next bits)
      fun later c => c.BuiltFrom later operands meaning) :
    Computes next bits x meaning := by
  apply h.computes
  apply hx.mono
  intro later c _ hc
  exact ⟨hc.fits, hc.eval_eq⟩

/--
In a heap, identity is an equivalence relation, identical bits have the same
value under every valuation, and the operators have the meaning that they are
named for.  Making a bit keeps the heap, with simplification or without, so this
goes on for whatever is made next.
-/
theorem simplification_preserves_meaning {next : Nat} {bits : List Bit}
    (hheap : Heap next bits) :
    (Equivalence fun a b : { b // b ∈ bits } => a.val.identical b.val = true) ∧
    (∀ a ∈ bits, ∀ b ∈ bits, a.identical b = true →
      ∀ valuation, a.eval valuation = b.eval valuation) ∧
    (∀ a ∈ bits,
      Computes next bits a.not (fun valuation => !a.eval valuation) ∧
      Computes next bits (mkNeg a) fun valuation => !a.eval valuation) ∧
    (∀ a ∈ bits, ∀ b ∈ bits,
      Computes next bits (a.and b)
        (fun valuation => a.eval valuation && b.eval valuation) ∧
      Computes next bits (mkConj a b)
        (fun valuation => a.eval valuation && b.eval valuation) ∧
      Computes next bits (a.or b)
        (fun valuation => a.eval valuation || b.eval valuation) ∧
      Computes next bits (a.xor b)
        (fun valuation => a.eval valuation ^^ b.eval valuation) ∧
      Computes next bits (a.equals b)
        fun valuation => a.eval valuation == b.eval valuation) ∧
    ∀ c ∈ bits, ∀ a ∈ bits, ∀ b ∈ bits,
      Computes next bits (c.select a b) fun valuation =>
        if c.eval valuation then a.eval valuation else b.eval valuation := by
  have hfits := hheap.fits
  refine ⟨⟨?_, ?_, ?_⟩, ?_, ?_, ?_, ?_⟩
  · intro a
    exact a.val.identical_self
  · intro a b hab
    rw [identical_comm]
    exact hab
  · intro a b c hab hbc
    exact identical_trans (hfits _ a.property) (hfits _ b.property)
      (hfits _ c.property) hab hbc
  · intro a ha b hb hab
    exact eval_eq_of_identical (hfits a ha) (hfits b hb) hab
  · intro a ha
    constructor
    · apply hheap.computes_built
      exact (not_yields (hfits a ha)).mono fun _ _ _ hc => hc.1
    · apply hheap.computes
      apply (mkNeg_yields (hfits a ha)).mono
      rintro later c _ ⟨rfl, hc⟩
      exact ⟨hc, fun _ => rfl⟩
  · intro a ha b hb
    refine ⟨?_, ?_, ?_, ?_, ?_⟩
    · exact hheap.computes_built (and_yields (hfits a ha) (hfits b hb))
    · apply hheap.computes
      apply (mkConj_yields (hfits a ha) (hfits b hb)).mono
      rintro later c _ ⟨rfl, hc⟩
      exact ⟨hc, fun _ => rfl⟩
    · exact hheap.computes_built (or_yields (hfits a ha) (hfits b hb))
    · apply hheap.computes_built
      exact (xor_yields (hfits a ha) (hfits b hb)).mono fun _ _ _ hc => hc.1
    · exact hheap.computes_built (equals_yields (hfits a ha) (hfits b hb))
  · intro c hc a ha b hb
    exact hheap.computes_built (select_yields (hfits c hc) (hfits a ha)
      (hfits b hb))

theorem simplification_preserves_meaning_exchanged :
    let odd : Bit := .neg 0 (.literal true)
    let a : Bit := .conj 1 odd 2 (.var ⟨7⟩)
    let b : Bit := .conj 2 (.var ⟨7⟩) 1 odd
    let c : Bit := .neg 3 a
    Heap 4 [a, b, c] ∧ a.identical b = true ∧
      (∀ valuation, a.eval valuation = b.eval valuation) ∧
      (c.and b 4).1.literal? = some false ∧
      Computes 4 [a, b, c] (c.and b) fun valuation => c.eval valuation &&
        b.eval valuation := by
  intro odd a b c
  have hheap : Heap 4 [a, b, c] := by
    constructor <;> decide
  have hident : a.identical b = true := by decide
  obtain ⟨_, hmeaning, _, hpairs, _⟩ := simplification_preserves_meaning hheap
  have hand := (hpairs c (by simp) b (by simp)).1
  exact ⟨hheap, hident, hmeaning a (by simp) b (by simp) hident, rfl, hand⟩

end Bit

end SymbolicMachine
