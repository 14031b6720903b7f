import Mathlib.Data.Finset.Card
import Mathlib.Logic.Function.Iterate
import SymbolicMachine.Proofs.Bit.Identity
import SymbolicMachine.Proofs.Word.Tags

/-!
# The tag walk as a loop

The tags of a word can be collected by a loop that keeps a list of bits to look
at.  At the start the bits of the word stand on it.  An operand is put on the
list when its node is met for the first time, so a node is entered once, however
many bits share it.

Every step takes a bit from the list, and all that it puts there takes a node
from those not met before.  So the loop ends, and when it ends every operand of
a bit that it looked at was looked at too, in this bit or in another one with
the same node.
-/

namespace SymbolicMachine

/-! ## Nodes of a word -/

theorem Bit.mem_nodes_neg (node : Nat) (x : Bit) :
    (node, x) ∈ (neg node x).nodes :=
  List.mem_cons_self

theorem Bit.mem_nodes_conj_left (nodeX nodeY : Nat) (x y : Bit) :
    (nodeX, x) ∈ (conj nodeX x nodeY y).nodes :=
  List.mem_append_left _ List.mem_cons_self

theorem Bit.mem_nodes_conj_right (nodeX nodeY : Nat) (x y : Bit) :
    (nodeY, y) ∈ (conj nodeX x nodeY y).nodes :=
  List.mem_append_right _ List.mem_cons_self

private theorem Bit.nodes_subset {b x : Bit} {node : Nat}
    (h : (node, x) ∈ b.nodes) :
    x.nodes ⊆ b.nodes := by
  induction b with
  | literal value => cases h
  | var v => cases h
  | neg inner y ih =>
      rcases List.mem_cons.mp h with heq | hmem
      · cases heq
        exact List.subset_cons_self _ _
      · exact List.subset_cons_of_subset _ (ih hmem)
  | conj nodeX y nodeY z ihy ihz =>
      rcases List.mem_append.mp h with hleft | hright
      · apply List.subset_append_of_subset_left
        rcases List.mem_cons.mp hleft with heq | hmem
        · cases heq
          exact List.subset_cons_self _ _
        · exact List.subset_cons_of_subset _ (ihy hmem)
      · apply List.subset_append_of_subset_right
        rcases List.mem_cons.mp hright with heq | hmem
        · cases heq
          exact List.subset_cons_self _ _
        · exact List.subset_cons_of_subset _ (ihz hmem)

private theorem Bit.hasTag_of_mem_nodes {b x : Bit} {node tag : Nat}
    (h : (node, x) ∈ b.nodes) (htag : x.formula.HasTag tag) :
    b.formula.HasTag tag := by
  induction b with
  | literal value => cases h
  | var v => cases h
  | neg inner y ih =>
      rcases List.mem_cons.mp h with heq | hmem
      · cases heq
        exact htag
      · exact ih hmem
  | conj nodeX y nodeY z ihy ihz =>
      rw [formula, Formula.hasTag_conj]
      rcases List.mem_append.mp h with hleft | hright
      · left
        rcases List.mem_cons.mp hleft with heq | hmem
        · cases heq
          exact htag
        · exact ihy hmem
      · right
        rcases List.mem_cons.mp hright with heq | hmem
        · cases heq
          exact htag
        · exact ihz hmem

namespace Word

def nodes (w : Word) : List (Nat × Bit) :=
  w.bits.flatMap Bit.nodes

def nodeNumbers (w : Word) : Finset Nat :=
  (w.nodes.map Prod.fst).toFinset

private theorem mem_nodeNumbers {w : Word} {node : Nat} {x : Bit}
    (h : (node, x) ∈ w.nodes) :
    node ∈ w.nodeNumbers :=
  List.mem_toFinset.mpr (List.mem_map.mpr ⟨(node, x), h, rfl⟩)

def Part (w : Word) (b : Bit) : Prop :=
  b ∈ w.bits ∨ ∃ node, (node, b) ∈ w.nodes

theorem Part.nodes {w : Word} {b : Bit} (h : w.Part b) : b.nodes ⊆ w.nodes := by
  intro entry hentry
  rcases h with hroot | ⟨node, hnode⟩
  · exact List.mem_flatMap.mpr ⟨b, hroot, hentry⟩
  · obtain ⟨root, hroot, hinner⟩ := List.mem_flatMap.mp hnode
    exact List.mem_flatMap.mpr ⟨root, hroot, Bit.nodes_subset hinner hentry⟩

private theorem Part.hasTag {w : Word} {b : Bit} {tag : Nat} (h : w.Part b)
    (htag : b.formula.HasTag tag) : w.HasTag tag := by
  rw [hasTag_iff]
  rcases h with hroot | ⟨node, hnode⟩
  · exact ⟨b, hroot, htag⟩
  · obtain ⟨root, hroot, hinner⟩ := List.mem_flatMap.mp hnode
    exact ⟨root, hroot, Bit.hasTag_of_mem_nodes hinner htag⟩

end Word

/-! ## The loop -/

structure Worklist where
  pending : List Bit
  visited : Finset Nat
  tags : Finset Nat

namespace Worklist

def start (w : Word) : Worklist :=
  ⟨w.bits.reverse, ∅, ∅⟩

def enter (node : Nat) (x : Bit) (list : Worklist) : Worklist :=
  if node ∈ list.visited then list
  else
    { list with
      pending := x :: list.pending
      visited := insert node list.visited }

def addVar (v : Var) (list : Worklist) : Worklist :=
  match v.tag? with
  | some (tag, _) => { list with tags := insert tag list.tags }
  | none => list

def look : Bit → Worklist → Worklist
  | .literal _, list => list
  | .var v, list => list.addVar v
  | .neg node x, list => list.enter node x
  | .conj nodeX x nodeY y, list => (list.enter nodeX x).enter nodeY y

def step (list : Worklist) : Worklist :=
  match list.pending with
  | [] => list
  | b :: pending => look b { list with pending }

variable {w : Word} {list : Worklist}

/-! ## What was looked at -/

def Explored (list : Worklist) : Bit → Prop
  | .literal _ => True
  | .var v => ∀ tag index, v.tag? = some (tag, index) → tag ∈ list.tags
  | .neg node _ => node ∈ list.visited
  | .conj nodeX _ nodeY _ => nodeX ∈ list.visited ∧ nodeY ∈ list.visited

def Handles (list : Worklist) (b : Bit) : Prop :=
  b ∈ list.pending ∨ list.Explored b

structure Extends (list later : Worklist) : Prop where
  pending : list.pending ⊆ later.pending
  visited : list.visited ⊆ later.visited
  tags : list.tags ⊆ later.tags

private theorem Extends.explored {later : Worklist} (h : list.Extends later)
    {b : Bit} (hb : list.Explored b) : later.Explored b := by
  cases b with
  | literal value => trivial
  | var v => exact fun tag index htag => h.tags (hb tag index htag)
  | neg node x => exact h.visited hb
  | conj nodeX x nodeY y => exact ⟨h.visited hb.1, h.visited hb.2⟩

theorem Extends.trans {mid later : Worklist} (h : list.Extends mid)
    (h' : mid.Extends later) :
    list.Extends later :=
  ⟨List.Subset.trans h.pending h'.pending,
    Finset.Subset.trans h.visited h'.visited,
    Finset.Subset.trans h.tags h'.tags⟩

theorem extends_enter (list : Worklist) (node : Nat) (x : Bit) :
    list.Extends (list.enter node x) := by
  unfold enter
  split
  · exact ⟨List.Subset.refl _, Finset.Subset.refl _, Finset.Subset.refl _⟩
  · exact ⟨List.subset_cons_self _ _, Finset.subset_insert _ _,
      Finset.Subset.refl _⟩

theorem mem_visited_enter (list : Worklist) (node : Nat) (x : Bit) :
    node ∈ (list.enter node x).visited := by
  unfold enter
  split
  case isTrue hvisited => exact hvisited
  case isFalse => exact Finset.mem_insert_self _ _

private theorem extends_look (b : Bit) (list : Worklist) :
    list.Extends (look b list) := by
  cases b with
  | literal value =>
      exact ⟨List.Subset.refl _, Finset.Subset.refl _, Finset.Subset.refl _⟩
  | var v =>
      simp only [look, addVar]
      split
      · exact ⟨List.Subset.refl _, Finset.Subset.refl _,
          Finset.subset_insert _ _⟩
      · exact ⟨List.Subset.refl _, Finset.Subset.refl _, Finset.Subset.refl _⟩
  | neg node x => exact extends_enter list node x
  | conj nodeX x nodeY y =>
      exact (extends_enter list nodeX x).trans (extends_enter _ nodeY y)

private theorem explored_look (b : Bit) (list : Worklist) :
    (look b list).Explored b := by
  cases b with
  | literal value => trivial
  | var v =>
      intro tag index htag
      simp only [look, addVar, htag]
      exact Finset.mem_insert_self _ _
  | neg node x => exact mem_visited_enter list node x
  | conj nodeX x nodeY y =>
      exact ⟨(extends_enter _ nodeY y).visited (mem_visited_enter list nodeX x),
        mem_visited_enter _ nodeY y⟩

structure AddsFrom (b : Bit) (list later : Worklist) : Prop where
  pending : ∀ x ∈ later.pending, x ∈ list.pending ∨ ∃ node, (node, x) ∈ b.nodes
  visited : ∀ node ∈ later.visited,
    node ∈ list.visited ∨ ∃ x, (node, x) ∈ b.nodes ∧ x ∈ later.pending
  tags : ∀ tag ∈ later.tags, tag ∈ list.tags ∨ b.formula.HasTag tag

private theorem addsFrom_self (b : Bit) (list : Worklist) :
    AddsFrom b list list :=
  ⟨fun _ => .inl, fun _ => .inl, fun _ => .inl⟩

theorem AddsFrom.enter {b x : Bit} {node : Nat} {mid : Worklist}
    (h : AddsFrom b list mid) (hx : (node, x) ∈ b.nodes) :
    AddsFrom b list (mid.enter node x) := by
  have hextends := extends_enter mid node x
  have hold : ∀ other ∈ mid.visited, other ∈ list.visited ∨
      ∃ y, (other, y) ∈ b.nodes ∧ y ∈ (mid.enter node x).pending :=
    fun other hother => (h.visited other hother).imp_right
      fun ⟨y, hy, hpending⟩ => ⟨y, hy, hextends.pending hpending⟩
  unfold Worklist.enter at hold ⊢
  split at hold
  case isTrue hvisited =>
      rw [if_pos hvisited]
      exact h
  case isFalse hnew =>
      rw [if_neg hnew]
      refine ⟨fun y hy => ?_, fun other hother => ?_, h.tags⟩
      · rcases List.mem_cons.mp hy with rfl | hy
        · exact .inr ⟨node, hx⟩
        · exact h.pending y hy
      · rcases Finset.mem_insert.mp hother with rfl | hother
        · exact .inr ⟨x, hx, List.mem_cons_self⟩
        · exact hold other hother

private theorem addsFrom_look (b : Bit) (list : Worklist) :
    AddsFrom b list (look b list) := by
  have hself := addsFrom_self b list
  cases b with
  | literal value => exact hself
  | var v =>
      simp only [look, addVar]
      split
      case h_1 tag index htag =>
          refine ⟨hself.pending, hself.visited, fun other hother => ?_⟩
          rcases Finset.mem_insert.mp hother with rfl | hother
          · exact .inr ((Formula.hasTag_var _ v).mpr ⟨index, htag⟩)
          · exact .inl hother
      case h_2 => exact hself
  | neg node x => exact hself.enter (Bit.mem_nodes_neg node x)
  | conj nodeX x nodeY y =>
      exact (hself.enter (Bit.mem_nodes_conj_left nodeX nodeY x y)).enter
        (Bit.mem_nodes_conj_right nodeX nodeY x y)

/-! ## One step -/

/--
The list holds parts of the word.  Every bit of the word, and for every node
that was visited an operand of the word with this node, stands on the list or
was looked at.
-/
structure Invariant (w : Word) (list : Worklist) : Prop where
  part : ∀ b ∈ list.pending, w.Part b
  roots : ∀ b ∈ w.bits, list.Handles b
  operands : ∀ node ∈ list.visited, ∃ x, (node, x) ∈ w.nodes ∧ list.Handles x
  tags : ∀ tag ∈ list.tags, w.HasTag tag

theorem invariant_start (w : Word) : (start w).Invariant w where
  part := fun _ hb => .inl (List.mem_reverse.mp hb)
  roots := fun _ hb => .inl (List.mem_reverse.mpr hb)
  operands := fun _ hnode => absurd hnode (Finset.notMem_empty _)
  tags := fun _ htag => absurd htag (Finset.notMem_empty _)

theorem step_of_cons {b : Bit} {pending : List Bit}
    (h : list.pending = b :: pending) :
    list.step = look b { list with pending } := by
  rw [step, h]

theorem step_of_nil (h : list.pending = []) : list.step = list := by
  rw [step, h]

theorem Handles.step {b : Bit} (h : list.Handles b) : list.step.Handles b := by
  cases hpending : list.pending with
  | nil => rwa [step_of_nil hpending]
  | cons first pending =>
      rw [step_of_cons hpending]
      have hextends := extends_look first { list with pending }
      rcases h with hmem | hexplored
      · rw [hpending] at hmem
        rcases List.mem_cons.mp hmem with rfl | hmem
        · exact .inr (explored_look b _)
        · exact .inl (hextends.pending hmem)
      · right
        apply hextends.explored
        cases b <;> exact hexplored

theorem Invariant.step (h : list.Invariant w) : list.step.Invariant w := by
  have hroots : ∀ b ∈ w.bits, list.step.Handles b :=
    fun b hb => (h.roots b hb).step
  cases hpending : list.pending with
  | nil => rwa [step_of_nil hpending]
  | cons first pending =>
      have hfirst : w.Part first := h.part first (hpending ▸ List.mem_cons_self)
      have hadds := addsFrom_look first { list with pending }
      have hstep := step_of_cons hpending
      rw [← hstep] at hadds
      refine ⟨fun b hb => ?_, hroots, fun node hnode => ?_, fun tag htag => ?_⟩
      · rcases hadds.pending b hb with hold | ⟨node, hnode⟩
        · exact h.part b (hpending ▸ List.mem_cons_of_mem first hold)
        · exact .inr ⟨node, hfirst.nodes hnode⟩
      · rcases hadds.visited node hnode with hold | ⟨x, hx, hmem⟩
        · obtain ⟨x, hx, hhandles⟩ := h.operands node hold
          exact ⟨x, hx, hhandles.step⟩
        · exact ⟨x, hfirst.nodes hx, .inl hmem⟩
      · rcases hadds.tags tag htag with hold | hfound
        · exact h.tags tag hold
        · exact hfirst.hasTag hfound

def remaining (w : Word) (list : Worklist) : Nat :=
  list.pending.length + (w.nodeNumbers \ list.visited).card

theorem remaining_enter {node : Nat} {x : Bit} (h : (node, x) ∈ w.nodes)
    (list : Worklist) :
    (list.enter node x).remaining w = list.remaining w := by
  unfold enter
  split
  case isTrue => rfl
  case isFalse hnew =>
      have hmem : node ∈ w.nodeNumbers \ list.visited :=
        Finset.mem_sdiff.mpr ⟨Word.mem_nodeNumbers h, hnew⟩
      have hpos : 0 < (w.nodeNumbers \ list.visited).card :=
        Finset.card_pos.mpr ⟨node, hmem⟩
      simp only [remaining, List.length_cons, Finset.sdiff_insert,
        Finset.card_erase_of_mem hmem]
      omega

private theorem remaining_look {b : Bit} (h : b.nodes ⊆ w.nodes)
    (list : Worklist) :
    (look b list).remaining w = list.remaining w := by
  cases b with
  | literal value => rfl
  | var v =>
      simp only [look, addVar]
      split <;> rfl
  | neg node x => exact remaining_enter (h (Bit.mem_nodes_neg node x)) list
  | conj nodeX x nodeY y =>
      rw [look, remaining_enter (h (Bit.mem_nodes_conj_right nodeX nodeY x y)),
        remaining_enter (h (Bit.mem_nodes_conj_left nodeX nodeY x y))]

private theorem Invariant.remaining_step (h : list.Invariant w)
    (hpending : list.pending ≠ []) :
    list.step.remaining w + 1 = list.remaining w := by
  obtain ⟨first, pending, heq⟩ := List.exists_cons_of_ne_nil hpending
  have hfirst : w.Part first := h.part first (heq ▸ List.mem_cons_self)
  rw [step_of_cons heq, remaining_look hfirst.nodes]
  simp only [remaining, heq, List.length_cons]
  omega

/-! ## The run -/

theorem Invariant.iterate (h : list.Invariant w) (steps : Nat) :
    (Worklist.step^[steps] list).Invariant w := by
  induction steps with
  | zero => exact h
  | succ steps ih =>
      rw [Function.iterate_succ_apply']
      exact ih.step

private theorem Invariant.pending_iterate (h : list.Invariant w) :
    (Worklist.step^[list.remaining w] list).pending = [] := by
  generalize hsteps : list.remaining w = steps
  induction steps generalizing list with
  | zero =>
      have hlength : list.pending.length = 0 := by
        unfold remaining at hsteps
        omega
      exact List.length_eq_zero_iff.mp hlength
  | succ steps ih =>
      by_cases hpending : list.pending = []
      · rw [Function.iterate_fixed (step_of_nil hpending), hpending]
      · have hstep := h.remaining_step hpending
        rw [Function.iterate_succ_apply]
        exact ih h.step (by omega)

private theorem remaining_start (w : Word) :
    (start w).remaining w = w.width + w.nodeNumbers.card := by
  simp [remaining, start, Word.width]

private theorem Invariant.mem_tags {next : Nat} (h : list.Invariant w)
    (hheap : Bit.Heap next w.bits) (hdone : list.pending = []) {tag : Nat}
    {f : Formula} (htag : f.HasTag tag) {b : Bit} (hformula : b.formula = f)
    (hpart : w.Part b) (hexplored : list.Explored b) :
    tag ∈ list.tags := by
  -- The operand that was looked at for a node may be another one with the same
  -- formula.
  have hoperand : ∀ {node : Nat} {x : Bit},
      (node, x) ∈ w.nodes → node ∈ list.visited →
      ∃ y, y.formula = x.formula ∧ w.Part y ∧ list.Explored y := by
    intro node x hx hvisited
    obtain ⟨y, hy, hhandles⟩ := h.operands node hvisited
    refine ⟨y, hheap.determined (node, y) hy (node, x) hx rfl, .inr ⟨node, hy⟩,
      ?_⟩
    apply hhandles.resolve_left
    rw [hdone]
    exact List.not_mem_nil
  induction f generalizing b with
  | literal value => exact absurd htag (by simp)
  | var v =>
      obtain ⟨index, hv⟩ := (Formula.hasTag_var tag v).mp htag
      cases b <;> cases hformula
      exact hexplored tag index hv
  | neg x ih =>
      cases b <;> cases hformula
      case neg node y =>
          obtain ⟨z, hz, hpartZ, hexploredZ⟩ :=
            hoperand (hpart.nodes (Bit.mem_nodes_neg node y)) hexplored
          exact ih htag hz hpartZ hexploredZ
  | conj x y ihx ihy =>
      cases b <;> cases hformula
      case conj nodeX u nodeY v =>
          rcases (Formula.hasTag_conj tag _ _).mp htag with hleft | hright
          · obtain ⟨z, hz, hpartZ, hexploredZ⟩ :=
              hoperand (hpart.nodes (Bit.mem_nodes_conj_left nodeX nodeY u v))
                hexplored.1
            exact ihx hleft hz hpartZ hexploredZ
          · obtain ⟨z, hz, hpartZ, hexploredZ⟩ :=
              hoperand (hpart.nodes (Bit.mem_nodes_conj_right nodeX nodeY u v))
                hexplored.2
            exact ihy hright hz hpartZ hexploredZ

private theorem mem_tags_iterate {next : Nat} (hheap : Bit.Heap next w.bits)
    (tag : Nat) :
    tag ∈ (step^[w.width + w.nodeNumbers.card] (start w)).tags ↔
      w.HasTag tag := by
  have hdone := (invariant_start w).pending_iterate
  rw [remaining_start] at hdone
  have hfinal := (invariant_start w).iterate (w.width + w.nodeNumbers.card)
  refine ⟨hfinal.tags tag, fun htag => ?_⟩
  obtain ⟨b, hb, hfound⟩ := Word.hasTag_iff.mp htag
  have hexplored :=
    (hfinal.roots b hb).resolve_left (by rw [hdone]; exact List.not_mem_nil)
  exact hfinal.mem_tags hheap hdone hfound rfl (.inl hb) hexplored

end Worklist

/--
However the bits of a word share their nodes, its tags are those of the tagged
variables in the formulas of the bits.  The loop finds the same tags, and has
nothing left to look at after one step for every bit of the word and every node
below them.
-/
theorem Word.tag_walk_exact {next : Nat} {w : Word}
    (hheap : Bit.Heap next w.bits) :
    (∀ tag, tag ∈ w.tags ↔
      ∃ b ∈ w.bits,
        ∃ v index, b.formula.Mentions v ∧ v.tag? = some (tag, index)) ∧
    (Worklist.step^[w.width + w.nodeNumbers.card] (.start w)).pending = [] ∧
    ∀ tag,
      tag ∈ (Worklist.step^[w.width + w.nodeNumbers.card] (.start w)).tags ↔
      tag ∈ w.tags := by
  have htags : ∀ tag, tag ∈ w.tags ↔ w.HasTag tag := mem_tags_iff hheap.fits
  refine ⟨fun tag => (htags tag).trans hasTag_iff, ?_, fun tag => ?_⟩
  · rw [← Worklist.remaining_start]
    exact (Worklist.invariant_start w).pending_iterate
  · rw [htags, Worklist.mem_tags_iterate hheap]

theorem Word.tag_walk_exact_shared_conjunction :
    let shared : Bit := .conj 0 (.var (.ofTag 3 0)) 1 (.neg 2 (.var ⟨7⟩))
    let beside : Bit := .conj 3 shared 4 (.var (.ofTag 5 9))
    let w := Word.ofBits [shared, .neg 3 shared, beside]
    Bit.Heap 5 w.bits ∧ 5 ∈ w.tags ∧ w.nodeNumbers.card = 5 ∧
      (Worklist.step^[8] (.start w)).pending = [] ∧
      5 ∈ (Worklist.step^[8] (.start w)).tags := by
  intro shared beside w
  have hheap : Bit.Heap 5 w.bits := by
    constructor <;> decide
  have hcard : w.nodeNumbers.card = 5 := by decide
  obtain ⟨htags, hdone, hloop⟩ := Word.tag_walk_exact hheap
  have hmentions : beside.formula.Mentions (.ofTag 5 9) := .inr rfl
  have hfive : 5 ∈ w.tags :=
    (htags 5).mpr ⟨beside, by simp [w, Word.ofBits], .ofTag 5 9, 9,
      hmentions, by decide⟩
  have hsteps : w.width + w.nodeNumbers.card = 8 := by
    rw [hcard]
    rfl
  rw [hsteps] at hdone hloop
  refine ⟨hheap, hfive, hcard, hdone, ?_⟩
  rw [hloop]
  exact hfive

end SymbolicMachine
