import SymbolicMachine.Proofs.Word.WellFormed
import SymbolicMachine.Word.Tags

/-!
# Tags of a word

The walk that collects tags skips the nodes it has seen.  It may do so because a
node stands for one formula of the arena, and the tags of that formula are
collected already.
-/

namespace SymbolicMachine

def Formula.HasTag (tag : Nat) (f : Formula) : Prop :=
  ∃ v index, f.Mentions v ∧ v.tag? = some (tag, index)

namespace Formula

@[simp] theorem hasTag_literal (tag : Nat) (value : Bool) :
    (literal value).HasTag tag ↔ False := by
  simp [HasTag, Mentions]

@[simp] theorem hasTag_var (tag : Nat) (v : Var) :
    (var v).HasTag tag ↔ ∃ index, v.tag? = some (tag, index) := by
  simp [HasTag, Mentions]

@[simp] theorem hasTag_neg (tag : Nat) (x : Formula) : (neg x).HasTag tag ↔
    x.HasTag tag := Iff.rfl

@[simp] theorem hasTag_conj (tag : Nat) (x y : Formula) :
    (conj x y).HasTag tag ↔ x.HasTag tag ∨ y.HasTag tag := by
  simp only [HasTag, Mentions, or_and_right, exists_or]

end Formula

def TagWalk.Closed (arena : Arena) (walk : TagWalk) : Prop :=
  ∀ node ∈ walk.seen, ∀ f, arena[node]? = some f → ∀ tag, f.HasTag tag →
    tag ∈ walk.tags

/--
The walk `next` has seen more than `walk` and has collected the tags that
`found` admits.
-/
structure TagWalk.Adds (arena : Arena) (walk next : TagWalk)
    (found : Nat → Prop) : Prop where
  closed : next.Closed arena
  tags : ∀ tag, tag ∈ next.tags ↔ tag ∈ walk.tags ∨ found tag

variable {arena : Arena}

private theorem TagWalk.addVar_adds {walk : TagWalk} (hwalk : walk.Closed arena)
    (v : Var) :
    walk.Adds arena (walk.addVar v) (Formula.var v).HasTag := by
  cases htag : v.tag? with
  | none =>
      have hadd : walk.addVar v = walk := by simp only [addVar, htag]
      rw [hadd]
      exact ⟨hwalk, fun tag => by simp [htag]⟩
  | some pair =>
      obtain ⟨tag, index⟩ := pair
      have hadd : walk.addVar v =
          { walk with tags := walk.tags.insert tag } := by
        simp only [addVar, htag]
      rw [hadd]
      constructor
      · intro node hnode f hf other hother
        exact Std.TreeSet.mem_insert.mpr
          (.inr (hwalk node hnode f hf other hother))
      · intro other
        simp [htag, Std.TreeSet.mem_insert, or_comm]

theorem TagWalk.enter_adds {walk : TagWalk} {node : Nat} {x : Bit}
    (hnode : arena[node]? = some x.formula) (hwalk : walk.Closed arena)
    (hx : walk.Adds arena (x.walkTags walk) x.formula.HasTag) :
    walk.Adds arena
      (if node ∈ walk.seen then walk else (x.walkTags walk).markSeen node)
      x.formula.HasTag := by
  split
  case isTrue hseen =>
      refine ⟨hwalk, fun tag => ⟨.inl, ?_⟩⟩
      rintro (hold | hfound)
      · exact hold
      · exact hwalk node hseen _ hnode tag hfound
  case isFalse =>
      refine ⟨?_, hx.tags⟩
      intro other hother f hf tag hfound
      rcases Std.TreeSet.mem_insert.mp hother with heq | hold
      · obtain rfl : node = other := compare_eq_iff_eq.mp heq
        obtain rfl : x.formula = f := Option.some.inj (hnode.symm.trans hf)
        exact (hx.tags tag).mpr (.inr hfound)
      · exact hx.closed other hold f hf tag hfound

private theorem Bit.walkTags_adds {b : Bit} (hb : b.Fits arena) {walk : TagWalk}
    (hwalk : walk.Closed arena) :
    walk.Adds arena (b.walkTags walk) b.formula.HasTag := by
  induction b generalizing walk with
  | literal value =>
      exact ⟨hwalk, fun tag => by simp [walkTags, formula]⟩
  | var v => exact TagWalk.addVar_adds hwalk v
  | neg node x ih => exact TagWalk.enter_adds hb.1 hwalk (ih hb.2 hwalk)
  | conj nodeX x nodeY y ihx ihy =>
      have hleft := TagWalk.enter_adds hb.1.1 hwalk (ihx hb.1.2 hwalk)
      have hright :=
        TagWalk.enter_adds hb.2.1 hleft.closed (ihy hb.2.2 hleft.closed)
      refine ⟨hright.closed, fun tag => ?_⟩
      rw [Bit.formula, Formula.hasTag_conj, ← or_assoc, ← hleft.tags tag]
      exact hright.tags tag

def Word.HasTag (tag : Nat) (w : Word) : Prop :=
  ∃ v index, w.Mentions v ∧ v.tag? = some (tag, index)

theorem Word.hasTag_iff {w : Word} {tag : Nat} :
    w.HasTag tag ↔ ∃ b ∈ w.bits, b.formula.HasTag tag := by
  constructor
  · rintro ⟨v, index, ⟨b, hb, hmention⟩, htag⟩
    exact ⟨b, hb, v, index, hmention, htag⟩
  · rintro ⟨b, hb, v, index, hmention, htag⟩
    exact ⟨v, index, ⟨b, hb, hmention⟩, htag⟩

theorem Word.mem_tags_iff {w : Word} (hw : ∀ b ∈ w.bits, b.Fits arena)
    (tag : Nat) :
    tag ∈ w.tags ↔ w.HasTag tag := by
  have hfold : ∀ (bits : List Bit) (walk : TagWalk),
      (∀ b ∈ bits, b.Fits arena) →
      walk.Closed arena →
      (tag ∈ (bits.foldl (fun walk b => b.walkTags walk) walk).tags ↔
        tag ∈ walk.tags ∨ ∃ b ∈ bits, b.formula.HasTag tag) := by
    intro bits
    induction bits with
    | nil => simp
    | cons b bits ih =>
        intro walk hfits hwalk
        simp only [List.forall_mem_cons] at hfits
        have hstep := Bit.walkTags_adds hfits.1 hwalk
        rw [List.foldl_cons, ih _ hfits.2 hstep.closed, hstep.tags, or_assoc]
        simp
  have hstart : ({} : TagWalk).Closed arena := by
    intro node hnode
    exact absurd hnode Std.TreeSet.not_mem_emptyc
  have hempty : tag ∉ ({} : TagWalk).tags := Std.TreeSet.not_mem_emptyc
  rw [Word.tags, hfold w.bits {} hw hstart, hasTag_iff]
  simp only [hempty, false_or]

end SymbolicMachine
