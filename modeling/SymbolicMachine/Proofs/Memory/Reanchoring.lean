import Mathlib.Data.List.Forall2
import SymbolicMachine.Proofs.Memory.Separation

/-!
# Regions with other anchors

The bytes of a region can be kept from any anchor at a known distance.  Then all
offsets change, by one shift and modulo `2 ^ 64`, but the distances from other
pointers change with them.  So a read gives the same: all that the anchor
decides is which accesses leave the range of the offsets.
-/

namespace SymbolicMachine

/-! ## Computations that give the same -/

namespace SymM

variable {α β : Type}

def Overflows (x : SymM α) (session : Session) : Prop :=
  ∃ after, x session = .error .offsetOverflow after

theorem Overflows.bind {x : SymM α} {session : Session}
    (h : Overflows x session) (f : α → SymM β) :
    Overflows (x >>= f) session := by
  obtain ⟨after, hrun⟩ := h
  exact ⟨after, bind_of_error hrun⟩

theorem overflows_bind_of_ok {x : SymM α} {f : α → SymM β}
    {session after : Session} {a : α} (hrun : x session = .ok a after)
    (h : Overflows (f a) after) : Overflows (x >>= f) session := by
  obtain ⟨last, hlast⟩ := h
  exact ⟨last, (bind_of_ok hrun).trans hlast⟩

def Concur (x y : SymM α) (session other : Session) : Prop :=
  Overflows x session ∨ Overflows y other ∨
    ∃ a after last, x session = .ok a after ∧ y other = .ok a last ∧
      after.nextVar = last.nextVar

theorem concur_pure (a : α) {session other : Session}
    (h : session.nextVar = other.nextVar) :
    Concur (pure a) (pure a) session other :=
  .inr (.inr ⟨a, session, other, rfl, rfl, h⟩)

private theorem concur_bind_of_ok {γ : Type} {x : SymM α} {y : SymM β}
    {f : α → SymM γ} {g : β → SymM γ} {session other after last : Session}
    {a : α} {b : β} (hx : x session = .ok a after) (hy : y other = .ok b last)
    (hrest : Concur (f a) (g b) after last) :
    Concur (x >>= f) (y >>= g) session other := by
  rcases hrest with hf | hg | ⟨c, after', last', hf, hg, hvars⟩
  · exact .inl (overflows_bind_of_ok hx hf)
  · exact .inr (.inl (overflows_bind_of_ok hy hg))
  · exact .inr (.inr ⟨c, after', last', (bind_of_ok hx).trans hf,
      (bind_of_ok hy).trans hg, hvars⟩)

theorem Concur.bind {x y : SymM α} {f g : α → SymM β} {session other : Session}
    (h : Concur x y session other)
    (hrest : ∀ a after last, after.nextVar = last.nextVar →
      Concur (f a) (g a) after last) :
    Concur (x >>= f) (y >>= g) session other := by
  rcases h with hx | hy | ⟨a, after, last, hx, hy, hvars⟩
  · exact .inl (hx.bind f)
  · exact .inr (.inl (hy.bind g))
  · exact concur_bind_of_ok hx hy (hrest a after last hvars)

end SymM

private theorem Word.fresh_concurs {width : Nat} (h : width ≤ maxWidth)
    {session other : Session} (hvars : session.nextVar = other.nextVar) :
    SymM.Concur (fresh width) (fresh width) session other := by
  have hother : fresh width other = .ok (freshWord session.nextVar width)
      { other with nextVar := session.nextVar + width } := by
    rw [hvars]
    exact fresh_of_le h other
  exact .inr (.inr ⟨_, _, _, fresh_of_le h session, hother, rfl⟩)

/-! ## Regions -/

namespace Region

variable {shift : Int64} {region other : Region}

/--
The bytes of `region`, kept from an anchor that stands `shift` bytes further on.
-/
structure Reanchored (shift : Int64) (region other : Region) : Prop where
  anchor_eq : other.anchor = region.anchor.displace shift
  byte_eq : ∀ key : Int64,
  other.bytes[(key - shift).toInt]? = region.bytes[key.toInt]?

theorem reanchored_zero (region : Region) : Reanchored 0 region region where
  anchor_eq := region.anchor.displace_zero.symm
  byte_eq := fun key => by rw [Int64.sub_zero]

theorem Reanchored.read_concurs (h : region.Reanchored shift other)
    {offset offset' : Int} (hlow : -2 ^ 63 ≤ offset) (hlow' : -2 ^ 63 ≤ offset')
    (hsame : (offset' - offset + shift.toInt) % 2 ^ 64 = 0) (count : Nat)
    {session now : Session} (hvars : session.nextVar = now.nextVar) :
    SymM.Concur (region.read offset count) (other.read offset' count) session
      now := by
  induction count generalizing offset offset' session now with
  | zero => exact SymM.concur_pure _ hvars
  | succ count ih =>
      unfold Region.read
      by_cases hlast : offset > lastOffset
      · simp only [hlast, if_true]
        exact .inl ⟨_, rfl⟩
      by_cases hlast' : offset' > lastOffset
      · simp only [hlast', if_true]
        exact .inr (.inl ⟨_, rfl⟩)
      simp only [hlast, hlast', if_false]
      rw [lastOffset_eq] at hlast hlast'
      have hkey : (Int64.ofInt offset).toInt = offset :=
        Int64.toInt_ofInt_of_le hlow (by omega)
      have hkey' : (Int64.ofInt offset - shift).toInt = offset' := by
        rw [Int64.toInt_sub, hkey, Int.bmod]
        split <;> omega
      have hbyte := h.byte_eq (.ofInt offset)
      rw [hkey, hkey'] at hbyte
      rw [hbyte]
      have hrest : ∀ {session now : Session}, session.nextVar = now.nextVar →
          SymM.Concur (region.read (offset + 1) count)
            (other.read (offset' + 1) count) session now :=
        ih (by omega) (by omega) (by omega)
      cases region.bytes[offset]? with
      | some byte => exact (hrest hvars).bind fun _ _ _ => SymM.concur_pure _
      | none =>
          refine (Word.fresh_concurs (by decide) hvars).bind
            fun byte _ _ hvars' => ?_
          exact (hrest hvars').bind fun _ _ _ => SymM.concur_pure _

end Region

/-! ## Memories -/

def Region.Alike (region other : Region) : Prop :=
  ∃ shift, region.Reanchored shift other

theorem Region.alike_refl (region : Region) : region.Alike region :=
  ⟨0, region.reanchored_zero⟩

structure Located.Alike (found other : Located) : Prop where
  before : List.Forall₂ Region.Alike found.before other.before
  after : List.Forall₂ Region.Alike found.after other.after
  place : ∃ (shift distance : Int64),
  found.region.Reanchored shift other.region ∧
    found.offset = distance.toInt ∧ other.offset = (distance - shift).toInt

namespace Memory

variable {arch : Architecture} {arena : Arena} {vars : Var → Prop}
  {session : Session} {memory : Memory} {pointer : Pointer}

def Alike (memory other : Memory) : Prop :=
  List.Forall₂ Region.Alike memory.regions other.regions

private theorem find_alike {first : Nat} {regions others : List Region}
    (h : List.Forall₂ Region.Alike regions others) :
    Option.Rel Located.Alike (find first pointer regions)
      (find first pointer others) := by
  induction h with
  | nil => exact .none
  | @cons region other regions others halike hrest ih =>
      obtain ⟨shift, hregion⟩ := halike
      have hdistance :=
        pointer.distance_displace_right first region.anchor shift
      rw [← hregion.anchor_eq] at hdistance
      unfold find
      rw [hdistance]
      cases pointer.distance first region.anchor with
      | some distance =>
          exact .some ⟨.nil, hrest, shift, distance, hregion, rfl, rfl⟩
      | none =>
          simp only [Option.map_none]
          generalize find first pointer regions = answer at ih ⊢
          generalize find first pointer others = answer' at ih ⊢
          cases ih with
          | none => exact .none
          | some hfound =>
              exact .some ⟨.cons ⟨shift, hregion⟩ hfound.before, hfound.after,
                hfound.place⟩

private theorem aliases_alike {region other : Region} (h : region.Alike other) :
    aliases pointer region = aliases pointer other := by
  obtain ⟨shift, hregion⟩ := h
  rw [aliases, aliases, hregion.anchor_eq]
  rfl

private theorem any_aliases_alike {regions others : List Region}
    (h : List.Forall₂ Region.Alike regions others) :
    regions.any (aliases pointer) = others.any (aliases pointer) := by
  induction h with
  | nil => rfl
  | cons halike _ ih =>
      rw [List.any_cons, List.any_cons, aliases_alike halike, ih]

/-- No read tells memories apart that differ in the choice of the anchors. -/
theorem Alike.read_concurs {other : Memory} (h : memory.Alike other)
    (hpointer : pointer.WellFormed arch arena vars)
    (hmemory : ∀ region ∈ memory.regions,
      region.anchor.WellFormed arch arena vars)
    (hother : ∀ region ∈ other.regions,
      region.anchor.WellFormed arch arena vars) (bitCount : Nat)
    {now : Session} (hnodes : arena.length ≤ session.nextNode)
    (hnodes' : arena.length ≤ now.nextNode) (hvars : session.nextVar =
      now.nextVar) :
    SymM.Concur (memory.read pointer bitCount) (other.read pointer bitCount)
      session now := by
  obtain ⟨after, hlocate, honly, _⟩ := locate_eq hpointer hmemory hnodes
  obtain ⟨last, hlocate', honly', _⟩ := locate_eq hpointer hother hnodes'
  have hvars' : after.nextVar = last.nextVar := by
    rw [honly.nextVar_eq, honly'.nextVar_eq, hvars]
  have hfound : Option.Rel Located.Alike
      (find arena.length pointer memory.regions)
        (find arena.length pointer other.regions) := find_alike h
  apply SymM.concur_bind_of_ok hlocate hlocate'
  generalize find arena.length pointer memory.regions = answer at hfound ⊢
  generalize find arena.length pointer other.regions = answer' at hfound ⊢
  cases hfound with
  | none => exact SymM.concur_pure none hvars'
  | @some found found' hfound =>
      have hothers : List.Forall₂ Region.Alike found.others found'.others :=
        List.rel_append hfound.before hfound.after
      have haliases : found.others.any (aliases pointer) =
          found'.others.any (aliases pointer) :=
        any_aliases_alike hothers
      obtain ⟨shift, distance, hregion, hoffset, hoffset'⟩ := hfound.place
      simp only [haliases]
      split
      · exact SymM.concur_pure none hvars'
      · have hread : SymM.Concur
            (found.region.read found.offset ((bitCount + 7) / 8))
              (found'.region.read found'.offset ((bitCount + 7) / 8)) after
                last := by
          apply hregion.read_concurs _ _ _ _ hvars'
          · rw [hoffset]
            exact distance.le_toInt
          · rw [hoffset']
            exact (distance - shift).le_toInt
          · rw [hoffset, hoffset', Int64.toInt_sub, Int.bmod]
            split <;> omega
        exact hread.bind fun _ _ _ => SymM.concur_pure _

end Memory

end SymbolicMachine
