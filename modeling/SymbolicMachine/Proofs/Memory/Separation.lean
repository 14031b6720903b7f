import SymbolicMachine.Proofs.Memory.Coherence
import SymbolicMachine.Proofs.Memory.Location

/-!
# Regions that stay apart

However a memory was written, two of its regions depend on different restricted
registers: a write drops what it might overlap, and goes to a region that
depends on the registers of its own pointer. So a pointer is at a known distance
from one region at most, and can overlap no other one then.  A read that finds a
region is never ambiguous, and comes back without an answer only where nothing
is stored.
-/

namespace SymbolicMachine

namespace Memory

variable {arch : Architecture} {arena : Arena} {vars : Var → Prop}
  {session : Session} {memory : Memory} {pointer : Pointer}

/-! ## Along a run -/

theorem Separated.write {next : Memory} {value : Word} {after : Session}
    (h : memory.Separated) (hnode : session.nextNode = arena.length)
    (hmemory : memory.WellFormed arch arena vars)
    (hpointer : pointer.WellFormed arch arena vars)
    (hbytes : value.width % 8 = 0)
    (hwrite : memory.write pointer value session = .ok next after) :
    next.Separated := by
  obtain ⟨_, _, _, _, htargets, _⟩ := locate_target hnode hmemory hpointer
  obtain ⟨region, hover, rfl⟩ :=
    write_eq_replace hnode hmemory hpointer hbytes hwrite
  exact h.replace htargets hover.anchor_eq

theorem Run.separated {pool : List Word} {writes : List (Pointer × Word)}
    (h : Run arch session pool writes memory) : memory.Separated := by
  induction h with
  | start => exact List.Pairwise.nil
  | make _ _ _ ih => exact ih
  | read _ _ _ ih => exact ih
  | write hrun hbuilt _ hbytes hwrite ih =>
      obtain ⟨arena, hsound⟩ := hrun.sound
      exact ih.write hsound.pool.nodes hsound.wellFormed
        (hbuilt.wellFormed hsound.pool) hbytes hwrite

private theorem Separated.length_le_one (h : memory.Separated)
    (hmemory : memory.WellFormed arch arena vars)
    (honly : ∀ a b, arch.restricted a = true → arch.restricted b = true →
      a = b) :
    memory.regions.length ≤ 1 := by
  rw [Separated] at h
  cases hregions : memory.regions with
  | nil => exact Nat.zero_le 1
  | cons first rest =>
      cases rest with
      | nil => exact le_rfl
      | cons second rest =>
          rw [hregions, List.pairwise_cons] at h
          have hrestricted : ∀ region ∈ memory.regions,
              ∀ id ∈ region.anchor.restrict, arch.restricted id = true :=
            fun region hregion id hid =>
              (((hmemory region hregion).anchor.restrict id).mp hid).1
          rw [hregions] at hrestricted
          obtain ⟨⟨a, ha⟩, ⟨b, hb⟩, hdisjoint⟩ :=
            Pointer.canOverlap_eq_false_iff.mp (h.1 second List.mem_cons_self)
          have hsame : a = b :=
            honly a b (hrestricted first (by simp) a ha)
              (hrestricted second (by simp) b hb)
          exact absurd (hsame ▸ hb) (hdisjoint a ha)

/-! ## Reads without an answer -/

private theorem Separated.eq_of_distance (h : memory.Separated)
    (hmemory : memory.WellFormed arch arena vars)
    (hpointer : pointer.WellFormed arch arena vars) {found : Located}
    (hsplit : memory.regions = found.before ++ found.region :: found.after)
    (hrestrict : pointer.SameRestrict found.region.anchor) {region : Region}
    (hregion : region ∈ memory.regions) {distance : Int64}
    (hdistance : pointer.distance arena.length region.anchor = some distance) :
    region = found.region := by
  have hothers : region ∉ found.others := by
    intro hother
    have hapart :=
      List.any_eq_false.mp (h.others_apart hsplit hrestrict) region hother
    have hnone :=
      Pointer.distance_eq_none hpointer (hmemory region hregion).anchor
        (eq_false_of_ne_true hapart)
    rw [hnone] at hdistance
    cases hdistance
  rw [hsplit, List.mem_append, List.mem_cons] at hregion
  rw [Located.others, List.mem_append] at hothers
  tauto

private theorem read_eq_none_iff (hnode : session.nextNode = arena.length)
    (hmemory : memory.WellFormed arch arena vars)
    (hseparated : memory.Separated)
    (hpointer : pointer.WellFormed arch arena vars) {bitCount : Nat}
    {answer : Option Word} {after : Session}
    (hread : memory.read pointer bitCount session = .ok answer after) :
    answer = none ↔
      (∀ region ∈ memory.regions,
        pointer.distance arena.length region.anchor = none) ∨
      ∃ region ∈ memory.regions, ∃ distance,
        pointer.distance arena.length region.anchor = some distance ∧
        ∀ i < (bitCount + 7) / 8,
          region.bytes[distance.toInt + (i : Nat)]? = none := by
  obtain ⟨mid, hlocate, _⟩ :=
    locate_eq hpointer (fun r hr => (hmemory r hr).anchor) hnode.ge
  cases hfound : find arena.length pointer memory.regions with
  | none =>
      rw [hfound] at hlocate
      have hanswer : memory.read pointer bitCount session = .ok none mid :=
        SymM.bind_of_ok hlocate
      rw [hanswer] at hread
      cases hread
      exact iff_of_true rfl (.inl (find_eq_none_iff.mp hfound))
  | some found =>
      rw [hfound] at hlocate
      obtain ⟨hsplit, hreaches⟩ := locate_eq_some hnode hmemory hpointer hlocate
      obtain ⟨distance, hdistance, hoffset⟩ := distance_of_find hfound
      have hapart := hseparated.others_apart hsplit hreaches.restrict
      rw [read_eq_of_locate bitCount hlocate hapart] at hread
      obtain ⟨⟨bits, known⟩, _, hbytes, hreturn⟩ := SymM.bind_eq_ok.mp hread
      cases hreturn
      have hnone :
          (if known = true then some ((Word.ofBits bits).resize bitCount)
            else none) = none ↔ known = false := by
        cases known <;> simp
      rw [hnone, Region.read_unknown_iff hbytes, ← hoffset]
      have hmem : found.region ∈ memory.regions := by
        rw [hsplit]
        simp
      constructor
      · intro hunknown
        exact .inr ⟨found.region, hmem, distance, hdistance, hunknown⟩
      · rintro (hfar | ⟨region, hregion, other, hother, hunknown⟩)
        · rw [hfar found.region hmem] at hdistance
          cases hdistance
        · have hsame :=
            hseparated.eq_of_distance hmemory hpointer hsplit hreaches.restrict
              hregion hother
          rw [hsame, hdistance] at hother
          cases hother
          exact hsame ▸ hunknown

/--
Any two regions that a run leaves depend on restricted registers, and on no
common one; so one restricted register allows for one region.  All stored bytes
are whole ones.  A pointer at a known distance from a region can overlap no
other one, so a read has no answer exactly if the pointer is at a known distance
from no region or none of the bytes at that distance is stored.
-/
theorem regions_keep_apart {pool : List Word} {writes : List (Pointer × Word)}
    (hrun : Run arch session pool writes memory) :
    (memory.regions.Pairwise fun a b => a.anchor.restrict ≠ [] ∧
      b.anchor.restrict ≠ [] ∧
      a.anchor.restrict.Disjoint b.anchor.restrict) ∧
    (∀ region ∈ memory.regions, ∀ (offset : Int) byte,
      region.bytes[offset]? = some byte → byte.width = 8) ∧
    ((∀ a b, arch.restricted a = true → arch.restricted b = true → a = b) →
      memory.regions.length ≤ 1) ∧
    ∀ pointer, Pointer.Built arch pool pointer →
      (∀ found after,
        locate pointer memory.regions session = .ok (some found) after →
        found.others.any (aliases pointer) = false) ∧
      ∀ bitCount answer after,
        memory.read pointer bitCount session = .ok answer after →
        (answer = none ↔
          (∀ region ∈ memory.regions,
            ∃ mid, pointer.difference region.anchor session = .ok none mid) ∨
          ∃ region ∈ memory.regions, ∃ distance,
            (∃ mid, pointer.difference region.anchor session =
              .ok (some distance) mid) ∧
            ∀ i < (bitCount + 7) / 8,
              region.bytes[distance.toInt + (i : Nat)]? = none) := by
  obtain ⟨arena, hsound⟩ := hrun.sound
  have hseparated := hrun.separated
  have hmemory := hsound.wellFormed
  have hnode := hsound.pool.nodes
  refine ⟨?_, fun region hregion _ _ => (hmemory region hregion).byte_width,
    hseparated.length_le_one hmemory, fun pointer hbuilt => ⟨?_, ?_⟩⟩
  · refine hseparated.imp fun {a b} hapart => ?_
    obtain ⟨⟨_, ha⟩, ⟨_, hb⟩, hdisjoint⟩ :=
      Pointer.canOverlap_eq_false_iff.mp hapart
    exact ⟨List.ne_nil_of_mem ha, List.ne_nil_of_mem hb,
      fun id hid => hdisjoint id hid⟩
  · intro found after hlocate
    obtain ⟨hsplit, hreaches⟩ :=
      locate_eq_some hnode hmemory (hbuilt.wellFormed hsound.pool) hlocate
    exact hseparated.others_apart hsplit hreaches.restrict
  · intro bitCount answer after hread
    have hpointer := hbuilt.wellFormed hsound.pool
    rw [read_eq_none_iff hnode hmemory hseparated hpointer hread]
    have hdistance : ∀ region ∈ memory.regions, ∀ distance,
        (∃ mid, pointer.difference region.anchor session = .ok distance mid) ↔
          pointer.distance arena.length region.anchor = distance := by
      intro region hregion distance
      exact Pointer.difference_eq_ok_iff hpointer
        (hmemory region hregion).anchor hnode.ge
    apply or_congr
    · exact forall₂_congr fun region hregion =>
        (hdistance region hregion none).symm
    · refine exists_congr fun region => and_congr_right
        fun hregion => exists_congr fun distance => ?_
      rw [hdistance region hregion]

theorem regions_keep_apart_two_frames :
    (∃ session pool writes memory, Run Amd64.framed session pool writes memory ∧
      memory.regions.length = 2 ∧
      memory.regions.Pairwise fun a b => a.anchor.restrict ≠ [] ∧
        b.anchor.restrict ≠ [] ∧
        a.anchor.restrict.Disjoint b.anchor.restrict) ∧
    ∀ session pool writes memory,
      Run Amd64.standard session pool writes memory →
      memory.regions.length ≤ 1 := by
  constructor
  · let stack := Word.ofTag Amd64.rsp.tag 0 64
    let frame := Word.ofTag Amd64.rbp.tag 0 64
    have hcheck : SymM.endsWith (do
        let memory ← ({} : Memory).write (.ofWord Amd64.framed frame)
            (.constant 9 8)
        memory.write (.ofWord Amd64.framed stack) (.constant 9 8)) {}
        (fun memory _ => memory.regions.length = 2) = true := by
      decide +kernel
    obtain ⟨memory, last, hwrites, hlength⟩ := SymM.exists_ok_of_endsWith hcheck
    obtain ⟨first, after, hfirst, hlast⟩ := SymM.bind_eq_ok.mp hwrites
    have hwords : Run Amd64.framed {} [.constant 9 8, frame, stack] [] {} :=
      .make (.constant 9 8) (.make (.tagged Amd64.rbp.tag 0 64)
        (.make (.tagged Amd64.rsp.tag 0 64) (.start {}) rfl) rfl) rfl
    have hframe := hwords.write (.ofWord (by simp)) (by simp) rfl hfirst
    have hrun := hframe.write (.ofWord (by simp)) (by simp) rfl hlast
    exact ⟨last, _, _, memory, hrun, of_decide_eq_true hlength,
      (regions_keep_apart hrun).1⟩
  · intro session pool writes memory hrun
    apply (regions_keep_apart hrun).2.2.1
    intro a b ha hb
    exact (of_decide_eq_true ha).trans (of_decide_eq_true hb).symm

end Memory

end SymbolicMachine
