import SymbolicMachine.Proofs.Memory.Offsets
import SymbolicMachine.Proofs.Word.Renumbering

/-!
# Finding regions

A distance is read from literals, which have no nodes.  So the distance between
two pointers is the same whenever it is asked for, and to find a region for a
pointer is a matter of the memory and the pointer alone.

After a write the region that was written is the one found, for the pointer
itself and for all pointers at a distance from it: the regions that are left in
front are out of its reach.  For the same reason a write searches only once: a
second search, after the regions in its reach are dropped, gives the answer of
the first.
-/

namespace SymbolicMachine

/-! ## Distances -/

namespace Pointer

variable {arch : Architecture} {arena : Arena} {vars : Var → Prop}
  {session : Session} {p q : Pointer}

/--
The distance as it is computed when `first` is the number of the next node.
-/
def distance (first : Nat) (p q : Pointer) : Option Int64 :=
  match p.difference q { nextNode := first } with
  | .ok distance _ => distance
  | .error .. => none

private theorem difference_parallel {first gap : Nat}
    (hp : Word.Moved first gap p.base p.base)
    (hq : Word.Moved first gap q.base q.base) :
    SymM.Parallel first gap Eq (p.difference q) (p.difference q) := by
  have hbase : SymM.Parallel first gap Eq (p.baseDifference q)
      (p.baseDifference q) := by
    unfold baseDifference
    split
    · exact SymM.parallel_pure rfl
    · apply (Word.sub_parallel hp hq).bind
      intro w w' hw
      exact SymM.parallel_pure hw.sameExpressions.toUInt64?_eq.symm
  apply hbase.bind
  rintro delta _ rfl
  exact SymM.parallel_pure rfl

theorem distance_of_yields {post : Session → Arena → Option Int64 → Prop}
    (h : SymM.Yields (fun _ => False) (p.difference q) { nextNode :=
      arena.length } arena post) :
    ∃ after later,
      p.difference q { nextNode := arena.length } =
        .ok (p.distance arena.length q) after ∧
      post after later (p.distance arena.length q) := by
  obtain ⟨result, after, later, hrun, _, _, hpost⟩ := h.exists_ok
  have hdistance : p.distance arena.length q = result := by
    rw [distance, hrun]
  rw [hdistance]
  exact ⟨after, later, hrun, hpost⟩

theorem difference_eq (hp : p.WellFormed arch arena vars)
    (hq : q.WellFormed arch arena vars)
    (hnodes : arena.length ≤ session.nextNode) :
    ∃ after, p.difference q session = .ok (p.distance arena.length q) after ∧
      SymM.NodesOnly session after ∧ arena.length ≤ after.nextNode := by
  obtain ⟨start, _, hrun, _⟩ := distance_of_yields (difference_yields rfl hp hq)
  obtain ⟨gap, hgap⟩ := Nat.exists_eq_add_of_le hnodes
  obtain ⟨_, hlater, hstart, rfl⟩ :=
    difference_parallel (hp.base.moved gap) (hq.base.moved gap) { nextNode :=
      arena.length } start _ le_rfl hrun
  have hsession := p.difference_nodeDriven q _ session _ _ hgap hlater
  exact ⟨_, hsession, rfl, hstart.trans (Nat.le_add_right start.nextNode gap)⟩

theorem difference_eq_ok_iff (hp : p.WellFormed arch arena vars)
    (hq : q.WellFormed arch arena vars)
    (hnodes : arena.length ≤ session.nextNode) {distance : Option Int64} :
    (∃ after, p.difference q session = .ok distance after) ↔
      p.distance arena.length q = distance := by
  obtain ⟨after, hrun, _⟩ := difference_eq hp hq hnodes
  rw [hrun]
  simp

def baseDistance (first : Nat) (p q : Pointer) : Option UInt64 :=
  match p.baseDifference q { nextNode := first } with
  | .ok distance _ => distance
  | .error .. => none

theorem distance_eq (first : Nat) (p q : Pointer) :
    p.distance first q = (p.baseDistance first q).map fun delta =>
      delta.toInt64 + p.displacement - q.displacement := by
  unfold distance difference baseDistance
  cases hrun : p.baseDifference q { nextNode := first } with
  | error fault after =>
      rw [SymM.bind_of_error hrun]
      rfl
  | ok delta after =>
      rw [SymM.bind_of_ok hrun]
      rfl

theorem distance_displace (first : Nat) (p q : Pointer) (bytes : Int64) :
    (p.displace bytes).distance first q =
      (p.distance first q).map (· + bytes) := by
  have hsum : ∀ delta : UInt64,
      delta.toInt64 + (p.displacement + bytes) - q.displacement =
      delta.toInt64 + p.displacement - q.displacement + bytes := by
    grind
  rw [distance_eq, distance_eq, Option.map_map]
  exact congrArg (Option.map · (p.baseDistance first q)) (funext hsum)

theorem distance_displace_right (first : Nat) (p q : Pointer) (bytes : Int64) :
    p.distance first (q.displace bytes) =
      (p.distance first q).map (· - bytes) := by
  have hdifference : ∀ delta : UInt64,
      delta.toInt64 + p.displacement - (q.displacement + bytes) =
        delta.toInt64 + p.displacement - q.displacement - bytes := by
    grind
  rw [distance_eq, distance_eq, Option.map_map]
  exact congrArg (Option.map · (p.baseDistance first q)) (funext hdifference)

theorem distance_self (first : Nat) (p : Pointer) :
    p.distance first p = some 0 := by
  have hself : p.displace 0 = p := by
    simp only [displace, Int64.add_zero]
  have hrun := p.difference_displace 0 { nextNode := first }
  rw [hself] at hrun
  rw [distance, hrun]

theorem distance_sound (hp : p.WellFormed arch arena vars)
    (hq : q.WellFormed arch arena vars) {d : Int64}
    (h : p.distance arena.length q = some d) :
    (∀ valuation, p.addressAt valuation = q.addressAt valuation + d.toBitVec) ∧
      p.SameRestrict q := by
  obtain ⟨_, _, _, _, hknown⟩ :=
    distance_of_yields (difference_yields rfl hp hq)
  exact hknown d h

theorem distance_eq_none (hp : p.WellFormed arch arena vars)
    (hq : q.WellFormed arch arena vars) (hapart : p.canOverlap q = false) :
    p.distance arena.length q = none := by
  cases hdistance : p.distance arena.length q with
  | none => rfl
  | some d =>
      have hsame := (distance_sound hp hq hdistance).2
      obtain ⟨⟨id, hid⟩, _, hdisjoint⟩ := canOverlap_eq_false_iff.mp hapart
      exact absurd ((hsame id).mp hid) (hdisjoint id hid)

end Pointer

/-! ## Locating without a session -/

namespace Memory

def find (first : Nat) (pointer : Pointer) : List Region → Option Located
  | [] => none
  | region :: regions =>
      match pointer.distance first region.anchor with
      | some offset => some ⟨[], region, regions, offset.toInt⟩
      | none => (find first pointer regions).map fun found =>
          { found with before := region :: found.before }

variable {arch : Architecture} {arena : Arena} {vars : Var → Prop}
  {session : Session} {memory : Memory} {pointer : Pointer}

theorem locate_eq {regions : List Region}
    (hpointer : pointer.WellFormed arch arena vars)
    (hregions : ∀ region ∈ regions, region.anchor.WellFormed arch arena vars)
    (hnodes : arena.length ≤ session.nextNode) :
    ∃ after, locate pointer regions session =
      .ok (find arena.length pointer regions) after ∧
      SymM.NodesOnly session after ∧ arena.length ≤ after.nextNode := by
  induction regions generalizing session with
  | nil => exact ⟨session, rfl, rfl, hnodes⟩
  | cons region regions ih =>
      simp only [List.forall_mem_cons] at hregions
      obtain ⟨mid, hrun, honly, hmid⟩ :=
        Pointer.difference_eq hpointer hregions.1 hnodes
      unfold locate find
      rw [SymM.bind_of_ok hrun]
      cases pointer.distance arena.length region.anchor with
      | some offset => exact ⟨mid, rfl, honly, hmid⟩
      | none =>
          obtain ⟨after, hrest, honly', hafter⟩ := ih hregions.2 hmid
          exact ⟨after, SymM.bind_of_ok hrest, honly.trans honly', hafter⟩

theorem find_append {first : Nat} {xs ys : List Region}
    (h : ∀ region ∈ xs, pointer.distance first region.anchor = none) :
    find first pointer (xs ++ ys) =
      (find first pointer ys).map
        fun found => { found with before := xs ++ found.before } := by
  induction xs with
  | nil => simp
  | cons region xs ih =>
      simp only [List.forall_mem_cons] at h
      simp only [List.cons_append, find, h.1, ih h.2, Option.map_map]
      rfl

theorem find_cons {first : Nat} {region : Region} {regions : List Region}
    {offset : Int64} (h : pointer.distance first region.anchor = some offset) :
    find first pointer (region :: regions) = some ⟨[], region, regions,
      offset.toInt⟩ := by
  simp only [find, h]

theorem distance_of_find {first : Nat} {regions : List Region} {found : Located}
    (h : find first pointer regions = some found) :
    ∃ distance, pointer.distance first found.region.anchor = some distance ∧
      distance.toInt = found.offset := by
  induction regions generalizing found with
  | nil => cases h
  | cons region regions ih =>
      unfold find at h
      cases hdistance : pointer.distance first region.anchor with
      | some offset =>
          rw [hdistance] at h
          cases h
          exact ⟨offset, hdistance, rfl⟩
      | none =>
          rw [hdistance] at h
          obtain ⟨inner, hinner, rfl⟩ := Option.map_eq_some_iff.mp h
          have hrest := ih hinner
          exact hrest

theorem exists_distance_target (hnode : session.nextNode = arena.length)
    (hmemory : memory.WellFormed arch arena vars)
    (hpointer : pointer.WellFormed arch arena vars) :
    ∃ distance,
      pointer.distance arena.length
        (memory.target pointer session).region.anchor =
        some distance ∧
      distance.toInt = (memory.target pointer session).offset := by
  obtain ⟨after, hrun, _⟩ :=
    locate_eq hpointer (fun r hr => (hmemory r hr).anchor) hnode.ge
  unfold target
  rw [hrun]
  cases hfind : find arena.length pointer memory.regions with
  | none => exact ⟨0, pointer.distance_self arena.length, rfl⟩
  | some found => exact distance_of_find hfind

private theorem Targets.anchor_wellFormed {found : Located}
    (h : memory.Targets pointer found)
    (hmemory : memory.WellFormed arch arena vars)
    (hpointer : pointer.WellFormed arch arena vars) :
    found.region.anchor.WellFormed arch arena vars := by
  rcases h.region_cases with hmem | hnew
  · exact (hmemory _ hmem).anchor
  · rw [hnew]
    exact hpointer

/--
The region that was written is found again from every place at a distance.
-/
theorem find_replace {found : Located} (hfound : memory.Targets pointer found)
    (hmemory : memory.WellFormed arch arena vars)
    (hpointer : pointer.WellFormed arch arena vars) {distance : Int64}
    (hdistance : pointer.distance arena.length found.region.anchor =
      some distance)
    {region : Region} (hanchor : region.anchor = found.region.anchor)
    (bytes : Int64) :
    find arena.length (pointer.displace bytes)
      (found.replace pointer region).regions =
      some ⟨survivors pointer found.before, region,
        survivors pointer found.after, (distance + bytes).toInt⟩ := by
  have hpassed : ∀ other ∈ survivors pointer found.before,
      (pointer.displace bytes).distance arena.length other.anchor = none := by
    intro other hother
    obtain ⟨hmem, hapart⟩ := mem_survivors hother
    have hold :=
      hfound.others_sublist.mem (List.mem_append_left found.after hmem)
    exact Pointer.distance_eq_none (hpointer.displace bytes)
      (hmemory other hold).anchor hapart
  have hwritten : (pointer.displace bytes).distance arena.length region.anchor =
      some (distance + bytes) := by
    rw [Pointer.distance_displace, hanchor, hdistance]
    rfl
  rw [Located.replace, find_append hpassed, find_cons hwritten]
  simp

theorem anchor_replace {found : Located} (hfound : memory.Targets pointer found)
    (hmemory : memory.WellFormed arch arena vars)
    (hpointer : pointer.WellFormed arch arena vars) {region : Region}
    (hanchor : region.anchor = found.region.anchor) :
    ∀ other ∈ (found.replace pointer region).regions,
      other.anchor.WellFormed arch arena vars := by
  have hothers : ∀ other ∈ found.others,
      other.anchor.WellFormed arch arena vars :=
    fun other hother =>
      (hmemory other (hfound.others_sublist.mem hother)).anchor
  intro other hother
  rcases List.mem_append.mp hother with hbefore | hrest
  · exact hothers other (List.mem_append_left _ (mem_survivors hbefore).1)
  · rcases List.mem_cons.mp hrest with rfl | hafter
    · rw [hanchor]
      exact hfound.anchor_wellFormed hmemory hpointer
    · exact hothers other (List.mem_append_right _ (mem_survivors hafter).1)

theorem locate_replace {found : Located} (hfound : memory.Targets pointer found)
    (hmemory : memory.WellFormed arch arena vars)
    (hpointer : pointer.WellFormed arch arena vars) {distance : Int64}
    (hdistance : pointer.distance arena.length found.region.anchor =
      some distance)
    {region : Region} (hanchor : region.anchor = found.region.anchor)
    (bytes : Int64) (hnodes : arena.length ≤ session.nextNode) :
    ∃ again after,
      locate (pointer.displace bytes)
        (found.replace pointer region).regions session =
          .ok (some again) after ∧
      again.region = region ∧ again.offset = (distance + bytes).toInt ∧
      again.others.any (aliases (pointer.displace bytes)) = false ∧
      SymM.NodesOnly session after := by
  obtain ⟨after, hlocate, honly, _⟩ := locate_eq (hpointer.displace bytes)
    (anchor_replace hfound hmemory hpointer hanchor) hnodes
  rw [find_replace hfound hmemory hpointer hdistance hanchor] at hlocate
  refine ⟨_, after, hlocate, rfl, rfl, ?_, honly⟩
  rw [List.any_eq_false]
  intro other hother
  have hapart : pointer.canOverlap other.anchor = false := by
    rcases List.mem_append.mp hother with hbefore | hafter
    · exact (mem_survivors hbefore).2
    · exact (mem_survivors hafter).2
  exact ne_true_of_eq_false hapart

/--
A search for the region of a write, after those in its reach were dropped, finds
the one that was found before.
-/
theorem locate_again_of_some {found : Located} {mid : Session}
    (hnode : session.nextNode = arena.length)
    (hmemory : memory.WellFormed arch arena vars)
    (hpointer : pointer.WellFormed arch arena vars)
    (hlocate : locate pointer memory.regions session = .ok (some found) mid) :
    ∃ after, locate pointer (found.replace pointer found.region).regions mid =
      .ok (some ⟨survivors pointer found.before, found.region,
        survivors pointer found.after, found.offset⟩) after := by
  obtain ⟨hsplit, hreaches⟩ := locate_eq_some hnode hmemory hpointer hlocate
  have hfound : memory.Targets pointer found := ⟨.inl hsplit, hreaches⟩
  obtain ⟨first, hfirst, _, hmid⟩ :=
    locate_eq hpointer (fun r hr => (hmemory r hr).anchor) hnode.ge
  obtain ⟨hfind, rfl⟩ := EStateM.Result.ok.inj (hfirst.symm.trans hlocate)
  obtain ⟨distance, hdistance, hoffset⟩ := distance_of_find hfind
  obtain ⟨after, hagain, _⟩ :=
    locate_eq hpointer (anchor_replace hfound hmemory hpointer rfl) hmid
  have hsame := find_replace hfound hmemory hpointer hdistance rfl 0
  rw [Pointer.displace_zero, Int64.add_zero, hoffset] at hsame
  rw [hsame] at hagain
  exact ⟨after, hagain⟩

theorem find_eq_none_iff {first : Nat} {regions : List Region} :
    find first pointer regions = none ↔
      ∀ region ∈ regions, pointer.distance first region.anchor = none := by
  induction regions with
  | nil => simp [find]
  | cons region regions ih =>
      rw [List.forall_mem_cons, ← ih]
      cases hdistance : pointer.distance first region.anchor <;>
        simp [find, hdistance]

theorem locate_again_of_none {mid : Session}
    (hnode : session.nextNode = arena.length)
    (hmemory : memory.WellFormed arch arena vars)
    (hpointer : pointer.WellFormed arch arena vars)
    (hlocate : locate pointer memory.regions session = .ok none mid) :
    ∃ after, locate pointer (survivors pointer memory.regions) mid =
      .ok none after := by
  have hanchors : ∀ region ∈ memory.regions,
      region.anchor.WellFormed arch arena vars :=
    fun region hregion => (hmemory region hregion).anchor
  obtain ⟨first, hfirst, _, hmid⟩ := locate_eq hpointer hanchors hnode.ge
  obtain ⟨hfind, rfl⟩ := EStateM.Result.ok.inj (hfirst.symm.trans hlocate)
  have hkept : ∀ region ∈ survivors pointer memory.regions,
      region ∈ memory.regions := fun region hregion => (mem_survivors hregion).1
  obtain ⟨after, hagain, _⟩ :=
    locate_eq hpointer (fun region h => hanchors region (hkept region h)) hmid
  have hnone : find arena.length pointer (survivors pointer memory.regions) =
      none :=
    find_eq_none_iff.mpr fun region h =>
      find_eq_none_iff.mp hfind region (hkept region h)
  rw [hnone] at hagain
  exact ⟨after, hagain⟩

/-! ## Accesses to the region found -/

theorem write_eq_replace {next : Memory} {value : Word} {after : Session}
    (hnode : session.nextNode = arena.length)
    (hmemory : memory.WellFormed arch arena vars)
    (hpointer : pointer.WellFormed arch arena vars)
    (hbytes : value.width % 8 = 0)
    (hwrite : memory.write pointer value session = .ok next after) :
    ∃ region, (memory.target pointer session).region.Overwritten
        (memory.target pointer session).offset (value.partsOf 8) region ∧
      next = (memory.target pointer session).replace pointer region := by
  obtain ⟨mid, hstore⟩ := write_eq_store hnode hmemory hpointer hbytes
  rw [hstore] at hwrite
  exact Located.store_eq_ok hwrite

theorem read_eq_of_locate {found : Located} {mid : Session} (bitCount : Nat)
    (hlocate : locate pointer memory.regions session = .ok (some found) mid)
    (hapart : found.others.any (aliases pointer) = false) :
    memory.read pointer bitCount session = (do
      let (bits, known) ← found.region.read found.offset ((bitCount + 7) / 8)
      return if known then some ((Word.ofBits bits).resize bitCount)
        else none) mid := by
  unfold read
  rw [SymM.bind_of_ok hlocate]
  simp only [hapart, Bool.false_eq_true, if_false]

theorem read_of_locate {found : Located} {bitCount : Nat} {mid last : Session}
    {bits : List Bit}
    (hlocate : locate pointer memory.regions session = .ok (some found) mid)
    (hapart : found.others.any (aliases pointer) = false)
    (hread : found.region.read found.offset ((bitCount + 7) / 8) mid =
      .ok (bits, true) last) :
    memory.read pointer bitCount session =
      .ok (some ((Word.ofBits bits).resize bitCount)) last :=
  (read_eq_of_locate bitCount hlocate hapart).trans (SymM.bind_of_ok hread)

end Memory

end SymbolicMachine
