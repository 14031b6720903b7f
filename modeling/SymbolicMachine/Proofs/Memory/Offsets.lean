import SymbolicMachine.Proofs.Memory.Regions

/-!
# Offsets in range

The bytes of a region lie at signed offsets of 64 bits.  A read or a write stops
exactly if it would leave this range, in the one region that its pointer
reaches.  To list a region, the end of every run of bytes has to be an offset
too, so one byte at the last offset is too many.

There never is a choice between regions: those of a memory cannot overlap each
other.
-/

namespace SymbolicMachine

/-! ## Computations that only make nodes -/

namespace SymM

variable {α β : Type}

def NodeDriven (x : SymM α) : Prop :=
  ∀ session other after a,
  other.nextNode = session.nextNode → x session = .ok a after →
    x other = .ok a { other with nextNode := after.nextNode }

theorem nodeDriven_pure (a : α) : NodeDriven (pure a : SymM α) := by
  intro session other after b hnode hrun
  cases hrun
  rw [← hnode]
  rfl

private theorem nodeDriven_ofNodeM (x : NodeM α) : NodeDriven (ofNodeM x) := by
  intro session other after a hnode hrun
  cases hrun
  rw [ofNodeM_apply, hnode]

theorem NodeDriven.bind {x : SymM α} {f : α → SymM β} (hx : NodeDriven x)
    (hf : ∀ a, NodeDriven (f a)) : NodeDriven (x >>= f) := by
  intro session other last b hnode hrun
  obtain ⟨a, after, hfirst, hrest⟩ := bind_eq_ok.mp hrun
  have hfirst' := hx session other after a hnode hfirst
  exact bind_eq_ok.mpr ⟨a, _, hfirst', hf a after _ last b rfl hrest⟩

/--
The computation ends if `fits`.  If not, it stops at an offset that is out of
range.
-/
def EndsIff (fits : Prop) (x : SymM α) (session : Session) : Prop :=
  match x session with
  | .ok _ _ => fits
  | .error fault _ => fault = .offsetOverflow ∧ ¬ fits

theorem endsIff_congr {fits : Prop} {x y : SymM α} {session other : Session}
    (h : x session = y other) :
    EndsIff fits x session ↔ EndsIff fits y other := by
  rw [EndsIff, EndsIff, h]

theorem endsIff_of_ok {fits : Prop} {x : SymM α} {session after : Session}
    {a : α} (hrun : x session = .ok a after) :
    EndsIff fits x session ↔ fits := by
  rw [EndsIff, hrun]

theorem endsIff_of_error {fits : Prop} {x : SymM α} {session after : Session}
    {fault : Fault} (hrun : x session = .error fault after) :
    EndsIff fits x session ↔ fault = .offsetOverflow ∧ ¬ fits := by
  rw [EndsIff, hrun]

theorem EndsIff.exists_ok_iff {fits : Prop} {x : SymM α} {session : Session}
    (h : EndsIff fits x session) :
    (∃ a after, x session = .ok a after) ↔ fits := by
  cases hrun : x session with
  | ok a after => exact iff_of_true ⟨a, after, rfl⟩ ((endsIff_of_ok hrun).mp h)
  | error fault after =>
      apply iff_of_false
      · rintro ⟨_, _, hok⟩
        cases hok
      · exact ((endsIff_of_error hrun).mp h).2

theorem EndsIff.fault_eq {fits : Prop} {x : SymM α} {session after : Session}
    {fault : Fault} (h : EndsIff fits x session)
    (hrun : x session = .error fault after) :
    fault = .offsetOverflow :=
  ((endsIff_of_error hrun).mp h).1

theorem endsIff_bind_of_ok {fits : Prop} {x : SymM α} {f : α → SymM β}
    {session after : Session} {a : α} (hrun : x session = .ok a after)
    (h : EndsIff fits (f a) after) :
    EndsIff fits (x >>= f) session := by
  rw [EndsIff, bind_of_ok hrun]
  exact h

theorem EndsIff.bind_ends {fits : Prop} {x : SymM α} {f : α → SymM β}
    {session : Session} (h : EndsIff fits x session)
    (hends : ∀ a after, x session = .ok a after → ∃ b last,
      f a after = .ok b last) :
    EndsIff fits (x >>= f) session := by
  cases hrun : x session with
  | ok a after =>
      obtain ⟨b, last, hrest⟩ := hends a after hrun
      have hbind : (x >>= f) session = .ok b last := by
        rw [bind_of_ok hrun, hrest]
      exact (endsIff_of_ok hbind).mpr ((endsIff_of_ok hrun).mp h)
  | error fault after =>
      exact (endsIff_of_error (bind_of_error hrun)).mpr
        ((endsIff_of_error hrun).mp h)

end SymM

private theorem Word.requireSameWidth_nodeDriven (a b : Word) :
    SymM.NodeDriven (requireSameWidth a b) := by
  unfold requireSameWidth
  split
  · exact SymM.nodeDriven_pure ()
  · intro session other after _ _ hrun
    cases hrun

private theorem Word.add_nodeDriven (a b : Word) : SymM.NodeDriven (a.add b) :=
  (requireSameWidth_nodeDriven a b).bind fun _ =>
    (SymM.nodeDriven_ofNodeM _).bind fun _ => SymM.nodeDriven_pure _

private theorem Word.sub_nodeDriven (a b : Word) : SymM.NodeDriven (a.sub b) :=
  (requireSameWidth_nodeDriven a b).bind fun _ =>
    ((SymM.nodeDriven_ofNodeM _).bind fun _ => add_nodeDriven _ _).bind
      fun _ => add_nodeDriven a _

theorem Pointer.difference_nodeDriven (p q : Pointer) :
    SymM.NodeDriven (p.difference q) := by
  have hbase : SymM.NodeDriven (p.baseDifference q) := by
    unfold baseDifference
    split
    · exact SymM.nodeDriven_pure _
    · exact (Word.sub_nodeDriven _ _).bind fun _ => SymM.nodeDriven_pure _
  exact hbase.bind fun _ => SymM.nodeDriven_pure _

namespace Memory

private theorem locate_nodeDriven (pointer : Pointer) (regions : List Region) :
    SymM.NodeDriven (locate pointer regions) := by
  induction regions with
  | nil => exact SymM.nodeDriven_pure none
  | cons region regions ih =>
      apply (pointer.difference_nodeDriven region.anchor).bind
      intro distance
      cases distance with
      | some distance => exact SymM.nodeDriven_pure _
      | none => exact ih.bind fun _ => SymM.nodeDriven_pure _

end Memory

/-! ## The region that an access goes to -/

def Located.replace (found : Located) (pointer : Pointer) (region : Region) :
    Memory :=
  ⟨Memory.survivors pointer found.before ++
    region :: Memory.survivors pointer found.after⟩

namespace Memory

def target (memory : Memory) (pointer : Pointer) (session : Session) :
    Located :=
  match locate pointer memory.regions session with
  | .ok (some found) _ => found
  | _ => ⟨memory.regions, { anchor := pointer }, [], 0⟩

theorem target_congr (memory : Memory) (pointer : Pointer)
    {session other : Session} (h : other.nextNode = session.nextNode) :
    memory.target pointer other = memory.target pointer session := by
  have hdriven := locate_nodeDriven pointer memory.regions
  unfold target
  cases hrun : locate pointer memory.regions session with
  | ok result after =>
      rw [hdriven _ _ _ _ h hrun]
      cases result <;> rfl
  | error fault after =>
      cases hother : locate pointer memory.regions other with
      | ok result last => simp [hdriven _ _ _ _ h.symm hother] at hrun
      | error fault' last => rfl

variable {arch : Architecture} {arena : Arena} {vars : Var → Prop}
  {session : Session} {memory : Memory} {pointer : Pointer}

def Separated (memory : Memory) : Prop :=
  memory.regions.Pairwise fun a b => a.anchor.canOverlap b.anchor = false

/--
What is found is one of the regions, or a new one in front of which all of them
stand.
-/
structure Targets (memory : Memory) (pointer : Pointer) (found : Located) :
    Prop where
  split : memory.regions = found.before ++ found.region :: found.after ∨
    found = ⟨memory.regions, { anchor := pointer }, [], 0⟩
  reaches : pointer.Reaches found.region.anchor found.offset

theorem Targets.others_sublist {found : Located}
    (h : memory.Targets pointer found) :
    found.others.Sublist memory.regions := by
  rcases h.split with hsplit | rfl
  · rw [hsplit]
    exact (List.Sublist.refl _).append (List.sublist_cons_self _ _)
  · simp [Located.others]

theorem Targets.region_cases {found : Located}
    (h : memory.Targets pointer found) :
    found.region ∈ memory.regions ∨ found.region = { anchor := pointer } := by
  rcases h.split with hsplit | rfl
  · left
    rw [hsplit]
    simp
  · exact .inr rfl

theorem locate_target (hnode : session.nextNode = arena.length)
    (hmemory : memory.WellFormed arch arena vars)
    (hpointer : pointer.WellFormed arch arena vars) :
    ∃ result after, locate pointer memory.regions session = .ok result after ∧
      memory.target pointer session = result.getD ⟨memory.regions,
        { anchor := pointer }, [], 0⟩ ∧
      memory.Targets pointer (memory.target pointer session) ∧
      ∀ found, result = some found →
        memory.regions = found.before ++ found.region :: found.after := by
  have hyields : SymM.Yields (fun _ => False) (locate pointer memory.regions)
      session arena _ :=
    locate_yields hnode hpointer hmemory
  obtain ⟨result, after, _, hrun, _, _, _, hfound⟩ := hyields.exists_ok
  cases result with
  | none =>
      have htarget : memory.target pointer session =
          ⟨memory.regions, { anchor := pointer }, [], 0⟩ := by
        rw [target, hrun]
      refine ⟨none, after, hrun, htarget, ?_,
        fun found hsome => (hfound found hsome).1⟩
      rw [htarget]
      exact ⟨.inr rfl, pointer.reaches_self⟩
  | some found =>
      have htarget : memory.target pointer session = found := by
        rw [target, hrun]
      obtain ⟨hsplit, hreaches⟩ := hfound found rfl
      refine ⟨some found, after, hrun, htarget, ?_,
        fun found hsome => (hfound found hsome).1⟩
      rw [htarget]
      exact ⟨.inl hsplit, hreaches⟩

theorem locate_eq_some (hnode : session.nextNode = arena.length)
    (hmemory : memory.WellFormed arch arena vars)
    (hpointer : pointer.WellFormed arch arena vars) {found : Located}
    {after : Session}
    (hlocate : locate pointer memory.regions session = .ok (some found) after) :
    memory.regions = found.before ++ found.region :: found.after ∧
      pointer.Reaches found.region.anchor found.offset := by
  have hyields : SymM.Yields (fun _ => False) (locate pointer memory.regions)
      session arena _ :=
    locate_yields hnode hpointer hmemory
  obtain ⟨_, _, _, _, hfound⟩ := hyields.of_ok hlocate
  exact hfound found rfl

/-! ## Separation -/

private theorem canOverlap_symm (a b : Region)
    (h : a.anchor.canOverlap b.anchor = false) :
    b.anchor.canOverlap a.anchor = false := by
  rw [Pointer.canOverlap_comm]
  exact h

theorem Separated.canOverlap_others (h : memory.Separated)
    {before after : List Region} {region : Region}
    (hsplit : memory.regions = before ++ region :: after) :
    ∀ other ∈ before ++ after,
      region.anchor.canOverlap other.anchor = false := by
  rw [Separated, hsplit, List.pairwise_middle (canOverlap_symm _ _),
    List.pairwise_cons] at h
  exact h.1

theorem Separated.others_apart (h : memory.Separated) {found : Located}
    (hsplit : memory.regions = found.before ++ found.region :: found.after)
    (hrestrict : pointer.SameRestrict found.region.anchor) :
    found.others.any (aliases pointer) = false := by
  rw [List.any_eq_false]
  intro other hother
  rw [aliases, hrestrict.canOverlap_eq, h.canOverlap_others hsplit other hother]
  decide

theorem Separated.replace (h : memory.Separated) {found : Located}
    (hfound : memory.Targets pointer found) {region : Region}
    (hanchor : region.anchor = found.region.anchor) :
    (found.replace pointer region).Separated := by
  rw [Separated, Located.replace, List.pairwise_middle (canOverlap_symm _ _),
    List.pairwise_cons]
  have hothers : survivors pointer found.before ++
      survivors pointer found.after =
      survivors pointer found.others := by
    rw [survivors, survivors, survivors, Located.others, List.filter_append]
  rw [hothers]
  constructor
  · intro other hother
    rw [hanchor, ← hfound.reaches.restrict.canOverlap_eq]
    exact (mem_survivors hother).2
  · exact h.sublist (List.filter_sublist.trans hfound.others_sublist)

end Memory

/-! ## Accesses in range -/

theorem Region.read_endsIff (region : Region) (offset : Int) (count : Nat)
    (session : Session) :
    SymM.EndsIff (count = 0 ∨ offset + count ≤ 2 ^ 63)
      (region.read offset count) session := by
  induction count generalizing offset session with
  | zero => exact .inl rfl
  | succ count ih =>
      unfold Region.read
      by_cases hoffset : offset > lastOffset
      · simp only [hoffset, if_true]
        rw [lastOffset_eq] at hoffset
        exact ⟨rfl, by omega⟩
      · simp only [hoffset, if_false]
        rw [lastOffset_eq] at hoffset
        have hiff : (count + 1 = 0 ∨ offset + ((count + 1 : Nat) : Int) ≤
            2 ^ 63) ↔
            (count = 0 ∨ offset + 1 + count ≤ 2 ^ 63) := by
          omega
        rw [hiff]
        cases hbyte : region.bytes[offset]? with
        | some byte =>
            exact (ih (offset + 1) session).bind_ends fun _ _ _ => ⟨_, _, rfl⟩
        | none =>
            apply SymM.endsIff_bind_of_ok (Word.fresh_of_le (by decide) session)
            exact (ih (offset + 1) _).bind_ends fun _ _ _ => ⟨_, _, rfl⟩

namespace Memory

variable {arch : Architecture} {arena : Arena} {vars : Var → Prop}
  {session : Session} {memory : Memory} {pointer : Pointer}

theorem read_endsIff {bitCount : Nat} (hnode : session.nextNode = arena.length)
    (hmemory : memory.WellFormed arch arena vars)
    (hseparated : memory.Separated)
    (hpointer : pointer.WellFormed arch arena vars) (hcount : 0 < bitCount)
    (hsize : (bitCount + 7) / 8 ≤ 2 ^ 63) :
    SymM.EndsIff ((memory.target pointer session).offset +
      ((bitCount + 7) / 8 : Nat) ≤ 2 ^ 63)
      (memory.read pointer bitCount) session := by
  obtain ⟨result, after, hrun, htarget, htargets, hsplit⟩ :=
    locate_target hnode hmemory hpointer
  unfold read
  apply SymM.endsIff_bind_of_ok hrun
  rw [htarget]
  cases result with
  | none =>
      apply (SymM.endsIff_of_ok rfl).mpr
      change (0 : Int) + ((bitCount + 7) / 8 : Nat) ≤ 2 ^ 63
      omega
  | some found =>
      rw [htarget, Option.getD_some] at htargets
      have hapart :=
        hseparated.others_apart (hsplit found rfl) htargets.reaches.restrict
      have hiff : found.offset + ((bitCount + 7) / 8 : Nat) ≤ 2 ^ 63 ↔
          ((bitCount + 7) / 8 = 0 ∨ found.offset + ((bitCount + 7) / 8 : Nat) ≤
            2 ^ 63) := by
        omega
      simp only [hapart, Bool.false_eq_true, if_false]
      rw [Option.getD_some, hiff]
      exact (found.region.read_endsIff _ _ _).bind_ends fun _ _ _ => ⟨_, _, rfl⟩

end Memory

def Located.store (found : Located) (pointer : Pointer) (bytes : List Word) :
    SymM Memory := do
  Memory.recordInvalidated pointer found.others
  let region ← found.region.write found.offset bytes
  return found.replace pointer region

theorem Located.store_cases (found : Located) (pointer : Pointer)
    (bytes : List Word) (session : Session) :
    (2 ^ 63 < found.offset + bytes.length ∧
      ∃ after,
        found.store pointer bytes session = .error .offsetOverflow after) ∨
    ∃ region after, found.region.Overwritten found.offset bytes region ∧
      found.store pointer bytes session =
        .ok (found.replace pointer region) after ∧
      session.nextNode ≤ after.nextNode := by
  obtain ⟨arena, hnode⟩ := SymM.exists_arena session
  have hrecord : SymM.Yields (fun _ => False)
      (Memory.recordInvalidated pointer found.others) session arena _ :=
    Memory.recordInvalidated_yields pointer found.others hnode
  obtain ⟨_, after, later, hrun, hle, hafter, _⟩ := hrecord.exists_ok
  rcases found.region.write_cases found.offset bytes
    with ⟨herror, hlt⟩ | ⟨region, hok, hover⟩
  · refine .inl ⟨hlt, after, (SymM.bind_of_ok hrun).trans ?_⟩
    rw [herror]
    rfl
  · refine .inr ⟨region, after, hover, (SymM.bind_of_ok hrun).trans ?_, ?_⟩
    · rw [hok]
      rfl
    · rw [hnode, hafter]
      exact hle.length_le

theorem Located.store_endsIff (found : Located) (pointer : Pointer)
    {bytes : List Word} (hbytes : bytes ≠ []) (session : Session) :
    SymM.EndsIff (found.offset + bytes.length ≤ 2 ^ 63)
      (found.store pointer bytes) session := by
  rcases found.store_cases pointer bytes session with ⟨hlt, after, herror⟩ |
    ⟨region, after, hover, hok, _⟩
  · exact (SymM.endsIff_of_error herror).mpr ⟨rfl, not_le.mpr hlt⟩
  · exact (SymM.endsIff_of_ok hok).mpr (hover.inside hbytes)

theorem Located.store_eq_ok {found : Located} {pointer : Pointer}
    {bytes : List Word} {next : Memory} {session last : Session}
    (hrun : found.store pointer bytes session = .ok next last) :
    ∃ region, found.region.Overwritten found.offset bytes region ∧
      next = found.replace pointer region := by
  rcases found.store_cases pointer bytes session with ⟨_, _, herror⟩ | ⟨region,
    _, hover, hok, _⟩
  · rw [herror] at hrun
    cases hrun
  · rw [hok] at hrun
    cases hrun
    exact ⟨region, hover, rfl⟩

namespace Memory

variable {arch : Architecture} {arena : Arena} {vars : Var → Prop}
  {session : Session} {memory : Memory} {pointer : Pointer}

theorem write_eq_store {value : Word} (hnode : session.nextNode = arena.length)
    (hmemory : memory.WellFormed arch arena vars)
    (hpointer : pointer.WellFormed arch arena vars)
    (hbytes : value.width % 8 = 0) :
    ∃ mid, memory.write pointer value session =
      (memory.target pointer session).store pointer (value.partsOf 8) mid := by
  obtain ⟨result, mid, hrun, htarget, _⟩ := locate_target hnode hmemory hpointer
  refine ⟨mid, ?_⟩
  rw [htarget]
  unfold write
  simp only [hbytes, if_true]
  rw [SymM.bind_of_ok hrun]
  cases result with
  | none =>
      rw [Option.getD_none, Located.store, Located.others, List.append_nil]
      rfl
  | some found => rfl

end Memory

/-! ## Listing -/

theorem Region.entries_eq {region : Region}
    (hlast : region.bytes[lastOffset]? = none) :
    region.entries = .ok ((Run.ofBytes region.bytes.toList).map fun run =>
      (region.anchor.displace (.ofInt run.start), run.value)) := by
  have habsent : ¬ region.bytes.contains lastOffset = true := by
    simp [Std.TreeMap.contains_eq_isSome_getElem?, hlast]
  exact if_neg habsent

namespace Memory

variable {memory : Memory} {pointer : Pointer}

def Listable (memory : Memory) : Prop :=
  ∀ region ∈ memory.regions, region.bytes[lastOffset]? = none

private theorem mapM_entries_cases (regions : List Region) :
    ((∀ region ∈ regions, region.bytes[lastOffset]? = none) ∧
        ∃ lists, regions.mapM Region.entries = .ok lists) ∨
      ((¬ ∀ region ∈ regions, region.bytes[lastOffset]? = none) ∧
        regions.mapM Region.entries = .error .offsetOverflow) := by
  induction regions with
  | nil => exact .inl ⟨by simp, [], rfl⟩
  | cons region regions ih =>
      rw [List.mapM_cons]
      simp only [List.forall_mem_cons]
      by_cases hlast : region.bytes[lastOffset]? = none
      · rw [Region.entries_eq hlast]
        rcases ih with ⟨hrest, lists, hlists⟩ | ⟨hrest, herror⟩
        · exact .inl ⟨⟨hlast, hrest⟩, _ :: lists, by rw [hlists]; rfl⟩
        · exact .inr ⟨fun h => hrest h.2, by rw [herror]; rfl⟩
      · have hpresent : region.bytes.contains lastOffset = true := by
          rw [Std.TreeMap.contains_eq_isSome_getElem?,
            Option.isSome_iff_ne_none]
          exact hlast
        have herror : region.entries = .error .offsetOverflow := if_pos hpresent
        exact .inr ⟨fun h => hlast h.1, by rw [herror]; rfl⟩

theorem entries_cases (memory : Memory) :
    (memory.Listable ∧ ∃ entries, memory.entries = .ok entries) ∨
      (¬ memory.Listable ∧ memory.entries = .error .offsetOverflow) := by
  rcases mapM_entries_cases memory.regions with ⟨hlistable, lists,
    hlists⟩ | ⟨hlast, herror⟩
  · exact .inl ⟨hlistable, lists.flatten, by rw [entries, hlists]; rfl⟩
  · exact .inr ⟨hlast, by rw [entries, herror]; rfl⟩

theorem Listable.replace_iff (h : memory.Listable) {found : Located}
    (hfound : memory.Targets pointer found) {bytes : List Word}
    {region : Region}
    (hover : found.region.Overwritten found.offset bytes region)
    (hbytes : bytes ≠ []) :
    (found.replace pointer region).Listable ↔
      found.offset + bytes.length ≤ lastOffset := by
  have hrange := hfound.reaches.range
  have hlast := lastOffset_eq
  have hinside := hover.inside hbytes
  have hold : found.region.bytes[lastOffset]? = none := by
    rcases hfound.region_cases with hmem | hnew
    · exact h _ hmem
    · rw [hnew]
      simp
  have hbyte : region.bytes[lastOffset]? =
      bytes[(lastOffset - found.offset).toNat]? := by
    rw [hover.bytes_eq, hold, Option.or_none, if_pos (by omega)]
  have hregion : region.bytes[lastOffset]? = none ↔
      found.offset + bytes.length ≤ lastOffset := by
    rw [hbyte, List.getElem?_eq_none_iff]
    omega
  rw [← hregion]
  constructor
  · intro hlistable
    exact hlistable region (List.mem_append_right _ List.mem_cons_self)
  · intro hnone other hother
    rcases List.mem_append.mp hother with hbefore | hrest
    · have hmem := List.mem_append_left found.after (mem_survivors hbefore).1
      exact h other (hfound.others_sublist.mem hmem)
    · rcases List.mem_cons.mp hrest with rfl | hafter
      · exact hnone
      · have hmem := List.mem_append_right found.before (mem_survivors hafter).1
        exact h other (hfound.others_sublist.mem hmem)

end Memory

end SymbolicMachine
