import SymbolicMachine.Architecture.Amd64
import SymbolicMachine.Proofs.Machine.Execution
import SymbolicMachine.Proofs.Memory.Reanchoring

/-!
# Independent writes

Two writes at a known distance from each other go to one region.  If that region
is a new one, the first write chooses its anchor, so the order of the writes
decides at which offsets the bytes are kept.  If they have no byte in common,
the order decides nothing else: the two outcomes hold the same bytes at the same
distances from every pointer, and the same other regions are dropped.
-/

namespace SymbolicMachine

/-! ## Bytes written in either order -/

private theorem toNat_toBitVec_sub (k d : Int64) :
    (k - d).toBitVec.toNat = ((k.toInt - d.toInt) % 2 ^ 64).toNat := by
  have hsub := toNat_offset_sub 0#64 k.toInt d.toInt
  have hofInt : ∀ x : Int64, BitVec.ofInt 64 x.toInt = x.toBitVec := by
    intro x
    rw [← Int64.toInt_toBitVec, BitVec.ofInt_toInt]
  rw [hofInt, hofInt, BitVec.zero_add, BitVec.zero_add] at hsub
  rw [Int64.toBitVec_sub, hsub]

namespace Region

variable {shift : Int64} {region other : Region}

theorem Overwritten.byte_eq {next : Region} {first : Int64} {bytes : List Word}
    (h : region.Overwritten first.toInt bytes next) (key : Int64) :
    next.bytes[key.toInt]? =
      bytes[(key - first).toBitVec.toNat]?.or region.bytes[key.toInt]? := by
  have hlow := key.le_toInt
  have hhigh := key.toInt_lt
  have hfirst := first.le_toInt
  have hlast := first.toInt_lt
  rw [h.bytes_eq, toNat_toBitVec_sub]
  split
  · have hindex : (key.toInt - first.toInt) % 2 ^ 64 =
        key.toInt - first.toInt :=
      Int.emod_eq_of_lt (by omega) (by omega)
    rw [hindex]
  · -- Below the first byte the distance is so long that no byte lies there.
    have hlong : bytes.length ≤ ((key.toInt - first.toInt) % 2 ^ 64).toNat := by
      by_cases hnil : bytes = []
      · simp [hnil]
      · have hinside := h.inside hnil
        omega
    rw [List.getElem?_eq_none hlong]

private theorem Reanchored.overwritten_twice (h : region.Reanchored shift other)
    {mid next mid' next' : Region} {first distance : Int64} {xs ys : List Word}
    (hx : region.Overwritten first.toInt xs mid)
    (hxy : mid.Overwritten (first + distance).toInt ys next)
    (hy : other.Overwritten (first + distance - shift).toInt ys mid')
    (hyx : mid'.Overwritten (first + distance - shift + -distance).toInt
      xs next')
    (hdisjoint : ∀ address, InRange 0 xs.length address →
      ¬ InRange distance.toBitVec ys.length address) :
    next.Reanchored shift next' where
  anchor_eq := by
    rw [hyx.anchor_eq, hy.anchor_eq, hxy.anchor_eq, hx.anchor_eq, h.anchor_eq]
  byte_eq := by
    intro key
    have hxIndex : key - shift - (first + distance - shift + -distance) =
        key - first := by grind
    have hyIndex : key - shift - (first + distance - shift) =
        key - (first + distance) := by grind
    have hyOffset : key - (first + distance) = key - first - distance := by
      grind
    rw [hyx.byte_eq, hy.byte_eq, hxy.byte_eq, hx.byte_eq, h.byte_eq, hxIndex,
      hyIndex, hyOffset]
    by_cases hindex : (key - first).toBitVec.toNat < xs.length
    · have hin : InRange 0 xs.length (key - first).toBitVec :=
        inRange_iff.mpr (by simpa using hindex)
      have hout := hdisjoint _ hin
      rw [inRange_iff, ← Int64.toBitVec_sub, not_lt] at hout
      rw [List.getElem?_eq_none hout, Option.none_or, Option.none_or]
    · rw [List.getElem?_eq_none (not_lt.mp hindex), Option.none_or,
        Option.none_or]

end Region

/-! ## Two writes -/

namespace Memory

variable {arch : Architecture} {arena : Arena} {vars : Var → Prop}
  {session : Session} {memory : Memory} {pointer : Pointer}

def writeBoth (memory : Memory) (p : Pointer) (v : Word) (q : Pointer)
    (w : Word) : SymM Memory := do
  (← memory.write p v).write q w

def place (first : Nat) (memory : Memory) (pointer : Pointer) : Located :=
  (find first pointer memory.regions).getD ⟨memory.regions,
    { anchor := pointer }, [], 0⟩

theorem place_of_find {first : Nat} {found : Located}
    (h : find first pointer memory.regions = some found) :
    memory.place first pointer = found := by
  rw [place, h, Option.getD_some]

theorem place_of_find_eq_none {first : Nat}
    (h : find first pointer memory.regions = none) :
    memory.place first pointer = ⟨memory.regions, { anchor := pointer }, [],
      0⟩ := by
  rw [place, h, Option.getD_none]

theorem place_targets (hmemory : memory.WellFormed arch arena vars)
    (hpointer : pointer.WellFormed arch arena vars) :
    memory.Targets pointer (memory.place arena.length pointer) ∧
      ∃ distance,
        pointer.distance arena.length
          (memory.place arena.length pointer).region.anchor =
          some distance ∧
        distance.toInt = (memory.place arena.length pointer).offset := by
  let session : Session := { nextNode := arena.length }
  obtain ⟨_, _, hrun, htarget, htargets, _⟩ :=
    locate_target (rfl : session.nextNode = arena.length) hmemory hpointer
  obtain ⟨_, hlocate, _⟩ :=
    locate_eq hpointer (fun r hr => (hmemory r hr).anchor)
      (le_refl session.nextNode)
  have hdistance :=
    exists_distance_target (rfl : session.nextNode = arena.length)
      hmemory hpointer
  rw [hlocate] at hrun
  cases hrun
  rw [htarget] at htargets hdistance
  exact ⟨htargets, hdistance⟩

theorem write_cases {value : Word}
    (hpointer : pointer.WellFormed arch arena vars)
    (hmemory : ∀ region ∈ memory.regions,
      region.anchor.WellFormed arch arena vars)
    (hnodes : arena.length ≤ session.nextNode)
    (hbytes : value.width % 8 = 0) :
    SymM.Overflows (memory.write pointer value) session ∨
      ∃ region after, (memory.place arena.length pointer).region.Overwritten
          (memory.place arena.length pointer).offset (value.partsOf 8) region ∧
        memory.write pointer value session =
          .ok ((memory.place arena.length pointer).replace pointer region)
            after ∧
        arena.length ≤ after.nextNode := by
  obtain ⟨mid, hlocate, _, hmid⟩ := locate_eq hpointer hmemory hnodes
  have hstore : memory.write pointer value session =
      (memory.place arena.length pointer).store pointer (value.partsOf 8)
        mid := by
    unfold write place
    simp only [hbytes, if_true]
    rw [SymM.bind_of_ok hlocate]
    cases find arena.length pointer memory.regions with
    | none =>
        rw [Option.getD_none, Located.store, Located.others, List.append_nil]
        rfl
    | some found => rfl
  unfold SymM.Overflows
  rw [hstore]
  rcases Located.store_cases _ pointer (value.partsOf 8) mid with ⟨_, hstops⟩ |
    ⟨region, after, hover, hends, hafter⟩
  · exact .inl hstops
  · exact .inr ⟨region, after, hover, hends, hmid.trans hafter⟩

private theorem survivors_survivors (pointer : Pointer) (bytes : Int64)
    (regions : List Region) :
    survivors (pointer.displace bytes) (survivors pointer regions) =
      survivors pointer regions := by
  change survivors pointer (survivors pointer regions) = _
  rw [survivors, survivors, List.filter_filter]
  simp only [Bool.and_self]

private theorem find_displace {first : Nat} {regions : List Region}
    {found : Located} (h : find first pointer regions = some found)
    {distance : Int64}
    (hdistance : pointer.distance first found.region.anchor = some distance)
    (bytes : Int64) :
    find first (pointer.displace bytes) regions =
      some { found with offset := (distance + bytes).toInt } := by
  induction regions generalizing found with
  | nil => cases h
  | cons region regions ih =>
      unfold find at h ⊢
      rw [Pointer.distance_displace]
      cases hhead : pointer.distance first region.anchor with
      | some offset =>
          rw [hhead] at h
          cases h
          rw [hdistance] at hhead
          cases hhead
          rfl
      | none =>
          rw [hhead] at h
          obtain ⟨inner, hinner, rfl⟩ := Option.map_eq_some_iff.mp h
          simp only [Option.map_none, ih hinner hdistance, Option.map_some]

private theorem writeBoth_cases {v w : Word} (distance : Int64)
    (hpointer : pointer.WellFormed arch arena vars)
    (hmemory : memory.WellFormed arch arena vars)
    (hnodes : arena.length ≤ session.nextNode) (hv : v.width % 8 = 0)
    (hw : w.width % 8 = 0) {first : Int64}
    (hfirst : pointer.distance arena.length
      (memory.place arena.length pointer).region.anchor = some first) :
    SymM.Overflows (memory.writeBoth pointer v (pointer.displace distance) w)
      session ∨
      ∃ mid next after,
        (memory.place arena.length pointer).region.Overwritten first.toInt
          (v.partsOf 8) mid ∧
        mid.Overwritten (first + distance).toInt (w.partsOf 8) next ∧
        memory.writeBoth pointer v (pointer.displace distance) w session =
          .ok ((memory.place arena.length pointer).replace pointer next)
            after := by
  obtain ⟨htargets, start, hstart, hoffset⟩ := place_targets hmemory hpointer
  obtain rfl : start = first := Option.some.inj (hstart.symm.trans hfirst)
  have hanchors : ∀ region ∈ memory.regions,
      region.anchor.WellFormed arch arena vars :=
    fun region hregion => (hmemory region hregion).anchor
  rcases write_cases hpointer hanchors hnodes hv with hstops | ⟨mid, after,
    hover, hwrite, hafter⟩
  · exact .inl (hstops.bind _)
  have hfind :=
    find_replace htargets hmemory hpointer hstart hover.anchor_eq distance
  have hanchors' := anchor_replace htargets hmemory hpointer hover.anchor_eq
  rcases write_cases (hpointer.displace distance) hanchors' hafter hw
    with hstops | ⟨next, last, hover', hwrite', _⟩
  · exact .inl (SymM.overflows_bind_of_ok hwrite hstops)
  rw [place_of_find hfind] at hover' hwrite'
  rw [← hoffset] at hover
  refine .inr ⟨mid, next, last, hover, hover', ?_⟩
  rw [writeBoth, SymM.bind_of_ok hwrite, hwrite', Located.replace,
    Located.replace, survivors_survivors, survivors_survivors]

private theorem place_displace {first : Nat} (memory : Memory)
    (pointer : Pointer) (bytes : Int64) {distance : Int64}
    (hdistance : pointer.distance first
      (memory.place first pointer).region.anchor = some distance) :
    ∃ shift : Int64,
      (memory.place first (pointer.displace bytes)).before =
        (memory.place first pointer).before ∧
      (memory.place first (pointer.displace bytes)).after =
        (memory.place first pointer).after ∧
      (memory.place first pointer).region.Reanchored shift
        (memory.place first (pointer.displace bytes)).region ∧
      (pointer.displace bytes).distance first
          (memory.place first (pointer.displace bytes)).region.anchor =
        some (distance + bytes - shift) := by
  cases hfind : find first pointer memory.regions with
  | some found =>
      rw [place_of_find hfind] at hdistance ⊢
      have hfind' := find_displace hfind hdistance bytes
      rw [place_of_find hfind']
      refine ⟨0, rfl, rfl, found.region.reanchored_zero, ?_⟩
      rw [Pointer.distance_displace, hdistance, Int64.sub_zero]
      rfl
  | none =>
      have hfind' : find first (pointer.displace bytes) memory.regions =
          none := by
        rw [find_eq_none_iff] at hfind ⊢
        intro region hregion
        rw [Pointer.distance_displace, hfind region hregion]
        rfl
      rw [place_of_find_eq_none hfind, Pointer.distance_self] at hdistance
      rw [place_of_find_eq_none hfind, place_of_find_eq_none hfind']
      obtain rfl : 0 = distance := Option.some.inj hdistance
      refine ⟨bytes, rfl, rfl, ⟨rfl, fun key => by simp⟩, ?_⟩
      rw [Pointer.distance_self]
      congr 1
      grind

private theorem writes_alike {v w : Word} (distance : Int64)
    (hpointer : pointer.WellFormed arch arena vars)
    (hmemory : memory.WellFormed arch arena vars) (hv : v.width % 8 = 0)
    (hw : w.width % 8 = 0)
    (hdisjoint : ∀ address, InRange 0 (v.width / 8) address →
      ¬ InRange distance.toBitVec (w.width / 8) address)
    {now : Session} (hnodes : arena.length ≤ session.nextNode)
    (hnodes' : arena.length ≤ now.nextNode) :
    SymM.Overflows (memory.writeBoth pointer v (pointer.displace distance) w)
      session ∨
    SymM.Overflows (memory.writeBoth (pointer.displace distance) w pointer v)
      now ∨
      ∃ next next' after last,
        memory.writeBoth pointer v (pointer.displace distance) w session =
          .ok ((memory.place arena.length pointer).replace pointer next) after ∧
        memory.writeBoth (pointer.displace distance) w pointer v now =
          .ok ((memory.place arena.length (pointer.displace distance)).replace
            (pointer.displace distance) next') last ∧
        next.anchor = (memory.place arena.length pointer).region.anchor ∧
        next'.anchor =
          (memory.place arena.length
            (pointer.displace distance)).region.anchor ∧
        ((memory.place arena.length pointer).replace pointer next).Alike
          ((memory.place arena.length (pointer.displace distance)).replace
            (pointer.displace distance) next') := by
  obtain ⟨_, first, hfirst, _⟩ := place_targets hmemory hpointer
  obtain ⟨shift, hbefore, hafter, hregion, hfirst'⟩ :=
    memory.place_displace pointer distance hfirst
  have hback : (pointer.displace distance).displace (-distance) = pointer := by
    rw [Pointer.displace_displace, Int64.add_right_neg, Pointer.displace_zero]
  rcases writeBoth_cases distance hpointer hmemory hnodes hv hw hfirst
    with hstops | ⟨mid, next, after, hmid, hnext, hrun⟩
  · exact .inl hstops
  -- The other order is the same case, seen from the other pointer.
  have hother :=
    writeBoth_cases (-distance) (hpointer.displace distance) hmemory hnodes' hw
      hv hfirst'
  rw [hback] at hother
  rcases hother with hstops | ⟨mid', next', last, hmid', hnext', hrun'⟩
  · exact .inr (.inl hstops)
  rw [← length_bytes hv, ← length_bytes hw] at hdisjoint
  have halike : next.Alike next' :=
    ⟨shift, hregion.overwritten_twice hmid hnext hmid' hnext' hdisjoint⟩
  refine .inr (.inr ⟨next, next', after, last, hrun, hrun',
    hnext.anchor_eq.trans hmid.anchor_eq,
    hnext'.anchor_eq.trans hmid'.anchor_eq, ?_⟩)
  have hsame : ∀ regions : List Region,
      List.Forall₂ Region.Alike regions regions :=
    fun regions => List.forall₂_same.mpr fun region _ => region.alike_refl
  rw [Alike, Located.replace, Located.replace, hbefore, hafter]
  exact List.rel_append (hsame _) (.cons halike (hsame _))

end Memory

/--
Writes through a pointer that can be met and at a distance from it, of whole
bytes that have no address in common modulo `2 ^ 64`, commute.  Unless an offset
is out of range, both orders end, and no later read tells the two memories
apart: through any pointer that can be met when the machine and the pointer are
still at hand, it has one answer and takes one number of variables, unless an
offset is out of range then.
-/
theorem independent_writes_commute {arch : Architecture} {session : Session}
    {pool : List Word} {machines : List Machine}
    (hreached : Machine.Reached arch session pool machines) {machine : Machine}
    (hmachine : machine ∈ machines) {p : Pointer}
    (hp : Pointer.Built arch pool p) {v w : Word} (hv : v.width % 8 = 0)
    (hw : w.width % 8 = 0) {j : Int64}
    (hdisjoint : ∀ address, InRange 0 (v.width / 8) address →
      ¬ InRange j.toBitVec (w.width / 8) address)
    {a b : Session} (ha : session.nextNode ≤ a.nextNode)
    (hb : session.nextNode ≤ b.nextNode) :
    SymM.Overflows (machine.memory.writeBoth p v (p.displace j) w) a ∨
    SymM.Overflows (machine.memory.writeBoth (p.displace j) w p v) b ∨
    ∃ first second afterA afterB,
      machine.memory.writeBoth p v (p.displace j) w a = .ok first afterA ∧
      machine.memory.writeBoth (p.displace j) w p v b = .ok second afterB ∧
      ∀ later words others,
        Machine.Reached arch later words others → machine ∈ others →
        Pointer.Built arch words p → ∀ q, Pointer.Built arch words q →
        ∀ (bitCount : Nat) (x y : Session), later.nextNode ≤ x.nextNode →
          later.nextNode ≤ y.nextNode → x.nextVar = y.nextVar →
          SymM.Overflows (first.read q bitCount) x ∨
          SymM.Overflows (second.read q bitCount) y ∨
          ∃ answer afterX afterY, first.read q bitCount x = .ok answer afterX ∧
            second.read q bitCount y = .ok answer afterY ∧
            afterX.nextVar = afterY.nextVar := by
  obtain ⟨arena, hpool, hmachines⟩ := hreached.wellFormed
  have hpointer := hp.wellFormed hpool
  have hmemory := (hmachines machine hmachine).memory
  rw [hpool.nodes] at ha hb
  rcases Memory.writes_alike j hpointer hmemory hv hw hdisjoint ha hb
    with hstops | hstops | ⟨next, next', afterA, afterB, hrunA, hrunB, hanchor,
      hanchor', halike⟩
  · exact .inl hstops
  · exact .inr (.inl hstops)
  refine .inr (.inr ⟨_, _, afterA, afterB, hrunA, hrunB, ?_⟩)
  intro later words others hlater hstill hpStill q hq bitCount x y hx hy hvars
  obtain ⟨arena', hpool', hmachines'⟩ := hlater.wellFormed
  have hpointer' := hpStill.wellFormed hpool'
  have hmemory' := (hmachines' machine hstill).memory
  rw [hpool'.nodes] at hx hy
  have htargets := (Memory.place_targets hmemory hpointer).1
  have htargets' := (Memory.place_targets hmemory (hpointer.displace j)).1
  exact halike.read_concurs (hq.wellFormed hpool')
    (Memory.anchor_replace htargets hmemory' hpointer' hanchor)
    (Memory.anchor_replace htargets' hmemory' (hpointer'.displace j) hanchor')
      bitCount hx hy hvars

/--
The two writes make a region at different anchors.  The eight bytes in the
middle, four of each value, are read back from both.
-/
theorem independent_writes_commute_two_anchors :
    let stack := Word.ofTag Amd64.rsp.tag 0 64
    let frame := Word.ofTag Amd64.rbp.tag 0 64
    let p := Pointer.ofWord Amd64.standard stack
    ∃ (first second : Memory) (answer : Word)
      (after last afterX afterY : Session),
      ({} : Memory).writeBoth p stack (p.displace 8) frame {} =
        .ok first after ∧
      ({} : Memory).writeBoth (p.displace 8) frame p stack {} =
        .ok second last ∧
      first.regions.map (·.anchor.displacement) = [0] ∧
      second.regions.map (·.anchor.displacement) = [8] ∧
      first.read (p.displace 4) 64 {} = .ok (some answer) afterX ∧
      second.read (p.displace 4) 64 {} = .ok (some answer) afterY := by
  intro stack frame p
  have hcheck : SymM.endsWith
      (({} : Memory).writeBoth p stack (p.displace 8) frame) {}
      (fun first _ => first.regions.map (·.anchor.displacement) = [0] ∧
        SymM.endsWith (first.read (p.displace 4) 64) {}
          (fun answer _ => answer.isSome)) = true := by
    decide +kernel
  have hcheck' : SymM.endsWith
      (({} : Memory).writeBoth (p.displace 8) frame p stack) {}
      (fun second _ => second.regions.map (·.anchor.displacement) = [8] ∧
        SymM.endsWith (second.read (p.displace 4) 64) {}
          (fun answer _ => answer.isSome)) = true := by
    decide +kernel
  obtain ⟨first, after, hfirst, hresult⟩ := SymM.exists_ok_of_endsWith hcheck
  obtain ⟨second, last, hsecond, hresult'⟩ := SymM.exists_ok_of_endsWith hcheck'
  obtain ⟨hanchors, hread⟩ := of_decide_eq_true hresult
  obtain ⟨hanchors', hread'⟩ := of_decide_eq_true hresult'
  obtain ⟨answer, afterX, hx, hsome⟩ := SymM.exists_ok_of_endsWith hread
  obtain ⟨answer', afterY, hy, _⟩ := SymM.exists_ok_of_endsWith hread'
  have hreached : Machine.Reached Amd64.standard {} [stack] [{}] :=
    (Machine.Reached.start {}).make (.tagged Amd64.rsp.tag 0 64) rfl
  have hbuilt : Pointer.Built Amd64.standard [stack] p := .ofWord (by simp)
  have hstack : stack.width = 64 := Word.width_ofTag _ _ _
  have hframe : frame.width = 64 := Word.width_ofTag _ _ _
  have hdisjoint : ∀ address, InRange 0 (stack.width / 8) address →
      ¬ InRange (8 : Int64).toBitVec (frame.width / 8) address := by
    intro address hin hin'
    rw [hstack, inRange_iff] at hin
    rw [hframe, inRange_iff] at hin'
    have hlow : (address - 0#64).toNat < 8 := hin
    have hhigh : (address - 8#64).toNat < 8 := hin'
    bv_omega
  have hstart : ({} : Session).nextNode ≤ ({} : Session).nextNode := le_rfl
  rcases independent_writes_commute hreached (List.mem_singleton.mpr rfl) hbuilt
      (by rw [hstack]) (by rw [hframe]) hdisjoint hstart hstart with
    ⟨_, hstops⟩ | ⟨_, hstops⟩ | ⟨_, _, _, _, hruns, hruns', hreads⟩
  · cases hfirst.symm.trans hstops
  · cases hsecond.symm.trans hstops
  cases hfirst.symm.trans hruns
  cases hsecond.symm.trans hruns'
  rcases hreads {} [stack] [{}] hreached (List.mem_singleton.mpr rfl) hbuilt
    (p.displace 4)
      (.displace 4 hbuilt) 64 {} {} le_rfl le_rfl rfl with
    ⟨_, hstops⟩ | ⟨_, hstops⟩ | ⟨_, _, _, hsame, hsame', _⟩
  · cases hx.symm.trans hstops
  · cases hy.symm.trans hstops
  cases hx.symm.trans hsame
  obtain ⟨value, rfl⟩ := Option.isSome_iff_exists.mp hsome
  exact ⟨first, second, value, after, last, afterX, _, hfirst, hsecond,
    hanchors, hanchors', hx, hsame'⟩

end SymbolicMachine
