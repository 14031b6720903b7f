import SymbolicMachine.Architecture.Amd64
import SymbolicMachine.Proofs.Memory.Regions

/-!
# Memory coherence

A valuation turns every write into one to a plain byte memory.  The bytes that
the regions hold go on agreeing with that memory: a write that might change a
byte of another region drops the region, and pointers that cannot overlap are
taken to cover different addresses.
-/

namespace SymbolicMachine

/-! ## Byte memory -/

def InRange (first : BitVec 64) (count : Nat) (address : BitVec 64) : Prop :=
  ∃ i < count, address = first + BitVec.ofNat 64 i

theorem inRange_iff {first address : BitVec 64} {count : Nat} :
    InRange first count address ↔ (address - first).toNat < count := by
  constructor
  · rintro ⟨i, hi, rfl⟩
    have hle : i % 2 ^ 64 ≤ i := Nat.mod_le _ _
    rw [show first + BitVec.ofNat 64 i - first = BitVec.ofNat 64 i by bv_omega,
      BitVec.toNat_ofNat]
    omega
  · intro h
    refine ⟨(address - first).toNat, h, ?_⟩
    rw [BitVec.ofNat_toNat, BitVec.setWidth_eq]
    bv_omega

abbrev Ram := BitVec 64 → BitVec 8

def Ram.store (ram : Ram) (first : BitVec 64) (count value : Nat) : Ram :=
  fun address =>
    let index := (address - first).toNat
    if index < count then BitVec.ofNat 8 (value >>> (8 * index))
    else ram address

private theorem Ram.store_inside {ram : Ram} {first address : BitVec 64}
    {count value : Nat} (h : (address - first).toNat < count) :
    ram.store first count value address =
      BitVec.ofNat 8 (value >>> (8 * (address - first).toNat)) :=
  if_pos h

private theorem Ram.store_outside {ram : Ram} {first address : BitVec 64}
    {count value : Nat} (h : ¬ InRange first count address) :
    ram.store first count value address = ram address :=
  if_neg (inRange_iff.not.mp h)

/-! ## Agreement -/

structure Footprint where
  pointer : Pointer
  first : BitVec 64
  count : Nat

def Footprint.Apart (a b : Footprint) : Prop :=
  ∀ address, InRange a.first a.count address → ¬ InRange b.first b.count address

structure Region.ByteAgrees (valuation : Valuation) (ram : Ram)
    (history : List Footprint) (region : Region) (offset : Int) (byte : Word) :
    Prop where
  value_eq : byte.value valuation =
    (ram (region.anchor.addressAt valuation + BitVec.ofInt 64 offset)).toNat
  written : ∃ print ∈ history, print.pointer.SameRestrict region.anchor ∧
    InRange print.first print.count (region.anchor.addressAt valuation +
      BitVec.ofInt 64 offset)

def Memory.Agrees (valuation : Valuation) (ram : Ram) (history : List Footprint)
    (memory : Memory) : Prop :=
  ∀ region ∈ memory.regions, ∀ offset byte, region.bytes[offset]? = some byte →
    region.ByteAgrees valuation ram history offset byte

variable {arch : Architecture} {arena : Arena} {vars : Var → Prop}
  {valuation : Valuation} {ram : Ram} {history : List Footprint}

theorem toNat_offset_sub (anchor : BitVec 64) (key offset : Int) :
    ((anchor + BitVec.ofInt 64 key) - (anchor + BitVec.ofInt 64 offset)).toNat =
      ((key - offset) % 2 ^ 64).toNat := by
  rw [show anchor + BitVec.ofInt 64 key - (anchor + BitVec.ofInt 64 offset) =
    BitVec.ofInt 64 key - BitVec.ofInt 64 offset by bv_omega]
  simp only [BitVec.toNat_sub, BitVec.toNat_ofInt]
  omega

theorem Region.ByteAgrees.store {region : Region} {offset : Int} {byte : Word}
    (h : region.ByteAgrees valuation ram history offset byte)
    (print : Footprint) (value : Nat)
    (houtside : ¬ InRange print.first print.count
      (region.anchor.addressAt valuation + BitVec.ofInt 64 offset)) :
    region.ByteAgrees valuation (ram.store print.first print.count value)
      (print :: history) offset byte where
  value_eq := by
    rw [Ram.store_outside houtside]
    exact h.value_eq
  written := by
    obtain ⟨earlier, hmem, hwritten⟩ := h.written
    exact ⟨earlier, List.mem_cons_of_mem _ hmem, hwritten⟩

def footprint (valuation : Valuation) (pointer : Pointer) (value : Word) :
    Footprint :=
  ⟨pointer, pointer.addressAt valuation, value.width / 8⟩

namespace Memory

variable {memory next : Memory} {pointer : Pointer} {value : Word}
  {region : Region} {offset : Int}

theorem length_bytes (hbytes : value.width % 8 = 0) :
    (value.partsOf 8).length = value.width / 8 := by
  rw [Word.length_partsOf, Word.pieceCount]
  omega

private theorem width_byte {i : Nat} {byte : Word}
    (hbytes : value.width % 8 = 0) (hbyte : (value.partsOf 8)[i]? = some byte) :
    byte.width = 8 := by
  have hi := (List.getElem?_eq_some_iff.mp hbyte).1
  rw [length_bytes hbytes] at hi
  rw [Word.width_getElem?_partsOf hbyte]
  omega

private theorem Wrote.agrees_target {other : Region}
    (h : memory.Wrote pointer (value.partsOf 8) region offset next)
    (hmemory : memory.WellFormed arch arena vars) (hbytes : value.width % 8 = 0)
    (hagrees : memory.Agrees valuation ram history)
    (hother : region.Overwritten offset (value.partsOf 8) other) {key : Int}
    {byte : Word} (hbyte : other.bytes[key]? = some byte) :
    other.ByteAgrees valuation (ram.store (pointer.addressAt valuation)
      (value.width / 8) (value.value valuation))
      (footprint valuation pointer value :: history) key byte := by
  have hlength := length_bytes hbytes
  have hrange := h.reaches.range
  have hdistance : (region.anchor.addressAt valuation + BitVec.ofInt 64 key -
      pointer.addressAt valuation).toNat = ((key - offset) % 2 ^ 64).toNat := by
    rw [h.reaches.address_eq valuation, toNat_offset_sub]
  rcases hother.byte_cases hbyte with ⟨i, rfl, hi, hbyte⟩ | ⟨hkey, hold⟩
  · have hinside := hother.inside (List.ne_nil_of_length_pos (by omega))
    have hindex : (region.anchor.addressAt valuation +
        BitVec.ofInt 64 (offset + i) -
        pointer.addressAt valuation).toNat = i := by
      rw [hdistance]
      omega
    constructor
    · rw [hother.anchor_eq, Ram.store_inside (by omega), hindex,
        BitVec.toNat_ofNat, Word.value_getElem?_partsOf valuation hbyte]
    · refine ⟨_, List.mem_cons_self, ?_, ?_⟩
      · rw [hother.anchor_eq]
        exact h.reaches.restrict
      · rw [hother.anchor_eq]
        change InRange (pointer.addressAt valuation) (value.width / 8) _
        rw [inRange_iff, hindex]
        omega
  · -- The key is out of the range of offsets, and both stay within 64 bits.
    have hmem : region ∈ memory.regions := by
      rcases h.target with hmem | rfl
      · exact hmem
      · exact absurd hold (by simp)
    have hrange' := (hmemory region hmem).offset_range hold
    have hbyteAgrees := hagrees region hmem key byte hold
    rw [hlength] at hkey
    have houtside : ¬ InRange (pointer.addressAt valuation) (value.width / 8)
        (region.anchor.addressAt valuation + BitVec.ofInt 64 key) := by
      rw [inRange_iff, hdistance]
      by_cases hempty : value.width / 8 = 0
      · omega
      · have hinside := hother.inside (List.ne_nil_of_length_pos (by omega))
        rw [hlength] at hinside
        omega
    have hstored := hbyteAgrees.store (footprint valuation pointer value)
      (value.value valuation) houtside
    exact ⟨by rw [hother.anchor_eq]; exact hstored.value_eq,
      by rw [hother.anchor_eq]; exact hstored.written⟩

theorem Wrote.agrees
    (h : memory.Wrote pointer (value.partsOf 8) region offset next)
    (hmemory : memory.WellFormed arch arena vars) (hbytes : value.width % 8 = 0)
    (hagrees : memory.Agrees valuation ram history)
    (hapart : ∀ print ∈ history, pointer.canOverlap print.pointer = false →
      print.Apart (footprint valuation pointer value)) :
    next.Agrees valuation (ram.store (pointer.addressAt valuation)
      (value.width / 8) (value.value valuation))
      (footprint valuation pointer value :: history) := by
  intro other hother key byte hbyte
  rcases h.regions other hother with htarget | ⟨hmem, hoverlap⟩
  · exact h.agrees_target hmemory hbytes hagrees htarget hbyte
  · have hbyteAgrees := hagrees other hmem key byte hbyte
    refine hbyteAgrees.store (footprint valuation pointer value)
      (value.value valuation) ?_
    obtain ⟨print, hprint, hrestrict, hinside⟩ := hbyteAgrees.written
    have hdisjoint : pointer.canOverlap print.pointer = false := by
      rw [Pointer.canOverlap_comm, hrestrict.canOverlap_eq,
        Pointer.canOverlap_comm]
      exact hoverlap
    exact hapart print hprint hdisjoint _ hinside

theorem Wrote.wellFormed
    (h : memory.Wrote pointer (value.partsOf 8) region offset next)
    (hmemory : memory.WellFormed arch arena vars)
    (hpointer : pointer.WellFormed arch arena vars)
    (hvalue : value.WellFormed arena vars) (hbytes : value.width % 8 = 0) :
    next.WellFormed arch arena vars := by
  intro other hother
  rcases h.regions other hother with hover | ⟨hmem, _⟩
  · have hregion : region.WellFormed arch arena vars := by
      rcases h.target with hmem | rfl
      · exact hmemory region hmem
      · exact ⟨hpointer, fun hbyte => absurd hbyte (by simp),
          fun hbyte => absurd hbyte (by simp),
          fun hbyte => absurd hbyte (by simp)⟩
    refine hover.wellFormed hregion h.reaches.range.1 fun byte hbyte => ?_
    obtain ⟨i, hi⟩ := List.getElem?_of_mem hbyte
    exact ⟨hvalue.partsOf (by decide) hbyte, width_byte hbytes hi⟩
  · exact hmemory other hmem

end Memory

/-! ## Reading -/

def Word.byteAt (w : Word) (k : Nat) : Word :=
  .ofBits ((w.bits.drop (8 * k)).take 8)

theorem Word.bits_resize_of_le {w : Word} {n : Nat} (h : n ≤ w.width) :
    (w.resize n).bits = w.bits.take n := by
  unfold resize
  split
  case isTrue hle =>
      have hn : n = w.width := le_antisymm h hle
      rw [hn, Nat.sub_self]
      simp [zeroExtend, extendWith, width]
  case isFalse => rw [dropHigh, Nat.sub_sub_self h]

private theorem Word.byteAt_resize {bits : List Bit} {n : Nat}
    (h : n ≤ bits.length) (k : Nat) :
    (((ofBits bits).resize n).byteAt k).bits =
      ((bits.drop (8 * k)).take 8).take (n - 8 * k) := by
  calc
    (((ofBits bits).resize n).byteAt k).bits
        = ((bits.take n).drop (8 * k)).take 8 := by
          rw [byteAt, bits_resize_of_le h]
          rfl
    _ = ((bits.drop (8 * k)).take 8).take (n - 8 * k) := by
      rw [List.drop_take, List.take_take, List.take_take, Nat.min_comm]

namespace Memory

variable {memory : Memory} {pointer : Pointer} {answer : Word}
  {bitCount first last : Nat}

theorem ReadFrom.bits_eq
    (h : memory.ReadFrom pointer bitCount first last answer)
    (hmemory : memory.WellFormed arch arena vars) :
    ∃ region ∈ memory.regions,
      ∃ offset bits, pointer.Reaches region.anchor offset ∧
      region.Reads offset ((bitCount + 7) / 8) first last bits ∧
      bitCount ≤ bits.length ∧
      answer = (Word.ofBits bits).resize bitCount := by
  obtain ⟨region, hregion, offset, bits, hreaches, hreads, rfl⟩ := h
  have hlength := hreads.length_eq (hmemory region hregion)
  exact ⟨region, hregion, offset, bits, hreaches, hreads, by omega, rfl⟩

theorem ReadFrom.wellFormed
    (h : memory.ReadFrom pointer bitCount first last answer)
    (hmemory : memory.WellFormed arch arena (Issued first)) :
    first ≤ last ∧ answer.WellFormed arena (Issued last) := by
  obtain ⟨region, hregion, offset, bits, _, hreads, rfl⟩ := h
  have hle := hreads.first_le
  refine ⟨hle, (Word.WellFormed.ofBits ?_).resize bitCount⟩
  exact hreads.wellFormed
    ((hmemory region hregion).weaken fun _ => Issued.mono hle)
    fun id _ hlt => .inl hlt

private theorem ReadFrom.byte_current
    (h : memory.ReadFrom pointer bitCount first last answer)
    (hmemory : memory.WellFormed arch arena vars)
    (hagrees : memory.Agrees valuation ram history) {k : Nat}
    (hk : 8 * k < bitCount) :
    (∃ id, first ≤ id ∧ id + 8 ≤ last ∧
      (answer.byteAt k).bits <+: (Word.freshWord id 8).bits) ∨
    (answer.byteAt k).value valuation =
      (ram (pointer.addressAt valuation + BitVec.ofNat 64 k)).toNat %
        2 ^ (answer.byteAt k).width := by
  obtain ⟨region, hregion, offset, bits, hreaches, hreads, hlength, rfl⟩ :=
    h.bits_eq hmemory
  have hbits := Word.byteAt_resize hlength k
  rcases hreads.byte_cases (hmemory region hregion)
    (by omega : k < (bitCount + 7) / 8) with
    ⟨id, hlow, hhigh, hid⟩ | ⟨byte, hbyte, hstored⟩
  · left
    rw [hid] at hbits
    exact ⟨id, hlow, hhigh, hbits ▸ List.take_prefix _ _⟩
  · right
    rw [hstored] at hbits
    have hagree := (hagrees region hregion _ byte hbyte).value_eq
    have haddress : region.anchor.addressAt valuation +
        BitVec.ofInt 64 (offset + k) =
        pointer.addressAt valuation + BitVec.ofNat 64 k := by
      rw [hreaches.address_eq valuation, BitVec.ofInt_add, BitVec.ofInt_natCast,
        BitVec.add_assoc]
    rw [haddress] at hagree
    have hwidth : byte.bits.length = 8 :=
      (hmemory region hregion).byte_width hbyte
    rw [← hagree, Word.value, hbits, List.map_take, Word.natOfBits_take,
      Word.width, hbits, List.length_take, hwidth]
    change byte.value valuation % _ = byte.value valuation % _
    rcases Nat.le_total (bitCount - 8 * k) 8 with hshort | hlong
    · rw [Nat.min_eq_left hshort]
    · have hlt := byte.value_lt valuation
      rw [show byte.width = 8 from hwidth] at hlt
      have hpow : 2 ^ 8 ≤ 2 ^ (bitCount - 8 * k) :=
        Nat.pow_le_pow_right (by decide) hlong
      rw [Nat.min_eq_right hlong, Nat.mod_eq_of_lt hlt,
        Nat.mod_eq_of_lt (by omega)]

/-! ## Runs -/

/--
Reads and writes of a memory that starts out empty, between them the making of
words. Pointers are built from the words made so far, and an answer joins these
words.  The last write comes first in the list of writes.
-/
inductive Run (arch : Architecture) :
    Session → List Word → List (Pointer × Word) → Memory → Prop
  | start (session : Session) : Run arch session [] [] {}
  | make {session after : Session} {pool words : List Word}
      {writes : List (Pointer × Word)}
      {memory : Memory} (step : Word.Step) :
        Run arch session pool writes memory →
      step.run pool session = .ok words after →
        Run arch after (words ++ pool) writes memory
  | write {session after : Session} {pool : List Word}
      {writes : List (Pointer × Word)}
      {memory next : Memory} {pointer : Pointer} {value : Word} :
      Run arch session pool writes memory → Pointer.Built arch pool pointer →
      value ∈ pool →
      value.width % 8 = 0 → memory.write pointer value session =
        .ok next after →
      Run arch after pool ((pointer, value) :: writes) next
  | read {session after : Session} {pool : List Word}
      {writes : List (Pointer × Word)}
      {memory : Memory} {pointer : Pointer} {bitCount : Nat}
        {answer : Option Word} :
      Run arch session pool writes memory → Pointer.Built arch pool pointer →
      memory.read pointer bitCount session = .ok answer after →
      Run arch after (answer.toList ++ pool) writes memory

def replay (valuation : Valuation) (initial : Ram) : List (Pointer × Word) → Ram
  | [] => initial
  | (pointer, value) :: earlier =>
      (replay valuation initial earlier).store (pointer.addressAt valuation)
        (value.width / 8) (value.value valuation)

/--
Any two writes through pointers that cannot overlap cover no common address.
-/
def WritesApart (valuation : Valuation) (writes : List (Pointer × Word)) :
    Prop :=
  ∀ p v q w, (p, v) ∈ writes → (q, w) ∈ writes → p.canOverlap q = false →
    ∀ address,
    InRange (p.addressAt valuation) (v.width / 8) address →
      ¬ InRange (q.addressAt valuation) (w.width / 8) address

structure Sound (arch : Architecture) (session : Session) (arena : Arena)
    (pool : List Word) (writes : List (Pointer × Word)) (memory : Memory) :
    Prop where
  pool : Word.Pool session arena pool
  wellFormed : memory.WellFormed arch arena (Issued session.nextVar)
  agrees : ∀ valuation initial, WritesApart valuation writes →
    memory.Agrees valuation (replay valuation initial writes)
      (writes.map fun entry => footprint valuation entry.1 entry.2)

theorem WellFormed.grow {session after : Session} {later : Arena}
    {memory : Memory}
    (h : memory.WellFormed arch arena (Issued session.nextVar))
    (hle : arena <+: later) (hvars : session.nextVar ≤ after.nextVar) :
    memory.WellFormed arch later (Issued after.nextVar) :=
  fun region hregion => ((h region hregion).mono hle).weaken
    fun _ => Issued.mono hvars

theorem Sound.write {session after : Session} {pool : List Word}
    {writes : List (Pointer × Word)} {memory next : Memory} {pointer : Pointer}
    {value : Word} (h : Sound arch session arena pool writes memory)
    (hpointer : Pointer.Built arch pool pointer) (hvalue : value ∈ pool)
    (hbytes : value.width % 8 = 0)
    (hwrite : memory.write pointer value session = .ok next after) :
    ∃ later, Sound arch after later pool ((pointer, value) :: writes) next := by
  have hbuilt := hpointer.wellFormed h.pool
  obtain ⟨later, hle, hnode, hvars, region, offset, hwrote⟩ :=
    (write_yields h.pool.nodes h.wellFormed hbuilt hbytes).of_ok hwrite
  have hmemory := h.wellFormed.grow hle hvars.ge
  have hpool := h.pool.grow hle hnode hvars.ge
  refine ⟨later, hpool, hwrote.wellFormed hmemory (hpointer.wellFormed hpool)
    (hpool.wellFormed value hvalue) hbytes, fun valuation initial hapart => ?_⟩
  have hearlier : WritesApart valuation writes := fun p v q w hp hq =>
    hapart p v q w (List.mem_cons_of_mem _ hp) (List.mem_cons_of_mem _ hq)
  refine hwrote.agrees hmemory hbytes (h.agrees valuation initial hearlier) ?_
  intro print hprint hoverlap address hinside
  obtain ⟨⟨p, v⟩, hmem, rfl⟩ := List.mem_map.mp hprint
  rw [Pointer.canOverlap_comm] at hoverlap
  exact hapart p v pointer value (List.mem_cons_of_mem _ hmem)
    List.mem_cons_self hoverlap address hinside

theorem Run.sound {session : Session} {pool : List Word}
    {writes : List (Pointer × Word)} {memory : Memory}
    (h : Run arch session pool writes memory) :
    ∃ arena, Sound arch session arena pool writes memory := by
  induction h with
  | start session =>
      obtain ⟨arena, hnode⟩ := SymM.exists_arena session
      refine ⟨arena, ⟨hnode, by simp⟩, ?_, ?_⟩
      · intro region hregion
        cases hregion
      · intro valuation initial _ region hregion
        cases hregion
  | make step _ hstep ih =>
      obtain ⟨arena, hsound⟩ := ih
      obtain ⟨later, hle, hnode, hvars, hwords⟩ :=
        (step.run_growsPool hsound.pool).of_ok hstep
      have hpool := (hsound.pool.grow hle hnode hvars).append hwords
      exact ⟨later, hpool, hsound.wellFormed.grow hle hvars, hsound.agrees⟩
  | write _ hpointer hvalue hbytes hwrite ih =>
      obtain ⟨arena, hsound⟩ := ih
      exact hsound.write hpointer hvalue hbytes hwrite
  | read _ hpointer hread ih =>
      obtain ⟨arena, hsound⟩ := ih
      obtain ⟨later, hle, hnode, hvars, hanswer⟩ :=
        (read_yields _ hsound.pool.nodes hsound.wellFormed
          (hpointer.wellFormed hsound.pool)).of_ok hread
      have hgrown := hsound.wellFormed.grow hle le_rfl
      refine ⟨later, (hsound.pool.grow hle hnode hvars).append ?_,
        hsound.wellFormed.grow hle hvars, hsound.agrees⟩
      intro w hw
      exact ((hanswer w (Option.mem_toList.mp hw)).wellFormed hgrown).2

/--
No byte is stale.  Each stored byte has the value that the same writes leave at
its address in byte memory.  A read may overflow an offset; when it answers,
each byte of the answer is a byte of new variables or has the value that byte
memory holds there.
-/
theorem run_coherent {session : Session} {pool : List Word}
    {writes : List (Pointer × Word)} {memory : Memory}
    (hrun : Run arch session pool writes memory) (valuation : Valuation)
    (initial : Ram) (hapart : WritesApart valuation writes) :
    (∀ region ∈ memory.regions, ∀ offset byte,
      region.bytes[offset]? = some byte →
      byte.width = 8 ∧ byte.value valuation = (replay valuation initial writes
        (region.anchor.addressAt valuation + BitVec.ofInt 64 offset)).toNat) ∧
    ∀ pointer, Pointer.Built arch pool pointer → ∀ bitCount,
      (∀ fault after,
        memory.read pointer bitCount session = .error fault after →
        fault = .offsetOverflow) ∧
      ∀ answer after,
        memory.read pointer bitCount session = .ok (some answer) after →
        answer.width = bitCount ∧ ∀ k, 8 * k < bitCount →
          (∃ id, session.nextVar ≤ id ∧ id + 8 ≤ after.nextVar ∧
            (answer.byteAt k).bits <+: (Word.freshWord id 8).bits) ∨
          (answer.byteAt k).value valuation = (replay valuation initial writes
            (pointer.addressAt valuation + BitVec.ofNat 64 k)).toNat %
              2 ^ (answer.byteAt k).width := by
  obtain ⟨arena, hsound⟩ := hrun.sound
  have hagrees := hsound.agrees valuation initial hapart
  constructor
  · intro region hregion offset byte hbyte
    exact ⟨(hsound.wellFormed region hregion).byte_width hbyte,
      (hagrees region hregion offset byte hbyte).value_eq⟩
  · intro pointer hpointer bitCount
    have hread := read_yields bitCount hsound.pool.nodes hsound.wellFormed
      (hpointer.wellFormed hsound.pool)
    constructor
    · intro fault after hfault
      exact hread.of_error hfault
    · intro answer after hanswer
      obtain ⟨later, _, _, _, hfrom⟩ := hread.of_ok hanswer
      have hreadFrom := hfrom answer rfl
      constructor
      · obtain ⟨_, _, _, _, _, _, rfl⟩ := hreadFrom
        exact Word.width_resize _ bitCount
      · intro k hk
        exact hreadFrom.byte_current hsound.wellFormed hagrees hk

theorem run_coherent_two_frames :
    let stack := Word.ofTag Amd64.rsp.tag 0 64
    let frame := Word.ofTag Amd64.rbp.tag 0 64
    let writes := [(Pointer.ofWord Amd64.framed stack, Word.constant 7 8),
      (Pointer.ofWord Amd64.framed frame, Word.constant 9 8)]
    let valuation : Valuation := fun v => decide (v = .ofTag Amd64.rbp.tag 12)
    ∃ session memory region byte,
      Run Amd64.framed session [.constant 7 8, .constant 9 8, frame, stack]
        writes memory ∧
      WritesApart valuation writes ∧ region ∈ memory.regions ∧
      region.bytes[(0 : Int)]? = some byte ∧
      byte.value valuation = (replay valuation (fun _ => 0) writes
        (region.anchor.addressAt valuation + BitVec.ofInt 64 0)).toNat := by
  intro stack frame writes valuation
  have hrun : ∃ session memory region byte,
      Run Amd64.framed session [.constant 7 8, .constant 9 8, frame, stack]
        writes memory ∧
      region ∈ memory.regions ∧ region.bytes[(0 : Int)]? = some byte := by
    have hcheck : SymM.endsWith (do
        let memory ← ({} : Memory).write (.ofWord Amd64.framed frame)
            (.constant 9 8)
        memory.write (.ofWord Amd64.framed stack) (.constant 7 8)) {}
        (fun memory _ =>
          (memory.regions.head?.bind (·.bytes[(0 : Int)]?)).isSome) = true := by
      decide +kernel
    obtain ⟨memory, last, hwrites, hsome⟩ := SymM.exists_ok_of_endsWith hcheck
    obtain ⟨first, after, hfirst, hlast⟩ := SymM.bind_eq_ok.mp hwrites
    obtain ⟨byte, hbyte⟩ := Option.isSome_iff_exists.mp hsome
    obtain ⟨region, hregion, hbyte⟩ := Option.bind_eq_some_iff.mp hbyte
    have hwords : Run Amd64.framed {} [.constant 7 8, .constant 9 8, frame,
        stack] [] {} :=
      .make (.constant 7 8)
        (.make (.constant 9 8) (.make (.tagged Amd64.rbp.tag 0 64)
          (.make (.tagged Amd64.rsp.tag 0 64) (.start {}) rfl) rfl) rfl) rfl
    have hframe := hwords.write (.ofWord (by simp)) (by simp) rfl hfirst
    exact ⟨last, memory, region, byte,
      hframe.write (.ofWord (by simp)) (by simp) rfl hlast,
      List.mem_of_mem_head? hregion, hbyte⟩
  have hapart : WritesApart valuation writes := by
    have hstack : (Pointer.ofWord Amd64.framed stack).addressAt valuation =
        0 := by decide +kernel
    have hframe : (Pointer.ofWord Amd64.framed frame).addressAt valuation =
        4096 := by
      decide +kernel
    have hself : (Pointer.ofWord Amd64.framed stack).canOverlap
        (.ofWord Amd64.framed stack) ∧
          (Pointer.ofWord Amd64.framed frame).canOverlap
            (.ofWord Amd64.framed frame) := by
      decide +kernel
    intro p v q w hp hq hoverlap address hin
    simp only [writes, List.mem_cons, Prod.mk.injEq, List.not_mem_nil, or_false]
      at hp hq
    rw [inRange_iff] at hin ⊢
    rcases hp with ⟨rfl, rfl⟩ | ⟨rfl, rfl⟩ <;>
      rcases hq with ⟨rfl, rfl⟩ | ⟨rfl, rfl⟩
    · rw [hself.1] at hoverlap
      cases hoverlap
    · rw [hstack, Word.width_constant] at hin
      rw [hframe, Word.width_constant]
      bv_omega
    · rw [hframe, Word.width_constant] at hin
      rw [hstack, Word.width_constant]
      bv_omega
    · rw [hself.2] at hoverlap
      cases hoverlap
  obtain ⟨session, memory, region, byte, hrun, hregion, hbyte⟩ := hrun
  exact ⟨session, memory, region, byte, hrun, hapart, hregion, hbyte,
    ((run_coherent hrun valuation (fun _ => 0) hapart).1 region hregion 0 byte
      hbyte).2⟩

end Memory

end SymbolicMachine
