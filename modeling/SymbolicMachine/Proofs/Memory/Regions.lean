import SymbolicMachine.Memory
import SymbolicMachine.Proofs.Pointer

/-!
# Regions

What reading and writing do to the regions of a memory, whatever their bytes
stand for.  A region is reached through a pointer at a known distance; a write
changes the region it reaches and drops the others that it might overlap.
-/

namespace SymbolicMachine

variable {arch : Architecture} {arena : Arena} {vars : Var → Prop}

structure Region.WellFormed (arch : Architecture) (arena : Arena)
    (vars : Var → Prop) (region : Region) : Prop where
  anchor : region.anchor.WellFormed arch arena vars
  byte : ∀ {offset : Int} {byte : Word}, region.bytes[offset]? = some byte →
    byte.WellFormed arena vars
  byte_width : ∀ {offset : Int} {byte : Word},
  region.bytes[offset]? = some byte → byte.width = 8
  offset_range : ∀ {offset : Int} {byte : Word},
  region.bytes[offset]? = some byte →
    -2 ^ 63 ≤ offset ∧ offset < 2 ^ 63

def Memory.WellFormed (arch : Architecture) (arena : Arena) (vars : Var → Prop)
    (memory : Memory) : Prop :=
  ∀ region ∈ memory.regions, region.WellFormed arch arena vars

theorem Region.WellFormed.mono {later : Arena} (hle : arena <+: later)
    {region : Region} (h : region.WellFormed arch arena vars) :
    region.WellFormed arch later vars :=
  { h with
    anchor := h.anchor.mono hle
    byte := fun hbyte => (h.byte hbyte).mono hle }

theorem Region.WellFormed.weaken {wider : Var → Prop}
    (hvars : ∀ v, vars v → wider v) {region : Region}
    (h : region.WellFormed arch arena vars) :
    region.WellFormed arch arena wider :=
  { h with
    anchor := h.anchor.weaken hvars
    byte := fun hbyte => (h.byte hbyte).weaken hvars }

theorem lastOffset_eq : lastOffset = 2 ^ 63 - 1 := by
  decide

namespace Region

/-! ## Writing bytes -/

structure Overwritten (region : Region) (offset : Int) (bytes : List Word)
    (next : Region) :
    Prop where
  anchor_eq : next.anchor = region.anchor
  inside : bytes ≠ [] → offset + bytes.length ≤ 2 ^ 63
  bytes_eq : ∀ key, next.bytes[key]? =
    (if offset ≤ key then bytes[(key - offset).toNat]? else none).or
      region.bytes[key]?

theorem write_cases (region : Region) (offset : Int) (bytes : List Word) :
    (region.write offset bytes = .error .offsetOverflow ∧
      2 ^ 63 < offset + bytes.length) ∨
      ∃ next, region.write offset bytes = .ok next ∧
        region.Overwritten offset bytes next := by
  induction bytes generalizing region offset with
  | nil =>
      exact .inr ⟨region, rfl, rfl, fun h => absurd rfl h, fun key => by simp⟩
  | cons byte bytes ih =>
      have hlength : offset + (byte :: bytes).length =
          offset + 1 + bytes.length := by
        rw [List.length_cons]
        omega
      by_cases hoffset : offset > lastOffset
      · left
        constructor
        · exact if_pos hoffset
        · rw [lastOffset_eq] at hoffset
          omega
      · have hstep : region.write offset (byte :: bytes) =
            { region with bytes := region.bytes.insert offset byte }.write
              (offset + 1) bytes :=
          if_neg hoffset
        rw [hstep, hlength]
        rcases ih { region with bytes := region.bytes.insert offset byte }
          (offset + 1) with
          herror | ⟨next, hok, hnext⟩
        · exact .inl herror
        · refine .inr ⟨next, hok, hnext.anchor_eq, fun _ => ?_, fun key => ?_⟩
          · rw [lastOffset_eq] at hoffset
            rw [hlength]
            by_cases hnil : bytes = []
            · simp only [hnil, List.length_nil]
              omega
            · exact hnext.inside hnil
          · rw [hnext.bytes_eq key, Std.TreeMap.getElem?_insert]
            rcases lt_trichotomy key offset with hlt | rfl | hgt
            · simp [show ¬ offset + 1 ≤ key by omega,
                show ¬ offset ≤ key by omega, hlt.ne']
            · simp
            · have hindex : (key - offset).toNat =
                  (key - (offset + 1)).toNat + 1 := by omega
              simp [show offset + 1 ≤ key by omega, hgt.le, hgt.ne, hindex]

theorem Overwritten.byte_cases {region next : Region} {offset key : Int}
    {bytes : List Word} {byte : Word} (h : region.Overwritten offset bytes next)
    (hbyte : next.bytes[key]? = some byte) :
    (∃ i, key = offset + (i : Nat) ∧ i < bytes.length ∧ bytes[i]? = some byte) ∨
      (¬ (offset ≤ key ∧ key < offset + bytes.length) ∧
        region.bytes[key]? = some byte) := by
  rw [h.bytes_eq key] at hbyte
  by_cases hkey : offset ≤ key ∧ key < offset + bytes.length
  · left
    have hindex : (key - offset).toNat < bytes.length := by omega
    refine ⟨(key - offset).toNat, by omega, hindex, ?_⟩
    simpa [hkey.1, List.getElem?_eq_getElem hindex] using hbyte
  · right
    refine ⟨hkey, ?_⟩
    by_cases hle : offset ≤ key
    · have hindex : bytes.length ≤ (key - offset).toNat := by omega
      simpa [hle, List.getElem?_eq_none hindex] using hbyte
    · simpa [hle] using hbyte

theorem Overwritten.wellFormed {region next : Region} {offset : Int}
    {bytes : List Word} (h : region.Overwritten offset bytes next)
    (hregion : region.WellFormed arch arena vars) (hoffset : -2 ^ 63 ≤ offset)
    (hbytes : ∀ byte ∈ bytes, byte.WellFormed arena vars ∧ byte.width = 8) :
    next.WellFormed arch arena vars := by
  constructor
  · rw [h.anchor_eq]
    exact hregion.anchor
  · intro key byte hbyte
    rcases h.byte_cases hbyte with ⟨i, _, _, hi⟩ | ⟨_, hold⟩
    · exact (hbytes byte (List.mem_of_getElem? hi)).1
    · exact hregion.byte hold
  · intro key byte hbyte
    rcases h.byte_cases hbyte with ⟨i, _, _, hi⟩ | ⟨_, hold⟩
    · exact (hbytes byte (List.mem_of_getElem? hi)).2
    · exact hregion.byte_width hold
  · intro key byte hbyte
    rcases h.byte_cases hbyte with ⟨i, rfl, hlt, hi⟩ | ⟨_, hold⟩
    · have hinside := h.inside (List.ne_nil_of_mem (List.mem_of_getElem? hi))
      omega
    · exact hregion.offset_range hold

/-! ## Reading bytes -/

/--
Reading `count` bytes from `offset` on gives `bits`: stored bytes where there
are any, and otherwise fresh variables, of which those from `first` to `last`
are used up.
-/
inductive Reads (region : Region) : Int → Nat → Nat → Nat → List Bit → Prop
  | nil {offset : Int} {first : Nat} : Reads region offset 0 first first []
  | stored {offset : Int} {count first last : Nat} {byte : Word}
      {bits : List Bit} :
      region.bytes[offset]? = some byte →
      Reads region (offset + 1) count first last bits →
      Reads region offset (count + 1) first last (byte.bits ++ bits)
  | fresh {offset : Int} {count first last : Nat} {bits : List Bit} :
      region.bytes[offset]? = none →
      Reads region (offset + 1) count (first + 8) last bits →
      Reads region offset (count + 1) first last
        ((Word.freshWord first 8).bits ++ bits)

theorem read_yields {session : Session} (region : Region) (offset : Int)
    (count : Nat) (hnode : session.nextNode = arena.length) :
    SymM.Yields (· = .offsetOverflow) (region.read offset count) session arena
      fun after _ result => region.Reads offset count session.nextVar
        after.nextVar result.1 := by
  induction count generalizing offset session arena with
  | zero => exact SymM.yields_pure hnode .nil
  | succ count ih =>
      unfold Region.read
      by_cases hoffset : offset > lastOffset
      · simp only [hoffset, if_true]
        exact SymM.yields_throw rfl
      · simp only [hoffset, if_false]
        cases hbyte : region.bytes[offset]? with
        | some byte =>
            refine (ih (offset + 1) hnode).bind
              fun after later result hle hafter hbits => ?_
            exact SymM.yields_pure hafter (.stored hbyte hbits)
        | none =>
            refine (Word.fresh_yields hnode
              fun hwidth => absurd hwidth (by decide)).bind
              fun after later byte _ hafter hfresh => ?_
            obtain ⟨hnext, rfl, rfl⟩ := hfresh
            refine (ih (offset + 1) hafter).bind
              fun last final result _ hlast hbits => ?_
            rw [hnext] at hbits
            exact SymM.yields_pure hlast (.fresh hbyte hbits)

theorem read_stored {region : Region} {offset : Int} {pieces : List (List Bit)}
    (hinside : offset + pieces.length ≤ 2 ^ 63)
    (hstored : ∀ (i : Nat) (piece : List Bit), pieces[i]? = some piece →
      ∃ byte, region.bytes[offset + i]? = some byte ∧ byte.bits = piece)
    (session : Session) :
    region.read offset pieces.length session =
      .ok (pieces.flatten, !pieces.isEmpty) session := by
  induction pieces generalizing offset with
  | nil => rfl
  | cons piece pieces ih =>
      have hlast : ¬ offset > lastOffset := by
        rw [lastOffset_eq]
        simp only [List.length_cons] at hinside
        omega
      obtain ⟨byte, hbyte, rfl⟩ : ∃ byte, region.bytes[offset]? = some byte ∧
        byte.bits = piece := by
        simpa using hstored 0 piece rfl
      have hrest : region.read (offset + 1) pieces.length session =
          .ok (pieces.flatten, !pieces.isEmpty) session := by
        apply ih
        · simp only [List.length_cons] at hinside
          omega
        · intro i piece hi
          have hnext := hstored (i + 1) piece hi
          rwa [Nat.cast_succ, Int.add_comm (i : Int), ← Int.add_assoc] at hnext
      rw [List.length_cons, Region.read]
      simp only [hlast, if_false, hbyte]
      exact SymM.bind_of_ok hrest

theorem read_unknown_iff {region : Region} {offset : Int} {count : Nat}
    {session last : Session} {bits : List Bit} {known : Bool}
    (hread : region.read offset count session = .ok (bits, known) last) :
    known = false ↔ ∀ i < count, region.bytes[offset + (i : Nat)]? = none := by
  induction count generalizing offset session last bits known with
  | zero =>
      cases hread
      simp
  | succ count ih =>
      have hshift : (∀ i < count,
          region.bytes[offset + ((i + 1 : Nat) : Int)]? = none) ↔
          ∀ i < count, region.bytes[offset + 1 + (i : Nat)]? = none := by
        simp only [Nat.cast_succ, Int.add_assoc, Int.add_comm (1 : Int)]
      rw [Nat.forall_lt_succ_left, hshift, Nat.cast_zero, Int.add_zero]
      unfold Region.read at hread
      by_cases hlast : offset > lastOffset
      · simp only [hlast, if_true] at hread
        cases hread
      · simp only [hlast, if_false] at hread
        cases hbyte : region.bytes[offset]? with
        | some byte =>
            simp only [hbyte] at hread
            obtain ⟨_, _, _, hreturn⟩ := SymM.bind_eq_ok.mp hread
            cases hreturn
            simp
        | none =>
            simp only [hbyte] at hread
            obtain ⟨_, mid, _, hrest⟩ := SymM.bind_eq_ok.mp hread
            obtain ⟨result, _, htail, hreturn⟩ := SymM.bind_eq_ok.mp hrest
            cases hreturn
            rw [ih htail]
            simp

namespace Reads

variable {region : Region} {offset : Int} {count first last : Nat}
  {bits : List Bit}

theorem first_le (h : region.Reads offset count first last bits) :
    first ≤ last := by
  induction h with
  | nil => exact le_rfl
  | stored _ _ ih => exact ih
  | fresh _ _ ih => omega

theorem length_eq (h : region.Reads offset count first last bits)
    (hregion : region.WellFormed arch arena vars) :
    bits.length = count * 8 := by
  induction h with
  | nil => rfl
  | stored hbyte _ ih =>
      have hwidth : List.length _ = 8 := hregion.byte_width hbyte
      rw [List.length_append, hwidth, ih]
      omega
  | fresh _ _ ih =>
      rw [List.length_append, Word.length_freshWord, ih]
      omega

theorem wellFormed (h : region.Reads offset count first last bits)
    (hregion : region.WellFormed arch arena vars)
    (hfresh : ∀ id, first ≤ id → id < last → vars ⟨id⟩) :
    Word.BitsWellFormed arena vars bits := by
  induction h with
  | nil => simp [Word.BitsWellFormed]
  | stored hbyte _ ih =>
      intro b hb
      rcases List.mem_append.mp hb with hb | hb
      · exact (hregion.byte hbyte).bits b hb
      · exact ih hfresh b hb
  | fresh _ htail ih =>
      have hle := htail.first_le
      intro b hb
      rcases List.mem_append.mp hb with hb | hb
      · refine (Word.freshWord_wellFormed fun id hlow hhigh => ?_).bits b hb
        exact hfresh id hlow (by omega)
      · exact ih (fun id hlow hhigh => hfresh id (by omega) hhigh) b hb

theorem byte_cases (h : region.Reads offset count first last bits)
    (hregion : region.WellFormed arch arena vars) {k : Nat} (hk : k < count) :
    (∃ id, first ≤ id ∧ id + 8 ≤ last ∧
      (bits.drop (8 * k)).take 8 = (Word.freshWord id 8).bits) ∨
    ∃ byte, region.bytes[offset + k]? = some byte ∧
      (bits.drop (8 * k)).take 8 = byte.bits := by
  have hhead : ∀ {xs ys : List Bit},
      xs.length = 8 → ((xs ++ ys).drop (8 * 0)).take 8 = xs :=
    fun hxs => List.take_left' hxs
  have htail : ∀ {xs ys : List Bit} {k : Nat}, xs.length = 8 →
      (xs ++ ys).drop (8 * (k + 1)) = ys.drop (8 * k) := by
    intro xs ys k hxs
    rw [Nat.mul_succ, Nat.add_comm, ← List.drop_drop, List.drop_left' hxs]
  induction h generalizing k with
  | nil => exact absurd hk (Nat.not_lt_zero k)
  | @stored offset count first last byte bits hbyte hrest ih =>
      have hwidth : byte.bits.length = 8 := hregion.byte_width hbyte
      cases k with
      | zero =>
          right
          exact ⟨byte, by simpa using hbyte, hhead hwidth⟩
      | succ k =>
          rw [htail hwidth]
          have hcast : offset + ((k + 1 : Nat) : Int) = offset + 1 + k := by
            omega
          rw [hcast]
          exact ih (by omega)
  | @fresh offset count first last bits hbyte hrest ih =>
      have hle := hrest.first_le
      cases k with
      | zero =>
          left
          exact ⟨first, le_rfl, hle, hhead (Word.length_freshWord first 8)⟩
      | succ k =>
          rw [htail (Word.length_freshWord first 8)]
          have hcast : offset + ((k + 1 : Nat) : Int) = offset + 1 + k := by
            omega
          rw [hcast]
          rcases ih (by omega : k < count) with ⟨id, hlow, hhigh, hid⟩ | hstored
          · exact .inl ⟨id, by omega, hhigh, hid⟩
          · exact .inr hstored

end Reads

end Region

/-! ## Reaching a region -/

structure Pointer.Reaches (pointer anchor : Pointer) (offset : Int) : Prop where
  range : -2 ^ 63 ≤ offset ∧ offset < 2 ^ 63
  address_eq : ∀ valuation,
    pointer.addressAt valuation =
      anchor.addressAt valuation + BitVec.ofInt 64 offset
  restrict : pointer.SameRestrict anchor

theorem Pointer.reaches_self (pointer : Pointer) :
    pointer.Reaches pointer 0 where
  range := by decide
  address_eq := fun _ => (BitVec.add_zero _).symm
  restrict := fun _ => Iff.rfl

namespace Memory

theorem locate_yields {stops : Fault → Prop} {session : Session}
    {pointer : Pointer} {regions : List Region}
    (hnode : session.nextNode = arena.length)
    (hpointer : pointer.WellFormed arch arena vars)
    (hregions : ∀ region ∈ regions, region.WellFormed arch arena vars) :
    SymM.Yields stops (locate pointer regions) session arena
      fun after _ result =>
      SymM.NodesOnly session after ∧ ∀ found, result = some found →
        regions = found.before ++ found.region :: found.after ∧
          pointer.Reaches found.region.anchor found.offset := by
  induction regions generalizing session arena with
  | nil =>
      exact SymM.yields_pure hnode ⟨rfl, fun found hfound => by cases hfound⟩
  | cons region regions ih =>
      simp only [List.forall_mem_cons] at hregions
      refine (Pointer.difference_yields hnode hpointer hregions.1.anchor).bind
        fun after later distance hle hafter ⟨hnodes, hdistance⟩ => ?_
      cases distance with
      | some distance =>
          obtain ⟨haddress, hrestrict⟩ := hdistance distance rfl
          refine SymM.yields_pure hafter ⟨hnodes, fun found hfound => ?_⟩
          obtain rfl := Option.some.inj hfound
          refine ⟨rfl, ?_, fun valuation => ?_, hrestrict⟩
          · exact ⟨Int64.le_toInt distance, Int64.toInt_lt distance⟩
          · rw [haddress valuation, ← Int64.toInt_toBitVec, BitVec.ofInt_toInt]
      | none =>
          refine (ih hafter (hpointer.mono hle)
            fun r hr => (hregions.2 r hr).mono hle).bind
            fun last final result _ hlast ⟨hnodes', hresult⟩ => ?_
          refine SymM.yields_pure hlast ⟨hnodes.trans hnodes',
            fun found hfound => ?_⟩
          obtain ⟨inner, rfl, rfl⟩ := Option.map_eq_some_iff.mp hfound
          obtain ⟨hsplit, hreaches⟩ := hresult inner rfl
          exact ⟨by rw [hsplit]; rfl, hreaches⟩

/--
A write through `pointer` stores `bytes` in a region that the pointer reaches,
which may be a new one.  All other regions that are left are old ones that it
cannot overlap.
-/
structure Wrote (memory : Memory) (pointer : Pointer) (bytes : List Word)
    (region : Region) (offset : Int) (next : Memory) : Prop where
  target : region ∈ memory.regions ∨ region = { anchor := pointer }
  reaches : pointer.Reaches region.anchor offset
  regions : ∀ other ∈ next.regions, region.Overwritten offset bytes other ∨
    (other ∈ memory.regions ∧ pointer.canOverlap other.anchor = false)

theorem mem_survivors {pointer : Pointer} {regions : List Region}
    {region : Region} (h : region ∈ survivors pointer regions) :
    region ∈ regions ∧ pointer.canOverlap region.anchor = false := by
  simpa [survivors, aliases] using h

theorem recordInvalidated_yields {stops : Fault → Prop} {session : Session}
    (pointer : Pointer) (regions : List Region)
    (hnode : session.nextNode = arena.length) :
    SymM.Yields stops (recordInvalidated pointer regions) session arena
      fun after later _ =>
      after.nextVar = session.nextVar ∧ later = arena := by
  by_cases hcount : 0 < regions.countP (aliases pointer)
  · simp only [recordInvalidated, hcount, if_true]
    exact SymM.yields_record hnode
  · simp only [recordInvalidated, hcount, if_false]
    exact SymM.yields_pure hnode ⟨rfl, rfl⟩

private theorem store_yields {session : Session} {memory : Memory}
    {pointer : Pointer} {region : Region} {offset : Int}
    {before after : List Region} (bytes : List Word)
    (hnode : session.nextNode = arena.length)
    (htarget : region ∈ memory.regions ∨ region = { anchor := pointer })
    (hreaches : pointer.Reaches region.anchor offset)
    (hothers : ∀ other ∈ before ++ after, other ∈ memory.regions) :
    SymM.Yields (· = .offsetOverflow) (do
        recordInvalidated pointer (before ++ after)
        let next ← region.write offset bytes
        return Memory.mk
          (survivors pointer before ++ next :: survivors pointer after))
      session arena fun last _ next => last.nextVar = session.nextVar ∧
        ∃ region offset, memory.Wrote pointer bytes region offset next := by
  refine (recordInvalidated_yields pointer (before ++ after) hnode).bind
    fun last later _ _ hlast ⟨hvars, _⟩ => ?_
  rcases region.write_cases offset bytes with ⟨herror, _⟩ | ⟨next, hok, hnext⟩
  · rw [herror]
    exact SymM.yields_throw rfl
  · rw [hok]
    refine SymM.yields_pure hlast ⟨hvars, region, offset, htarget, hreaches, ?_⟩
    intro other hother
    simp only [List.mem_append, List.mem_cons] at hother
    rcases hother with hbefore | rfl | hafter
    · obtain ⟨hmem, halias⟩ := mem_survivors hbefore
      exact .inr ⟨hothers other (List.mem_append_left _ hmem), halias⟩
    · exact .inl hnext
    · obtain ⟨hmem, halias⟩ := mem_survivors hafter
      exact .inr ⟨hothers other (List.mem_append_right _ hmem), halias⟩

theorem write_yields {session : Session} {memory : Memory} {pointer : Pointer}
    {value : Word} (hnode : session.nextNode = arena.length)
    (hmemory : memory.WellFormed arch arena vars)
    (hpointer : pointer.WellFormed arch arena vars)
    (hbytes : value.width % 8 = 0) :
    SymM.Yields (· = .offsetOverflow) (memory.write pointer value) session arena
      fun after _ next => after.nextVar = session.nextVar ∧
        ∃ region offset,
          memory.Wrote pointer (value.partsOf 8) region offset next := by
  unfold write
  simp only [hbytes, if_true]
  refine (locate_yields hnode hpointer hmemory).bind
    fun after later result hle hafter ⟨hnodes, hresult⟩ => ?_
  cases result with
  | none =>
      have hothers : ∀ other ∈ memory.regions ++ [],
          other ∈ memory.regions := by simp
      have hstore :=
        store_yields (value.partsOf 8) hafter (.inr rfl) pointer.reaches_self
          hothers
      rw [List.append_nil, hnodes.nextVar_eq] at hstore
      exact hstore
  | some found =>
      obtain ⟨hsplit, hreaches⟩ := hresult found rfl
      have hmem : ∀ region ∈ found.region :: found.others,
          region ∈ memory.regions := by
        intro region hregion
        rw [hsplit]
        simp only [Located.others, List.mem_cons, List.mem_append] at hregion ⊢
        rcases hregion with htarget | hbefore | hlater
        · exact .inr (.inl htarget)
        · exact .inl hbefore
        · exact .inr (.inr hlater)
      simp only [List.forall_mem_cons] at hmem
      rw [← hnodes.nextVar_eq]
      exact store_yields _ hafter (.inl hmem.1) hreaches hmem.2

def ReadFrom (memory : Memory) (pointer : Pointer) (bitCount first last : Nat)
    (answer : Word) : Prop :=
  ∃ region ∈ memory.regions,
  ∃ offset bits, pointer.Reaches region.anchor offset ∧
    region.Reads offset ((bitCount + 7) / 8) first last bits ∧
    answer = (Word.ofBits bits).resize bitCount

theorem read_yields {session : Session} {memory : Memory} {pointer : Pointer}
    (bitCount : Nat) (hnode : session.nextNode = arena.length)
    (hmemory : memory.WellFormed arch arena vars)
    (hpointer : pointer.WellFormed arch arena vars) :
    SymM.Yields (· = .offsetOverflow) (memory.read pointer bitCount)
      session arena
      fun after _ result => session.nextVar ≤ after.nextVar ∧ ∀ answer,
        result = some answer →
        memory.ReadFrom pointer bitCount session.nextVar after.nextVar
          answer := by
  unfold read
  refine (locate_yields hnode hpointer hmemory).bind
    fun after later result hle hafter ⟨hnodes, hresult⟩ => ?_
  have hnone : session.nextVar ≤ after.nextVar ∧ ∀ answer,
      (none : Option Word) = some answer →
      memory.ReadFrom pointer bitCount session.nextVar after.nextVar answer :=
    ⟨hnodes.nextVar_eq.ge, fun _ hanswer => by cases hanswer⟩
  cases result with
  | none => exact SymM.yields_pure hafter hnone
  | some found =>
      obtain ⟨hsplit, hreaches⟩ := hresult found rfl
      by_cases halias : found.others.any (aliases pointer) = true
      · simp only [halias, if_true]
        exact SymM.yields_pure hafter hnone
      · simp only [halias]
        refine (found.region.read_yields found.offset ((bitCount + 7) / 8)
          hafter).bind fun last final result _ hlast hreads => ?_
        obtain ⟨bits, known⟩ := result
        rw [hnodes.nextVar_eq] at hreads
        refine SymM.yields_pure hlast ⟨hreads.first_le,
          fun answer hanswer => ?_⟩
        have hmem : found.region ∈ memory.regions := by
          rw [hsplit]
          exact List.mem_append_right _ List.mem_cons_self
        cases known with
        | false => cases hanswer
        | true =>
            exact ⟨found.region, hmem, found.offset, bits, hreaches, hreads,
              (Option.some.inj hanswer).symm⟩

end Memory

end SymbolicMachine
