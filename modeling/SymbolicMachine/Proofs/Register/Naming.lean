import Mathlib.Data.List.Induction
import Mathlib.Data.List.Nodup
import SymbolicMachine.Architecture.Amd64

/-!
# Names of register slices

A table is asked in two directions: which bytes a register names, and which
register names given bytes.  The last entry of a register answers the first
question, and the first entry with the bytes the second, as if two maps were
filled entry by entry, where a mapping replaces the one before it and a name
does not.  If no register is listed twice, the two directions agree on all bytes
that have a name.

Bytes at offset zero without a name get the base register for one.  So the
register found for a slice need not name the slice.
-/

namespace SymbolicMachine

namespace Mapping

instance : Ord Mapping :=
  ⟨compareLex (compareOn base) (compareLex (compareOn offset) (compareOn size))⟩

instance : Std.TransOrd Mapping :=
  inferInstanceAs (Std.TransCmp
    (compareLex (compareOn base)
      (compareLex (compareOn offset) (compareOn size))))

instance : Std.LawfulEqOrd Mapping where
  eq_of_compare {a b} h := by
    have hcompare : compareLex (compareOn base)
        (compareLex (compareOn offset) (compareOn size)) a b = .eq := h
    simp only [compareLex_eq_eq, compareOn, Std.LawfulEqCmp.compare_eq_iff_eq]
      at hcompare
    cases a
    cases b
    simp_all

end Mapping

namespace RegisterTable

variable {table : RegisterTable} {id : RegisterId} {mapping : Mapping}

/-! ## The entry that counts -/

def LastEntry (table : RegisterTable) (id : RegisterId) (mapping : Mapping) :
    Prop :=
  ∃ before after, table.entries = before ++ (id, mapping) :: after ∧
    ∀ entry ∈ after, entry.1 ≠ id

def FirstEntry (table : RegisterTable) (id : RegisterId) (mapping : Mapping) :
    Prop :=
  ∃ before after, table.entries = before ++ (id, mapping) :: after ∧
    ∀ entry ∈ before, entry.2 ≠ mapping

def Unlisted (table : RegisterTable) (id : RegisterId) : Prop :=
  ∀ entry ∈ table.entries, entry.1 ≠ id

def Unnamed (table : RegisterTable) (mapping : Mapping) : Prop :=
  ∀ entry ∈ table.entries, entry.2 ≠ mapping

instance (table : RegisterTable) (id : RegisterId) :
    Decidable (table.Unlisted id) :=
  inferInstanceAs (Decidable (∀ entry ∈ table.entries, _))

instance (table : RegisterTable) (mapping : Mapping) :
    Decidable (table.Unnamed mapping) :=
  inferInstanceAs (Decidable (∀ entry ∈ table.entries, _))

private theorem mapping?_eq_some_iff : table.mapping? id = some mapping ↔
    table.LastEntry id mapping := by
  unfold mapping? LastEntry
  rw [List.lookup_eq_some_iff]
  constructor
  · rintro ⟨later, earlier, hsplit, hlater⟩
    refine ⟨earlier.reverse, later.reverse, ?_, fun entry hentry => ?_⟩
    · rw [← List.reverse_reverse table.entries, hsplit]
      simp
    · exact fun h => by
        simpa [h] using hlater entry (List.mem_reverse.mp hentry)
  · rintro ⟨before, after, hsplit, hafter⟩
    refine ⟨after.reverse, before.reverse, by simp [hsplit],
      fun entry hentry => ?_⟩
    exact bne_iff_ne.mpr (hafter entry (List.mem_reverse.mp hentry)).symm

private theorem mapping?_eq_none_iff :
    table.mapping? id = none ↔ table.Unlisted id := by
  simp only [mapping?, Unlisted, List.lookup_eq_none_iff, List.mem_reverse,
    bne_iff_ne, ne_comm]

theorem name?_eq_some_iff :
    table.name? mapping = some id ↔ table.FirstEntry id mapping := by
  unfold name? FirstEntry
  rw [Option.map_eq_some_iff]
  constructor
  · rintro ⟨⟨_, other⟩, hfound, rfl⟩
    obtain ⟨hother, before, after, hsplit, hbefore⟩ :=
      List.find?_eq_some_iff_append.mp hfound
    obtain rfl : other = mapping := of_decide_eq_true hother
    exact ⟨before, after, hsplit,
      fun entry hentry => by simpa using hbefore entry hentry⟩
  · rintro ⟨before, after, hsplit, hbefore⟩
    refine ⟨(id, mapping), List.find?_eq_some_iff_append.mpr ?_, rfl⟩
    exact ⟨by simp, before, after, hsplit,
      fun entry hentry => by simpa using hbefore entry hentry⟩

private theorem name?_eq_none_iff :
    table.name? mapping = none ↔ table.Unnamed mapping := by
  simp [name?, Unnamed]

/-! ## Filling maps -/

/-- The names of bytes, filled entry by entry.  A name that is there stays. -/
def names (table : RegisterTable) : Std.TreeMap Mapping RegisterId :=
  table.entries.foldl (fun map entry => map.insertIfNew entry.2 entry.1) {}

private theorem mapping?_append (entries : List (RegisterId × Mapping))
    (entry : RegisterId × Mapping) (id : RegisterId) :
    mapping? ⟨entries ++ [entry]⟩ id =
      if entry.1 = id then some entry.2 else mapping? ⟨entries⟩ id := by
  obtain ⟨register, mapping⟩ := entry
  simp only [mapping?, List.reverse_append, List.reverse_singleton,
    List.singleton_append, List.lookup_cons]
  by_cases h : register = id
  · simp [h]
  · simp [h, beq_eq_false_iff_ne.mpr (Ne.symm h)]

private theorem name?_append (entries : List (RegisterId × Mapping))
    (entry : RegisterId × Mapping) (mapping : Mapping) :
    name? ⟨entries ++ [entry]⟩ mapping =
      (name? ⟨entries⟩ mapping).or
        (if entry.2 = mapping then some entry.1 else none) := by
  simp only [name?, List.find?_append, List.find?_singleton, decide_eq_true_eq]
  by_cases h : entry.2 = mapping
  · cases List.find? (fun entry => decide (entry.2 = mapping)) entries <;>
      simp [h]
  · simp [h]

private theorem getElem?_mappings (table : RegisterTable) (id : RegisterId) :
    table.mappings[id]? = table.mapping? id := by
  obtain ⟨entries⟩ := table
  induction entries using List.reverseRecOn with
  | nil => rfl
  | append_singleton entries entry ih =>
      have hstep : mappings ⟨entries ++ [entry]⟩ =
          (mappings ⟨entries⟩).insert entry.1 entry.2 :=
        List.foldl_concat ..
      rw [hstep, Std.TreeMap.getElem?_insert, mapping?_append, ih]
      simp only [Std.LawfulEqCmp.compare_eq_iff_eq]

private theorem getElem?_names (table : RegisterTable) (mapping : Mapping) :
    table.names[mapping]? = table.name? mapping := by
  obtain ⟨entries⟩ := table
  induction entries using List.reverseRecOn with
  | nil => rfl
  | append_singleton entries entry ih =>
      have hstep : names ⟨entries ++ [entry]⟩ =
          (names ⟨entries⟩).insertIfNew entry.2 entry.1 :=
        List.foldl_concat ..
      rw [hstep, Std.TreeMap.getElem?_insertIfNew, name?_append, ← ih]
      simp only [Std.LawfulEqCmp.compare_eq_iff_eq,
        Std.TreeMap.mem_iff_isSome_getElem?]
      by_cases h : entry.2 = mapping
      · rw [h]
        cases (names ⟨entries⟩)[mapping]? <;> simp
      · simp [h]

/-! ## Both directions -/

structure Proper (table : RegisterTable) : Prop where
  distinct : (table.entries.map Prod.fst).Nodup
  valid : table.Unlisted .invalid

private theorem Proper.lastEntry (h : table.Proper)
    (hentry : (id, mapping) ∈ table.entries) :
    table.LastEntry id mapping := by
  obtain ⟨before, after, hsplit⟩ := List.append_of_mem hentry
  refine ⟨before, after, hsplit, fun entry hafter hid => ?_⟩
  have hdistinct := h.distinct
  rw [hsplit, List.map_append, List.map_cons, List.nodup_middle,
    List.nodup_cons] at hdistinct
  exact hdistinct.1
    (List.mem_append_right _ (List.mem_map.mpr ⟨entry, hafter, hid⟩))

theorem FirstEntry.mem (h : table.FirstEntry id mapping) :
    (id, mapping) ∈ table.entries := by
  obtain ⟨before, after, hsplit, _⟩ := h
  rw [hsplit]
  simp

private theorem exists_firstEntry (h : ¬ table.Unnamed mapping) :
    ∃ id, table.FirstEntry id mapping := by
  rw [← name?_eq_none_iff] at h
  obtain ⟨id, hid⟩ := Option.ne_none_iff_exists'.mp h
  exact ⟨id, name?_eq_some_iff.mp hid⟩

private theorem resolve_eq_ok_iff :
    table.resolve id = .ok mapping ↔ id ≠ .invalid ∧
      (table.LastEntry id mapping ∨ table.Unlisted id ∧
        mapping = ⟨id, 0, 8⟩) := by
  rw [← mapping?_eq_some_iff, ← mapping?_eq_none_iff, resolve]
  by_cases hid : id = .invalid
  · simp [hid]
  · cases table.mapping? id <;> simp [hid, eq_comm]

private theorem Proper.resolve_firstEntry (h : table.Proper)
    (hfirst : table.FirstEntry id mapping) :
    table.resolve id = .ok mapping :=
  resolve_eq_ok_iff.mpr ⟨h.valid _ hfirst.mem, .inl (h.lastEntry hfirst.mem)⟩

private theorem remap_of_firstEntry (hfirst : table.FirstEntry id mapping)
    {register : RegisterId} (hbase : table.baseOf register = mapping.base) :
    table.remap register mapping.offset mapping.size = .ok id := by
  simp only [remap, hbase, name?_eq_some_iff.mpr hfirst]

private theorem remap_of_unnamed {register : RegisterId} {offset size : Nat}
    (h : table.Unnamed ⟨table.baseOf register, offset, size⟩) :
    table.remap register offset size =
      if offset = 0 then .ok (table.baseOf register)
      else .error (.unmapped (table.baseOf register) offset size) := by
  simp only [remap, name?_eq_none_iff.mpr h]

/--
In a table that lists no register twice, the bytes of an entry are named by the
first register that has them, from every register of the same base, and this
register names these bytes.  The two maps filled entry by entry answer the same.
Bytes that no register names go to the base register at offset zero, and have no
name elsewhere.
-/
theorem remap_inverts_resolve (hproper : table.Proper) :
    (∀ entry ∈ table.entries, ∀ register, table.baseOf register = entry.2.base →
      ∃ first, table.FirstEntry first entry.2 ∧
        table.remap register entry.2.offset entry.2.size = .ok first ∧
        table.resolve first = .ok entry.2 ∧
        table.names[entry.2]? = some first ∧
        table.mappings[first]? = some entry.2 ∧
        ((∀ other ∈ table.entries, other.2 = entry.2 → other.1 = entry.1) →
          first = entry.1)) ∧
    ∀ register offset size,
      table.Unnamed ⟨table.baseOf register, offset, size⟩ →
      table.remap register offset size =
        if offset = 0 then .ok (table.baseOf register)
        else .error (.unmapped (table.baseOf register) offset size) := by
  refine ⟨fun entry hentry register hbase => ?_,
    fun register offset size => remap_of_unnamed⟩
  obtain ⟨first, hfirst⟩ :=
    exists_firstEntry fun hnone : table.Unnamed entry.2 =>
    hnone entry hentry rfl
  refine ⟨first, hfirst, remap_of_firstEntry hfirst hbase,
    hproper.resolve_firstEntry hfirst, ?_, ?_,
    fun honly => honly _ hfirst.mem rfl⟩
  · rw [getElem?_names]
    exact name?_eq_some_iff.mpr hfirst
  · rw [getElem?_mappings]
    exact mapping?_eq_some_iff.mpr (hproper.lastEntry hfirst.mem)

theorem remap_inverts_resolve_shared_half :
    let table : RegisterTable :=
      ⟨[(⟨3⟩, ⟨⟨7⟩, 0, 4⟩), (⟨4⟩, ⟨⟨7⟩, 0, 4⟩), (⟨5⟩, ⟨⟨7⟩, 1, 1⟩)]⟩
    table.Proper ∧ table.baseOf ⟨5⟩ = ⟨7⟩ ∧
    (∃ first, table.remap ⟨5⟩ 0 4 = .ok first ∧ first ≠ ⟨4⟩ ∧
      table.resolve first = .ok ⟨⟨7⟩, 0, 4⟩) ∧
    table.remap ⟨4⟩ 0 2 = .ok ⟨7⟩ ∧
      table.remap ⟨7⟩ 4 4 = .error (.unmapped ⟨7⟩ 4 4) := by
  intro table
  have hproper : table.Proper := ⟨by decide, by decide⟩
  obtain ⟨hnamed, hunnamed⟩ := remap_inverts_resolve hproper
  obtain ⟨first, ⟨before, after, hsplit, hbefore⟩, hremap, hresolve, _⟩ :=
    hnamed (⟨4⟩, ⟨⟨7⟩, 0, 4⟩) (by decide) ⟨5⟩ (by decide)
  refine ⟨hproper, by decide, ⟨first, hremap, ?_, hresolve⟩, ?_, ?_⟩
  · rintro rfl
    cases hremap
  · exact hunnamed ⟨4⟩ 0 2 (by decide)
  · exact hunnamed ⟨7⟩ 4 4 (by decide)

end RegisterTable

/-! ## Slices -/

namespace RegisterSlice

variable {table : RegisterTable} {slice : RegisterSlice} {id : RegisterId}

def bytes (slice : RegisterSlice) : Mapping :=
  ⟨slice.base, slice.offset / 8, slice.count / 8⟩

theorem make_eq_ok_iff {base : RegisterId} {offset count : Nat} :
    make table base offset count = .ok slice ↔
      base ≠ .invalid ∧ table.baseOf base = base ∧ slice.base = base ∧
        slice.offset = offset ∧
        slice.count = count := by
  obtain ⟨own, low, length, hpos, hinside⟩ := slice
  unfold make
  split_ifs with hinvalid hbase hrange
  · simp [hinvalid]
  · simp [hbase]
  · simp only [Except.ok.injEq, mk.injEq]
    tauto
  · simp only [false_iff]
    rintro ⟨_, _, _, rfl, rfl⟩
    exact hrange ⟨hpos, hinside⟩

private theorem toRegister_eq_ok_iff :
    slice.toRegister table = .ok id ↔
      slice.offset % 8 = 0 ∧ slice.count % 8 = 0 ∧
      table.remap slice.base (slice.offset / 8) (slice.count / 8) = .ok id := by
  unfold toRegister
  split_ifs with haligned
  · simp [haligned]
  · simp only [false_iff]
    tauto

private theorem ofRegister_eq_ok_iff {base : RegisterId} {offset count : Nat}
    (hslice : make table base offset count = .ok slice)
    (hoffset : slice.offset % 8 = 0) (hcount : slice.count % 8 = 0) :
    ofRegister table id = .ok slice ↔ table.resolve id = .ok slice.bytes := by
  obtain ⟨hvalid, hbase, rfl, rfl, rfl⟩ := make_eq_ok_iff.mp hslice
  cases hresolve : table.resolve id with
  | error error => simp [ofRegister, hresolve, bind, Except.bind]
  | ok mapping =>
      have hmake : ofRegister table id =
          make table mapping.base (mapping.offset * 8) (mapping.size * 8) := by
        simp [ofRegister, hresolve, bind, Except.bind]
      rw [hmake, make_eq_ok_iff, Except.ok.injEq]
      obtain ⟨own, low, size⟩ := mapping
      simp only [bytes, Mapping.mk.injEq]
      constructor
      · rintro ⟨_, _, rfl, hlow, hsize⟩
        exact ⟨rfl, by omega, by omega⟩
      · rintro ⟨rfl, rfl, rfl⟩
        exact ⟨hvalid, hbase, rfl, by omega, by omega⟩

private theorem bytes_eq_full_iff :
    slice.bytes = ⟨id, 0, 8⟩ ↔ slice = full id := by
  obtain ⟨own, low, length, hpos, hinside⟩ := slice
  have hlimit : low + length ≤ 64 := hinside
  simp only [bytes, full, Mapping.mk.injEq, mk.injEq, registerWidth]
  constructor
  · rintro ⟨rfl, hlow, hlength⟩
    exact ⟨rfl, by omega, by omega⟩
  · rintro ⟨rfl, rfl, rfl⟩
    exact ⟨rfl, rfl, rfl⟩

/--
The register found for a slice names exactly this slice if its last entry has
the bytes of the slice, or if it has no entry and the slice is all of it, and in
no other case.  In a table that lists no register twice this leaves out just the
slices without a name, which get their base register.
-/
theorem toRegister_exact_iff {base : RegisterId} {offset count : Nat}
    (hslice : make table base offset count = .ok slice)
    (hname : slice.toRegister table = .ok id) :
    (ofRegister table id = .ok slice ↔ id ≠ .invalid ∧
      (table.LastEntry id slice.bytes ∨ table.Unlisted id ∧ slice = full id)) ∧
    (table.Proper → (ofRegister table id = .ok slice ↔
      ¬ table.Unnamed slice.bytes ∨ table.Unlisted id ∧ slice = full id)) ∧
    (table.Unnamed slice.bytes → id = slice.base ∧ slice.offset = 0) := by
  obtain ⟨hoffset, hcount, hremap⟩ := toRegister_eq_ok_iff.mp hname
  have hexact : ofRegister table id = .ok slice ↔ id ≠ .invalid ∧
      (table.LastEntry id slice.bytes ∨ table.Unlisted id ∧
        slice = full id) := by
    rw [ofRegister_eq_ok_iff hslice hoffset hcount,
      RegisterTable.resolve_eq_ok_iff, bytes_eq_full_iff]
  obtain ⟨hvalid, hbase, rfl, rfl, rfl⟩ := make_eq_ok_iff.mp hslice
  refine ⟨hexact, fun hproper => ?_, fun hunnamed => ?_⟩
  · constructor
    · intro h
      obtain ⟨_, ⟨before, after, hsplit, _⟩ | hwhole⟩ := hexact.mp h
      · exact .inl fun hnone => hnone (id, slice.bytes) (by simp [hsplit]) rfl
      · exact .inr hwhole
    · rintro (hnamed | hwhole)
      · obtain ⟨first, hfirst⟩ := RegisterTable.exists_firstEntry hnamed
        obtain rfl : first = id :=
          Except.ok.inj ((RegisterTable.remap_of_firstEntry hfirst
            hbase).symm.trans hremap)
        rw [ofRegister_eq_ok_iff hslice hoffset hcount]
        exact hproper.resolve_firstEntry hfirst
      · rw [hwhole.2] at hvalid
        exact hexact.mpr ⟨hvalid, .inr hwhole⟩
  · have hfallback := RegisterTable.remap_of_unnamed (show table.Unnamed
      ⟨table.baseOf slice.base, slice.offset / 8, slice.count / 8⟩ by
      rwa [hbase])
    rw [hfallback, hbase] at hremap
    split_ifs at hremap with hzero
    exact ⟨(Except.ok.inj hremap).symm, by omega⟩

theorem toRegister_exact_iff_second_byte :
    ∃ slice, make Amd64.table ⟨1⟩ 8 8 = .ok slice ∧
      slice.toRegister Amd64.table = .ok ⟨4⟩ ∧
      ofRegister Amd64.table ⟨4⟩ = .ok slice := by
  have hslice : make Amd64.table ⟨1⟩ 8 8 =
      .ok ⟨⟨1⟩, 8, 8, by decide, by decide⟩ := by decide
  have hname : (⟨⟨1⟩, 8, 8, by decide, by decide⟩ : RegisterSlice).toRegister
      Amd64.table = .ok ⟨4⟩ := by decide
  have hproper : Amd64.table.Proper := ⟨by decide +kernel, by decide +kernel⟩
  exact ⟨_, hslice, hname,
    ((toRegister_exact_iff hslice hname).2.1 hproper).mpr (.inl (by decide))⟩

/-- The low three bytes of `rsi` have no name of their own. -/
theorem three_bytes_named_by_base :
    ∃ slice, make Amd64.table ⟨25⟩ 0 24 = .ok slice ∧
      slice.toRegister Amd64.table = .ok ⟨25⟩ ∧
      ofRegister Amd64.table ⟨25⟩ = .ok (.full ⟨25⟩) ∧ full ⟨25⟩ ≠ slice :=
  ⟨⟨⟨25⟩, 0, 24, by decide, by decide⟩,
    by decide, by decide, by decide, by decide⟩

end RegisterSlice

end SymbolicMachine
