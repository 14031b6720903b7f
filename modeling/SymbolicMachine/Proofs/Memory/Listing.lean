import SymbolicMachine.Proofs.Memory.Separation

/-!
# Listing memory

The entries of a region are its bytes, joined where they touch: taking the runs
apart again gives the stored bytes in the order of their offsets, and between
two runs at least one byte is missing. Each run reads back from its own pointer,
since that pointer finds the region it was listed for.
-/

namespace SymbolicMachine

namespace Run

/-! ## Bytes of a run -/

def stop (run : Run) : Int :=
  run.start + (run.value.width / 8 : Nat)

def cells (run : Run) : List (Int × List Bit) :=
  (Word.pieces 8 run.value.bits).mapIdx fun i piece => (run.start + i, piece)

private theorem start_le_stop (run : Run) : run.start ≤ run.stop := by
  unfold stop
  omega

private theorem stop_concat {offset : Int} {byte : Word}
    (hbyte : byte.width = 8) (value : Word) :
    stop ⟨offset, byte.concat value⟩ = stop ⟨offset + 1, value⟩ := by
  simp only [stop, Word.width_concat, hbyte]
  omega

private theorem cells_concat {offset : Int} {byte : Word}
    (hbyte : byte.width = 8) (value : Word) :
    cells ⟨offset, byte.concat value⟩ =
      (offset, byte.bits) :: cells ⟨offset + 1, value⟩ := by
  have hpieces : Word.pieces 8 (byte.concat value).bits =
      byte.bits :: Word.pieces 8 value.bits :=
    Word.pieces_append (by decide) hbyte value.bits
  rw [cells, hpieces, List.mapIdx_cons, cells]
  simp [Int.add_assoc, Int.add_comm (1 : Int)]

private theorem cells_byte {offset : Int} {byte : Word}
    (hbyte : byte.width = 8) :
    cells ⟨offset, byte⟩ = [(offset, byte.bits)] := by
  have hpieces : Word.pieces 8 byte.bits = [byte.bits] := by
    have happend := Word.pieces_append (by decide) hbyte []
    rwa [List.append_nil] at happend
  simp [cells, hpieces]

private theorem exists_mem_cells (run : Run) {i : Nat}
    (hi : i < run.value.width / 8) :
    ∃ piece, (run.start + i, piece) ∈ run.cells := by
  have hlength : i < (Word.pieces 8 run.value.bits).length := by
    rw [Word.pieces, Word.length_takePieces, Word.pieceCount]
    change i < (run.value.width + 8 - 1) / 8
    omega
  refine ⟨(Word.pieces 8 run.value.bits)[i], List.mem_iff_getElem?.mpr ⟨i, ?_⟩⟩
  rw [cells, List.getElem?_mapIdx, List.getElem?_eq_getElem hlength]
  rfl

/-! ## Joining bytes -/

/--
The runs hold the bytes in order, whole ones, and no run ends where the next one
starts.
-/
structure Lists (bytes : List (Int × Word)) (runs : List Run) : Prop where
  cells_eq : runs.flatMap cells = bytes.map fun entry => (entry.1, entry.2.bits)
  apart : runs.Pairwise fun a b => a.stop < b.start
  whole : ∀ run ∈ runs, 0 < run.value.width ∧ run.value.width % 8 = 0

private theorem Lists.exists_byte {bytes : List (Int × Word)} {runs : List Run}
    (h : Lists bytes runs) {run : Run} (hrun : run ∈ runs) {offset : Int}
    {piece : List Bit} (hcell : (offset, piece) ∈ run.cells) :
    ∃ byte, (offset, byte) ∈ bytes ∧ byte.bits = piece := by
  have hmem : (offset, piece) ∈ runs.flatMap cells :=
    List.mem_flatMap.mpr ⟨run, hrun, hcell⟩
  rw [h.cells_eq, List.mem_map] at hmem
  obtain ⟨⟨key, byte⟩, hbyte, heq⟩ := hmem
  cases heq
  exact ⟨byte, hbyte, rfl⟩

private theorem Lists.start_mem {bytes : List (Int × Word)} {runs : List Run}
    (h : Lists bytes runs) {run : Run} (hrun : run ∈ runs) :
    ∃ byte, (run.start, byte) ∈ bytes := by
  obtain ⟨hpos, hwhole⟩ := h.whole run hrun
  obtain ⟨piece, hcell⟩ := run.exists_mem_cells (i := 0) (by omega)
  obtain ⟨byte, hbyte, _⟩ := h.exists_byte hrun hcell
  exact ⟨byte, by simpa using hbyte⟩

theorem Lists.push {bytes : List (Int × Word)} {runs : List Run}
    (h : Lists bytes runs) {offset : Int} {byte : Word} (hbyte : byte.width = 8)
    (hbelow : ∀ entry ∈ bytes, offset < entry.1) :
    Lists ((offset, byte) :: bytes) (push offset byte runs) := by
  have hstarts : ∀ run ∈ runs, offset < run.start := by
    intro run hrun
    obtain ⟨_, hmem⟩ := h.start_mem hrun
    exact hbelow _ hmem
  obtain ⟨hcells, hapart, hwhole⟩ := h
  cases runs with
  | nil =>
      refine ⟨?_, List.pairwise_singleton _ _, ?_⟩
      · rw [List.map_cons, ← hcells]
        simp [Run.push, cells_byte hbyte]
      · simp [Run.push, hbyte]
  | cons run runs =>
      rw [List.pairwise_cons] at hapart
      rw [List.forall_mem_cons] at hwhole
      by_cases hnext : run.start = offset + 1
      · rw [Run.push, if_pos hnext]
        have hrun : (⟨offset + 1, run.value⟩ : Run) = run := by rw [← hnext]
        refine ⟨?_, ?_, ?_⟩
        · rw [List.map_cons, ← hcells, List.flatMap_cons, cells_concat hbyte,
            hrun]
          rfl
        · rw [List.pairwise_cons, stop_concat hbyte, hrun]
          exact hapart
        · rw [List.forall_mem_cons, Word.width_concat, hbyte]
          exact ⟨by omega, hwhole.2⟩
      · rw [Run.push, if_neg hnext]
        have hstart := hstarts run List.mem_cons_self
        have hstop : stop ⟨offset, byte⟩ = offset + 1 := by simp [stop, hbyte]
        refine ⟨?_, ?_, ?_⟩
        · rw [List.map_cons, ← hcells, List.flatMap_cons, cells_byte hbyte]
          rfl
        · rw [List.pairwise_cons, List.pairwise_cons, hstop]
          refine ⟨?_, hapart⟩
          rw [List.forall_mem_cons]
          refine ⟨by omega, fun later hlater => ?_⟩
          have hlast := hapart.1 later hlater
          have hle := run.start_le_stop
          omega
        · rw [List.forall_mem_cons, List.forall_mem_cons, hbyte]
          exact ⟨by decide, hwhole⟩

private theorem lists_ofBytes {bytes : List (Int × Word)}
    (hsorted : bytes.Pairwise fun a b => a.1 < b.1)
    (hwidth : ∀ entry ∈ bytes, entry.2.width = 8) :
    Lists bytes (ofBytes bytes) := by
  induction bytes with
  | nil => exact ⟨rfl, List.Pairwise.nil, by simp [ofBytes]⟩
  | cons entry bytes ih =>
      rw [List.pairwise_cons] at hsorted
      rw [List.forall_mem_cons] at hwidth
      exact (ih hsorted.2 hwidth.2).push hwidth.1 hsorted.1

end Run

/-! ## Entries of a region -/

namespace Region

variable {arch : Architecture} {arena : Arena} {vars : Var → Prop}
  {region : Region}

def entry (region : Region) (run : Run) : Pointer × Word :=
  (region.anchor.displace (.ofInt run.start), run.value)

def runs (region : Region) : List Run :=
  Run.ofBytes region.bytes.toList

theorem WellFormed.lists_runs (h : region.WellFormed arch arena vars) :
    Run.Lists region.bytes.toList region.runs := by
  apply Run.lists_ofBytes
  · exact Std.TreeMap.ordered_keys_toList.imp
      fun hlt => compare_lt_iff_lt.mp hlt
  · intro entry hentry
    exact h.byte_width (Std.TreeMap.mem_toList_iff_getElem?_eq_some.mp hentry)

private theorem WellFormed.getElem?_cell (h : region.WellFormed arch arena vars)
    {run : Run} (hrun : run ∈ region.runs) {offset : Int} {piece : List Bit}
    (hcell : (offset, piece) ∈ run.cells) :
    ∃ byte, region.bytes[offset]? = some byte ∧ byte.bits = piece := by
  obtain ⟨byte, hmem, hbits⟩ := h.lists_runs.exists_byte hrun hcell
  exact ⟨byte, Std.TreeMap.mem_toList_iff_getElem?_eq_some.mp hmem, hbits⟩

private theorem WellFormed.run_range (h : region.WellFormed arch arena vars)
    {run : Run} (hrun : run ∈ region.runs) :
    -2 ^ 63 ≤ run.start ∧ run.start < 2 ^ 63 ∧ run.stop ≤ 2 ^ 63 := by
  have hrange : ∀ i < run.value.width / 8,
      -2 ^ 63 ≤ run.start + i ∧ run.start + i < 2 ^ 63 := by
    intro i hi
    obtain ⟨piece, hcell⟩ := run.exists_mem_cells hi
    obtain ⟨byte, hbyte, _⟩ := h.getElem?_cell hrun hcell
    exact h.offset_range hbyte
  obtain ⟨hpos, hwhole⟩ := h.lists_runs.whole run hrun
  have hfirst := hrange 0 (by omega)
  have hlast := hrange (run.value.width / 8 - 1) (by omega)
  unfold Run.stop
  omega

private theorem WellFormed.toInt_start (h : region.WellFormed arch arena vars)
    {run : Run} (hrun : run ∈ region.runs) :
    (Int64.ofInt run.start).toInt = run.start := by
  have hrange := h.run_range hrun
  exact Int64.toInt_ofInt_of_le hrange.1 hrange.2.1

private theorem WellFormed.read_run (h : region.WellFormed arch arena vars)
    {run : Run} (hrun : run ∈ region.runs) (session : Session) :
    region.read run.start ((run.value.width + 7) / 8) session =
      .ok (run.value.bits, true) session := by
  have hlength : (Word.pieces 8 run.value.bits).length =
      (run.value.width + 7) / 8 := by
    rw [Word.pieces, Word.length_takePieces]
    rfl
  obtain ⟨hpos, hwhole⟩ := h.lists_runs.whole run hrun
  have hrange := h.run_range hrun
  unfold Run.stop at hrange
  have hstored : ∀ (i : Nat) piece,
      (Word.pieces 8 run.value.bits)[i]? = some piece →
      ∃ byte, region.bytes[run.start + i]? = some byte ∧ byte.bits = piece := by
    intro i piece hpiece
    apply h.getElem?_cell hrun
    exact List.mem_iff_getElem?.mpr
      ⟨i, by rw [Run.cells, List.getElem?_mapIdx, hpiece]; rfl⟩
  have hread := read_stored (by omega) hstored session
  have hnonempty : (Word.pieces 8 run.value.bits).isEmpty = false := by
    rw [List.isEmpty_eq_false_iff, ← List.length_pos_iff]
    omega
  rwa [Word.flatten_pieces (by decide), hlength, hnonempty] at hread

end Region

/-! ## Entries of a memory -/

namespace Memory

variable {arch : Architecture} {arena : Arena} {vars : Var → Prop}
  {session : Session} {memory : Memory}

private theorem mapM_entries_eq {regions : List Region}
    (h : ∀ region ∈ regions, region.bytes[lastOffset]? = none) :
    regions.mapM Region.entries =
      .ok (regions.map fun region => region.runs.map region.entry) := by
  induction regions with
  | nil => rfl
  | cons region regions ih =>
      rw [List.forall_mem_cons] at h
      rw [List.mapM_cons, Region.entries_eq h.1, ih h.2]
      rfl

theorem Listable.entries_eq (h : memory.Listable) :
    memory.entries =
      .ok (memory.regions.flatMap
        fun region => region.runs.map region.entry) := by
  rw [entries, mapM_entries_eq h, List.flatMap_def]
  rfl

private theorem Separated.find_anchor (h : memory.Separated)
    (hmemory : memory.WellFormed arch arena vars) {before after : List Region}
    {region : Region} (hsplit : memory.regions = before ++ region :: after)
    (bytes : Int64) :
    find arena.length (region.anchor.displace bytes) memory.regions =
      some ⟨before, region, after, bytes.toInt⟩ := by
  have hwellFormed : ∀ other ∈ memory.regions,
      other.anchor.WellFormed arch arena vars :=
    fun other hother => (hmemory other hother).anchor
  have hothers := h.canOverlap_others hsplit
  rw [hsplit] at hwellFormed ⊢
  have hregion := hwellFormed region (by simp)
  have hnone : ∀ other ∈ before,
      (region.anchor.displace bytes).distance arena.length other.anchor =
        none := by
    intro other hother
    exact Pointer.distance_eq_none (hregion.displace bytes)
      (hwellFormed other (by simp [hother]))
        (hothers other (List.mem_append_left _ hother))
  have hdistance : (region.anchor.displace bytes).distance
      arena.length region.anchor = some bytes := by
    rw [Pointer.distance_displace, Pointer.distance_self, Option.map_some,
      Int64.zero_add]
  rw [find_append hnone, find_cons hdistance, Option.map_some, List.append_nil]

private theorem Separated.read_entry (h : memory.Separated)
    (hmemory : memory.WellFormed arch arena vars) {region : Region}
    (hregion : region ∈ memory.regions) {run : SymbolicMachine.Run}
    (hrun : run ∈ region.runs) (hnodes : arena.length ≤ session.nextNode) :
    ∃ last, memory.read (region.entry run).1 run.value.width session =
      .ok (some (.ofBits run.value.bits)) last := by
  obtain ⟨before, after, hsplit⟩ := List.append_of_mem hregion
  have hwellFormed := hmemory region hregion
  obtain ⟨mid, hlocate, _⟩ :=
    locate_eq (hwellFormed.anchor.displace (.ofInt run.start))
      (fun other hother => (hmemory other hother).anchor) hnodes
  rw [h.find_anchor hmemory hsplit, hwellFormed.toInt_start hrun] at hlocate
  have hapart : (Located.others ⟨before, region, after, run.start⟩).any
      (aliases (region.anchor.displace (.ofInt run.start))) = false :=
    h.others_apart hsplit fun _ => Iff.rfl
  have hanswer := read_of_locate hlocate hapart (hwellFormed.read_run hrun mid)
  have hwidth : (Word.ofBits run.value.bits).width = run.value.width := rfl
  rw [Word.resize_of_width hwidth] at hanswer
  exact ⟨mid, hanswer⟩

/--
The entries are listed region by region.  Those of a region are runs in
ascending order with a gap after each; their bytes are exactly the stored ones,
each at its own offset.  Every entry reads back from its pointer, also after
other reads.
-/
theorem entries_list_stored_bytes {pool : List Word}
    {writes : List (Pointer × Word)}
    (hrun : Run arch session pool writes memory) (hlistable : memory.Listable) :
    ∃ runs : Region → List SymbolicMachine.Run,
      memory.entries =
        .ok (memory.regions.flatMap
          fun region => (runs region).map region.entry) ∧
      ∀ region ∈ memory.regions,
        SymbolicMachine.Run.Lists region.bytes.toList (runs region) ∧
        ∀ run ∈ runs region, (Int64.ofInt run.start).toInt = run.start ∧
          ∀ other : Session, session.nextNode ≤ other.nextNode →
            ∃ last, memory.read (region.entry run).1 run.value.width other =
              .ok (some (.ofBits run.value.bits)) last := by
  obtain ⟨arena, hsound⟩ := hrun.sound
  have hmemory := hsound.wellFormed
  refine ⟨Region.runs, hlistable.entries_eq, fun region hregion => ?_⟩
  refine ⟨(hmemory region hregion).lists_runs, fun run hmem => ?_⟩
  refine ⟨(hmemory region hregion).toInt_start hmem, fun other hnodes => ?_⟩
  exact hrun.separated.read_entry hmemory hregion hmem
    (hsound.pool.nodes.ge.trans hnodes)

theorem entries_list_stored_bytes_two_frames :
    ∃ session pool writes memory entries,
      Run Amd64.framed session pool writes memory ∧
      memory.Listable ∧ memory.entries = .ok entries ∧ entries.length = 3 ∧
      ∀ entry ∈ entries, ∃ last, memory.read entry.1 entry.2.width session =
        .ok (some (.ofBits entry.2.bits)) last := by
  let stack := Word.ofTag Amd64.rsp.tag 0 64
  let frame := Word.ofTag Amd64.rbp.tag 0 64
  let listed (memory : Memory) : Option Nat :=
    memory.entries.toOption.map List.length
  have hcheck : SymM.endsWith (do
      let memory ← ({} : Memory).write (.ofWord Amd64.framed stack)
          (.constant 513 16)
      let memory ← memory.write ((Pointer.ofWord Amd64.framed stack).displace 5)
          (.constant 513 16)
      memory.write (.ofWord Amd64.framed frame) (.constant 513 16)) {}
      (fun memory _ => listed memory = some 3) = true := by
    decide +kernel
  obtain ⟨memory, last, hwrites, hlisted⟩ := SymM.exists_ok_of_endsWith hcheck
  obtain ⟨first, _, hfirst, hrest⟩ := SymM.bind_eq_ok.mp hwrites
  obtain ⟨second, _, hsecond, hlast⟩ := SymM.bind_eq_ok.mp hrest
  have hwords : Run Amd64.framed {} [.constant 513 16, frame, stack] [] {} :=
    .make (.constant 513 16) (.make (.tagged Amd64.rbp.tag 0 64)
      (.make (.tagged Amd64.rsp.tag 0 64) (.start {}) rfl) rfl) rfl
  have hstack := hwords.write (.ofWord (by simp)) (by simp) rfl hfirst
  have hgap :=
    hstack.write (.displace 5 (.ofWord (by simp))) (by simp) rfl hsecond
  have hrun := hgap.write (.ofWord (by simp)) (by simp) rfl hlast
  have hlength : listed memory = some 3 := of_decide_eq_true hlisted
  rcases memory.entries_cases with ⟨hlistable, entries, hentries⟩ | ⟨_, herror⟩
  · obtain ⟨runs, heq, hregions⟩ := entries_list_stored_bytes hrun hlistable
    simp only [listed, hentries, Except.toOption, Option.map_some,
      Option.some.injEq] at hlength
    refine ⟨last, _, _, memory, entries, hrun, hlistable, hentries, hlength, ?_⟩
    rw [heq] at hentries
    cases hentries
    intro entry hentry
    obtain ⟨region, hregion, hlist⟩ := List.mem_flatMap.mp hentry
    obtain ⟨run, hmem, rfl⟩ := List.mem_map.mp hlist
    exact ((hregions region hregion).2 run hmem).2 last le_rfl
  · simp [listed, herror, Except.toOption] at hlength

end Memory

end SymbolicMachine
