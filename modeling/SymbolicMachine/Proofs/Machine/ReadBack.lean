import SymbolicMachine.Architecture.Amd64
import SymbolicMachine.Proofs.Machine.Execution
import SymbolicMachine.Proofs.Memory.Location

/-!
# Reading back what was written

A read inside the bytes that were written last gives back the bits that were
written, the lowest byte first, and needs no fresh variable.  This does not
depend on the regions that the memory had before, and it stays so however many
nodes are made in between.
-/

namespace SymbolicMachine

/-! ## Bytes of a word -/

namespace Word

private theorem drop_takePieces (size count j : Nat) (bits : List Bit) :
    (takePieces size count bits).drop j =
      takePieces size (count - j) (bits.drop (size * j)) := by
  induction j generalizing count bits with
  | zero => simp
  | succ j ih =>
      cases count with
      | zero => simp [takePieces]
      | succ count =>
          calc
            (takePieces size (count + 1) bits).drop (j + 1)
                = (takePieces size count (bits.drop size)).drop j := by
                  rw [takePieces, List.drop_succ_cons]
            _ = takePieces size (count - j) (bits.drop (size + size * j)) := by
              rw [ih, List.drop_drop]
            _ = takePieces size (count + 1 - (j + 1))
                (bits.drop (size * (j + 1))) := by
              rw [Nat.succ_sub_succ, Nat.mul_succ, Nat.add_comm]

private theorem take_takePieces (size : Nat) {count m : Nat} (h : m ≤ count)
    (bits : List Bit) :
    (takePieces size count bits).take m = takePieces size m bits := by
  induction m generalizing count bits with
  | zero => rfl
  | succ m ih =>
      cases count with
      | zero => omega
      | succ count =>
          rw [takePieces, takePieces, List.take_succ_cons,
            ih (Nat.le_of_succ_le_succ h)]

private theorem flatMap_bits_slice {size j m : Nat} {w : Word}
    (h : j + m ≤ pieceCount size w.width) :
    (((w.partsOf size).drop j).take m).flatMap bits =
      (w.bits.drop (size * j)).take (size * m) := by
  have hrest : m ≤ pieceCount size w.bits.length - j := Nat.le_sub_of_add_le' h
  calc
    (((w.partsOf size).drop j).take m).flatMap bits
        = (((pieces size w.bits).drop j).take m).flatten := by
          rw [List.flatMap_def, List.map_take, List.map_drop, map_bits_partsOf]
    _ = (takePieces size m (w.bits.drop (size * j))).flatten := by
      rw [pieces, drop_takePieces, take_takePieces size hrest]
    _ = (w.bits.drop (size * j)).take (size * m) := by
      rw [flatten_takePieces, Nat.mul_comm]

end Word

/-! ## Stored bytes -/

theorem Region.Overwritten.stored {region next : Region} {offset : Int}
    {bytes : List Word} (h : region.Overwritten offset bytes next) {i : Nat}
    {byte : Word} (hbyte : bytes[i]? = some byte) :
    next.bytes[offset + i]? = some byte := by
  have hindex : (offset + i - offset).toNat = i := by omega
  rw [h.bytes_eq, if_pos (by omega), hindex, hbyte]
  rfl

private theorem Region.Overwritten.read_slice {region next : Region}
    {offset : Int} {value : Word}
    (h : region.Overwritten offset (value.partsOf 8) next) {j m : Nat}
    (hm : 0 < m) (hinside : 8 * (j + m) ≤ value.width) (session : Session) :
    next.read (offset + j) m session =
      .ok ((value.bits.drop (8 * j)).take (8 * m), true) session := by
  have hcount : j + m ≤ (value.partsOf 8).length := by
    rw [Word.length_partsOf, Word.pieceCount]
    omega
  have hend := h.inside (List.ne_nil_of_length_pos (by omega))
  have hlength : (((value.partsOf 8).drop j).take m).length = m := by
    rw [List.length_take, List.length_drop]
    omega
  have hstored : ∀ (i : Nat) (piece : List Bit),
      ((((value.partsOf 8).drop j).take m).map Word.bits)[i]? = some piece →
      ∃ byte, next.bytes[offset + j + i]? = some byte ∧ byte.bits = piece := by
    intro i piece hpiece
    rw [List.getElem?_map] at hpiece
    obtain ⟨byte, hbyte, rfl⟩ := Option.map_eq_some_iff.mp hpiece
    have hi : i < m := hlength ▸ (List.getElem?_eq_some_iff.mp hbyte).1
    rw [List.getElem?_take_of_lt hi, List.getElem?_drop] at hbyte
    rw [Int.add_assoc, ← Nat.cast_add]
    exact ⟨byte, h.stored hbyte, rfl⟩
  have hnonempty : ((((value.partsOf 8).drop j).take m).map Word.bits).isEmpty =
      false := by
    rw [List.isEmpty_eq_false_iff]
    exact List.ne_nil_of_length_pos (by rw [List.length_map]; omega)
  have hread :=
    Region.read_stored (by rw [List.length_map]; omega) hstored session
  rw [Word.length_partsOf] at hcount
  rw [List.length_map, hlength, ← List.flatMap_def,
    Word.flatMap_bits_slice hcount, hnonempty] at hread
  exact hread

private theorem toInt_add_ofNat {x : Int64} {j : Nat}
    (h : x.toInt + j < 2 ^ 63) :
    (x + .ofNat j).toInt = x.toInt + j := by
  have hlow := x.le_toInt
  rw [Int64.toInt_add, Int64.toInt_ofNat', Int64.size, Int.add_bmod_bmod]
  exact Int.bmod_eq_of_le (by omega) (by omega)

namespace Memory

variable {arch : Architecture} {arena : Arena} {vars : Var → Prop}
  {session after : Session} {memory next : Memory} {pointer : Pointer}
  {value : Word}

private theorem read_written (hnode : session.nextNode = arena.length)
    (hmemory : memory.WellFormed arch arena vars)
    (hpointer : pointer.WellFormed arch arena vars)
    (hbytes : value.width % 8 = 0)
    (hwrite : memory.write pointer value session = .ok next after) {j m : Nat}
    (hm : 0 < m) (hinside : 8 * (j + m) ≤ value.width) {other : Session}
    (hnodes : arena.length ≤ other.nextNode) :
    ∃ last, next.read (pointer.displace (.ofNat j)) (8 * m) other =
        .ok (some (.ofBits ((value.bits.drop (8 * j)).take (8 * m)))) last ∧
      last.nextVar = other.nextVar := by
  obtain ⟨_, _, _, _, htargets, _⟩ := locate_target hnode hmemory hpointer
  obtain ⟨distance, hdistance, hoffset⟩ :=
    exists_distance_target hnode hmemory hpointer
  obtain ⟨region, hover, rfl⟩ :=
    write_eq_replace hnode hmemory hpointer hbytes hwrite
  obtain ⟨again, mid, hlocate, hregion, hplace, hapart, honly⟩ :=
    locate_replace htargets hmemory hpointer hdistance hover.anchor_eq
      (.ofNat j) hnodes
  have hcount : j < (value.partsOf 8).length := by
    rw [Word.length_partsOf, Word.pieceCount]
    omega
  have hend :=
    hover.inside (List.ne_nil_of_length_pos (Nat.zero_lt_of_lt hcount))
  rw [toInt_add_ofNat (by omega), hoffset] at hplace
  have hbits : (Word.ofBits ((value.bits.drop (8 * j)).take (8 * m))).width =
      8 * m := by
    have hwidth : value.bits.length = value.width := rfl
    rw [Word.width_ofBits, List.length_take, List.length_drop]
    omega
  have hround : (8 * m + 7) / 8 = m := by omega
  have hread : again.region.read again.offset ((8 * m + 7) / 8) mid =
      .ok ((value.bits.drop (8 * j)).take (8 * m), true) mid := by
    rw [hregion, hplace, hround]
    exact hover.read_slice hm hinside mid
  have hanswer := read_of_locate hlocate hapart hread
  rw [Word.resize_of_width hbits] at hanswer
  exact ⟨mid, hanswer, honly.nextVar_eq⟩

theorem read_written_whole (hnode : session.nextNode = arena.length)
    (hmemory : memory.WellFormed arch arena vars)
    (hpointer : pointer.WellFormed arch arena vars)
    (hbytes : value.width % 8 = 0)
    (hwrite : memory.write pointer value session = .ok next after)
    (hpos : 0 < value.width) {other : Session}
    (hnodes : arena.length ≤ other.nextNode) :
    ∃ last, next.read pointer value.width other =
      .ok (some (.ofBits value.bits)) last := by
  have hcount : 8 * (value.width / 8) = value.width := by omega
  obtain ⟨last, hread, _⟩ := read_written hnode hmemory hpointer hbytes hwrite
    (by omega : 0 < value.width / 8)
      (by omega : 8 * (0 + value.width / 8) ≤ value.width) hnodes
  have hstart : pointer.displace (.ofNat 0) = pointer := pointer.displace_zero
  have hall : (value.bits.drop (8 * 0)).take value.width = value.bits :=
    List.take_of_length_le le_rfl
  rw [hstart, hcount, hall] at hread
  exact ⟨last, hread⟩

private theorem nextNode_le_of_write (hnode : session.nextNode = arena.length)
    (hmemory : memory.WellFormed arch arena vars)
    (hpointer : pointer.WellFormed arch arena vars)
    (hbytes : value.width % 8 = 0)
    (hwrite : memory.write pointer value session = .ok next after) :
    arena.length ≤ after.nextNode := by
  obtain ⟨later, hle, hafter, _⟩ :=
    (write_yields hnode hmemory hpointer hbytes).of_ok hwrite
  rw [hafter]
  exact hle.length_le

end Memory

/--
What a write through a pointer that can be met has stored is read back.  From
byte `j` on, `m` bytes are bits `8 * j` to `8 * (j + m)` of the value, and no
variable is made for them.
-/
theorem read_returns_written_bytes {arch : Architecture} {session : Session}
    {pool : List Word} {machines : List Machine}
    (hreached : Machine.Reached arch session pool machines) {machine : Machine}
    (hmachine : machine ∈ machines) {p : Pointer}
    (hp : Pointer.Built arch pool p) {value : Word} {n : Nat}
    (hwidth : value.width = 8 * n) {next : Memory} {after : Session}
    (hwrite : machine.memory.write p value session = .ok next after) {j m : Nat}
    (hm : 1 ≤ m) (hinside : j + m ≤ n) :
    ∃ last, next.read (p.displace (.ofNat j)) (8 * m) after =
        .ok (some (.ofBits ((value.bits.drop (8 * j)).take (8 * m)))) last ∧
      last.nextVar = after.nextVar := by
  obtain ⟨arena, hpool, hmachines⟩ := hreached.wellFormed
  have hmemory := (hmachines machine hmachine).memory
  have hpointer := hp.wellFormed hpool
  have hbytes : value.width % 8 = 0 := by omega
  have hnodes :=
    Memory.nextNode_le_of_write hpool.nodes hmemory hpointer hbytes hwrite
  exact Memory.read_written hpool.nodes hmemory hpointer hbytes hwrite hm
    (by omega) hnodes

theorem read_returns_written_bytes_inside_word :
    let stack := Word.ofTag Amd64.rsp.tag 0 64
    let value := Word.ofTag Amd64.rbp.tag 0 24
    let p := (Pointer.ofWord Amd64.standard stack).displace 2
    ∃ session pool machine next after last,
      Machine.Reached Amd64.standard session pool [machine, {}] ∧
      Pointer.Built Amd64.standard pool p ∧ machine.memory.regions.length = 1 ∧
      machine.memory.write p value session = .ok next after ∧
      next.read (p.displace 1) 16 after =
        .ok (some (.ofBits ((value.bits.drop 8).take 16))) last ∧
      last.nextVar = after.nextVar := by
  intro stack value p
  have hcheck : SymM.endsWith (do
      let machine ← ({} : Machine).writeMemory Amd64.standard
          (.ofWord Amd64.standard stack) stack
      return (machine, ← machine.memory.write p value)) {}
      (fun result _ => result.1.memory.regions.length == 1) = true := by
    decide +kernel
  obtain ⟨result, after, hrun, hregions⟩ := SymM.exists_ok_of_endsWith hcheck
  obtain ⟨machine, session, hpush, hrest⟩ := SymM.bind_eq_ok.mp hrun
  obtain ⟨next, mid, hwrite, hend⟩ := SymM.bind_eq_ok.mp hrest
  cases hend
  have hstart : Machine.Reached Amd64.standard {} [stack] [{}] :=
    (Machine.Reached.start {}).make (.tagged Amd64.rsp.tag 0 64) rfl
  have hbuilt : Pointer.Built Amd64.standard [stack] p :=
    .displace 2 (.ofWord (by simp))
  have hreached :=
    hstart.writeMemory (by simp) (.ofWord (by simp)) (by simp) hpush
  have hwidth : value.width = 8 * 3 := rfl
  obtain ⟨last, hread, hvars⟩ :=
    read_returns_written_bytes hreached (by simp) hbuilt hwidth hwrite
      (by decide : 1 ≤ 2) (by decide : 1 + 2 ≤ 3)
  exact ⟨session, [stack], machine, next, after, last, hreached, hbuilt,
    beq_iff_eq.mp hregions, hwrite, hread, hvars⟩

end SymbolicMachine
