import SymbolicMachine.Architecture.Amd64
import SymbolicMachine.Proofs.Bit.NormalForm
import SymbolicMachine.Proofs.Machine.RegisterFile

/-!
# Cancellation

Every bit that a machine holds is in normal form, so a bit and a copy of it
cancel.  An exclusive or of a register with itself is made of such pairs: the
register reads as literal zeros after it, in whatever way the architecture
writes a part of a register.
-/

namespace SymbolicMachine

private theorem Bit.eq_literal_of_formula_eq {b : Bit} {value : Bool}
    (h : b.formula = .literal value) :
    b = .literal value := by
  cases b <;> simp_all [formula]

/-! ## Computations that return -/

namespace SymM

variable {α β : Type}

def Returns (x : SymM α) (post : α → Prop) : Prop :=
  ∀ session, ∃ a after, x session = .ok a after ∧ post a

theorem returns_pure {a : α} {post : α → Prop} (h : post a) :
    Returns (pure a) post :=
  fun session => ⟨a, session, rfl, h⟩

private theorem returns_ofNodeM {x : NodeM α} {post : α → Prop}
    (h : NodeM.Ensures x post) :
    Returns (ofNodeM x) post :=
  fun session => ⟨_, _, ofNodeM_apply x session, h session.nextNode⟩

private theorem returns_record (level : Level) (text : String) :
    Returns (record level text) fun _ => True :=
  fun session => ⟨_, _, record_apply level text session, trivial⟩

theorem Returns.bind {x : SymM α} {f : α → SymM β} {mid : α → Prop}
    {post : β → Prop} (hx : Returns x mid)
    (hf : ∀ a, mid a → Returns (f a) post) : Returns (x >>= f) post := by
  intro session
  obtain ⟨a, after, hfirst, hmid⟩ := hx session
  rw [bind_of_ok hfirst]
  exact hf a hmid after

private theorem Returns.of_run {x : SymM α} {mid post : α → Prop}
    (hx : Returns x mid)
    (h : ∀ session a after, x session = .ok a after → post a) :
    Returns x post := by
  intro session
  obtain ⟨a, after, hrun, _⟩ := hx session
  exact ⟨a, after, hrun, h session a after hrun⟩

end SymM

/-! ## Words -/

namespace Word

private theorem length_zipBits (op : Bit → Bit → NodeM Bit) (xs ys : List Bit) :
    NodeM.Ensures (zipBits op xs ys) fun bits => bits.length =
      min xs.length ys.length := by
  induction xs generalizing ys with
  | nil => exact NodeM.ensures_pure (by simp)
  | cons x xs ih =>
      cases ys with
      | nil => exact NodeM.ensures_pure (by simp)
      | cons y ys =>
          have hhead : NodeM.Ensures (op x y) fun _ => True := fun _ => trivial
          refine hhead.bind fun z _ => (ih ys).bind fun zs hlength => ?_
          exact NodeM.ensures_pure (by simp [hlength])

theorem bitwise_returns {op : Bit → Bit → NodeM Bit} {a b : Word}
    (hwidth : a.width = b.width) :
    SymM.Returns (bitwise op a b) fun w => w.width = a.width := by
  have hzip : NodeM.Ensures (zipBits op a.bits b.bits) fun bits => bits.length =
      a.width := by
    intro next
    rw [length_zipBits op a.bits b.bits next]
    exact min_eq_left hwidth.le
  rw [bitwise, requireSameWidth, if_pos hwidth, pure_bind]
  exact (SymM.returns_ofNodeM hzip).bind fun bits hbits =>
    SymM.returns_pure hbits

private theorem width_not (w : Word) :
    NodeM.Ensures w.not fun complement => complement.width = w.width := by
  have hbits : ∀ bits : List Bit,
      NodeM.Ensures (bits.mapM Bit.not) fun result => result.length =
        bits.length := by
    intro bits
    induction bits with
    | nil => exact NodeM.ensures_pure rfl
    | cons b bits ih =>
        intro next
        rw [List.mapM_cons]
        exact congrArg Nat.succ (ih _)
  exact (hbits w.bits).bind fun _ hlength => NodeM.ensures_pure hlength

def Zeros (w : Word) : Prop :=
  ∀ k, w.bitAt k = .literal false

theorem Zeros.resize {w : Word} (h : w.Zeros) (n : Nat) :
    (w.resize n).Zeros := by
  intro k
  by_cases hk : k < n
  · rw [bitAt_resize w hk, h k]
  · exact bitAt_of_le (by rw [width_resize]; exact not_lt.mp hk)

private theorem xor_self_returns {w : Word}
    (hnormal : ∀ k, (w.bitAt k).Normal) :
    SymM.Returns (w.xor w) Zeros := by
  apply (bitwise_returns rfl).of_run
  intro session zero after hrun k
  by_cases hk : k < w.width
  · obtain ⟨now, hbit⟩ := bitAt_bitwise hrun hk
    rw [hbit]
    exact Bit.xor_self (hnormal k) now
  · have hwidth : zero.width = w.width := by
      rw [width, (bitwise_eq_ok hrun).2, length_zipBits Bit.xor w.bits w.bits _]
      exact min_self _
    exact bitAt_of_le (hwidth ▸ not_lt.mp hk)

inductive Holds (b : Bit) : Word → Prop
  | bit {w : Word} : b ∈ w.bits → Holds b w
  | sum {w : Word} {addend : Addend Word} : w.addend = some addend →
      b ∈ addend.sum → Holds b w
  | base {w : Word} {addend : Addend Word} : w.addend = some addend →
      Holds b addend.base →
      Holds b w

theorem WellFormed.normal_of_holds {arena : Arena} {vars : Var → Prop}
    {w : Word} (h : w.WellFormed arena vars) {b : Bit} (hb : w.Holds b) :
    b.Normal := by
  induction hb with
  | bit hmem => exact (h.bits b hmem).normal
  | sum haddend hmem =>
      cases h with
      | plain _ => cases haddend
      | sum _ hsound _ =>
          cases haddend
          exact (hsound.sum_wellFormed b hmem).normal
  | base haddend _ ih =>
      cases h with
      | plain _ => cases haddend
      | sum _ _ hbase =>
          cases haddend
          exact ih hbase

end Word

namespace Machine

variable {arch : Architecture} {machine : Machine} {slice : RegisterSlice}

def Holds (machine : Machine) (b : Bit) : Prop :=
  (∃ (key : RegisterSlice) (word : Word),
      machine.registers[key]? = some word ∧ word.Holds b) ∨
    ∃ region ∈ machine.memory.regions, region.anchor.base.Holds b ∨
      ∃ (offset : Int) (byte : Word),
      region.bytes[offset]? = some byte ∧ byte.Holds b

theorem WellFormed.normal_of_holds {arena : Arena} {next : Nat}
    (h : machine.WellFormed arch arena next) {b : Bit} (hb : machine.Holds b) :
    b.Normal := by
  rcases hb with ⟨key, word, hword, hb⟩ | ⟨region, hregion,
    hanchor | ⟨offset, byte, hbyte, hb⟩⟩
  · exact (h.register hword).normal_of_holds hb
  · exact (h.memory region hregion).anchor.base.normal_of_holds hanchor
  · exact ((h.memory region hregion).byte hbyte).normal_of_holds hb

/-! ## Registers -/

theorem normal_bitAt_readRegister (hnormal : ∀ b, machine.Holds b → b.Normal)
    (slice : RegisterSlice) (k : Nat) :
    ((machine.readRegister slice).bitAt k).Normal := by
  by_cases hk : k < slice.count
  · rw [readRegister]
    split
    case h_1 word hword =>
        rw [Word.bitAt_resize _ hk, Word.bitAt_shiftRight]
        by_cases hinside : slice.offset + k < word.width
        · exact hnormal _ (.inl ⟨_, word, hword, .bit (List.mem_of_getElem?
            (Word.getElem?_bits hinside))⟩)
        · rw [Word.bitAt_of_le (not_lt.mp hinside)]
          trivial
    case h_2 =>
        have hbit : slice.initial.bits[k]? =
            some (.var (.ofTag slice.base.tag (slice.offset + k))) := by
          simp [RegisterSlice.initial, Word.ofTag, Word.ofBits, hk]
        rw [Word.bitAt_of_getElem? hbit]
        trivial
  · rw [Word.bitAt_of_le (by rw [width_readRegister]; exact not_lt.mp hk)]
    trivial

private theorem merge_returns {slot : Word} (slice : RegisterSlice)
    (value : Word) (hwidth : slot.width = registerWidth) :
    SymM.Returns (merge slice slot value) fun w => w.width = registerWidth := by
  refine (SymM.returns_ofNodeM (Word.width_not _)).bind fun mask hmask => ?_
  rw [Word.width_constant] at hmask
  refine (Word.bitwise_returns (hwidth.trans hmask.symm)).bind
    fun kept hkept => ?_
  have hkeptWidth : kept.width = registerWidth := hkept.trans hwidth
  rw [← hkeptWidth]
  apply Word.bitwise_returns
  rw [Word.width_shiftLeft, Word.width_resize]

private theorem newSlot_returns_zeros (hslots : machine.FullSlots)
    (hnormal : ∀ b, machine.Holds b → b.Normal) {value : Word}
    (hzeros : value.Zeros) :
    SymM.Returns (newSlot arch machine slice value) fun slot =>
      ∀ k, slice.Spans k → slot.bitAt k = .literal false := by
  unfold newSlot
  split
  case isTrue =>
      refine SymM.returns_pure fun k _ => ?_
      exact (hzeros.resize slice.count).resize registerWidth k
  case isFalse =>
      rw [hslots.slot_eq]
      have hwidth := machine.width_readRegister slice.canonical
      apply (merge_returns slice _ hwidth).of_run
      intro session slot after hrun k hspans
      have hk : k < registerWidth := hspans.2.trans_le slice.inside
      have hvalue := hzeros.resize slice.count
      have hformula := formula_merge (normal_bitAt_readRegister hnormal _)
        (fun i => by rw [hvalue i]; trivial) hwidth (Word.width_resize _ _)
        hrun hk
      rw [if_pos hspans, hvalue] at hformula
      exact Bit.eq_literal_of_formula_eq hformula

private theorem bits_readRegister_of_zeros
    (h : ∀ k, slice.Spans k → machine.registerBit slice.base k =
      .literal false) :
    (machine.readRegister slice).bits =
      List.replicate slice.count (.literal false) := by
  apply List.ext_getElem?
  intro i
  rw [List.getElem?_replicate]
  split
  case isTrue hi =>
      have hspans : slice.Spans (slice.offset + i) := by
        rw [RegisterSlice.Spans, RegisterSlice.stop]
        omega
      rw [getElem?_bits_readRegister machine slice hi, h _ hspans]
  case isFalse hi =>
      have hlength : (machine.readRegister slice).bits.length = slice.count :=
        machine.width_readRegister slice
      exact List.getElem?_eq_none (hlength ▸ not_lt.mp hi)

private theorem writeRegister_returns_zeros (hslots : machine.FullSlots)
    (hnormal : ∀ b, machine.Holds b → b.Normal) {value : Word}
    (hzeros : value.Zeros) :
    SymM.Returns (machine.writeRegister arch slice value) fun after =>
      (after.readRegister slice).bits =
        List.replicate slice.count (.literal false) := by
  rw [writeRegister_eq]
  refine (SymM.returns_record _ _).bind fun _ _ => ?_
  refine (newSlot_returns_zeros hslots hnormal hzeros).bind fun slot hslot => ?_
  apply SymM.returns_pure
  apply bits_readRegister_of_zeros
  intro k hspans
  have hk : k < registerWidth := hspans.2.trans_le slice.inside
  rw [registerBit_of_getElem? Std.TreeMap.getElem?_insert_self hk]
  exact hslot k hspans

private theorem execute_xor_self_returns (arch : Architecture)
    (slice : RegisterSlice) (hslots : machine.FullSlots)
    (hnormal : ∀ b, machine.Holds b → b.Normal) :
    SymM.Returns (machine.execute arch (.binary .xor slice (.register slice)))
      fun after =>
      (after.readRegister slice).bits =
        List.replicate slice.count (.literal false) := by
  refine (SymM.returns_record _ _).bind fun _ _ => ?_
  have hxor : BinaryOp.xor.apply (machine.readRegister slice)
      (machine.readRegister slice) =
        (machine.readRegister slice).xor (machine.readRegister slice) := by
    simp only [BinaryOp.apply, Word.resize_of_width]
  change SymM.Returns
    (BinaryOp.xor.apply _ (machine.readRegister slice) >>= _) _
  rw [hxor]
  refine (Word.xor_self_returns (normal_bitAt_readRegister hnormal slice)).bind
    fun zero hzero => ?_
  exact writeRegister_returns_zeros hslots hnormal hzero

/--
The operators keep the normal form, so every word that can be made and every
machine that can be reached is made of bits in normal form.  For a bit in normal
form, negating twice gives back its expression, and a bit cancels with itself or
its negation, on either side and whatever nodes were made in between.  In a
machine that holds such bits, the exclusive or of a register with itself leaves
literal zeros.
-/
theorem normal_bits_cancel :
    (∀ b : Bit, b.Obtained → b.Normal) ∧
    (∀ arch session pool machines, Reached arch session pool machines →
      (∀ w ∈ pool, ∀ b, w.Holds b → b.Normal) ∧
      ∀ machine ∈ machines,
        machine.FullSlots ∧ ∀ b, machine.Holds b → b.Normal) ∧
    (∀ x : Bit, x.Normal → ∀ next later : Nat,
      ((x.not next).1.not later).1.formula = x.formula ∧
      x.and x = pure x ∧
      (x.xor x next).1 = .literal false ∧
      (x.and (x.not next).1 later).1 = .literal false ∧
      ((x.not next).1.and x later).1 = .literal false ∧
      (x.or (x.not next).1 later).1 = .literal true ∧
      ((x.not next).1.or x later).1 = .literal true) ∧
    ∀ (arch : Architecture) (machine : Machine), machine.FullSlots →
      (∀ b, machine.Holds b → b.Normal) →
      ∀ (slice : RegisterSlice) (session : Session), ∃ after last,
        machine.execute arch (.binary .xor slice (.register slice)) session =
          .ok after last ∧
        (after.readRegister slice).bits =
          List.replicate slice.count (.literal false) := by
  refine ⟨fun b hb => hb.normal, ?_, ?_, ?_⟩
  · intro arch session pool machines hreached
    obtain ⟨arena, hpool, hmachines⟩ := hreached.wellFormed
    exact ⟨fun w hw b hb => (hpool.wellFormed w hw).normal_of_holds hb,
      fun machine hmachine => ⟨(hmachines machine hmachine).fullSlots,
        fun b hb => (hmachines machine hmachine).normal_of_holds hb⟩⟩
  · intro x hnormal next later
    have hopposite := Bit.opposite_not hnormal next
    refine ⟨?_, x.and_self, Bit.xor_self hnormal next, ?_, ?_,
      hopposite.or later, hopposite.symm.or later⟩
    · rw [Bit.formula_not, Bit.formula_not, Bit.complement_complement hnormal]
    · rw [hopposite.and]
      rfl
    · rw [hopposite.symm.and]
      rfl
  · intro arch machine hslots hnormal slice session
    exact execute_xor_self_returns arch slice hslots hnormal session

theorem normal_bits_cancel_second_byte :
    let whole : RegisterSlice := .full ⟨1⟩
    let second : RegisterSlice := ⟨⟨1⟩, 8, 8, by decide, by decide⟩
    ∃ session machine after last,
      Reached Amd64.standard session [] [machine, {}] ∧
      (machine.registerBit ⟨1⟩ 9).isLiteral = false ∧
      (∀ next, ((machine.registerBit ⟨1⟩ 9).xor (machine.registerBit ⟨1⟩ 9)
        next).1 = .literal false) ∧
      ((Bit.var ⟨0⟩).xor (.var ⟨1⟩) 0).1.Normal ∧
      ({} : Machine).execute Amd64.standard
        (.binary .add whole (.register (.full ⟨2⟩))) {} = .ok machine session ∧
      machine.execute Amd64.standard
        (.binary .xor second (.register second)) session = .ok after last ∧
      (after.readRegister second).bits = List.replicate 8 (.literal false) := by
  intro whole second
  have hcheck : SymM.endsWith (Machine.execute Amd64.standard {}
      (.binary .add whole (.register (.full ⟨2⟩)))) {} (fun machine _ =>
        !(machine.registerBit ⟨1⟩ 9).isLiteral) = true := by
    decide +kernel
  obtain ⟨machine, session, hrun, hopen⟩ := SymM.exists_ok_of_endsWith hcheck
  have hreached := (Reached.start {}).execute _ List.mem_cons_self hrun
  obtain ⟨hobtained, hnormal, hfolds, hcleared⟩ := normal_bits_cancel
  obtain ⟨hslots, hmachine⟩ :=
    (hnormal _ _ _ _ hreached).2 machine List.mem_cons_self
  have hbit := hfolds _ (normal_bitAt_readRegister hmachine whole 9)
  obtain ⟨after, last, hxor, hzeros⟩ :=
    hcleared Amd64.standard machine hslots hmachine second session
  exact ⟨session, machine, after, last, hreached, by simpa using hopen,
    fun next => (hbit next 0).2.2.1, hobtained _ (.xor 0 (.var _) (.var _)),
    hrun, hxor, hzeros⟩

end Machine

end SymbolicMachine
