import SymbolicMachine.Instr.Apply
import SymbolicMachine.Proofs.Word.Shift

/-!
# Building words

The words of a session come from constants, tagged values and fresh variables by
the operations on words.  A step takes its operands from a pool of words made
before and says what it adds to the pool.  Whatever is built this way is well
formed, and mentions no variables but those handed out so far.
-/

namespace SymbolicMachine

def Issued (next : Nat) (v : Var) : Prop :=
  v.id < next ∨ Var.taggedBase ≤ v.id

theorem Issued.mono {next later : Nat} (hle : next ≤ later) {v : Var}
    (h : Issued next v) :
    Issued later v :=
  h.imp_left fun hlt => lt_of_lt_of_le hlt hle

theorem issued_ofTag (next tag index : Nat) :
    Issued next (.ofTag tag index) := by
  right
  simp only [Var.ofTag, Nat.add_assoc]
  exact Nat.le_add_right _ _

namespace Word

/--
The nodes and the variables of the words are those that the session has handed
out.
-/
structure Pool (session : Session) (arena : Arena) (words : List Word) :
    Prop where
  nodes : session.nextNode = arena.length
  wellFormed : ∀ w ∈ words, w.WellFormed arena (Issued session.nextVar)

namespace Pool

variable {session after : Session} {arena later : Arena} {words : List Word}

theorem grow (h : Pool session arena words) (hle : arena <+: later)
    (hnodes : after.nextNode = later.length)
    (hvars : session.nextVar ≤ after.nextVar) :
    Pool after later words :=
  ⟨hnodes, fun w hw => ((h.wellFormed w hw).mono hle).weaken
    fun _ => Issued.mono hvars⟩

theorem append {more : List Word} (h : Pool session arena words)
    (hmore : ∀ w ∈ more, w.WellFormed arena (Issued session.nextVar)) :
    Pool session arena (more ++ words) := by
  refine ⟨h.nodes, fun w hw => ?_⟩
  rcases List.mem_append.mp hw with hw | hw
  · exact hmore w hw
  · exact h.wellFormed w hw

end Pool

def freshWord (first width : Nat) : Word :=
  ofBits ((List.range' first width).map fun id => .var ⟨id⟩)

@[simp] theorem length_freshWord (first width : Nat) :
    (freshWord first width).bits.length = width := by
  simp [freshWord, ofBits]

theorem fresh_of_le {width : Nat} (h : width ≤ maxWidth) (session : Session) :
    fresh width session = .ok (freshWord session.nextVar width)
      { session with nextVar := session.nextVar + width } := by
  have hcheck : checkWidth width = .ok () := if_pos h
  have hbits : ((List.range' session.nextVar width).map Var.mk).map Bit.var =
      (freshWord session.nextVar width).bits := List.map_map
  simp only [fresh, hcheck]
  change EStateM.Result.ok
    (ofBits (((List.range' session.nextVar width).map Var.mk).map Bit.var))
    _ = _
  rw [hbits]
  rfl

theorem fresh_yields {stops : Fault → Prop} {session : Session} {arena : Arena}
    {width : Nat} (hnode : session.nextNode = arena.length)
    (hstops : maxWidth < width → stops (.widthLimit width)) :
    SymM.Yields stops (fresh width) session arena fun after later w =>
      after.nextVar = session.nextVar + width ∧ later = arena ∧
        w = freshWord session.nextVar width := by
  by_cases hwidth : width ≤ maxWidth
  · exact SymM.yields_of_ok (fresh_of_le hwidth session) List.prefix_rfl hnode
      ⟨rfl, rfl, rfl⟩
  · have hcheck : checkWidth width = .error (.widthLimit width) := if_neg hwidth
    simp only [fresh, hcheck]
    exact hstops (not_le.mp hwidth)

theorem freshWord_wellFormed {arena : Arena} {vars : Var → Prop}
    {first width : Nat}
    (hvars : ∀ id, first ≤ id → id < first + width → vars ⟨id⟩) :
    (freshWord first width).WellFormed arena vars := by
  have hlist : BitsWellFormed arena vars
      (((List.range' first width).map Var.mk).map Bit.var) := by
    apply varBits_wellFormed
    intro v hv
    obtain ⟨id, hid, rfl⟩ := List.mem_map.mp hv
    obtain ⟨hlow, hhigh⟩ := List.mem_range'_1.mp hid
    exact hvars id hlow hhigh
  rw [List.map_map] at hlist
  exact .ofBits hlist

/-! ## Operations by name -/

inductive Reshape where
  | dropLow (count : Nat)
  | dropHigh (count : Nat)
  | zeroExtend (count : Nat)
  | signExtend (count : Nat)
  | resize (width : Nat)
  | resizeSigned (width : Nat)
  | shiftLeft (amount : Nat)
  | shiftRight (amount : Nat)
  deriving DecidableEq, Repr

def Reshape.apply (w : Word) : Reshape → Word
  | .dropLow count => w.dropLow count
  | .dropHigh count => w.dropHigh count
  | .zeroExtend count => w.zeroExtend count
  | .signExtend count => w.signExtend count
  | .resize width => w.resize width
  | .resizeSigned width => w.resizeSigned width
  | .shiftLeft amount => w.shiftLeft amount
  | .shiftRight amount => w.shiftRight amount

inductive PairOp where
  | and
  | or
  | xor
  | add
  | sub
  | shiftLeft
  | shiftRight
  | carryBits
  deriving DecidableEq, Repr

def PairOp.apply (a b : Word) : PairOp → SymM Word
  | .and => a.and b
  | .or => a.or b
  | .xor => a.xor b
  | .add => a.add b
  | .sub => a.sub b
  | .shiftLeft => a.shiftLeftBy b
  | .shiftRight => a.shiftRightBy b
  | .carryBits => a.carryBits b

inductive Step where
  | constant (value : UInt64) (width : Nat)
  | tagged (tag offset width : Nat)
  | fresh (width : Nat)
  | join (slots : List Nat)
  | concat (low high : Nat)
  | bit (slot index : Nat)
  /-- Replaces a bit by the least significant one of `source`. -/
  | setBit (slot index source : Nat)
  | reshape (shape : Reshape) (slot : Nat)
  | parts (size slot : Nat)
  | unary (op : UnaryOp) (slot : Nat)
  | pair (op : PairOp) (left right : Nat)
  | addWithCarry (left right : Nat)
  | equals (left right : Nat)
  | select (choice whenTrue whenFalse : Nat)
  /-- The word without its constant addend. -/
  | splitBase (slot : Nat)
  deriving DecidableEq, Repr

def pick (pool : List Word) (slot : Nat) : Word :=
  pool.getD slot .empty

def lowBit (w : Word) : Bit :=
  w.lsb?.getD (.literal false)

def Step.run (pool : List Word) : Step → SymM (List Word)
  | .constant value width => return [.constant value width]
  | .tagged tag offset width => return [.ofTag tag offset width]
  | .fresh width => return [← Word.fresh width]
  | .join slots => return [Word.join (slots.map (pick pool))]
  | .concat low high => return [(pick pool low).concat (pick pool high)]
  | .bit slot index => return [ofBits [← (pick pool slot).bit index]]
  | .setBit slot index source =>
      return [(pick pool slot).setBit index (pick pool source).lowBit]
  | .reshape shape slot => return [shape.apply (pick pool slot)]
  | .parts size slot => (pick pool slot).parts size
  | .unary op slot => return [← op.apply (pick pool slot)]
  | .pair op left right =>
      return [← op.apply (pick pool left) (pick pool right)]
  | .addWithCarry left right => do
      let (sum, carry) ← (pick pool left).addWithCarry (pick pool right)
      return [sum, ofBits [carry]]
  | .equals left right =>
      return [ofBits
        [← (pick pool left).lowBit.equals (pick pool right).lowBit]]
  | .select choice whenTrue whenFalse =>
      return [ofBits [← (pick pool choice).lowBit.select
        (pick pool whenTrue).lowBit (pick pool whenFalse).lowBit]]
  | .splitBase slot => return (pick pool slot).splitAddend?.toList.map Prod.fst

def build : List Word → List Step → SymM (List Word)
  | pool, [] => return pool
  | pool, step :: steps => do
      let words ← step.run pool
      build (words ++ pool) steps

/-! ## Every step keeps words well formed -/

variable {arena : Arena} {vars : Var → Prop} {session : Session}

theorem Pool.pick {pool : List Word} (h : Pool session arena pool)
    (slot : Nat) :
    (pick pool slot).WellFormed arena (Issued session.nextVar) := by
  rw [Word.pick, List.getD_eq_getElem?_getD]
  cases hslot : pool[slot]? with
  | none => exact .ofBits (by simp [BitsWellFormed])
  | some w => exact h.wellFormed w (List.mem_of_getElem? hslot)

theorem WellFormed.lowBit {w : Word} (h : w.WellFormed arena vars) :
    w.lowBit.WellFormed arena vars := by
  unfold Word.lowBit
  cases hlsb : w.lsb? with
  | none => exact Bit.wellFormed_literal false
  | some b => exact h.bits b (List.mem_of_mem_head? hlsb)

theorem singleton_wellFormed {b : Bit} (h : b.WellFormed arena vars) :
    (ofBits [b]).WellFormed arena vars :=
  .ofBits (by simpa [BitsWellFormed] using h)

theorem WellFormed.reshape {w : Word} (h : w.WellFormed arena vars)
    (shape : Reshape) :
    (shape.apply w).WellFormed arena vars := by
  cases shape with
  | dropLow count => exact h.dropLow count
  | dropHigh count => exact h.dropHigh count
  | zeroExtend count => exact h.zeroExtend count
  | signExtend count => exact h.signExtend count
  | resize width => exact h.resize width
  | resizeSigned width => exact h.resizeSigned width
  | shiftLeft amount => exact h.shiftLeft amount
  | shiftRight amount => exact h.shiftRight amount

theorem WellFormed.join {words : List Word}
    (h : ∀ w ∈ words, w.WellFormed arena vars) :
    (Word.join words).WellFormed arena vars := by
  refine .ofBits fun b hb => ?_
  obtain ⟨w, hw, hbw⟩ := List.mem_flatMap.mp hb
  exact (h w hw).bits b hbw

def MakesWord (x : SymM Word) (session : Session) (arena : Arena)
    (vars : Var → Prop) : Prop :=
  SymM.Yields (fun _ => True) x session arena fun after later w =>
    SymM.NodesOnly session after ∧ w.WellFormed later vars

theorem yields_of_sameWidth {α : Type} {a b : Word} {x : SymM α}
    {post : Session → Arena → α → Prop} (f : Unit → SymM α)
    (hx : x = requireSameWidth a b >>= f)
    (h : a.width = b.width → SymM.Yields (fun _ => True) x session arena post) :
    SymM.Yields (fun _ => True) x session arena post := by
  by_cases hwidth : a.width = b.width
  · exact h hwidth
  · have hrun : x session =
        .error (.widthMismatch a.width b.width) session := by
      simp only [hx, requireSameWidth, hwidth, if_false]
      rfl
    simp only [SymM.Yields, hrun]

private theorem carryBits_yields {a b : Word}
    (hnode : session.nextNode = arena.length) (ha : a.WellFormed arena vars)
    (hb : b.WellFormed arena vars) (hwidth : a.width = b.width) :
    MakesWord (a.carryBits b) session arena vars := by
  unfold MakesWord carryBits
  rw [requireSameWidth_eq hwidth, pure_bind]
  have hcarries :=
    carries_yields hwidth (Bit.fits_literal arena false) ha.bits.fits
      hb.bits.fits
  refine (SymM.yields_ofNodeM hnode hcarries).bind
    fun after later bits hle hafter ⟨hnodes, hbits, _⟩ => ?_
  refine SymM.yields_pure hafter ⟨hnodes, .ofBits ?_⟩
  exact hbits.wellFormed (Bit.wellFormed_literal false) (ha.mono hle).bits
    (hb.mono hle).bits

private theorem PairOp.apply_makes (op : PairOp) {a b : Word}
    (hnode : session.nextNode = arena.length) (ha : a.WellFormed arena vars)
    (hb : b.WellFormed arena vars) :
    MakesWord (op.apply a b) session arena vars := by
  cases op with
  | and =>
      apply yields_of_sameWidth _ rfl
      intro hwidth
      exact (and_yields hnode ha hb hwidth).mono fun _ _ _ _ _ h => ⟨h.1, h.2.1⟩
  | or =>
      apply yields_of_sameWidth _ rfl
      intro hwidth
      exact (or_yields hnode ha hb hwidth).mono fun _ _ _ _ _ h => ⟨h.1, h.2.1⟩
  | xor =>
      apply yields_of_sameWidth _ rfl
      intro hwidth
      exact (xor_yields hnode ha hb hwidth).mono fun _ _ _ _ _ h => ⟨h.1, h.2.1⟩
  | add =>
      apply yields_of_sameWidth _ rfl
      intro hwidth
      exact (add_yields hnode ha hb hwidth).mono fun _ _ _ _ _ h => ⟨h.1, h.2.1⟩
  | sub =>
      apply yields_of_sameWidth _ rfl
      intro hwidth
      exact (sub_yields hnode ha hb hwidth).mono fun _ _ _ _ _ h => ⟨h.1, h.2.1⟩
  | shiftLeft =>
      exact (SymM.yields_ofNodeM hnode (shiftLeftBy_yields ha hb)).mono
        fun _ _ _ _ _ h => ⟨h.1, h.2.1⟩
  | shiftRight =>
      exact (SymM.yields_ofNodeM hnode (shiftRightBy_yields ha hb)).mono
        fun _ _ _ _ _ h => ⟨h.1, h.2.1⟩
  | carryBits =>
      exact yields_of_sameWidth _ rfl fun hwidth => carryBits_yields hnode ha
        hb hwidth

private theorem applyUnary_makes (op : UnaryOp) {w : Word}
    (hnode : session.nextNode = arena.length) (hw : w.WellFormed arena vars) :
    MakesWord (op.apply w) session arena vars := by
  cases op with
  | neg => exact (neg_yields hnode hw).mono fun _ _ _ _ _ h => ⟨h.1, h.2.1⟩
  | not =>
      exact (SymM.yields_ofNodeM hnode (not_yields hw)).mono fun _ _ _ _ _ h =>
        ⟨h.1, h.2.1⟩

private theorem addWithCarry_yields {a b : Word}
    (hnode : session.nextNode = arena.length) (ha : a.WellFormed arena vars)
    (hb : b.WellFormed arena vars) (hwidth : a.width = b.width) :
    SymM.Yields (fun _ => True) (a.addWithCarry b) session arena
      fun after later result =>
      SymM.NodesOnly session after ∧ result.1.WellFormed later vars ∧
        result.2.WellFormed later vars := by
  unfold addWithCarry
  rw [requireSameWidth_eq hwidth, pure_bind]
  refine (SymM.yields_ofNodeM hnode (addBits_yields hwidth ha.bits.fits
    hb.bits.fits)).bind fun after later result hle hafter ⟨hnodes, hadded⟩ => ?_
  obtain ⟨hsum, hcarry⟩ :=
    hadded.wellFormed (ha.mono hle).bits (hb.mono hle).bits
  exact SymM.yields_pure hafter ⟨hnodes, .ofBits hsum, hcarry⟩

def GrowsPool (x : SymM (List Word)) (session : Session) (arena : Arena) :
    Prop :=
  SymM.Yields (fun _ => True) x session arena fun after later words =>
    session.nextVar ≤ after.nextVar ∧ ∀ w ∈ words,
    w.WellFormed later (Issued after.nextVar)

theorem growsPool_pure {words : List Word}
    (hnode : session.nextNode = arena.length)
    (h : ∀ w ∈ words, w.WellFormed arena (Issued session.nextVar)) :
    GrowsPool (pure words) session arena :=
  SymM.yields_pure hnode ⟨le_rfl, h⟩

private theorem MakesWord.growsPool {x : SymM Word}
    (h : MakesWord x session arena (Issued session.nextVar)) :
    GrowsPool (do return [← x]) session arena := by
  refine h.bind fun after later w _ hafter ⟨hnodes, hw⟩ => ?_
  refine SymM.yields_pure hafter ⟨hnodes.nextVar_eq.ge, ?_⟩
  rw [hnodes.nextVar_eq]
  simpa using hw

private theorem growsPool_bit {x : NodeM Bit} {operands : List Bit}
    {meaning : Valuation → Bool} (hnode : session.nextNode = arena.length)
    (hoperands : ∀ b ∈ operands, b.WellFormed arena (Issued session.nextVar))
    (hx : NodeM.Yields x arena fun later b => b.BuiltFrom later operands
      meaning) :
    GrowsPool (do return [ofBits [← x]]) session arena := by
  refine (SymM.yields_ofNodeM hnode hx).bind
    fun after later b hle hafter ⟨hnodes, hb⟩ => ?_
  refine SymM.yields_pure hafter ⟨hnodes.nextVar_eq.ge, ?_⟩
  rw [hnodes.nextVar_eq]
  have hword := hb.wellFormed fun x hx => (hoperands x hx).mono hle
  simpa using singleton_wellFormed hword

theorem Step.run_growsPool (step : Step) {pool : List Word}
    (hpool : Pool session arena pool) :
    GrowsPool (step.run pool) session arena := by
  have hnode := hpool.nodes
  cases step with
  | constant value width =>
      exact growsPool_pure hnode
        (by simpa using constant_wellFormed value width)
  | tagged tag offset width =>
      refine growsPool_pure hnode ?_
      simpa using ofTag_wellFormed fun i _ => issued_ofTag _ tag (offset + i)
  | fresh width =>
      refine (fresh_yields hnode fun _ => trivial).bind
        fun after later w hle hafter hw => ?_
      obtain ⟨hnext, rfl, rfl⟩ := hw
      refine SymM.yields_pure hafter ⟨by omega, ?_⟩
      simp only [List.mem_singleton, forall_eq]
      exact freshWord_wellFormed fun id _ hlt => .inl (hnext ▸ hlt)
  | join slots =>
      refine growsPool_pure hnode ?_
      simp only [List.mem_singleton, forall_eq]
      refine .join fun w hw => ?_
      obtain ⟨slot, _, rfl⟩ := List.mem_map.mp hw
      exact hpool.pick slot
  | concat low high =>
      exact growsPool_pure hnode
        (by simpa using (hpool.pick low).concat (hpool.pick high))
  | bit slot index =>
      cases hbit : (pick pool slot).bit index with
      | error fault =>
          simp only [Step.run, hbit]
          exact trivial
      | ok b =>
          simp only [Step.run, hbit]
          have hmem : b ∈ (pick pool slot).bits := by
            unfold Word.bit at hbit
            split at hbit
            case h_1 found hfound =>
                cases hbit
                exact List.mem_of_getElem? hfound
            case h_2 => cases hbit
          refine growsPool_pure hnode ?_
          simpa using singleton_wellFormed ((hpool.pick slot).bits b hmem)
  | setBit slot index source =>
      refine growsPool_pure hnode ?_
      simpa using (hpool.pick slot).setBit (hpool.pick source).lowBit index
  | reshape shape slot =>
      exact growsPool_pure hnode
        (by simpa using (hpool.pick slot).reshape shape)
  | parts size slot =>
      simp only [Step.run, Word.parts]
      split
      case isTrue => exact trivial
      case isFalse hsize =>
          exact growsPool_pure hnode fun w hw =>
            (hpool.pick slot).partsOf (Nat.pos_of_ne_zero hsize) hw
  | unary op slot =>
      exact (applyUnary_makes op hnode (hpool.pick slot)).growsPool
  | pair op left right =>
      exact (op.apply_makes hnode (hpool.pick left)
        (hpool.pick right)).growsPool
  | addWithCarry left right =>
      apply SymM.Yields.bind
      · apply yields_of_sameWidth _ rfl
        intro hwidth
        exact addWithCarry_yields hnode (hpool.pick left) (hpool.pick right)
          hwidth
      · rintro after later ⟨sum, carry⟩ _ hafter ⟨hnodes, hsum, hcarry⟩
        refine SymM.yields_pure hafter ⟨hnodes.nextVar_eq.ge, ?_⟩
        rw [hnodes.nextVar_eq]
        simp only [List.mem_cons, List.not_mem_nil, or_false, forall_eq_or_imp,
          forall_eq]
        exact ⟨hsum, singleton_wellFormed hcarry⟩
  | equals left right =>
      have hleft := (hpool.pick left).lowBit
      have hright := (hpool.pick right).lowBit
      exact growsPool_bit hnode (by simp [hleft, hright])
        (Bit.equals_yields hleft.fits hright.fits)
  | select choice whenTrue whenFalse =>
      have hchoice := (hpool.pick choice).lowBit
      have htrue := (hpool.pick whenTrue).lowBit
      have hfalse := (hpool.pick whenFalse).lowBit
      exact growsPool_bit hnode (by simp [hchoice, htrue, hfalse])
        (Bit.select_yields hchoice.fits htrue.fits hfalse.fits)
  | splitBase slot =>
      refine growsPool_pure hnode fun w hw => ?_
      obtain ⟨split, hsplit, rfl⟩ := List.mem_map.mp hw
      exact (splitAddend?_sound (hpool.pick slot)
        (Option.mem_toList.mp hsplit)).1

end Word

end SymbolicMachine
