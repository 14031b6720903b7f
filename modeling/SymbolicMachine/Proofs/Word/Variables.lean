import SymbolicMachine.Proofs.Bit.NormalForm
import SymbolicMachine.Proofs.Word.Construction

/-!
# The variables of a word

A variable occurs in a word if a bit of the word mentions it, or the addend
record does.  The operations on words bring in no variables: whatever occurs in
a result occurs in an operand.  Which nodes the bits share does not matter here,
so this holds of all words, however they were made.
-/

namespace SymbolicMachine

/-! ## Results of computations -/

namespace SymM

variable {α β : Type} {next : Nat}

/--
A run that starts when `next` is the number of the next variable takes back no
variable, and if it ends, the next number then and the result satisfy `post`.
-/
def Advances (next : Nat) (x : SymM α) (post : Nat → α → Prop) : Prop :=
  ∀ session a after, session.nextVar = next → x session = .ok a after →
    next ≤ after.nextVar ∧ post after.nextVar a

theorem advances_pure {a : α} {post : Nat → α → Prop} (h : post next a) :
    Advances next (pure a) post := by
  rintro session _ _ rfl hrun
  cases hrun
  exact ⟨le_rfl, h⟩

theorem advances_throw (fault : Fault) {post : Nat → α → Prop} :
    Advances next (throw fault) post := by
  intro session a after _ hrun
  cases hrun

theorem Advances.bind {x : SymM α} {f : α → SymM β} {mid : Nat → α → Prop}
    {post : Nat → β → Prop} (hx : Advances next x mid)
    (hf : ∀ later a, next ≤ later → mid later a → Advances later (f a) post) :
    Advances next (x >>= f) post := by
  intro session b last hnext hrun
  obtain ⟨a, after, hfirst, hsecond⟩ := bind_eq_ok.mp hrun
  obtain ⟨hle, hmid⟩ := hx session a after hnext hfirst
  obtain ⟨hle', hpost⟩ := hf after.nextVar a hle hmid after b last rfl hsecond
  exact ⟨hle.trans hle', hpost⟩

theorem advances_ofNodeM {x : NodeM α} {post : α → Prop}
    (hx : NodeM.Ensures x post) :
    Advances next (ofNodeM x) fun _ => post := by
  rintro session _ _ rfl hrun
  cases hrun
  exact ⟨le_rfl, hx session.nextNode⟩

theorem advances_ofExcept {x : Except Fault α} {post : α → Prop}
    (hx : ∀ a, x = .ok a → post a) :
    Advances next (ofExcept x) fun _ => post := by
  cases x with
  | error fault => exact advances_throw fault
  | ok a => exact advances_pure (hx a rfl)

theorem advances_record (level : Level) (text : String) :
    Advances next (record level text) fun _ _ => True := by
  rintro session _ _ rfl hrun
  cases hrun
  exact ⟨le_rfl, trivial⟩

end SymM

/-! ## Bits -/

namespace Bit

variable {vars : Var → Prop}

def Within (vars : Var → Prop) (b : Bit) : Prop :=
  ∀ v, b.Mentions v → vars v

theorem within_literal (value : Bool) : (literal value).Within vars :=
  fun _ hv => hv.elim

theorem closed_within (vars : Var → Prop) : Closed (Within vars) where
  literal := within_literal
  neg := fun _ _ hx => hx
  operand := fun _ hx => hx
  conj := fun _ _ _ _ hx hy v hv => hv.elim (hx v) (hy v)

end Bit

/-! ## Lists of bits -/

namespace Word

variable {vars : Var → Prop} {xs ys : List Bit}

def BitsWithin (vars : Var → Prop) (bits : List Bit) : Prop :=
  ∀ b ∈ bits, b.Within vars

theorem BitsWithin.cons {x : Bit} (hx : x.Within vars)
    (hxs : BitsWithin vars xs) :
    BitsWithin vars (x :: xs) :=
  List.forall_mem_cons.mpr ⟨hx, hxs⟩

theorem BitsWithin.append (hxs : BitsWithin vars xs)
    (hys : BitsWithin vars ys) :
    BitsWithin vars (xs ++ ys) :=
  List.forall_mem_append.mpr ⟨hxs, hys⟩

theorem BitsWithin.zipBits {op : Bit → Bit → NodeM Bit}
    (hop : ∀ x y, x.Within vars → y.Within vars →
      NodeM.Ensures (op x y) (Bit.Within vars))
    (hxs : BitsWithin vars xs) (hys : BitsWithin vars ys) :
    NodeM.Ensures (zipBits op xs ys) (BitsWithin vars) := by
  induction xs generalizing ys with
  | nil => exact NodeM.ensures_pure (by simp [BitsWithin])
  | cons x xs ih =>
      cases ys with
      | nil => exact NodeM.ensures_pure (by simp [BitsWithin])
      | cons y ys =>
          obtain ⟨hx, hxs⟩ := List.forall_mem_cons.mp hxs
          obtain ⟨hy, hys⟩ := List.forall_mem_cons.mp hys
          exact (hop x y hx hy).bind fun _ hz => (ih hxs hys).bind fun _ hzs =>
            NodeM.ensures_pure (hzs.cons hz)

private theorem BitsWithin.mapM_not (hxs : BitsWithin vars xs) :
    NodeM.Ensures (xs.mapM Bit.not) (BitsWithin vars) := by
  induction xs with
  | nil => exact NodeM.ensures_pure hxs
  | cons x xs ih =>
      obtain ⟨hx, hxs⟩ := List.forall_mem_cons.mp hxs
      rw [List.mapM_cons]
      exact ((Bit.closed_within vars).not hx).bind fun _ hnot => (ih hxs).bind
        fun _ hrest =>
        NodeM.ensures_pure (hrest.cons hnot)

theorem BitsWithin.carries {carry : Bit} (hcarry : carry.Within vars)
    (hxs : BitsWithin vars xs) (hys : BitsWithin vars ys) :
    NodeM.Ensures (carries carry xs ys) (BitsWithin vars) := by
  have hlast : NodeM.Ensures (pure [carry]) (BitsWithin vars) :=
    NodeM.ensures_pure (BitsWithin.cons hcarry (by simp [BitsWithin]))
  induction xs generalizing ys carry with
  | nil => exact hlast
  | cons x xs ih =>
      cases ys with
      | nil => exact hlast
      | cons y ys =>
          obtain ⟨hx, hxs⟩ := List.forall_mem_cons.mp hxs
          obtain ⟨hy, hys⟩ := List.forall_mem_cons.mp hys
          refine ((Bit.closed_within vars).majority hx hy hcarry).bind
            fun next hnext => ?_
          have hrest := ih hnext hxs hys
            (NodeM.ensures_pure (BitsWithin.cons hnext (by simp [BitsWithin])))
          exact hrest.bind fun _ hcarries =>
            NodeM.ensures_pure (hcarries.cons hcarry)

theorem BitsWithin.addBits (hxs : BitsWithin vars xs)
    (hys : BitsWithin vars ys) :
    NodeM.Ensures (addBits xs ys) fun result => BitsWithin vars result.1 := by
  refine (BitsWithin.carries (Bit.within_literal false) hxs hys).bind
    fun carry hcarry => ?_
  have hinto : BitsWithin vars carry.dropLast :=
    fun b hb => hcarry b (List.mem_of_mem_dropLast hb)
  refine (hxs.zipBits (fun _ _ => (Bit.closed_within vars).xor) hys).bind
    fun half hhalf => ?_
  refine (hhalf.zipBits (fun _ _ => (Bit.closed_within vars).xor) hinto).bind
    fun sum hsum => ?_
  exact NodeM.ensures_pure hsum

theorem BitsWithin.shift {shift : List Bit → Nat → List Bit}
    {act : Nat → Nat → Nat → Nat} (law : ShiftLaw shift act)
    (hxs : BitsWithin vars xs) (amount : Nat) :
    BitsWithin vars (shift xs amount) := by
  intro b hb
  rcases law.mem xs amount b hb with hmem | rfl
  · exact hxs b hmem
  · exact Bit.within_literal false

theorem BitsWithin.shiftStages {shift : List Bit → Nat → List Bit}
    {act : Nat → Nat → Nat → Nat} (law : ShiftLaw shift act) {amount : Nat}
    {selectors bits : List Bit} (hselectors : BitsWithin vars selectors)
    (hbits : BitsWithin vars bits) :
    NodeM.Ensures (shiftStages shift amount selectors bits)
      (BitsWithin vars) := by
  induction selectors generalizing amount bits with
  | nil => exact NodeM.ensures_pure hbits
  | cons selector selectors ih =>
      obtain ⟨hselector, hselectors⟩ := List.forall_mem_cons.mp hselectors
      refine ((Bit.closed_within vars).not hselector).bind fun keep hkeep => ?_
      refine (hbits.zipBits (fun _ _ => (Bit.closed_within vars).select hkeep)
        (hbits.shift law amount)).bind fun chosen hchosen => ?_
      exact ih hselectors hchosen

/-! ## Words -/

inductive Occurs (v : Var) : Word → Prop
  | bit {w : Word} {b : Bit} : b ∈ w.bits → b.Mentions v → Occurs v w
  | sum {w : Word} {addend : Addend Word} {b : Bit} : w.addend = some addend →
      b ∈ addend.sum → b.Mentions v → Occurs v w
  | base {w : Word} {addend : Addend Word} : w.addend = some addend →
      Occurs v addend.base →
      Occurs v w

def Within (vars : Var → Prop) (w : Word) : Prop :=
  ∀ v, w.Occurs v → vars v

theorem within_ofBits {bits : List Bit} (hbits : BitsWithin vars bits) :
    (ofBits bits).Within vars := by
  intro v hv
  cases hv with
  | bit hb hmentions => exact hbits _ hb v hmentions
  | sum haddend => cases haddend
  | base haddend => cases haddend

theorem within_constant (value : UInt64) (width : Nat) :
    (constant value width).Within vars := by
  refine within_ofBits fun b hb => ?_
  obtain ⟨i, _, rfl⟩ := List.mem_map.mp hb
  exact Bit.within_literal _

theorem within_ofTag (next tag offset width : Nat) :
    (ofTag tag offset width).Within (Issued next) := by
  refine within_ofBits fun b hb => ?_
  obtain ⟨i, _, rfl⟩ := List.mem_map.mp hb
  rintro v rfl
  exact issued_ofTag next tag i

theorem fresh_eq_ok_iff {width : Nat} {session after : Session} {w : Word} :
    fresh width session = .ok w after ↔
      width ≤ maxWidth ∧ w = freshWord session.nextVar width ∧
        after = { session with nextVar := session.nextVar + width } := by
  by_cases hwidth : width ≤ maxWidth
  · rw [fresh_of_le hwidth session]
    simp only [EStateM.Result.ok.injEq, hwidth, true_and, eq_comm]
  · have hcheck : checkWidth width = .error (.widthLimit width) := if_neg hwidth
    simp only [fresh, hcheck, hwidth, false_and, iff_false]
    intro hrun
    cases hrun

theorem occurs_freshWord {v : Var} {first width : Nat} :
    (freshWord first width).Occurs v ↔ first ≤ v.id ∧ v.id < first + width := by
  constructor
  · intro hv
    cases hv with
    | bit hb hmentions =>
        obtain ⟨id, hid, rfl⟩ := List.mem_map.mp hb
        obtain rfl : v = ⟨id⟩ := hmentions
        exact List.mem_range'_1.mp hid
    | sum haddend => cases haddend
    | base haddend => cases haddend
  · intro hid
    exact .bit (List.mem_map.mpr ⟨v.id, List.mem_range'_1.mpr hid, rfl⟩) rfl

theorem fresh_advances {next : Nat} (width : Nat) :
    SymM.Advances next (fresh width)
      fun later w => w.Within (Issued later) := by
  rintro session w after rfl hrun
  obtain ⟨_, rfl, rfl⟩ := fresh_eq_ok_iff.mp hrun
  exact ⟨Nat.le_add_right _ _, fun v hv => .inl (occurs_freshWord.mp hv).2⟩

private theorem within_sum {addend : Addend Word} {bits : List Bit}
    (hbits : BitsWithin vars bits) (hbase : addend.base.Within vars)
    (hsum : BitsWithin vars addend.sum) :
    ({ bits, addend := some addend } : Word).Within vars := by
  intro v hv
  cases hv with
  | bit hb hmentions => exact hbits _ hb v hmentions
  | sum haddend hb hmentions =>
      cases haddend
      exact hsum _ hb v hmentions
  | base haddend hoccurs =>
      cases haddend
      exact hbase v hoccurs

theorem requireSameWidth_advances {next : Nat} (a b : Word) :
    SymM.Advances next (requireSameWidth a b) fun _ _ => True := by
  unfold requireSameWidth
  split
  · exact SymM.advances_pure trivial
  · exact SymM.advances_throw _

namespace Within

variable {a b w : Word} {next : Nat}

theorem bits (h : w.Within vars) : BitsWithin vars w.bits :=
  fun _ hb v hv => h v (.bit hb hv)

theorem weaken {wider : Var → Prop} (h : w.Within vars)
    (hvars : ∀ v, vars v → wider v) :
    w.Within wider :=
  fun v hv => hvars v (h v hv)

theorem grow {later : Nat} (h : w.Within (Issued next)) (hle : next ≤ later) :
    w.Within (Issued later) :=
  h.weaken fun _ => Issued.mono hle

theorem withBits (h : w.Within vars) {bits : List Bit}
    (hbits : BitsWithin vars bits) :
    ({ w with bits } : Word).Within vars := by
  intro v hv
  cases hv with
  | bit hb hmentions => exact hbits _ hb v hmentions
  | sum haddend hb hmentions => exact h v (.sum haddend hb hmentions)
  | base haddend hbase => exact h v (.base haddend hbase)

theorem dropHigh (h : w.Within vars) (count : Nat) :
    (w.dropHigh count).Within vars :=
  h.withBits fun b hb => h.bits b (List.mem_of_mem_take hb)

theorem extendWith (h : w.Within vars) {bit : Bit} (hbit : bit.Within vars)
    (count : Nat) :
    (extendWith bit w count).Within vars := by
  refine h.withBits fun b hb => ?_
  rcases List.mem_append.mp hb with hb | hb
  · exact h.bits b hb
  · exact List.eq_of_mem_replicate hb ▸ hbit

theorem resize (h : w.Within vars) (width : Nat) :
    (w.resize width).Within vars := by
  unfold Word.resize
  split
  · exact h.extendWith (Bit.within_literal false) _
  · exact h.dropHigh _

theorem resizeSigned (h : w.Within vars) (width : Nat) :
    (w.resizeSigned width).Within vars := by
  unfold Word.resizeSigned
  split
  · apply h.extendWith
    cases hmsb : w.msb? with
    | none => exact Bit.within_literal false
    | some msb => exact h.bits msb (List.mem_of_getLast? hmsb)
  · exact h.dropHigh _

theorem shiftLeft (h : w.Within vars) (amount : Nat) :
    (w.shiftLeft amount).Within vars :=
  h.withBits (h.bits.shift shiftLeft_law amount)

theorem shiftRight (h : w.Within vars) (amount : Nat) :
    (w.shiftRight amount).Within vars :=
  h.withBits (h.bits.shift shiftRight_law amount)

theorem partsOf (h : w.Within vars) {size : Nat} (hsize : 0 < size)
    {part : Word} (hpart : part ∈ w.partsOf size) : part.Within vars := by
  have hpieces : ∀ piece ∈ pieces size w.bits, BitsWithin vars piece := by
    intro piece hpiece b hb
    apply h.bits b
    rw [← flatten_pieces hsize w.bits]
    exact List.mem_flatten_of_mem hpiece hb
  unfold Word.partsOf at hpart
  split at hpart
  case h_1 => cases hpart
  case h_2 first rest heq =>
      rw [heq] at hpieces
      obtain ⟨hfirst, hrest⟩ := List.forall_mem_cons.mp hpieces
      rcases List.mem_cons.mp hpart with rfl | htail
      · exact h.withBits hfirst
      · obtain ⟨piece, hpiece, rfl⟩ := List.mem_map.mp htail
        exact within_ofBits (hrest piece hpiece)

theorem splitAddend? (h : w.Within vars) {base : Word} {value : UInt64}
    (hsplit : w.splitAddend? = some (base, value)) : base.Within vars := by
  unfold Word.splitAddend? at hsplit
  split at hsplit
  case h_1 addend haddend =>
      split_ifs at hsplit
      cases hsplit
      exact fun v hv => h v (.base haddend hv)
  case h_2 => cases hsplit

theorem addendOf (h : w.Within vars) (value : UInt64) (sum : List Bit) :
    (addendOf w value sum).base.Within vars := by
  unfold Word.addendOf
  cases hsplit : w.splitAddend? with
  | none => exact h
  | some split => exact h.splitAddend? hsplit

theorem ofSum (ha : a.Within vars) (hb : b.Within vars) {sum : List Bit}
    (hsum : BitsWithin vars sum) : (ofSum a b sum).Within vars := by
  unfold Word.ofSum
  split
  · exact within_sum hsum (ha.addendOf _ sum) hsum
  · exact within_sum hsum (hb.addendOf _ sum) hsum
  · exact within_ofBits hsum

/-! ## Operations -/

theorem not (h : w.Within vars) : NodeM.Ensures w.not (Within vars) :=
  h.bits.mapM_not.bind fun _ hbits => NodeM.ensures_pure (within_ofBits hbits)

theorem shiftLeftBy (ha : a.Within vars) (hb : b.Within vars) :
    NodeM.Ensures (a.shiftLeftBy b) (Within vars) :=
  (hb.bits.shiftStages shiftLeft_law ha.bits).bind fun _ hbits =>
    NodeM.ensures_pure (ha.withBits hbits)

theorem shiftRightBy (ha : a.Within vars) (hb : b.Within vars) :
    NodeM.Ensures (a.shiftRightBy b) (Within vars) :=
  (hb.bits.shiftStages shiftRight_law ha.bits).bind fun _ hbits =>
    NodeM.ensures_pure (ha.withBits hbits)

theorem bitwise {op : Bit → Bit → NodeM Bit}
    (hop : ∀ x y, x.Within vars → y.Within vars →
      NodeM.Ensures (op x y) (Bit.Within vars))
    (ha : a.Within vars) (hb : b.Within vars) :
    SymM.Advances next (bitwise op a b) fun _ => Within vars := by
  refine (requireSameWidth_advances a b).bind fun _ _ _ _ => ?_
  refine (SymM.advances_ofNodeM (ha.bits.zipBits hop hb.bits)).bind
    fun _ bits _ hbits => ?_
  exact SymM.advances_pure (within_ofBits hbits)

theorem and (ha : a.Within vars) (hb : b.Within vars) :
    SymM.Advances next (a.and b) fun _ => Within vars :=
  ha.bitwise (fun _ _ => (Bit.closed_within vars).and) hb

theorem or (ha : a.Within vars) (hb : b.Within vars) :
    SymM.Advances next (a.or b) fun _ => Within vars :=
  ha.bitwise (fun _ _ => (Bit.closed_within vars).or) hb

theorem xor (ha : a.Within vars) (hb : b.Within vars) :
    SymM.Advances next (a.xor b) fun _ => Within vars :=
  ha.bitwise (fun _ _ => (Bit.closed_within vars).xor) hb

theorem add (ha : a.Within vars) (hb : b.Within vars) :
    SymM.Advances next (a.add b) fun _ => Within vars := by
  refine (requireSameWidth_advances a b).bind fun _ _ _ _ => ?_
  refine (SymM.advances_ofNodeM (ha.bits.addBits hb.bits)).bind
    fun _ result _ hsum => ?_
  exact SymM.advances_pure (ha.ofSum hb hsum)

theorem neg (h : w.Within vars) :
    SymM.Advances next w.neg fun _ => Within vars :=
  (SymM.advances_ofNodeM h.not).bind fun _ _ _ hcomplement =>
    hcomplement.add (within_constant 1 w.width)

theorem sub (ha : a.Within vars) (hb : b.Within vars) :
    SymM.Advances next (a.sub b) fun _ => Within vars :=
  (requireSameWidth_advances a b).bind fun _ _ _ _ => hb.neg.bind
    fun _ _ _ hneg => ha.add hneg

theorem unary (h : w.Within vars) (op : UnaryOp) :
    SymM.Advances next (op.apply w) fun _ => Within vars := by
  cases op with
  | neg => exact h.neg
  | not => exact SymM.advances_ofNodeM h.not

theorem binary (ha : a.Within vars) (hb : b.Within vars) (op : BinaryOp) :
    SymM.Advances next (op.apply a b) fun _ => Within vars := by
  have hoperand := hb.resize a.width
  cases op with
  | add => exact ha.add hoperand
  | sub => exact ha.sub hoperand
  | and => exact ha.and hoperand
  | or => exact ha.or hoperand
  | xor => exact ha.xor hoperand
  | shl =>
      simp only [BinaryOp.apply]
      split
      · exact SymM.advances_pure (ha.shiftLeft _)
      · exact SymM.advances_ofNodeM (ha.shiftLeftBy hoperand)
  | shr =>
      simp only [BinaryOp.apply]
      split
      · exact SymM.advances_pure (ha.shiftRight _)
      · exact SymM.advances_ofNodeM (ha.shiftRightBy hoperand)

end Within

end Word

end SymbolicMachine
