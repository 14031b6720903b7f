import SymbolicMachine.Proofs.Word.Numerals

/-!
# Texts that tell words apart

The text of a word has a part for each segment.  The parts have no spaces in
them, and the fields of a part no punctuation, so the text determines the
segments, but for the width of a literal that stands alone; this is the width of
the word.

The segments have every literal and every variable of the word at its position.
Of compound bits they have the position only.
-/

namespace SymbolicMachine

/-! ## Texts of segments -/

namespace Segment

theorem toList_text_literal (bits : List Bool) :
    ((literal bits).text tagText false).toList =
      (hexTextOfBits bits.reverse).toList ++
        ':' :: Nat.toDigits 10 bits.length := by
  simp [text, toString]

theorem toList_text_tagged (tag low high : Nat) (alone : Bool) :
    ((tagged tag low high).text tagText alone).toList =
      '%' :: (Nat.toDigits 10 tag ++
        '[' :: (Nat.toDigits 10 low ++ '.' :: '.' ::
        (Nat.toDigits 10 high ++ [']']))) := by
  simp [text, tagText, toString]

theorem toList_text_fresh (first width : Nat) (alone : Bool) :
    ((fresh first width).text tagText alone).toList =
      '$' :: (Nat.toDigits 10 first ++ ':' :: Nat.toDigits 10 width) := by
  simp [text, toString]

theorem toList_text_compound (width : Nat) (alone : Bool) :
    ((compound width).text tagText alone).toList =
      'e' :: 'x' :: 'p' :: 'r' :: ':' :: Nat.toDigits 10 width := by
  simp [text, toString]

theorem space_notMem_text (segment : Segment) (alone : Bool) :
    ' ' ∉ (segment.text tagText alone).toList := by
  have hdecimal := notMem_decimal (c := ' ') rfl
  have hhex := notMem_hexTextOfBits (c := ' ') rfl
  cases segment with
  | literal bits =>
      cases alone with
      | false => simp [toList_text_literal, hdecimal, hhex]
      | true => exact hhex bits.reverse
  | tagged tag low high => simp [toList_text_tagged, hdecimal]
  | fresh first width => simp [toList_text_fresh, hdecimal]
  | compound width => simp [toList_text_compound, hdecimal]

def mark : Segment → Char
  | .literal _ => '0'
  | .tagged .. => '%'
  | .fresh .. => '$'
  | .compound _ => 'e'

private theorem head?_text (segment : Segment) (alone : Bool) :
    (segment.text tagText alone).toList.head? = some segment.mark := by
  cases segment with
  | literal bits =>
      obtain ⟨chars, hchars, _⟩ := exists_hexTextOfBits bits.reverse
      cases alone with
      | false =>
          rw [toList_text_literal, hchars]
          rfl
      | true =>
          change (hexTextOfBits bits.reverse).toList.head? = _
          rw [hchars]
          rfl
  | tagged tag low high => simp [toList_text_tagged, mark]
  | fresh first width => simp [toList_text_fresh, mark]
  | compound width => simp [toList_text_compound, mark]

private theorem mark_eq {s t : Segment} {alone : Bool}
    (h : s.text tagText alone = t.text tagText alone) : s.mark = t.mark := by
  have hhead := s.head?_text alone
  rw [h, t.head?_text] at hhead
  exact (Option.some.inj hhead).symm

private theorem text_inj {s t : Segment}
    (h : s.text tagText false = t.text tagText false) : s = t := by
  have hmark := mark_eq h
  have hchars := String.toList_inj.mpr h
  -- The first characters leave the pairs of one kind, which are cut at their
  -- delimiters.
  cases s <;> cases t <;> simp only [mark, Char.reduceEq] at hmark
  case literal.literal bits bits' =>
      rw [toList_text_literal, toList_text_literal] at hchars
      obtain ⟨hhex, hlength⟩ := append_cons_inj (notMem_hexTextOfBits rfl _)
        (notMem_hexTextOfBits rfl _) hchars
      have hbits :=
        hexTextOfBits_inj (by simp [decimal_inj hlength])
          (String.toList_inj.mp hhex)
      rw [List.reverse_inj.mp hbits]
  case tagged.tagged tag low high tag' low' high' =>
      rw [toList_text_tagged, toList_text_tagged] at hchars
      obtain ⟨htag, hrest⟩ :=
        append_cons_inj (notMem_decimal rfl _) (notMem_decimal rfl _)
          (List.cons.inj hchars).2
      obtain ⟨hlow, hrest⟩ :=
        append_cons_inj (notMem_decimal rfl _) (notMem_decimal rfl _) hrest
      have hhigh := List.append_cancel_right (List.cons.inj hrest).2
      rw [decimal_inj htag, decimal_inj hlow, decimal_inj hhigh]
  case fresh.fresh first width first' width' =>
      rw [toList_text_fresh, toList_text_fresh] at hchars
      obtain ⟨hfirst, hwidth⟩ :=
        append_cons_inj (notMem_decimal rfl _) (notMem_decimal rfl _)
          (List.cons.inj hchars).2
      rw [decimal_inj hfirst, decimal_inj hwidth]
  case compound.compound width width' =>
      rw [toList_text_compound, toList_text_compound] at hchars
      simp only [List.cons.injEq, true_and] at hchars
      rw [decimal_inj hchars]

end Segment

/-! ## What a segment stands for -/

namespace Bit

def IsLeaf : Bit → Prop
  | .literal _ => True
  | .var _ => True
  | _ => False

def shown : Bit → Option Bit
  | .literal value => some (.literal value)
  | .var v => some (.var v)
  | _ => none

private theorem shown_of_isLeaf {b : Bit} (h : b.IsLeaf) :
    b.shown = some b := by
  cases b <;> first | rfl | exact h.elim

private theorem eq_of_shown_eq {b leaf : Bit} (h : b.shown = some leaf) :
    b = leaf := by
  cases b <;> first | exact Option.some.inj h | cases h

private theorem eq_of_map_shown_eq {xs ys : List Bit}
    (hleaf : ∀ x ∈ xs, x.IsLeaf) (h : xs.map shown = ys.map shown) :
    xs = ys := by
  induction xs generalizing ys with
  | nil => exact (List.map_eq_nil_iff.mp h.symm).symm
  | cons x xs ih =>
      cases ys with
      | nil => cases h
      | cons y ys =>
          obtain ⟨hx, hxs⟩ := List.forall_mem_cons.mp hleaf
          obtain ⟨hhead, htail⟩ := List.cons.inj h
          rw [shown_of_isLeaf hx] at hhead
          rw [eq_of_shown_eq hhead.symm, ih hxs htail]

end Bit

private theorem Var.eq_of_tag?_eq_some {v : Var} {tag index : Nat}
    (h : v.tag? = some (tag, index)) :
    v = ⟨taggedBase + tag * indicesPerTag + index⟩ := by
  unfold tag? at h
  split at h
  case isTrue => cases h
  case isFalse hbase =>
      cases h
      have hparts := Nat.div_add_mod' (v.id - taggedBase) indicesPerTag
      cases v
      simp only [mk.injEq] at hbase hparts ⊢
      omega

namespace Segment

def shown : Segment → List (Option Bit)
  | .literal bits => bits.reverse.map fun value => some (.literal value)
  | .tagged tag low high => (List.range' low (high - low)).map fun index =>
      some (.var ⟨Var.taggedBase + tag * Var.indicesPerTag + index⟩)
  | .fresh first width =>
      (List.range' first width).map fun id => some (.var ⟨id⟩)
  | .compound width => List.replicate width none

def Proper : Segment → Prop
  | .tagged _ low high => low ≤ high
  | _ => True

private theorem proper_ofBit (b : Bit) : (ofBit b).Proper := by
  cases b with
  | var v =>
      simp only [ofBit]
      split
      · exact Nat.le_succ _
      · trivial
  | _ => trivial

private theorem shown_ofBit (b : Bit) : (ofBit b).shown = [b.shown] := by
  cases b with
  | var v =>
      simp only [ofBit]
      split
      case h_1 tag index htag => simp [shown, Bit.shown,
        Var.eq_of_tag?_eq_some htag]
      case h_2 => rfl
  | _ => rfl

private theorem extend?_shows {segment longer : Segment} {b : Bit}
    (hproper : segment.Proper) (h : segment.extend? b = some longer) :
    longer.Proper ∧ longer.shown = segment.shown ++ [b.shown] := by
  cases segment <;> cases b <;> simp only [extend?, reduceCtorEq] at h
  case literal.literal bits value =>
      cases h
      exact ⟨trivial, by simp [shown, Bit.shown]⟩
  case tagged.var tag low high v =>
      split at h
      case isTrue htag =>
          cases h
          have hle : low ≤ high := hproper
          refine ⟨Nat.le_succ_of_le hle, ?_⟩
          simp only [shown, Bit.shown]
          rw [Nat.succ_sub hle, List.range'_concat, List.map_append,
            Nat.one_mul, Nat.add_sub_cancel' hle, Var.eq_of_tag?_eq_some htag]
          rfl
      case isFalse => cases h
  case fresh.var first width v =>
      split at h
      case isTrue hid =>
          cases h
          refine ⟨trivial, ?_⟩
          simp only [shown, Bit.shown]
          rw [List.range'_concat, List.map_append, Nat.one_mul, ← hid]
          rfl
      case isFalse => cases h
  case compound.neg width node x =>
      cases h
      exact ⟨trivial, List.replicate_succ'⟩
  case compound.conj width nodeX x nodeY y =>
      cases h
      exact ⟨trivial, List.replicate_succ'⟩

structure Show (bits : List (Option Bit)) (segments : List Segment) : Prop where
  proper : ∀ segment ∈ segments, segment.Proper
  shown_eq : segments.reverse.flatMap shown = bits

theorem Show.push {bits : List (Option Bit)} {segments : List Segment}
    (h : Show bits segments) (b : Bit) :
    Show (bits ++ [b.shown]) (push segments b) := by
  have hnew : Show (bits ++ [b.shown]) (ofBit b :: segments) := by
    refine ⟨List.forall_mem_cons.mpr ⟨proper_ofBit b, h.proper⟩, ?_⟩
    simp [shown_ofBit, h.shown_eq]
  unfold Segment.push
  split
  case h_1 => exact hnew
  case h_2 top rest =>
      obtain ⟨htop, hrest⟩ := List.forall_mem_cons.mp h.proper
      split
      case h_1 longer hlonger =>
          obtain ⟨hproper, hshown⟩ := extend?_shows htop hlonger
          refine ⟨List.forall_mem_cons.mpr ⟨hproper, hrest⟩, ?_⟩
          simp [hshown, ← h.shown_eq]
      case h_2 => exact hnew

private theorem Show.foldl_push {bits : List (Option Bit)}
    {segments : List Segment} (h : Show bits segments) (more : List Bit) :
    Show (bits ++ more.map Bit.shown) (more.foldl Segment.push segments) := by
  induction more generalizing bits segments with
  | nil => simpa using h
  | cons b more ih => simpa using ih (h.push b)

end Segment

namespace Word

theorem show_segments (w : Word) :
    Segment.Show (w.bits.map Bit.shown) w.segments := by
  have hempty : Segment.Show [] [] := ⟨by simp, rfl⟩
  simpa [segments] using hempty.foldl_push w.bits

private theorem length_shown_of_single {w : Word} {segment : Segment}
    (h : w.segments = [segment]) :
    segment.shown.length = w.width := by
  have hshown := w.show_segments.shown_eq
  rw [h] at hshown
  simpa [width] using congrArg List.length hshown

end Word

private theorem Segment.text_alone_inj {s t : Segment}
    (hlength : s.shown.length = t.shown.length)
    (h : s.text tagText true = t.text tagText true) : s = t := by
  have hmark := mark_eq h
  cases s <;> cases t <;> simp only [mark, Char.reduceEq] at hmark
  case literal.literal bits bits' =>
      have hbits := hexTextOfBits_inj (by simpa [shown] using hlength) h
      rw [List.reverse_inj.mp hbits]
  all_goals exact text_inj h

namespace Word

theorem text_of_single {w : Word} {segment : Segment}
    (h : w.segments = [segment]) :
    w.text = segment.text tagText true := by
  rw [text, render, h]

theorem toList_text_of_several {w : Word} {first second : Segment}
    {rest : List Segment} (h : w.segments = first :: second :: rest) :
    w.text.toList = List.intercalate [' ', '.', ' ']
      (w.segments.map fun segment => (segment.text tagText false).toList) := by
  have htext : w.text =
      " . ".intercalate (w.segments.map (Segment.text tagText false)) := by
    rw [text, render, h]
  rw [htext, String.toList_intercalate, List.map_map]
  rfl

private theorem space_mem_text {w : Word} {first second : Segment}
    {rest : List Segment} (h : w.segments = first :: second :: rest) :
    ' ' ∈ w.text.toList := by
  rw [toList_text_of_several h, h]
  simp [List.intercalate_cons_cons]

private theorem segments_eq_nil_iff {w : Word} :
    w.segments = [] ↔ w.width = 0 := by
  have hshown := w.show_segments.shown_eq
  constructor
  · intro h
    rw [h] at hshown
    simpa [width] using congrArg List.length hshown.symm
  · intro h
    rw [segments, List.length_eq_zero_iff.mp h]
    rfl

private theorem segments_eq_of_text_eq {a b : Word} (hwidth : a.width = b.width)
    (h : a.text = b.text) :
    a.segments = b.segments := by
  have hempty : a.segments = [] ↔ b.segments = [] := by
    rw [segments_eq_nil_iff, segments_eq_nil_iff, hwidth]
  have hsingle : ∀ {c d : Word} {segment first second rest}, c.text = d.text →
      c.segments = [segment] → d.segments ≠ first :: second :: rest := by
    intro c d segment first second rest htext hc hd
    have hspace := space_mem_text hd
    rw [← htext, text_of_single hc] at hspace
    exact segment.space_notMem_text true hspace
  match ha : a.segments, hb : b.segments with
  | [], _ => exact (hb.symm.trans (hempty.mp ha)).symm
  | _ :: _, [] => exact absurd (hempty.mpr hb) (by simp [ha])
  | [s], [t] =>
      have hlength : s.shown.length = t.shown.length := by
        rw [length_shown_of_single ha, length_shown_of_single hb, hwidth]
      rw [text_of_single ha, text_of_single hb] at h
      rw [Segment.text_alone_inj hlength h]
  | [_], _ :: _ :: _ => exact absurd hb (hsingle h ha)
  | _ :: _ :: _, [_] => exact absurd ha (hsingle h.symm hb)
  | s :: s' :: ss, t :: t' :: ts =>
      have hchars := String.toList_inj.mpr h
      rw [toList_text_of_several ha, toList_text_of_several hb] at hchars
      have hparts := intercalate_inj (by simp [Segment.space_notMem_text])
        (by simp [Segment.space_notMem_text]) (by simp [ha]) (by simp [hb])
        hchars
      rw [← ha, ← hb]
      exact List.map_injective_iff.mpr
        (fun _ _ hpart => Segment.text_inj (String.toList_inj.mp hpart)) hparts

/--
The text of a word loses nothing but what stands below compound bits.  If all
bits of a word are literals or variables, no other word of its width has its
text.
-/
theorem text_determines_leaves {a b : Word} (hwidth : a.width = b.width)
    (hleaf : ∀ x ∈ a.bits, x.IsLeaf) : a.text = b.text ↔ a.bits = b.bits := by
  constructor
  · intro h
    apply Bit.eq_of_map_shown_eq hleaf
    rw [← a.show_segments.shown_eq, ← b.show_segments.shown_eq,
      segments_eq_of_text_eq hwidth h]
  · intro h
    rw [text, text, render, render, segments, segments, h]

/--
Two runs of fresh variables that differ in the last one, above a tagged value
and a literal.
-/
theorem text_determines_leaves_broken_run :
    let low : List Bit :=
  [.literal true, .literal false, .literal false, .literal false,
      .literal true, .var (.ofTag 1 0), .var (.ofTag 1 1), .var ⟨3⟩]
    let a := ofBits (low ++ [.var ⟨4⟩])
    let b := ofBits (low ++ [.var ⟨5⟩])
    a.width = b.width ∧ (∀ x ∈ a.bits, x.IsLeaf) ∧
      a.text = "$3:2 . %1[0..2] . 0x11:5" ∧
      a.text ≠ b.text := by
  intro low a b
  have hleaf : ∀ x ∈ a.bits, x.IsLeaf := by
    simp [a, low, ofBits, Bit.IsLeaf]
  have hwidth : a.width = b.width := rfl
  refine ⟨hwidth, hleaf, by decide +kernel, fun h => ?_⟩
  have hbits := (text_determines_leaves hwidth hleaf).mp h
  simp [a, b, ofBits] at hbits

end Word

end SymbolicMachine
