import Mathlib.Data.List.DropRight
import Mathlib.Data.List.TakeWhile
import SymbolicMachine.Proofs.Word.Value
import SymbolicMachine.Word.Text

/-!
# Numerals

A text is cut into its fields in one way only, if no field contains the
delimiter that follows it. The fields are numerals: a decimal numeral determines
its number, and a hexadecimal one, which leaves out the zeros in front,
determines as many bits as one asks for.
-/

namespace SymbolicMachine

/-! ## Cutting lists of characters -/

theorem append_cons_inj {α : Type} {c : α} {xs ys xs' ys' : List α}
    (hxs : c ∉ xs) (hxs' : c ∉ xs') (h : xs ++ c :: ys = xs' ++ c :: ys') :
    xs = xs' ∧ ys = ys' := by
  induction xs generalizing xs' with
  | nil =>
      cases xs' with
      | nil => simpa using h
      | cons x xs' =>
          have hhead : c = x := (List.cons.inj h).1
          simp [hhead] at hxs'
  | cons x xs ih =>
      cases xs' with
      | nil =>
          have hhead : x = c := (List.cons.inj h).1
          simp [hhead] at hxs
      | cons x' xs' =>
          obtain ⟨rfl, htail⟩ := List.cons.inj h
          obtain ⟨rfl, rfl⟩ := ih (by simp_all) (by simp_all) htail
          exact ⟨rfl, rfl⟩

private theorem eq_of_dropWhile_eq {α : Type} [BEq α] [LawfulBEq α] {c : α}
    {xs ys : List α} (hlength : xs.length = ys.length)
    (h : xs.dropWhile (· == c) = ys.dropWhile (· == c)) :
    xs = ys := by
  have hfront : ∀ zs : List α, zs.takeWhile (· == c) =
      List.replicate (zs.length - (zs.dropWhile (· == c)).length) c := by
    intro zs
    refine List.eq_replicate_iff.mpr ⟨?_, fun z hz => ?_⟩
    · have hsum :=
        congrArg List.length (zs.takeWhile_append_dropWhile (p := (· == c)))
      rw [List.length_append] at hsum
      omega
    · simpa using List.mem_takeWhile_imp hz
  rw [← xs.takeWhile_append_dropWhile (p := (· == c)),
    ← ys.takeWhile_append_dropWhile (p := (· == c)), hfront, hfront, h, hlength]

theorem intercalate_inj {rest : List Char} {xs ys : List (List Char)}
    (hxs : ∀ x ∈ xs, ' ' ∉ x) (hys : ∀ y ∈ ys, ' ' ∉ y) (hxne : xs ≠ [])
    (hyne : ys ≠ [])
    (h : List.intercalate (' ' :: rest) xs =
      List.intercalate (' ' :: rest) ys) : xs = ys := by
  induction xs generalizing ys with
  | nil => exact absurd rfl hxne
  | cons x xs ih =>
      cases ys with
      | nil => exact absurd rfl hyne
      | cons y ys =>
          have hx := hxs x List.mem_cons_self
          have hy := hys y List.mem_cons_self
          cases xs with
          | nil =>
              cases ys with
              | nil => simpa using h
              | cons y' ys =>
                  rw [List.intercalate_singleton, List.intercalate_cons_cons]
                    at h
                  exact absurd (by simp [h]) hx
          | cons x' xs =>
              cases ys with
              | nil =>
                  rw [List.intercalate_singleton, List.intercalate_cons_cons]
                    at h
                  exact absurd (by simp [← h]) hy
              | cons y' ys =>
                  rw [List.intercalate_cons_cons, List.intercalate_cons_cons]
                    at h
                  simp only [List.append_assoc, List.cons_append] at h
                  obtain ⟨rfl, htail⟩ := append_cons_inj hx hy h
                  rw [ih (fun z hz => hxs z (List.mem_cons_of_mem _ hz))
                    (fun z hz => hys z (List.mem_cons_of_mem _ hz)) (by simp)
                      (by simp)
                    (List.append_cancel_left htail)]

/-! ## Numbers -/

theorem decimal_inj {m n : Nat} (h : Nat.toDigits 10 m = Nat.toDigits 10 n) :
    m = n := by
  have hread := congrArg (fun digits => Nat.ofDigitChars 10 digits 0) h
  simpa using hread

theorem notMem_decimal {c : Char} (hc : c.isDigit = false) (n : Nat) :
    c ∉ Nat.toDigits 10 n := by
  intro hmem
  have hdigit := Nat.isDigit_of_mem_toDigits (by decide) (by decide) hmem
  simp [hc] at hdigit

namespace Word

private theorem natOfBits_inj {xs ys : List Bool}
    (hlength : xs.length = ys.length) (h : natOfBits xs = natOfBits ys) :
    xs = ys := by
  induction xs generalizing ys with
  | nil => exact (List.length_eq_zero_iff.mp hlength.symm).symm
  | cons x xs ih =>
      cases ys with
      | nil => simp at hlength
      | cons y ys =>
          rw [natOfBits_cons, natOfBits_cons] at h
          have hhead : x = y := by cases x <;> cases y <;> simp at h ⊢ <;> omega
          subst hhead
          rw [ih (by simpa using hlength) (by omega)]

end Word

theorem hexDigits_eq {bits : List Bool} (h : bits ≠ []) :
    hexDigits bits =
      Nat.digitChar (Word.natOfBits (bits.take 4)) ::
        hexDigits (bits.drop 4) := by
  match bits with
  | [] => exact absurd rfl h
  | [_] => rfl
  | [_, _] => rfl
  | [_, _, _] => rfl
  | _ :: _ :: _ :: _ :: _ => rfl

theorem nibbles_induction {motive : List Bool → Prop} (nil : motive [])
    (cons : ∀ bits, bits ≠ [] → motive (bits.drop 4) → motive bits)
    (bits : List Bool) :
    motive bits := by
  by_cases hbits : bits = []
  · exact hbits ▸ nil
  · have hpos := List.length_pos_iff.mpr hbits
    exact cons bits hbits (nibbles_induction nil cons (bits.drop 4))
termination_by bits.length
decreasing_by
  rw [List.length_drop]
  omega

private theorem length_hexDigits (bits : List Bool) :
    (hexDigits bits).length = (bits.length + 3) / 4 := by
  induction bits using nibbles_induction with
  | nil => rfl
  | cons bits hbits ih =>
      have hpos := List.length_pos_iff.mpr hbits
      rw [hexDigits_eq hbits, List.length_cons, ih, List.length_drop]
      omega

theorem natOfBits_take_lt (bits : List Bool) :
    Word.natOfBits (bits.take 4) < 16 := by
  have hlt := Word.natOfBits_lt (bits.take 4)
  have hlength : (bits.take 4).length ≤ 4 := List.length_take_le 4 bits
  exact hlt.trans_le (Nat.pow_le_pow_right (by decide) hlength)

private theorem isAlphanum_of_mem_hexDigits {bits : List Bool} {c : Char}
    (h : c ∈ hexDigits bits) :
    c.isAlphanum = true := by
  have hdigit : ∀ n < 16, (Nat.digitChar n).isAlphanum = true := by decide
  induction bits using nibbles_induction with
  | nil => cases h
  | cons bits hbits ih =>
      rw [hexDigits_eq hbits] at h
      rcases List.mem_cons.mp h with rfl | h
      · exact hdigit _ (natOfBits_take_lt bits)
      · exact ih h

private theorem hexDigits_inj {xs ys : List Bool}
    (hlength : xs.length = ys.length) (h : hexDigits xs = hexDigits ys) :
    xs = ys := by
  have hdigit : ∀ m < 16,
      ∀ n < 16, Nat.digitChar m = Nat.digitChar n → m = n := by decide
  induction xs using nibbles_induction generalizing ys with
  | nil => exact (List.length_eq_zero_iff.mp hlength.symm).symm
  | cons xs hxs ih =>
      have hys : ys ≠ [] := by
        rintro rfl
        exact hxs (List.length_eq_zero_iff.mp hlength)
      rw [hexDigits_eq hxs, hexDigits_eq hys] at h
      obtain ⟨hhead, htail⟩ := List.cons.inj h
      have hlow : xs.take 4 = ys.take 4 := by
        apply Word.natOfBits_inj (by simp [hlength])
        exact hdigit _ (natOfBits_take_lt xs) _ (natOfBits_take_lt ys) hhead
      have hhigh : xs.drop 4 = ys.drop 4 := ih (by simp [hlength]) htail
      calc
        xs = xs.take 4 ++ xs.drop 4 := (List.take_append_drop 4 xs).symm
        _ = ys.take 4 ++ ys.drop 4 := by rw [hlow, hhigh]
        _ = ys := List.take_append_drop 4 ys

theorem exists_hexTextOfBits (bits : List Bool) :
    ∃ chars, (hexTextOfBits bits).toList = '0' :: 'x' :: chars ∧
      chars.dropWhile (· == '0') =
        (hexDigits bits).reverse.dropWhile (· == '0') ∧
      ∀ c ∈ chars, c.isAlphanum = true := by
  unfold hexTextOfBits
  split
  case h_1 hzero => exact ⟨['0'], rfl, by rw [hzero]; rfl,
    List.forall_mem_singleton.mpr rfl⟩
  case h_2 =>
      refine ⟨(hexDigits bits).reverse.dropWhile (· == '0'), by simp,
        List.dropWhile_idempotent _ _, fun c hc => ?_⟩
      have hmem := (List.dropWhile_sublist _).subset hc
      exact isAlphanum_of_mem_hexDigits (List.mem_reverse.mp hmem)

theorem hexTextOfBits_inj {xs ys : List Bool} (hlength : xs.length = ys.length)
    (h : hexTextOfBits xs = hexTextOfBits ys) : xs = ys := by
  obtain ⟨chars, hchars, hdigits, _⟩ := exists_hexTextOfBits xs
  obtain ⟨chars', hchars', hdigits', _⟩ := exists_hexTextOfBits ys
  have hsame : chars = chars' := by
    rw [h, hchars'] at hchars
    simpa using hchars.symm
  rw [hsame, hdigits'] at hdigits
  have hreverse :=
    eq_of_dropWhile_eq (by simp [length_hexDigits, hlength]) hdigits
  exact hexDigits_inj hlength (List.reverse_inj.mp hreverse).symm

theorem notMem_hexTextOfBits {c : Char} (hc : c.isAlphanum = false)
    (bits : List Bool) :
    c ∉ (hexTextOfBits bits).toList := by
  obtain ⟨chars, hchars, _, halphanum⟩ := exists_hexTextOfBits bits
  intro hmem
  have hletter : c.isAlphanum = true := by
    rw [hchars] at hmem
    rcases List.mem_cons.mp hmem with rfl | hmem
    · rfl
    · rcases List.mem_cons.mp hmem with rfl | hmem
      · rfl
      · exact halphanum c hmem
  simp [hc] at hletter

end SymbolicMachine
