import SymbolicMachine.Word

/-!
# The text of a word

A word is written in segments, the most significant one first.  A segment is a
run of literals, of neighbouring variables of one tag, of consecutive fresh
variables, or of compound bits.
-/

namespace SymbolicMachine

def hexText (n : Nat) : String :=
  "0x" ++ String.ofList (Nat.toDigits 16 n)

/--
The hexadecimal digits of bits, both least significant first; four bits make a
digit.
-/
def hexDigits : List Bool → List Char
  | [] => []
  | a :: b :: c :: d :: bits =>
      Nat.digitChar (Word.natOfBits [a, b, c, d]) :: hexDigits bits
  | bits => [Nat.digitChar (Word.natOfBits bits)]

def hexTextOfBits (bits : List Bool) : String :=
  match (hexDigits bits).reverse.dropWhile (· == '0') with
  | [] => "0x0"
  | digits => "0x" ++ String.ofList digits

def tagText (tag : Nat) : String :=
  s!"%{tag}"

inductive Segment where
  /-- The most significant bit first. -/
  | literal (bits : List Bool)
  /-- Variables `low` to `high` of a tag, without `high`. -/
  | tagged (tag low high : Nat)
  | fresh (first width : Nat)
  | compound (width : Nat)
  deriving DecidableEq, Repr

namespace Segment

def ofBit : Bit → Segment
  | .literal value => .literal [value]
  | .var v =>
      match v.tag? with
      | some (tag, index) => .tagged tag index (index + 1)
      | none => .fresh v.id 1
  | _ => .compound 1

/-- The segment with one more bit above it, if that bit continues the run. -/
def extend? (segment : Segment) (b : Bit) : Option Segment :=
  match segment, b with
  | .literal bits, .literal value => some (.literal (value :: bits))
  | .tagged tag low high, .var v =>
      if v.tag? = some (tag, high) then some (.tagged tag low (high + 1))
      else none
  | .fresh first width, .var v =>
      if v.id = first + width then some (.fresh first (width + 1)) else none
  | .compound width, .neg .. => some (.compound (width + 1))
  | .compound width, .conj .. => some (.compound (width + 1))
  | _, _ => none

/-- A literal segment tells its width unless it is the whole word. -/
def text (name : Nat → String) (alone : Bool) : Segment → String
  | .literal bits =>
      let digits := hexTextOfBits bits.reverse
      if alone then digits else s!"{digits}:{bits.length}"
  | .tagged tag low high => s!"{name tag}[{low}..{high}]"
  | .fresh first width => s!"${first}:{width}"
  | .compound width => s!"expr:{width}"

def push (segments : List Segment) (b : Bit) : List Segment :=
  match segments with
  | [] => [ofBit b]
  | top :: rest =>
      match top.extend? b with
      | some longer => longer :: rest
      | none => ofBit b :: top :: rest

end Segment

namespace Word

def segments (w : Word) : List Segment :=
  w.bits.foldl Segment.push []

def render (name : Nat → String) (w : Word) : String :=
  match w.segments with
  | [] => "<empty>"
  | [segment] => segment.text name true
  | segments => " . ".intercalate (segments.map (Segment.text name false))

def text (w : Word) : String :=
  w.render tagText

end Word

end SymbolicMachine
