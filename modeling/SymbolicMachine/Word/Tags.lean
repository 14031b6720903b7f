import Std.Data.TreeSet
import SymbolicMachine.Word

/-!
# Tags

The tags of a word are those of the tagged variables in its formulas.  The walk
enters every node once: it remembers a node when all variables below it have
been seen, so meeting it again adds nothing.
-/

namespace SymbolicMachine

structure TagWalk where
  tags : Std.TreeSet Nat := {}
  seen : Std.TreeSet Nat := {}

namespace TagWalk

def addVar (walk : TagWalk) (v : Var) : TagWalk :=
  match v.tag? with
  | some (tag, _) => { walk with tags := walk.tags.insert tag }
  | none => walk

def markSeen (walk : TagWalk) (node : Nat) : TagWalk :=
  { walk with seen := walk.seen.insert node }

end TagWalk

def Bit.walkTags : Bit → TagWalk → TagWalk
  | .literal _, walk => walk
  | .var v, walk => walk.addVar v
  | .neg node x, walk =>
      if node ∈ walk.seen then walk else (x.walkTags walk).markSeen node
  | .conj nodeX x nodeY y, walk =>
      let walk :=
        if nodeX ∈ walk.seen then walk else (x.walkTags walk).markSeen nodeX
      if nodeY ∈ walk.seen then walk else (y.walkTags walk).markSeen nodeY

def Word.tags (w : Word) : Std.TreeSet Nat :=
  (w.bits.foldl (fun walk b => b.walkTags walk) ({} : TagWalk)).tags

end SymbolicMachine
