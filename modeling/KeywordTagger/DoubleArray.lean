/-!
Double arrays. One row of slots holds all edges of a prefix tree: a state is a number, and its edge
for a code lies at their sum. A slot names the state its edge leaves, so a slot that another state
claimed is not mistaken, and holds the state the edge leads to. The end of a pattern has the code
zero, and its slot is therefore the state itself.
-/

namespace KeywordTagger

structure Slot where
  /-- The state the edge leads to, when positive; `-(id + 1)` at the end of the pattern `id`; zero in
  a free slot. -/
  base : Int := 0
  /-- The state the edge leaves; zero in a free slot. -/
  check : Nat := 0
  output : Option Nat := none
deriving DecidableEq

namespace Slot

def free : Slot := {}

def isFree (s : Slot) : Bool := s.check = 0

def endBase (id : Nat) : Int := -(id : Int) - 1

end Slot

structure DoubleArray where
  slots : Array Slot
deriving DecidableEq

namespace DoubleArray

/-- The number that stands for no state in a failure link. -/
def rootState : Nat := 0

/-- The state of the empty word, where every line begins. -/
def startState : Nat := 1

def size (a : DoubleArray) : Nat := a.slots.size

/-- The state that the edge for a code leads to. The end of a pattern is no edge. -/
def next? (a : DoubleArray) (state code : Nat) : Option Nat :=
  match a.slots[state + code]? with
  | some s => if s.check = state ∧ 0 < s.base then some s.base.toNat else none
  | none => none

def output? (a : DoubleArray) (state : Nat) : Option Nat :=
  match a.slots[state]? with
  | some s => s.output
  | none => none

/-- Appends to `passed` the states from `state` on along a word, as far as there are edges, and says
whether the word was read to its end. -/
def walkFrom (a : DoubleArray) (passed : Array Nat) (state : Nat) : List Char → Array Nat × Bool
  | [] => (passed.push state, true)
  | c :: cs =>
    match a.next? state c.toNat with
    | some target => walkFrom a (passed.push state) target cs
    | none => (passed.push state, false)

def walk (a : DoubleArray) (word : List Char) : Array Nat × Bool := a.walkFrom #[] startState word

end DoubleArray

end KeywordTagger
