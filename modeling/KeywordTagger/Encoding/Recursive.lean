import KeywordTagger.Encoding

/-!
The same encoding by recursion on the tree: some siblings are placed, and then, sibling by sibling,
everything below them. The recursion is as deep as the longest pattern, which is why the encoding
itself keeps its groups in a list. As a relation it says what the recursion does without a bound;
as a function it is told how many levels may lie below.
-/

namespace KeywordTagger

def Dictionary.longest (d : Dictionary) : Nat := d.patterns.foldl (fun n p => max n p.size) 0

namespace Encoding

/-- Visiting siblings whose parent has the state `offset`. A sibling without children is an end; the
children of any other are placed and visited, and their offset is its state. -/
inductive Visits (growth : Nat) : Nat → List Nat → Encoding → Encoding → Prop where
  | nil {offset : Nat} {e : Encoding} : Visits growth offset [] e e
  | ending {offset id : Nat} {ids : List Nat} {e made e' : Encoding} {children : Span} :
      e.expand id = (children, made) → children.isEmpty = true →
      Visits growth offset ids (made.settleEnd id (offset + made.tree.code id) (made.left id)) e' →
      Visits growth offset (id :: ids) e e'
  | inner {offset id state : Nat} {ids : List Nat} {e made placed filled e' : Encoding}
      {children : Span} :
      e.expand id = (children, made) → children.isEmpty = false →
      made.place growth children = (state, placed) →
      Visits growth state children.toList placed filled →
      Visits growth offset ids (filled.settle id (offset + made.tree.code id) state) e' →
      Visits growth offset (id :: ids) e e'

/-- Visits a sibling when `fill` encodes what is below it. -/
def visit (fill : Span → Encoding → Nat × Encoding) (offset : Nat) (e : Encoding) (id : Nat) :
    Encoding :=
  let (children, e) := e.expand id
  let slot := offset + e.tree.code id
  if children.isEmpty then e.settleEnd id slot (e.left id)
  else
    let (state, e) := fill children e
    e.settle id slot state

end Encoding

end KeywordTagger
