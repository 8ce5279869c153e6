import KeywordTagger.Dictionary
import KeywordTagger.Span

/-!
The prefix tree of a dictionary. A node stands for the patterns that share its path from the root;
dictionary order keeps them together, so a node holds the span of their ids and no text. Children
are made on demand and lie next to each other in ascending order of their codes. A child with the
end code stands for the one pattern that ends at its parent, and comes first.
-/

namespace KeywordTagger

structure Node where
  code : Nat
  depth : Nat
  left : Nat
  /-- One past the last pattern below the node. -/
  right : Nat
  /-- The slot that stands for the edge in the double array; zero before one is chosen. -/
  slot : Nat := 0
  /-- What the slot holds: the state of the node or the mark of a pattern's end. -/
  base : Int := 0
  /-- The places of the children; empty before they are made. -/
  children : Span := {}
deriving DecidableEq

namespace Node

def isEnd (n : Node) : Bool := n.code = Dictionary.endCode

def ids (n : Node) : Span := ⟨n.left, n.right⟩

def state (n : Node) : Nat := n.base.toNat

/-- Puts one more pattern before the siblings that cover the patterns after it: it joins the first
of them when their codes agree and starts a sibling of its own otherwise. -/
def addPattern (depth id code : Nat) : List Node → List Node
  | [] => [{ code, depth, left := id, right := id + 1 }]
  | n :: ns =>
    if n.code = code then { n with left := id } :: ns
    else { code, depth, left := id, right := id + 1 } :: n :: ns

end Node

/-- The siblings at a depth that the patterns of a span branch into. -/
def Dictionary.branches (d : Dictionary) (depth : Nat) (ids : Span) : List Node :=
  ids.toList.foldr (fun id ns => Node.addPattern (depth + 1) id (d.code id depth) ns) []

structure PrefixTree where
  dictionary : Dictionary
  nodes : Array Node

namespace PrefixTree

def rootId : Nat := 0

/-- The code of the root, which no edge has: it is above every code point. -/
def rootCode : Nat := 4294967295

def ofDictionary (d : Dictionary) : PrefixTree where
  dictionary := d
  nodes := #[{ code := rootCode, depth := 0, left := 0, right := d.size }]

/-- The places of a node's children, which are made if they are not there yet, and the tree that
holds them. An end has no children. -/
def expand (t : PrefixTree) (id : Nat) : Span × PrefixTree :=
  match t with
  | { dictionary, nodes } =>
    match nodes[id]? with
    | none => ({}, { dictionary, nodes })
    | some n =>
      if n.isEnd then ({}, { dictionary, nodes })
      else if n.children.isEmpty then
        let below := dictionary.branches n.depth n.ids
        let children : Span := ⟨nodes.size, nodes.size + below.length⟩
        (children, {
          dictionary
          nodes := (nodes ++ below).modify id fun n => { n with children } })
      else (n.children, { dictionary, nodes })

def expand? (t : PrefixTree) (id : Nat) : Option (Span × PrefixTree) :=
  if id < t.nodes.size then some (t.expand id) else none

/-- The code points from the root down to a node; for an end, its whole pattern. -/
def path (t : PrefixTree) (n : Node) : Pattern :=
  match t.dictionary.patterns[n.left]? with
  | some p => p.take n.depth
  | none => #[]

def code (t : PrefixTree) (id : Nat) : Nat :=
  match t.nodes[id]? with
  | some n => n.code
  | none => Dictionary.endCode

def codes (t : PrefixTree) (ids : Span) : List Nat := ids.toList.map t.code

def settle (t : PrefixTree) (id slot : Nat) (base : Int) : PrefixTree where
  dictionary := t.dictionary
  nodes := t.nodes.modify id fun n => { n with slot, base }

/-- The children of a node that end no pattern. -/
def inner (t : PrefixTree) (ids : Span) : List Node :=
  (ids.toList.filterMap fun id => t.nodes[id]?).filter fun n => !n.isEnd

end PrefixTree

end KeywordTagger
