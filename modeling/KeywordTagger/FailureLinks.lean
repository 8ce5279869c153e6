import KeywordTagger.Encoding

/-!
Failure links. When a state has no edge for a code, its link says where to go on: at the state of a
shorter word that the text read so far ends with. Links are found level by level, a child's from its
parent's. By one rule only the parent's link is tried; by the other the whole chain of links from
there is followed until some state has the edge.
-/

namespace KeywordTagger

inductive LinkRule where
  /-- Only at the link of the parent. -/
  | parentOnly
  /-- Along the chain of links that starts at the parent. -/
  | chained
deriving DecidableEq

/-- The link of each state; zero where the word of the state has none. -/
abbrev FailureLinks := Array Nat

namespace FailureLinks

open DoubleArray

def link (links : FailureLinks) (state : Nat) : Nat := links[state]?.getD rootState

/-- The state reached by a code from the first state of a chain of links that has the edge. The
chain is followed through at most `tries` states. -/
def follow (rule : LinkRule) (table : DoubleArray) (links : FailureLinks) (code : Nat) :
    Nat → Nat → Nat
  | 0, _ => rootState
  | tries + 1, state =>
    match table.next? (if state = rootState then startState else state) code with
    | some target => target
    | none =>
      if rule = .parentOnly ∨ state = rootState then rootState
      else follow rule table links code tries (links.link state)

/-- Links the children of a node. The word of a link gets shorter from one state of a chain to the
next, so the depth of the node bounds the chain. -/
def linkChildren (rule : LinkRule) (tree : PrefixTree) (table : DoubleArray) (links : FailureLinks)
    (n : Node) : FailureLinks :=
  (tree.inner n.children).foldl
    (fun links child =>
      let target := follow rule table links child.code n.depth (links.link n.state)
      links.setIfInBounds child.state target)
    links

/-- The nodes of at most `levels` levels that end no pattern, level by level, after those in
`found`. -/
def breadthFirst (tree : PrefixTree) : Nat → List Node → Array Node → Array Node
  | 0, _, found => found
  | _ + 1, [], found => found
  | levels + 1, level, found =>
    breadthFirst tree levels (level.flatMap fun n => tree.inner n.children) (found ++ level)

def linkOrder (tree : PrefixTree) : Array Node :=
  match tree.nodes[PrefixTree.rootId]? with
  | some root => breadthFirst tree tree.nodes.size (tree.inner root.children) #[]
  | none => #[]

def ofEncoding (rule : LinkRule) (e : Encoding) : FailureLinks :=
  let table := e.table
  (linkOrder e.tree).foldl (linkChildren rule e.tree table) (Array.replicate table.size rootState)

end FailureLinks

end KeywordTagger
