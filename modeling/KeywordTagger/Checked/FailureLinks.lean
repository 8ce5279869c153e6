import KeywordTagger.Checked.Encoding
import KeywordTagger.FailureLinks

/-!
Failure links with every access checked: the state of a node has to be positive before it is an
index, every link that is read or written has to be there, and no chain may be cut short.
-/

namespace KeywordTagger

/-- The state that a node holds as its base. -/
def Node.state? (n : Node) : Option Nat := if 0 < n.base then some n.base.toNat else none

def PrefixTree.inner? (t : PrefixTree) (ids : Span) : Option (List Node) := do
  let children ← ids.toList.mapM fun id => t.nodes[id]?
  return children.filter fun n => !n.isEnd

namespace FailureLinks

open DoubleArray

def follow? (rule : LinkRule) (table : DoubleArray) (links : FailureLinks) (code : Nat) :
    Nat → Nat → Option Nat
  | 0, _ => none
  | tries + 1, state =>
    match table.next? (if state = rootState then startState else state) code with
    | some target => some target
    | none =>
      if rule = .parentOnly ∨ state = rootState then some rootState
      else do
        let link ← links[state]?
        follow? rule table links code tries link

/-- Writes the link of a node. -/
def set? (links : FailureLinks) (n : Node) (target : Nat) : Option FailureLinks := do
  let state ← n.state?
  Checked.store? links state fun _ => target

/-- Links a child of `n`, whose slot has to be there too. -/
def linkChild? (rule : LinkRule) (table : DoubleArray) (n : Node) (links : FailureLinks)
    (child : Node) : Option FailureLinks := do
  let _ ← table.slots[child.slot]?
  let state ← n.state?
  let link ← links[state]?
  let target ← follow? rule table links child.code n.depth link
  set? links child target

def linkChildren? (rule : LinkRule) (tree : PrefixTree) (table : DoubleArray) (links : FailureLinks)
    (n : Node) : Option FailureLinks := do
  let children ← tree.inner? n.children
  children.foldlM (linkChild? rule table n) links

def ofEncoding? (rule : LinkRule) (e : Encoding) : Option FailureLinks := do
  let table ← e.table?
  let root ← e.tree.nodes[PrefixTree.rootId]?
  let children ← e.tree.inner? root.children
  let links : FailureLinks := Array.replicate table.size rootState
  let links ← children.foldlM (fun links child => links.set? child rootState) links
  (linkOrder e.tree).toList.foldlM (linkChildren? rule e.tree table) links

end FailureLinks

end KeywordTagger
