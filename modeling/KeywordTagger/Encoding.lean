import KeywordTagger.Layout
import KeywordTagger.PrefixTree

/-!
The double array of a prefix tree. Siblings are placed when their parent is visited, and everything
below a node is placed before its next sibling is visited. The groups of siblings that wait for
their subtrees are kept in a list, so the length of a pattern bounds no recursion.
-/

namespace KeywordTagger

structure Group where
  waiting : Span
  /-- The state their slots are claimed for. -/
  offset : Nat
  /-- The place of the parent and its slot, which are to hold the offset. The root has no slot. -/
  parent : Option (Nat × Nat)
deriving DecidableEq

structure Encoding where
  tree : PrefixTree
  layout : Layout := {}

namespace Encoding

def settle (e : Encoding) (id slot : Nat) (base : Int) : Encoding where
  tree := e.tree.settle id slot base
  layout := e.layout.setBase slot base

def settleEnd (e : Encoding) (id slot left : Nat) : Encoding :=
  match e with
  | { tree, layout } =>
    settle { tree, layout := layout.setOutput slot left } id slot (Slot.endBase left)

def left (e : Encoding) (id : Nat) : Nat :=
  match e.tree.nodes[id]? with
  | some n => n.left
  | none => 0

/-- Claims slots for the nodes of a span and gives the state of their parent. -/
def place (growth : Nat) (siblings : Span) (e : Encoding) : Nat × Encoding :=
  let codes := e.tree.codes siblings
  match e with
  | { tree, layout } =>
    let (offset, layout) := layout.place growth codes
    (offset, { tree, layout })

def expand (e : Encoding) (id : Nat) : Span × Encoding :=
  match e with
  | { tree, layout } =>
    let (children, tree) := tree.expand id
    (children, { tree, layout })

def enter (growth : Nat) (e : Encoding) (id slot : Nat) (children : Span) (groups : List Group) :
    Encoding × List Group :=
  let (offset, e) := e.place growth children
  (e, { waiting := children, offset, parent := some (id, slot) } :: groups)

/-- Visits the next sibling of the innermost group, or leaves the group when all are visited. -/
def step (growth : Nat) (e : Encoding) (g : Group) (rest : List Group) : Encoding × List Group :=
  if g.waiting.isEmpty then
    match g.parent with
    | some (id, slot) => (e.settle id slot g.offset, rest)
    | none => (e, rest)
  else
    let id := g.waiting.start
    let (children, e) := e.expand id
    let slot := g.offset + e.tree.code id
    let groups := { g with waiting := ⟨id + 1, g.waiting.stop⟩ } :: rest
    if children.isEmpty then (e.settleEnd id slot (e.left id), groups)
    else e.enter growth id slot children groups

def run (growth : Nat) : Nat → Encoding → List Group → Encoding
  | 0, e, _ => e
  | _ + 1, e, [] => e
  | steps + 1, e, g :: rest =>
    let (e, groups) := step growth e g rest
    run growth steps e groups

/-- Enough steps for a dictionary: each node below the root is visited once, and the group of each
node is left once. -/
def steps (d : Dictionary) : Nat := 2 * d.weight + 2

def fill (growth : Nat) (siblings : Span) (e : Encoding) : Nat × Encoding :=
  let (offset, e) := e.place growth siblings
  (offset, run growth (steps e.tree.dictionary) e [{ waiting := siblings, offset, parent := none }])

def ofDictionary (growth : Nat) (d : Dictionary) : Encoding :=
  let (children, e) := expand { tree := .ofDictionary d } PrefixTree.rootId
  let (offset, e) := e.fill growth children
  { e with tree := e.tree.settle PrefixTree.rootId 0 offset }

def table (e : Encoding) : DoubleArray := e.layout.finish

end Encoding

end KeywordTagger
