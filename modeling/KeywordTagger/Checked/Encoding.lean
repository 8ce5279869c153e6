import KeywordTagger.Encoding

/-!
The encoder with every access checked. Each function does what the one of its name without a
question mark does, as long as all slots, nodes and patterns that are asked for are there. It gives
nothing as soon as one is missing, when a bound ends a search or a run that is not done, and when a
claimed slot would be cut off behind the row.
-/

namespace KeywordTagger

namespace Checked

/-- Changes an entry that has to be there. -/
def store? {α : Type} (xs : Array α) (i : Nat) (f : α → α) : Option (Array α) :=
  if i < xs.size then some (xs.modify i f) else none

end Checked

namespace PrefixTree

def code? (t : PrefixTree) (id : Nat) : Option Nat := t.nodes[id]?.map Node.code

def codes? (t : PrefixTree) (ids : Span) : Option (List Nat) := ids.toList.mapM t.code?

/-- Expands a node, whose patterns have to be there as well. -/
def fetch? (t : PrefixTree) (id : Nat) : Option (Span × PrefixTree) := do
  let n ← t.nodes[id]?
  if n.left < n.right ∧ n.right ≤ t.dictionary.size then some (t.expand id) else none

def settle? (t : PrefixTree) (id slot : Nat) (base : Int) : Option PrefixTree := do
  let nodes ← Checked.store? t.nodes id fun n => { n with slot, base }
  return { t with nodes }

end PrefixTree

namespace Layout

def probe? (growth offset : Nat) : List Nat → Array Slot → Option (Bool × Array Slot)
  | [], slots => some (true, slots)
  | c :: codes, slots => do
    let slots := grow growth (offset + c + 1) slots
    let s ← slots[offset + c]?
    if s.isFree then probe? growth offset codes slots else some (false, slots)

def search? (growth : Nat) (used : Std.HashSet Nat) (codes : List Nat) :
    Nat → Nat → Array Slot → Option (Nat × Array Slot)
  | 0, _, _ => none
  | tries + 1, i, slots => do
    let first ← codes.head?
    let slots := grow growth (i + 1) slots
    let s ← slots[i]?
    if s.isFree && !used.contains (i - first) then
      let (fits, slots) ← probe? growth (i - first) codes slots
      if fits then some (i, slots) else search? growth used codes tries (i + 1) slots
    else search? growth used codes tries (i + 1) slots

def mark? (offset : Nat) : List Nat → Array Slot → Option (Array Slot)
  | [], slots => some slots
  | c :: codes, slots => do
    let slots ← Checked.store? slots (offset + c) fun s => { s with check := offset }
    mark? offset codes slots

def place? (growth : Nat) (codes : List Nat) (l : Layout) : Option (Nat × Layout) := do
  let first ← codes.head?
  let (position, slots) ← search? growth l.used codes (searchLength l.extent l.last first)
    (searchStart l.last first) l.slots
  let offset := position - first
  let slots ← mark? offset codes slots
  return (offset, {
    slots
    used := l.used.insert offset
    last := position
    extent := reach offset codes l.extent })

def setBase? (l : Layout) (i : Nat) (base : Int) : Option Layout := do
  let slots ← Checked.store? l.slots i fun s => { s with base }
  return { l with slots }

def setOutput? (l : Layout) (i id : Nat) : Option Layout := do
  let slots ← Checked.store? l.slots i fun s => { s with output := some id }
  return { l with slots }

/-- Cuts the row behind its highest claimed slot, where all slots have to be free. -/
def finish? (l : Layout) : Option DoubleArray :=
  if l.extent ≤ l.slots.size ∧ (l.slots.drop l.extent).all Slot.isFree then some l.finish else none

end Layout

namespace Encoding

def settle? (e : Encoding) (id slot : Nat) (base : Int) : Option Encoding := do
  let tree ← e.tree.settle? id slot base
  let layout ← e.layout.setBase? slot base
  return { tree, layout }

def settleEnd? (e : Encoding) (id slot : Nat) : Option Encoding := do
  let n ← e.tree.nodes[id]?
  let layout ← e.layout.setOutput? slot n.left
  settle? { e with layout } id slot (Slot.endBase n.left)

def place? (growth : Nat) (siblings : Span) (e : Encoding) : Option (Nat × Encoding) := do
  let codes ← e.tree.codes? siblings
  let (offset, layout) ← e.layout.place? growth codes
  return (offset, { e with layout })

def step? (growth : Nat) (e : Encoding) (g : Group) (rest : List Group) :
    Option (Encoding × List Group) :=
  if g.waiting.isEmpty then
    match g.parent with
    | some (id, slot) => do
      let e ← e.settle? id slot g.offset
      return (e, rest)
    | none => some (e, rest)
  else do
    let id := g.waiting.start
    let (children, tree) ← e.tree.fetch? id
    let e := { e with tree }
    let code ← e.tree.code? id
    let slot := g.offset + code
    let groups := { g with waiting := ⟨id + 1, g.waiting.stop⟩ } :: rest
    if children.isEmpty then
      let e ← e.settleEnd? id slot
      return (e, groups)
    else
      let (offset, e) ← e.place? growth children
      return (e, { waiting := children, offset, parent := some (id, slot) } :: groups)

def run? (growth : Nat) : Nat → Encoding → List Group → Option Encoding
  | _, e, [] => some e
  | 0, _, _ :: _ => none
  | steps + 1, e, g :: rest => do
    let (e, groups) ← e.step? growth g rest
    run? growth steps e groups

def ofDictionary? (growth : Nat) (d : Dictionary) : Option Encoding := do
  let (children, tree) ← (PrefixTree.ofDictionary d).fetch? PrefixTree.rootId
  let (offset, e) ← place? growth children { tree }
  let e ← run? growth (steps d) e [{ waiting := children, offset, parent := none }]
  let tree ← e.tree.settle? PrefixTree.rootId 0 offset
  return { e with tree }

def table? (e : Encoding) : Option DoubleArray := e.layout.finish?

end Encoding

end KeywordTagger
