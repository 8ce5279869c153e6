import KeywordTagger.DoubleArray
import Std.Data.HashSet

/-!
Where siblings go in a double array. Siblings share one offset, which becomes their parent's state:
the slot of each is the offset plus its code. The slot of the first sibling moves to the right from
call to call; it is the least place past the former one at which no sibling meets a claimed slot and
the offset is new. The row is made longer, by free slots, wherever the search looks past its end, so
far enough to the right everything fits, and the search is told how far it may have to look.
-/

namespace KeywordTagger

structure Layout where
  slots : Array Slot := #[]
  used : Std.HashSet Nat := {}
  /-- The slot of the last siblings' first. -/
  last : Nat := 0
  /-- One past the highest claimed slot. -/
  extent : Nat := 0

namespace Layout

/-- Whether a slot is free; past the end of a row all are. -/
def isFree (slots : Array Slot) (i : Nat) : Bool :=
  match slots[i]? with
  | some s => s.isFree
  | none => true

/-- Where the slot search for siblings begins. Positions start past the first code, so that every
offset is positive and no state is mistaken for the mark of a free slot. -/
def searchStart (last first : Nat) : Nat := max first (last + 1) + 1

/-- How many slots the search may have to try. Past `extent + first` everything fits. -/
def searchLength (extent last first : Nat) : Nat := extent + first - searchStart last first + 1

/-- Appends free slots, a multiple of `growth` at a time, until there are `size` of them. -/
def grow (growth size : Nat) (slots : Array Slot) : Array Slot :=
  if size ≤ slots.size then slots
  else
    let unit := max growth 1
    slots ++ Array.replicate (((size - slots.size - 1) / unit + 1) * unit) Slot.free

/-- Looks at the slots of siblings, up to the first that is claimed. -/
def probe (growth offset : Nat) : List Nat → Array Slot → Bool × Array Slot
  | [], slots => (true, slots)
  | c :: codes, slots =>
    let slots := grow growth (offset + c + 1) slots
    if isFree slots (offset + c) then probe growth offset codes slots else (false, slots)

/-- Looks for a slot for the first of some siblings, from `i` on. -/
def search (growth : Nat) (used : Std.HashSet Nat) (codes : List Nat) :
    Nat → Nat → Array Slot → Nat × Array Slot
  | 0, i, slots => (i, slots)
  | tries + 1, i, slots =>
    let slots := grow growth (i + 1) slots
    let offset := i - codes.headD 0
    if isFree slots i && !used.contains offset then
      match probe growth offset codes slots with
      | (true, slots) => (i, slots)
      | (false, slots) => search growth used codes tries (i + 1) slots
    else search growth used codes tries (i + 1) slots

def mark (offset : Nat) (codes : List Nat) (slots : Array Slot) : Array Slot :=
  codes.foldl (fun slots c => slots.modify (offset + c) fun s => { s with check := offset }) slots

def reach (offset : Nat) (codes : List Nat) (extent : Nat) : Nat :=
  codes.foldl (fun n c => max n (offset + c + 1)) extent

def place (growth : Nat) (codes : List Nat) (l : Layout) : Nat × Layout :=
  match l with
  | { slots, used, last, extent } =>
    let first := codes.headD 0
    let (position, slots) := search growth used codes (searchLength extent last first)
      (searchStart last first) slots
    let offset := position - first
    (offset, {
      slots := mark offset codes slots
      used := used.insert offset
      last := position
      extent := reach offset codes extent })

def setBase (l : Layout) (i : Nat) (base : Int) : Layout :=
  { l with slots := l.slots.modify i fun s => { s with base } }

def setOutput (l : Layout) (i id : Nat) : Layout :=
  { l with slots := l.slots.modify i fun s => { s with output := some id } }

/-- The row up to its highest claimed slot. -/
def finish (l : Layout) : DoubleArray where
  slots := l.slots.take l.extent

end Layout

end KeywordTagger
