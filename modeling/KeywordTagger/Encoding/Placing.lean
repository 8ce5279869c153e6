import KeywordTagger.Encoding

/-!
The calls that place siblings, one after the other, in a run of the encoder. A call is known by what
it is given; what it gives back follows from that. The slot search of a call is told how many slots
it may have to try; as a relation it tries one slot after the other until one does.
-/

namespace KeywordTagger

/-- The slot search without a bound, from one slot on. A slot is passed over when it is claimed,
when its offset is used or when the siblings meet a claimed slot; by then the row may be longer. -/
inductive Layout.Searches (growth : Nat) (used : Std.HashSet Nat) (codes : List Nat) :
    Nat → Array Slot → Nat → Array Slot → Prop where
  | fits {i : Nat} {slots row : Array Slot} :
      isFree (grow growth (i + 1) slots) i = true →
      used.contains (i - codes.headD 0) = false →
      probe growth (i - codes.headD 0) codes (grow growth (i + 1) slots) = (true, row) →
      Searches growth used codes i slots i row
  | claimed {i position : Nat} {slots row : Array Slot} :
      isFree (grow growth (i + 1) slots) i = false →
      Searches growth used codes (i + 1) (grow growth (i + 1) slots) position row →
      Searches growth used codes i slots position row
  | used {i position : Nat} {slots row : Array Slot} :
      isFree (grow growth (i + 1) slots) i = true →
      used.contains (i - codes.headD 0) = true →
      Searches growth used codes (i + 1) (grow growth (i + 1) slots) position row →
      Searches growth used codes i slots position row
  | meets {i position : Nat} {slots longer row : Array Slot} :
      isFree (grow growth (i + 1) slots) i = true →
      used.contains (i - codes.headD 0) = false →
      probe growth (i - codes.headD 0) codes (grow growth (i + 1) slots) = (false, longer) →
      Searches growth used codes (i + 1) longer position row →
      Searches growth used codes i slots position row

/-- What a call that places siblings is given. -/
structure Placing where
  before : Encoding
  siblings : Span

namespace Placing

variable (growth : Nat) (p : Placing)

def codes : List Nat := p.before.tree.codes p.siblings

def offset : Nat := (p.before.place growth p.siblings).1

def after : Encoding := (p.before.place growth p.siblings).2

/-- The slot of the first sibling. -/
def position : Nat := (p.after growth).layout.last

end Placing

namespace Encoding

/-- The first call of a run is given the children of the root. -/
def firstPlacing (d : Dictionary) : Placing :=
  let (children, e) := expand { tree := .ofDictionary d } PrefixTree.rootId
  { before := e, siblings := children }

/-- The call that is made when the innermost group is visited next, if there is one. -/
def placing? (e : Encoding) (g : Group) : Option Placing :=
  if g.waiting.isEmpty then none
  else
    let (children, e) := e.expand g.waiting.start
    if children.isEmpty then none else some { before := e, siblings := children }

/-- What a run reaches from a dictionary, with the calls made on the way. -/
inductive Reaches (growth : Nat) (d : Dictionary) :
    List Placing → Encoding → List Group → Prop where
  | start : Reaches growth d [firstPlacing d] ((firstPlacing d).after growth)
      [{ waiting := (firstPlacing d).siblings, offset := (firstPlacing d).offset growth,
         parent := none }]
  | step {placings : List Placing} {e : Encoding} {g : Group} {rest : List Group} :
      Reaches growth d placings e (g :: rest) →
      Reaches growth d (placings ++ (e.placing? g).toList) (e.step growth g rest).1
        (e.step growth g rest).2

end Encoding

end KeywordTagger
