import KeywordTagger.Scan

/-!
The loops over failure links without a bound. As functions they are told how many links may be
followed; the relations here say what the loops do as long as they go on, and whether they end is
left open. The loop that finds the links takes nodes from the front of a queue, links their children
and puts these at its end; of each child it leaves an entry in a log.
-/

namespace KeywordTagger

/-- Going on with a code from a state and then from the states along its links, until one of them
has an edge for the code or the start has none. -/
inductive Automaton.Retries (a : Automaton) (code : Nat) : Nat → Option Nat → Prop where
  | edge {state target : Nat} : a.table.next? state code = some target →
      Retries a code state (some target)
  | stuck : a.table.next? DoubleArray.startState code = none →
      Retries a code DoubleArray.startState none
  | retreat {state : Nat} {result : Option Nat} : a.table.next? state code = none →
      state ≠ DoubleArray.startState → Retries a code (a.retreat state) result →
      Retries a code state result

namespace FailureLinks

open DoubleArray

/-- Following links from a state that may be no state. The links read on the way are kept, each with
the state it was read at. -/
inductive Follows (rule : LinkRule) (table : DoubleArray) (links : FailureLinks) (code : Nat) :
    Nat → List (Nat × Nat) → Nat → Prop where
  | edge {state target : Nat} :
      table.next? (if state = rootState then startState else state) code = some target →
      Follows rule table links code state [] target
  | stuck {state : Nat} :
      table.next? (if state = rootState then startState else state) code = none →
      rule = .parentOnly ∨ state = rootState → Follows rule table links code state [] rootState
  | link {state link target : Nat} {reads : List (Nat × Nat)} :
      table.next? (if state = rootState then startState else state) code = none →
      ¬ (rule = .parentOnly ∨ state = rootState) → links[state]? = some link →
      Follows rule table links code link reads target →
      Follows rule table links code state ((state, link) :: reads) target

/-- A link that was found: the state it belongs to and the links that were read for it. -/
structure Entry where
  state : Nat
  reads : List (Nat × Nat)
deriving DecidableEq

/-- Linking the children of a node, one after the other. -/
inductive LinksChildren (rule : LinkRule) (table : DoubleArray) (n : Node) :
    List Node → FailureLinks → List Entry → FailureLinks → Prop where
  | nil {links : FailureLinks} : LinksChildren rule table n [] links [] links
  | cons {child : Node} {children : List Node} {links final : FailureLinks} {link target : Nat}
      {reads : List (Nat × Nat)} {log : List Entry} :
      links[n.state]? = some link → Follows rule table links child.code link reads target →
      LinksChildren rule table n children (links.setIfInBounds child.state target) log final →
      LinksChildren rule table n (child :: children) links
        (⟨child.state, (n.state, link) :: reads⟩ :: log) final

/-- Linking the children of all nodes in a queue and of those that are put into it meanwhile. -/
inductive Builds (rule : LinkRule) (tree : PrefixTree) (table : DoubleArray) :
    List Node → FailureLinks → List Entry → FailureLinks → Prop where
  | done {links : FailureLinks} : Builds rule tree table [] links [] links
  | visit {n : Node} {queue : List Node} {links linked final : FailureLinks}
      {log later : List Entry} :
      LinksChildren rule table n (tree.inner n.children) links log linked →
      Builds rule tree table (queue ++ tree.inner n.children) linked later final →
      Builds rule tree table (n :: queue) links (log ++ later) final

end FailureLinks

end KeywordTagger
