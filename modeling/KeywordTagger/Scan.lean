import KeywordTagger.Automaton
import KeywordTagger.Text.Decoded

/-!
Finding patterns in a line. The automaton reads the positions of a line from left to right and keeps
one state. A code point without an edge sends it along the failure links; a byte that belongs to no
code point sends it back to the start. A state that ends a pattern gives a match, and of matches
that start at one position the last found, which is the longest, is kept.
-/

namespace KeywordTagger

structure Match where
  start : Nat
  stop : Nat
  pattern : Nat
deriving DecidableEq

namespace Match

def span (m : Match) : Span := ⟨m.start, m.stop⟩

/-- Adds a match to those found before; it takes the place of the last one if both start at the same
position. -/
def record (found : Array Match) (m : Match) : Array Match :=
  match found.back? with
  | some last => if last.start = m.start then found.pop.push m else found.push m
  | none => found.push m

end Match

namespace Automaton

open DoubleArray

def retreat (a : Automaton) (state : Nat) : Nat :=
  match a.links[state]? with
  | some link => if link = rootState then startState else link
  | none => startState

/-- The state that a code leads to from `state` or from the first state with such an edge along its
links, of which at most `tries` states are tried. -/
def advance? (a : Automaton) (code : Nat) : Nat → Nat → Option Nat
  | 0, _ => none
  | tries + 1, state =>
    match a.table.next? state code with
    | some target => some target
    | none => if state = startState then none else a.advance? code tries (a.retreat state)

def holds (positions : Array (Option Char)) (i : Nat) (c : Char) : Bool :=
  match positions[i]? with
  | some (some d) => d == c
  | _ => false

/-- Whether the positions that end before `stop` spell a pattern. -/
def spells (positions : Array (Option Char)) (stop : Nat) (p : Pattern) : Bool :=
  p.size ≤ stop && p.size.all fun i h => holds positions (stop - p.size + i) p[i]

structure Progress where
  state : Nat := startState
  found : Array Match := #[]
deriving DecidableEq

def report (a : Automaton) (positions : Array (Option Char)) (state stop : Nat)
    (found : Array Match) : Array Match :=
  match a.table.output? state with
  | some id =>
    match a.dictionary.patterns[id]? with
    | some p =>
      if spells positions stop p then
        Match.record found { start := stop - p.size, stop, pattern := id }
      else found
    | none => found
  | none => found

/-- Reads the position `k`. A state reached after `k` positions has a word of at most `k` code
points, and each link shortens it, so `k + 1` states are enough to try. -/
def read (a : Automaton) (positions : Array (Option Char)) (k : Nat) (p : Progress) : Progress :=
  match positions[k]? with
  | some (some c) =>
    match a.advance? c.toNat (k + 1) p.state with
    | some state => { state, found := a.report positions state (k + 1) p.found }
    | none => { p with state := startState }
  | _ => { p with state := startState }

def readFirst (a : Automaton) (positions : Array (Option Char)) (found : Array Match) (n : Nat) :
    Progress :=
  n.fold (fun k _ p => a.read positions k p) { found := found.shrink 0 }

/-- The matches in the positions of a line, written over whatever `found` held. -/
def findIn (a : Automaton) (positions : Array (Option Char)) (found : Array Match) : Array Match :=
  (a.readFirst positions found positions.size).found

def find (a : Automaton) (line : ByteArray) : Array Match :=
  a.findIn (Decoded.ofBytes line).positions #[]

end Automaton

end KeywordTagger
