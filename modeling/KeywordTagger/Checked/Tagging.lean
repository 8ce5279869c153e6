import KeywordTagger.Checked.FailureLinks
import KeywordTagger.Tagging

/-!
Finding and tagging with every access checked: a state that falls back has to have a link, an output
has to be the id of a pattern, and what is cut out of the positions or of the bytes of a line has to
lie within them, its start before its stop.
-/

namespace KeywordTagger

namespace Checked

/-- Whether a part that starts at `start` and stops at `stop` lies among `size` entries. -/
def Within (size start stop : Nat) : Prop := start ≤ stop ∧ stop ≤ size

instance (size start stop : Nat) : Decidable (Within size start stop) :=
  inferInstanceAs (Decidable (start ≤ stop ∧ stop ≤ size))

end Checked

namespace Automaton

open DoubleArray

def ofDictionary? (s : Settings) (d : Dictionary) : Option Automaton := do
  let e ← Encoding.ofDictionary? s.growth d
  let table ← e.table?
  let links ← FailureLinks.ofEncoding? s.rule e
  return { dictionary := d, table, links }

def retreat? (a : Automaton) (state : Nat) : Option Nat := do
  let link ← a.links[state]?
  return if link = rootState then startState else link

/-- The outer `none` is a failed access, or a bound that ends the loop; the inner one is that no
state has the edge. -/
def advanced? (a : Automaton) (code : Nat) : Nat → Nat → Option (Option Nat)
  | 0, _ => none
  | tries + 1, state =>
    match a.table.next? state code with
    | some target => some (some target)
    | none =>
      if state = startState then some none
      else do
        let state ← a.retreat? state
        a.advanced? code tries state

def report? (a : Automaton) (positions : Array (Option Char)) (state stop : Nat)
    (found : Array Match) : Option (Array Match) :=
  match a.table.output? state with
  | some id => do
    let p ← a.dictionary.patterns[id]?
    if stop < p.size then some found
    else if Checked.Within positions.size (stop - p.size) stop then
      if spells positions stop p then
        some (Match.record found { start := stop - p.size, stop, pattern := id })
      else some found
    else none
  | none => some found

def read? (a : Automaton) (positions : Array (Option Char)) (p : Progress) (k : Nat) :
    Option Progress := do
  match ← positions[k]? with
  | some c =>
    match ← a.advanced? c.toNat (k + 1) p.state with
    | some state =>
      let found ← a.report? positions state (k + 1) p.found
      return { state, found }
    | none => return { p with state := startState }
  | none => return { p with state := startState }

def findIn? (a : Automaton) (positions : Array (Option Char)) (found : Array Match) :
    Option (Array Match) := do
  let start : Progress := { found := found.shrink 0 }
  let last ← (List.range positions.size).foldlM (a.read? positions) start
  return last.found

end Automaton

def Woven.tag? (w : Woven) (line : ByteArray) (start stop : Nat) : Option Woven :=
  if Checked.Within line.size w.done start ∧ Checked.Within line.size start stop then
    some (w.tag line start stop)
  else none

def Woven.finish? (w : Woven) (line : ByteArray) : Option ByteArray :=
  if Checked.Within line.size w.done line.size then some (w.finish line) else none

def weave? (line : ByteArray) (d : Decoded) (chosen : Array Match) (output : ByteArray) :
    Option ByteArray := do
  let start : Woven := { output }
  let woven ← chosen.toList.foldlM (fun w m => do
    let first ← d.offsets[m.start]?
    let last ← d.offsets[m.stop]?
    w.tag? line first last) start
  woven.finish? line

namespace Automaton

def tagWith? (a : Automaton) (line : ByteArray) (scratch : Scratch) (output : ByteArray) :
    Option (Scratch × ByteArray) := do
  let decoded := scratch.decoded.refill line
  let found ← a.findIn? decoded.positions scratch.found
  let output ← weave? line decoded (Match.chosen found) output
  return ({ decoded, found }, output)

end Automaton

end KeywordTagger
