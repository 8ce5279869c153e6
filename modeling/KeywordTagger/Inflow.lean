import KeywordTagger.FileError
import KeywordTagger.Text.Line

/-!
What comes in when something is read: bytes, and then their end or a fault. Read line by line, a
fault takes with it the line that it falls into.
-/

namespace KeywordTagger

structure Inflow where
  bytes : ByteArray
  fault : Option FileError := none

namespace Inflow

/-- What comes in of some bytes, when a fault follows the first of them. A fault behind their end is
not met. -/
def ofBytes (bytes : ByteArray) : Option (Nat × FileError) → Inflow
  | some (n, e) =>
    if n ≤ bytes.size then { bytes := bytes.extract 0 n, fault := some e } else { bytes }
  | none => { bytes }

/-- All the bytes, if their end is reached. -/
def whole (i : Inflow) : Except FileError ByteArray :=
  match i.fault with
  | none => .ok i.bytes
  | some e => .error e

def lines (i : Inflow) : Array ByteArray :=
  match i.fault with
  | none => Text.lines i.bytes
  | some _ => (Text.lines i.bytes).filter Text.isTerminated

end Inflow

end KeywordTagger
