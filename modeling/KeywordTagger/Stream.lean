import KeywordTagger.Inflow
import KeywordTagger.Pool

/-!
Tagging a text line by line. A line keeps its terminator, which takes part in matching like any
other code point. Lines are tagged one after the other, or handed to a pool some at a time; either
way the tagged lines come out in order.
-/

namespace KeywordTagger

structure Written where
  count : Nat := 0
  output : ByteArray := .empty

namespace Written

def add (w : Written) (tagged : ByteArray) : Written where
  count := w.count + 1
  output := w.output ++ tagged

end Written

/-- A buffer for a line and one for what tagging makes of it, used again for every line. -/
structure Relay where
  line : ByteArray := .empty
  tagged : ByteArray := .empty
  written : Written := {}

namespace Relay

/-- A line is read and tagged behind what the buffers hold; then they are cleared. -/
def pass (a : Automaton) (r : Relay) (bytes : ByteArray) : Relay :=
  let line := r.line ++ bytes
  let tagged := a.tagInto line r.tagged
  { line := .empty, tagged := .empty, written := r.written.add tagged }

end Relay

structure Batch where
  pool : Pool
  waiting : Array ByteArray := #[]
  written : Written := {}

namespace Batch

/-- Hands the waiting lines to the pool and writes what comes back. -/
def flush (b : Batch) : Except TaggerError Batch :=
  if b.waiting.isEmpty then .ok b
  else
    (b.pool.tagLines b.waiting.toList).map fun (tagged, pool) =>
      { pool, written := tagged.foldl Written.add b.written }

/-- Adds a line, and flushes once there are `size` of them. -/
def push (size : Nat) (b : Batch) (line : ByteArray) : Except TaggerError Batch :=
  let b := { b with waiting := b.waiting.push line }
  if b.waiting.size < size then .ok b else b.flush

end Batch

namespace Automaton

/-- Tags lines one after the other. -/
def tagInOrder (a : Automaton) (lines : Array ByteArray) : Written :=
  (lines.foldl (Relay.pass a) {}).written

/-- Hands lines to a pool, `size` of them at a time; the workers and the memory for so many lines
were got before. The lines that still wait at the end are handed over then, but are lost when a fault
has broken off the reading. -/
def tagInBatches (a : Automaton) (threads size : Nat) (lines : Array ByteArray) (broken : Bool) :
    Except TaggerError Written := do
  let b ← lines.foldlM (Batch.push (max size 1)) { pool := .ofAutomaton a threads }
  let b ← if broken then .ok b else b.flush
  return b.written

/-- Tags the lines that come in, without a pool when `threads` is zero. -/
def tagInflow (a : Automaton) (threads size : Nat) (i : Inflow) : Except TaggerError Written :=
  if threads = 0 then .ok (a.tagInOrder i.lines)
  else a.tagInBatches threads size i.lines i.fault.isSome

def tagText (a : Automaton) (threads size : Nat) (text : ByteArray) : Except TaggerError Written :=
  a.tagInflow threads size { bytes := text }

end Automaton

end KeywordTagger
