import KeywordTagger.Text.Utf8

/-!
Lines as positions. A byte string is read in blocks, a text as far as it is well-formed and the
broken sequence behind it. Every code point of the text is a position; a byte of the broken sequence
is a position of its own that holds no code point. Every position keeps the offset of its first
byte, and one more offset marks the end, so the slices between neighbouring offsets put the bytes
together again.
-/

namespace KeywordTagger

structure Decoded where
  /-- The code point of each position; `none` for a byte that belongs to no code point. -/
  positions : Array (Option Char) := #[]
  /-- The first byte of each position, then the length of the line. -/
  offsets : Array Nat := #[]
deriving DecidableEq

namespace Decoded

def clear (d : Decoded) : Decoded where
  positions := d.positions.shrink 0
  offsets := d.offsets.shrink 0

def push (d : Decoded) (c : Option Char) (i : Nat) : Decoded where
  positions := d.positions.push c
  offsets := d.offsets.push i

/-- Reads the text that starts at a byte. -/
def readText (bytes : ByteArray) (i : Nat) (d : Decoded) : Decoded :=
  if i < bytes.size then
    match bytes.utf8DecodeChar? i with
    | some c => readText bytes (i + c.utf8Size) (d.push (some c) i)
    | none => d
  else d
termination_by bytes.size - i
decreasing_by
  have := c.utf8Size_pos
  omega

/-- Reads some bytes of a broken sequence. -/
def readStray (i : Nat) : Nat → Decoded → Decoded
  | 0, d => d
  | n + 1, d => readStray (i + 1) n (d.push none i)

def readBlocks (bytes : ByteArray) (i : Nat) (d : Decoded) : Decoded :=
  if i < bytes.size then
    let stop := Utf8.textStop bytes i
    let stray := Utf8.brokenLength bytes stop
    readBlocks bytes (stop + stray) (readStray stop stray (readText bytes i d))
  else { d with offsets := d.offsets.push bytes.size }
termination_by bytes.size - i
decreasing_by
  have := Utf8.lt_textStop_add_brokenLength ‹i < bytes.size›
  omega

/-- The positions of `bytes`, written over whatever the buffers held. -/
def refill (d : Decoded) (bytes : ByteArray) : Decoded := readBlocks bytes 0 d.clear

def ofBytes (bytes : ByteArray) : Decoded := refill {} bytes

@[simp] theorem clear_eq (d : Decoded) : d.clear = {} := by
  simp [clear]

theorem refill_eq_ofBytes (d : Decoded) (bytes : ByteArray) : d.refill bytes = ofBytes bytes := by
  simp [refill, ofBytes]

end Decoded

end KeywordTagger
