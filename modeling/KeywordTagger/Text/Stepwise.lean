import KeywordTagger.Text.Decoded

/-!
Lines read position by position. Where the encoding of a code point starts, that code point is the
next position; any other byte is a position of its own, after which reading goes on at once.
-/

namespace KeywordTagger.Decoded

def readFrom (bytes : ByteArray) (i : Nat) (d : Decoded) : Decoded :=
  if i < bytes.size then
    match bytes.utf8DecodeChar? i with
    | some c => readFrom bytes (i + c.utf8Size) (d.push (some c) i)
    | none => readFrom bytes (i + 1) (d.push none i)
  else { d with offsets := d.offsets.push bytes.size }
termination_by bytes.size - i
decreasing_by
  · have := c.utf8Size_pos
    omega
  · omega

/-- The greedy reading of a line from a byte on: what its positions hold and where they start, with
the end of the line behind them. -/
inductive Reads (bytes : ByteArray) : Nat → List (Option Char) → List Nat → Prop where
  | char {i : Nat} {c : Char} {cs : List (Option Char)} {os : List Nat} :
      bytes.extract i (i + c.utf8Size) = [c].utf8Encode →
      Reads bytes (i + c.utf8Size) cs os → Reads bytes i (some c :: cs) (i :: os)
  | stray {i : Nat} {cs : List (Option Char)} {os : List Nat} : i < bytes.size →
      (∀ c : Char, bytes.extract i (i + c.utf8Size) ≠ [c].utf8Encode) →
      Reads bytes (i + 1) cs os → Reads bytes i (none :: cs) (i :: os)
  | stop : Reads bytes bytes.size [] [bytes.size]

end KeywordTagger.Decoded
