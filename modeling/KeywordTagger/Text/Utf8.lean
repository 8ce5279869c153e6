/-!
Where well-formed UTF-8 stops. A text goes on while encodings of code points follow one another.
Behind it stands a broken sequence, which ends before the first byte that cannot go on the encoding
it begins, or breaks off with the end of the bytes.
-/

namespace KeywordTagger.Utf8

/-- The end of the text that starts at a byte: no code point starts there. -/
def textStop (bytes : ByteArray) (i : Nat) : Nat :=
  if i < bytes.size then
    match bytes.utf8DecodeChar? i with
    | some c => textStop bytes (i + c.utf8Size)
    | none => i
  else i
termination_by bytes.size - i
decreasing_by
  have := c.utf8Size_pos
  omega

/-- The least and the greatest byte at each place of an encoding behind its first byte. There are no
such places behind a byte that is an encoding by itself or begins none. -/
def laterBytes (first : UInt8) : List (UInt8 × UInt8) :=
  if first < 0xC2 then []
  else if first < 0xE0 then [(0x80, 0xBF)]
  else if first = 0xE0 then [(0xA0, 0xBF), (0x80, 0xBF)]
  else if first = 0xED then [(0x80, 0x9F), (0x80, 0xBF)]
  else if first < 0xF0 then [(0x80, 0xBF), (0x80, 0xBF)]
  else if first = 0xF0 then [(0x90, 0xBF), (0x80, 0xBF), (0x80, 0xBF)]
  else if first < 0xF4 then [(0x80, 0xBF), (0x80, 0xBF), (0x80, 0xBF)]
  else if first = 0xF4 then [(0x80, 0x8F), (0x80, 0xBF), (0x80, 0xBF)]
  else []

/-- How many bytes lie in the ranges for their places, up to the first that does not; `none` when
there are fewer bytes than places. -/
def fitting? (bytes : ByteArray) (i : Nat) : List (UInt8 × UInt8) → Option Nat
  | [] => some 0
  | (least, greatest) :: places =>
    match bytes[i]? with
    | some b =>
      if least ≤ b ∧ b ≤ greatest then (fitting? bytes (i + 1) places).map (· + 1) else some 0
    | none => none

/-- The length of the broken sequence at a byte; `none` when it breaks off with the bytes. -/
def brokenLength? (bytes : ByteArray) (i : Nat) : Option Nat :=
  match bytes[i]? with
  | some first => (fitting? bytes (i + 1) (laterBytes first)).map (· + 1)
  | none => none

/-- How many bytes are to be passed over behind a text before the next one may start. -/
def brokenLength (bytes : ByteArray) (i : Nat) : Nat :=
  (brokenLength? bytes i).getD (bytes.size - i)

theorem le_textStop (bytes : ByteArray) (i : Nat) : i ≤ textStop bytes i := by
  fun_induction textStop bytes i with
  | case1 i _ c _ ih => omega
  | case2 => exact Nat.le_refl _
  | case3 => exact Nat.le_refl _

/-- One byte more in front leaves one place less to the end. -/
theorem getD_map_succ {size i : Nat} (h : i < size) (length? : Option Nat) :
    (length?.map (· + 1)).getD (size - i) = length?.getD (size - (i + 1)) + 1 := by
  cases length? with
  | none =>
    rw [Option.map_none, Option.getD_none, Option.getD_none]
    omega
  | some n => rfl

theorem brokenLength_eq {bytes : ByteArray} {i : Nat} (h : i < bytes.size) :
    brokenLength bytes i =
      (fitting? bytes (i + 1) (laterBytes bytes[i])).getD (bytes.size - (i + 1)) + 1 := by
  have first : brokenLength? bytes i =
      (fitting? bytes (i + 1) (laterBytes bytes[i])).map (· + 1) := by
    rw [brokenLength?, getElem?_pos bytes i h]
  rw [brokenLength, first, getD_map_succ h]

/-- A text and the broken sequence behind it have a byte at least. -/
theorem lt_textStop_add_brokenLength {bytes : ByteArray} {i : Nat} (h : i < bytes.size) :
    i < textStop bytes i + brokenLength bytes (textStop bytes i) := by
  rcases Nat.lt_or_eq_of_le (le_textStop bytes i) with after | same
  · omega
  · rw [← same, brokenLength_eq h]
    omega

end KeywordTagger.Utf8
