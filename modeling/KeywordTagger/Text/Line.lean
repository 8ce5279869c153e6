/-!
Lines of a byte string. Each line ends after its line feed and keeps it; what follows the last line
feed is a line too unless it is empty. Joining the lines gives the bytes back.
-/

namespace KeywordTagger.Text

def lineFeed : UInt8 := 10

/-- Appends to `found` the lines of `bytes` from offset `start` on; the bytes from there up to `i`
hold no line feed. -/
def linesFrom (bytes : ByteArray) (start i : Nat) (found : Array ByteArray) : Array ByteArray :=
  if h : i < bytes.size then
    if bytes[i] = lineFeed then
      linesFrom bytes (i + 1) (i + 1) (found.push (bytes.extract start (i + 1)))
    else linesFrom bytes start (i + 1) found
  else if start < bytes.size then found.push (bytes.extract start bytes.size)
  else found
termination_by bytes.size - i

/-- The lines of `bytes`, terminators included. -/
def lines (bytes : ByteArray) : Array ByteArray := linesFrom bytes 0 0 #[]

/-- Whether a line has its line feed. -/
def isTerminated (line : ByteArray) : Bool := line.data.back? = some lineFeed

def join (parts : Array ByteArray) : ByteArray := parts.foldl (· ++ ·) .empty

@[simp] theorem join_empty : join #[] = .empty := rfl

@[simp] theorem join_push (parts : Array ByteArray) (b : ByteArray) :
    join (parts.push b) = join parts ++ b := by
  simp [join]

theorem join_linesFrom (bytes : ByteArray) (start i : Nat) (found : Array ByteArray)
    (h : start ≤ i) :
    join (linesFrom bytes start i found) = join found ++ bytes.extract start bytes.size := by
  fun_induction linesFrom bytes start i found with
  | case1 start i found hi _ ih =>
    rw [ih (Nat.le_refl _), join_push, ByteArray.append_assoc,
      ← ByteArray.extract_eq_extract_append_extract (i + 1) (by omega) (by omega)]
  | case2 start i found hi _ ih => exact ih (by omega)
  | case3 start i found hi _ => exact join_push _ _
  | case4 start i found hi hs =>
    have : bytes.extract start bytes.size = .empty :=
      ByteArray.extract_eq_empty_iff.mpr (by omega)
    rw [this, ByteArray.append_empty]

theorem join_lines (bytes : ByteArray) : join (lines bytes) = bytes := by
  rw [lines, join_linesFrom _ _ _ _ (Nat.le_refl 0), join_empty, ByteArray.empty_append,
    ByteArray.extract_zero_size]

end KeywordTagger.Text
