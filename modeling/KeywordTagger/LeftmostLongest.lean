import KeywordTagger.Tagging

/-!
Leftmost-longest tagging: at each position from left to right, the longest pattern that occurs there
is tagged and passed over; where none occurs one position is passed over.
-/

namespace KeywordTagger

def Pattern.occurs (p : Pattern) (positions : List (Option Char)) : Bool :=
  (p.toList.map some).isPrefixOf positions

namespace Dictionary

/-- The length of the longest pattern at the head of some positions; zero when there is none. -/
def longestAt (d : Dictionary) (positions : List (Option Char)) : Nat :=
  d.patterns.foldl (fun n p => if Pattern.occurs p positions then max n p.size else n) 0

def leftmostLongest (d : Dictionary) (k : Nat) : List (Option Char) → List Span
  | [] => []
  | c :: cs =>
    let n := d.longestAt (c :: cs)
    if n = 0 then d.leftmostLongest (k + 1) cs
    else ⟨k, k + n⟩ :: d.leftmostLongest (k + n) (cs.drop (n - 1))
termination_by positions => positions.length

/-- The bytes of a line from position `k` on, tagged while its positions are passed over once. -/
def tagFrom (d : Dictionary) (line : ByteArray) (decoded : Decoded) (k : Nat) :
    List (Option Char) → ByteArray
  | [] => .empty
  | c :: cs =>
    let n := d.longestAt (c :: cs)
    if n = 0 then
      line.extract (decoded.offset k) (decoded.offset (k + 1)) ++
        d.tagFrom line decoded (k + 1) cs
    else
      startTag ++ line.extract (decoded.offset k) (decoded.offset (k + n)) ++ endTag ++
        d.tagFrom line decoded (k + n) (cs.drop (n - 1))
termination_by positions => positions.length

def tagLeftmostLongest (d : Dictionary) (line : ByteArray) : ByteArray :=
  let decoded := Decoded.ofBytes line
  d.tagFrom line decoded 0 decoded.positions.toList

end Dictionary

end KeywordTagger
