import KeywordTagger.Scan

/-!
The automaton without its tables. A state is a word that begins some pattern, read off the end of
the text so far; what the tables hold in numbers is here said of words: a code point extends the
word, or the word falls back to a shorter one, and a word that is a pattern gives a match.
-/

namespace KeywordTagger

namespace Dictionary

def isStem (d : Dictionary) (w : List Char) : Bool :=
  d.patterns.any fun p => w.isPrefixOf p.toList

def idOf? (d : Dictionary) (w : List Char) : Option Nat :=
  d.patterns.findIdx? fun p => p.toList = w

/-- The longest end of a word that begins a pattern. -/
def longestStem (d : Dictionary) : List Char → List Char
  | [] => []
  | c :: w => if d.isStem (c :: w) then c :: w else d.longestStem w

/-- Where a word falls back to when only the fallback of the word before it is tried. The word is
given last code point first. -/
def parentFallback (d : Dictionary) : List Char → List Char
  | [] => []
  | c :: w =>
    if w = [] then []
    else if d.isStem (d.parentFallback w ++ [c]) then d.parentFallback w ++ [c]
    else []

def fallback (d : Dictionary) (rule : LinkRule) (w : List Char) : List Char :=
  match rule with
  | .parentOnly => d.parentFallback w.reverse
  | .chained => d.longestStem w.tail

theorem length_longestStem_le (d : Dictionary) (w : List Char) :
    (d.longestStem w).length ≤ w.length := by
  induction w with
  | nil => simp [longestStem]
  | cons c w ih =>
    unfold longestStem
    split
    · simp
    · exact Nat.le_succ_of_le ih

theorem length_parentFallback_lt (d : Dictionary) {w : List Char} (h : w ≠ []) :
    (d.parentFallback w).length < w.length := by
  induction w with
  | nil => exact absurd rfl h
  | cons c w ih =>
    unfold parentFallback
    split
    · simp
    · rename_i hw
      have := ih hw
      split
      · simp only [List.length_append, List.length_cons, List.length_nil]
        omega
      · simp

theorem length_fallback_lt (d : Dictionary) (rule : LinkRule) {w : List Char} (h : w ≠ []) :
    (d.fallback rule w).length < w.length := by
  cases rule with
  | parentOnly =>
    have := d.length_parentFallback_lt (w := w.reverse) (by simpa using h)
    simpa [fallback] using this
  | chained =>
    have := d.length_longestStem_le w.tail
    have := List.length_pos_iff.mpr h
    simp only [fallback]
    simp only [List.length_tail] at *
    omega

/-- The word after one more code point: the word falls back until the code point extends it to a
stem, or until it is empty. -/
def extend (d : Dictionary) (rule : LinkRule) (c : Char) (w : List Char) : List Char :=
  if d.isStem (w ++ [c]) then w ++ [c]
  else if h : w = [] then []
  else
    have := d.length_fallback_lt rule h
    d.extend rule c (d.fallback rule w)
termination_by w.length

end Dictionary

structure WordProgress where
  word : List Char := []
  found : Array Match := #[]

namespace Dictionary

def readWord (d : Dictionary) (rule : LinkRule) (k : Nat) (p : WordProgress) :
    Option Char → WordProgress
  | none => { p with word := [] }
  | some c =>
    let word := d.extend rule c p.word
    match d.idOf? word with
    | some id =>
      let start := k + 1 - word.length
      { word, found := Match.record p.found { start, stop := k + 1, pattern := id } }
    | none => { p with word }

def readWords (d : Dictionary) (rule : LinkRule) (k : Nat) (p : WordProgress) :
    List (Option Char) → WordProgress
  | [] => p
  | c :: cs => d.readWords rule (k + 1) (d.readWord rule k p c) cs

def findWords (d : Dictionary) (rule : LinkRule) (line : ByteArray) : Array Match :=
  (d.readWords rule 0 {} (Decoded.ofBytes line).positions.toList).found

end Dictionary

end KeywordTagger
