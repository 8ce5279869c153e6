import KeywordTagger.Inflow
import KeywordTagger.Text.Blank

/-!
Word lists: text files with one word a line. White space around a word does not belong to it, and a
line without a word is passed over. Reading stops at the first line that is not UTF-8, or at a fault.
-/

namespace KeywordTagger.WordList

/-- The word of a line, which is empty when the line is blank. -/
def word (line : ByteArray) : Except FileError String :=
  match String.fromUTF8? line with
  | some s => .ok (Text.trim s)
  | none => .error .notText

def ofLines (lines : Array ByteArray) : Except FileError (List String) := do
  let words ← lines.toList.mapM word
  return words.filter (· ≠ "")

def ofBytes (bytes : ByteArray) : Except FileError (List String) := ofLines (Text.lines bytes)

def ofInflow (i : Inflow) : Except FileError (List String) := do
  let words ← ofLines i.lines
  match i.fault with
  | none => return words
  | some e => .error e

end KeywordTagger.WordList
