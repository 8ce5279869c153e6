import KeywordTagger.Scan

/-!
Tagging a line. From the matches of a line, in order, each that starts before the end of the last
one chosen is passed over; the bytes of every chosen match are put between two tags and all other
bytes are left as they are, so taking the tags out gives the line back.
-/

namespace KeywordTagger

/-- Written before a tagged part: the encoding of U+3010. -/
def startTag : ByteArray := ⟨#[0xE3, 0x80, 0x90]⟩

/-- Written after a tagged part: the encoding of U+3011. -/
def endTag : ByteArray := ⟨#[0xE3, 0x80, 0x91]⟩

namespace Match

/-- Chooses a match unless it starts inside the last one chosen. -/
def choose (chosen : Array Match) (m : Match) : Array Match :=
  match chosen.back? with
  | some last => if m.start < last.stop then chosen else chosen.push m
  | none => chosen.push m

def chosen (found : Array Match) : Array Match := found.foldl choose #[]

end Match

def Decoded.offset (d : Decoded) (position : Nat) : Nat := d.offsets[position]?.getD 0

/-- Output that holds the bytes of a line up to `done`. -/
structure Woven where
  output : ByteArray
  done : Nat := 0

namespace Woven

/-- Copies the bytes before a part of the line, then the part between tags. -/
def tag (w : Woven) (line : ByteArray) (start stop : Nat) : Woven where
  output :=
    w.output ++ line.extract w.done start ++ startTag ++ line.extract start stop ++ endTag
  done := stop

def finish (w : Woven) (line : ByteArray) : ByteArray :=
  w.output ++ line.extract w.done line.size

end Woven

def weave (line : ByteArray) (d : Decoded) (chosen : Array Match) (output : ByteArray) :
    ByteArray :=
  let woven : Woven :=
    chosen.foldl (fun w m => w.tag line (d.offset m.start) (d.offset m.stop)) { output }
  woven.finish line

structure Scratch where
  decoded : Decoded := {}
  found : Array Match := #[]

namespace Automaton

/-- Appends a tagged line to `output` and gives the buffers back. -/
def tagWith (a : Automaton) (line : ByteArray) (scratch : Scratch) (output : ByteArray) :
    Scratch × ByteArray :=
  match scratch with
  | { decoded, found } =>
    let decoded := decoded.refill line
    let found := a.findIn decoded.positions found
    ({ decoded, found }, weave line decoded (Match.chosen found) output)

def tagInto (a : Automaton) (line output : ByteArray) : ByteArray :=
  (a.tagWith line {} output).2

def tagLine (a : Automaton) (line : ByteArray) : ByteArray := a.tagInto line .empty

end Automaton

end KeywordTagger
