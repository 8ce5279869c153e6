import KeywordTagger.Proofs.GreedyReading
import KeywordTagger.Proofs.Marks

/-!
Tagged lines read again. Around a tag a line is cut, and what lies between two positions is read as
it was in the line. So the positions of a tagged line are those of the line, with one more at each
end of each span, and a tag neither breaks nor completes a code point.
-/

namespace KeywordTagger

namespace Decoded

/-- The positions of a line from `done` on, with the parts at some spans between tags. -/
def withTags (positions : Array (Option Char)) (done : Nat) : List Span → Array (Option Char)
  | [] => positions.extract done positions.size
  | s :: ss =>
    positions.extract done s.start ++ #[some '【'] ++ positions.extract s.start s.stop ++
      #[some '】'] ++ withTags positions s.stop ss

theorem startTag_eq : startTag = ['【'].utf8Encode := by decide

theorem endTag_eq : endTag = ['】'].utf8Encode := by decide

theorem positions_around (a : ByteArray) (c : Char) (b : ByteArray) :
    (ofBytes (a ++ [c].utf8Encode ++ b)).positions =
      (ofBytes a).positions ++ #[some c] ++ (ofBytes b).positions := by
  rw [ByteArray.append_assoc, positions_append (border_before_char a c b),
    positions_append (border_char c b), positions_char, Array.append_assoc]

section Line

variable (line : ByteArray)

theorem positions_extract {j k : Nat} (hjk : j ≤ k) (hk : k ≤ (ofBytes line).positions.size) :
    (ofBytes (line.extract ((ofBytes line).offset j) ((ofBytes line).offset k))).positions =
      (ofBytes line).positions.extract j k := by
  -- Cut behind the part first, then in front of it: both cuts are where positions end.
  obtain ⟨u, v, rfl, hu, border, rfl⟩ := exists_cut line hk
  obtain ⟨a, b, rfl, ha, inner, rfl⟩ := exists_cut u hjk
  have between : ((a ++ b) ++ v).extract a.size (a ++ b).size = b := by
    rw [extract_append_left (Nat.le_refl _)]
    exact ByteArray.extract_append_eq_right rfl ByteArray.size_append
  rw [offset_append_left border hjk, offset_border inner, offset_border border, between,
    positions_append border, positions_append inner]
  simp

theorem Reads.exists_text {bytes : ByteArray} {i : Nat} {cs : List (Option Char)} {os : List Nat}
    (h : Reads bytes i cs os) (whole : none ∉ cs) :
    i ≤ bytes.size ∧ ∃ w : List Char, bytes.extract i bytes.size = w.utf8Encode := by
  induction h with
  | @char i c cs os encoding _ ih =>
    obtain ⟨fits, w, hw⟩ := ih fun later => whole (List.mem_cons_of_mem _ later)
    refine ⟨by omega, c :: w, ?_⟩
    rw [List.utf8Encode_cons, ← hw, ← encoding]
    exact ByteArray.extract_eq_extract_append_extract _ (by omega) fits
  | stray => exact absurd List.mem_cons_self whole
  | stop => exact ⟨Nat.le_refl _, [], ByteArray.extract_same⟩

theorem isValidUTF8_iff : line.IsValidUTF8 ↔ (ofBytes line).positions.count none = 0 := by
  rw [Array.count_eq_zero]
  constructor
  · rintro ⟨w, rfl⟩
    simp [positions_utf8Encode]
  · intro whole
    have reads : Reads line 0 _ _ := reads_iff.mpr ⟨rfl, rfl⟩
    obtain ⟨_, w, hw⟩ := reads.exists_text (by simpa using whole)
    rw [ByteArray.extract_zero_size] at hw
    exact ⟨w, hw⟩

end Line

section Spans

variable {line : ByteArray} {positions : Array (Option Char)} {done : Nat} {spans : List Span}

/-- Weaving tags among the bytes of a line puts them among its positions. -/
theorem positions_weaveFrom (h : Span.Apart (ofBytes line).positions.size done spans) :
    (ofBytes (weaveFrom line (ofBytes line) ((ofBytes line).offset done) spans)).positions =
      withTags (ofBytes line).positions done spans := by
  induction spans generalizing done with
  | nil =>
    have before := positions_extract line h.le_size (Nat.le_refl _)
    rwa [offset_size] at before
  | cons s spans ih =>
    obtain _ | ⟨before, pos, later⟩ := h
    have room := later.le_size
    rw [weaveFrom, startTag_eq, endTag_eq, positions_around, positions_around, ih later,
      positions_extract line before (by omega),
      positions_extract line (Nat.le_of_lt pos) room, withTags]

theorem count_none_extract {i j k : Nat} (hij : i ≤ j) (hjk : j ≤ k) :
    (positions.extract i k).count none =
      (positions.extract i j).count none + (positions.extract j k).count none := by
  rw [← Array.count_append, Array.extract_append_extract, Nat.min_eq_left hij,
    Nat.max_eq_right hjk]

theorem count_none_withTags (h : Span.Apart positions.size done spans) :
    (withTags positions done spans).count none =
      (positions.extract done positions.size).count none := by
  induction spans generalizing done with
  | nil => rfl
  | cons s spans ih =>
    obtain _ | ⟨before, pos, later⟩ := h
    have room := later.le_size
    have opening : (#[some '【'] : Array (Option Char)).count none = 0 := rfl
    have closing : (#[some '】'] : Array (Option Char)).count none = 0 := rfl
    rw [count_none_extract before (by omega), count_none_extract (Nat.le_of_lt pos) room, withTags]
    simp only [Array.count_append, opening, closing, ih later]
    omega

end Spans

end Decoded

namespace Automaton

/-- Read again, a tagged line has the positions of the line and a tag at each end of each span that is
selected. No byte becomes part of a code point or ceases to be, so the tagged line is UTF-8 exactly
when the line is. -/
theorem positions_tagLine (s : Settings) (d : Dictionary) (line : ByteArray) :
    let a := ofDictionary s d
    let positions := (Decoded.ofBytes line).positions
    ∃ chosen, Match.Selects 0 (a.find line).toList chosen ∧
      (∀ other, Match.Selects 0 (a.find line).toList other → other = chosen) ∧
      Span.Apart positions.size 0 (chosen.map Match.span) ∧
      (Decoded.ofBytes (a.tagLine line)).positions =
        Decoded.withTags positions 0 (chosen.map Match.span) ∧
      (Decoded.ofBytes (a.tagLine line)).positions.count none = positions.count none ∧
      ((a.tagLine line).IsValidUTF8 ↔ line.IsValidUTF8) := by
  intro a positions
  have selects := Match.selects_chooseFrom 0 (a.find line).toList
  have apart := apart_of_selects s d line selects
  have read := Decoded.positions_weaveFrom apart
  rw [Decoded.offset_zero, ← tagLine_eq] at read
  have strays : (Decoded.ofBytes (a.tagLine line)).positions.count none = positions.count none := by
    rw [read, Decoded.count_none_withTags apart, Array.extract_size]
  refine ⟨_, selects, fun _ other => other.eq_chooseFrom, apart, read, strays, ?_⟩
  rw [Decoded.isValidUTF8_iff, Decoded.isValidUTF8_iff, strays]

end Automaton

end KeywordTagger
