import KeywordTagger.Proofs.PatternLists
import KeywordTagger.Proofs.Separators
import KeywordTagger.Proofs.Streaming
import KeywordTagger.Proofs.WordLists
import Mathlib

/-!
Whole texts. With the words of a word list no match goes over the end of a line, so the lines of a
text are scanned and tagged apart, and tagging them one by one loses nothing.
-/

namespace KeywordTagger

open Decoded

namespace Automaton

section Lines

variable {s : Settings} {d : Dictionary} {x : ByteArray}

theorem tagLine_append_of_separates (h : d.Separates x) (u v : ByteArray) :
    (ofDictionary s d).tagLine (u ++ x ++ v) =
      (ofDictionary s d).tagLine (u ++ x) ++ (ofDictionary s d).tagLine v := by
  obtain ⟨o, bars, position⟩ := h.exists_position
  have before := h.border_before u .empty
  rw [ByteArray.append_empty] at before
  have after : Border (u ++ x) v := (h.border_before u v).append (h.border_after v)
  have rests : d.wordAfter s.rule (ofBytes (u ++ x)).positions.toList
      (ofBytes (u ++ x)).positions.size = [] := by
    rw [positions_append before, position, Array.append_singleton, Array.size_push,
      Array.toList_push]
    exact Dictionary.wordAfter_of_bars List.getElem?_concat_length bars
  exact tagLine_append (find_append after rests) after

theorem find_empty (a : Automaton) : a.find .empty = #[] := by
  have positions : (ofBytes .empty).positions = #[] := by
    simp [ofBytes_eq_readFrom, readFrom]
  rw [find, positions]
  rfl

theorem tagLine_of_splitsInto (feed : d.Separates ['\n'].utf8Encode) {text : ByteArray}
    {lines : List ByteArray} (h : Text.SplitsInto text lines) :
    (ofDictionary s d).tagLine text = Text.join (lines.map (ofDictionary s d).tagLine).toArray := by
  induction h with
  | none => exact tagLine_of_find_eq_empty (find_empty _)
  | rest => simp [Text.join]
  | @line body later lines _ _ ih =>
    have terminated : body.push Text.lineFeed = body ++ ['\n'].utf8Encode := by
      rw [Text.utf8Encode_lineFeed]
      exact ByteArray.ext (by simp)
    rw [List.map_cons, Text.join_cons, ← ih, terminated, tagLine_append_of_separates feed]

end Lines

/-- Whatever the number of threads and the number of lines handed over at a time, and whatever the
order of the steps, the lines of a text are tagged as the whole text would be as one line. -/
theorem tagText_eq_tagLine {bytes : ByteArray} {words : List String} {s : Settings} {a : Automaton}
    (read : WordList.ofBytes bytes = .ok words) (compiled : compile s words = .ok a)
    (threads size : Nat) (text : ByteArray) :
    ∃ w, a.tagText threads size text = .ok w ∧ w.output = a.tagLine text ∧
      ∀ v, a.TagsInBatches threads size text v → v.output = a.tagLine text := by
  obtain ⟨d, patterns, rfl⟩ := Dictionary.exists_of_map_ofList compiled
  have feed : d.Separates ['\n'].utf8Encode := by
    refine .inl ⟨'\n', fun p hp => ?_, rfl⟩
    obtain ⟨q, hq, heq⟩ := (Dictionary.mem_patterns_iff patterns).mp hp
    rw [← Array.mem_toList_iff, ← heq]
    exact WordList.lineFeed_notMem_of_mem read hq
  have whole : ((ofDictionary s d).tagInOrder (Text.lines text)).output =
      (ofDictionary s d).tagLine text := by
    rw [tagInOrder_eq, Written.foldl_add, ByteArray.empty_append,
      tagLine_of_splitsInto feed (Text.splitsInto_lines text)]
  refine ⟨_, tagText_eq _ _ _ _, whole, fun v hv => ?_⟩
  rw [hv.eq, whole]

theorem tagText_eq_tagLine_broken_lines :
    ∃ words a, WordList.ofBytes "cat\r\n\n dog".toUTF8 = .ok words ∧
      compile { growth := 0, rule := .chained } words = .ok a ∧
      ∃ w, a.tagText 2 1 ("cat".toUTF8 ++ ⟨#[0xE3, 0x80, 0x0A, 0x80]⟩ ++ "dog".toUTF8) = .ok w ∧
        w.output = "【cat】".toUTF8 ++ ⟨#[0xE3, 0x80, 0x0A, 0x80]⟩ ++ "【dog】".toUTF8 := by
  have read : WordList.ofBytes "cat\r\n\n dog".toUTF8 = .ok ["cat", "dog"] := by cbv
  have computed : (Dictionary.ofList ["cat", "dog"]).map (fun d => d.findWords .chained
      ("cat".toUTF8 ++ ⟨#[0xE3, 0x80, 0x0A, 0x80]⟩ ++ "dog".toUTF8)) =
        .ok #[⟨0, 3, 0⟩, ⟨7, 10, 1⟩] := by cbv
  have woven : weaveFrom ("cat".toUTF8 ++ ⟨#[0xE3, 0x80, 0x0A, 0x80]⟩ ++ "dog".toUTF8)
      (ofBytes ("cat".toUTF8 ++ ⟨#[0xE3, 0x80, 0x0A, 0x80]⟩ ++ "dog".toUTF8)) 0
        [⟨0, 3⟩, ⟨7, 10⟩] =
      "【cat】".toUTF8 ++ ⟨#[0xE3, 0x80, 0x0A, 0x80]⟩ ++ "【dog】".toUTF8 := by cbv
  obtain ⟨d, hd, found⟩ := Dictionary.exists_of_map_ofList computed
  have compiled : compile { growth := 0, rule := .chained } ["cat", "dog"] =
      .ok (ofDictionary { growth := 0, rule := .chained } d) := by
    rw [compile, hd]
    rfl
  obtain ⟨w, run, output, _⟩ := tagText_eq_tagLine read compiled 2 1
    ("cat".toUTF8 ++ ⟨#[0xE3, 0x80, 0x0A, 0x80]⟩ ++ "dog".toUTF8)
  refine ⟨_, _, read, compiled, w, run, ?_⟩
  rw [output, tagLine_eq, find_eq_findWords, found]
  exact woven

end Automaton

end KeywordTagger
