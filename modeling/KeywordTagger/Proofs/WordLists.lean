import KeywordTagger.Proofs.Lines
import KeywordTagger.Proofs.Results
import KeywordTagger.WordList

/-!
Words of a list. A line of a word list ends with its first line feed or has none; a line feed is
white space, so none is left in a word.
-/

namespace KeywordTagger

namespace Text

theorem mem_of_mem_trimmed {cs : List Char} {c : Char} (h : c ∈ trimmed cs) : c ∈ cs := by
  have kept := (List.dropWhile_suffix isBlank).mem (List.mem_reverse.mp h)
  exact (List.dropWhile_suffix isBlank).mem (List.mem_reverse.mp kept)

theorem trimmed_concat {c : Char} (blank : isBlank c = true) (cs : List Char) :
    trimmed (cs ++ [c]) = trimmed cs := by
  rw [trimmed, trimmed, List.dropWhile_append]
  split
  · rename_i none
    rw [List.isEmpty_iff.mp none, List.dropWhile_cons_of_pos blank]
    rfl
  · rw [List.reverse_concat, List.dropWhile_cons_of_pos blank]

/-! Line feeds of a line. -/

theorem utf8Encode_lineFeed : ['\n'].utf8Encode = ⟨#[lineFeed]⟩ := by decide

theorem utf8Encode_split (xs ys : List Char) : (xs ++ '\n' :: ys).utf8Encode.data.toList =
    xs.utf8Encode.data.toList ++ lineFeed :: ys.utf8Encode.data.toList := by
  rw [List.utf8Encode_append, List.utf8Encode_cons, utf8Encode_lineFeed]
  simp

/-- Encodings hold the byte of a line feed only where there is one. -/
theorem lineFeed_notMem_of_utf8Encode {cs : List Char} (plain : lineFeed ∉ cs.utf8Encode.data) :
    '\n' ∉ cs := by
  intro mem
  obtain ⟨xs, ys, rfl⟩ := List.append_of_mem mem
  rw [← Array.mem_toList_iff, utf8Encode_split] at plain
  exact plain (List.mem_append_right _ List.mem_cons_self)

theorem eq_concat_of_utf8Encode {cs : List Char} {body : ByteArray} (plain : lineFeed ∉ body.data)
    (h : cs.utf8Encode = body.push lineFeed) (mem : '\n' ∈ cs) :
    ∃ xs, cs = xs ++ ['\n'] ∧ '\n' ∉ xs := by
  obtain ⟨xs, ys, rfl⟩ := List.append_of_mem mem
  have bytes := utf8Encode_split xs ys
  rw [h, ByteArray.data_push, Array.toList_push] at bytes
  rcases List.eq_nil_or_concat ys.utf8Encode.data.toList with none | ⟨zs, b, more⟩
  · have ended : ys = [] := by
      rw [← List.utf8Encode_eq_empty]
      exact ByteArray.ext (Array.toList_eq_nil_iff.mp none)
    rw [none] at bytes
    have same := (List.append_inj' bytes rfl).1
    refine ⟨xs, by rw [ended], lineFeed_notMem_of_utf8Encode ?_⟩
    rwa [← Array.mem_toList_iff, ← same, Array.mem_toList_iff]
  · rw [more, List.concat_eq_append, ← List.cons_append, ← List.append_assoc] at bytes
    have same := (List.append_inj' bytes rfl).1
    refine absurd ?_ plain
    rw [← Array.mem_toList_iff, same]
    exact List.mem_append_right _ List.mem_cons_self

theorem SplitsInto.line_cases {bytes line : ByteArray} {lines : List ByteArray}
    (h : SplitsInto bytes lines) (mem : line ∈ lines) : lineFeed ∉ line.data ∨
      ∃ body : ByteArray, lineFeed ∉ body.data ∧ line = body.push lineFeed := by
  induction h with
  | none => cases mem
  | rest _ plain =>
    cases List.mem_singleton.mp mem
    exact .inl plain
  | line plain _ ih =>
    rcases List.mem_cons.mp mem with rfl | mem
    · exact .inr ⟨_, plain, rfl⟩
    · exact ih mem

end Text

namespace WordList

open Text

variable {bytes line : ByteArray} {w : String}

theorem exists_of_word (h : word line = .ok w) :
    ∃ cs : List Char, cs.utf8Encode = line ∧ w = String.ofList (trimmed cs) := by
  rw [word] at h
  split at h
  · rename_i s hs
    rw [String.fromUTF8?] at hs
    split at hs
    · cases hs
      cases h
      exact ⟨_, String.utf8Encode_toList, rfl⟩
    · cases hs
  · cases h

theorem lineFeed_notMem_word (mem : line ∈ (lines bytes).toList) (h : word line = .ok w) :
    '\n' ∉ w.toList := by
  obtain ⟨cs, hcs, rfl⟩ := exists_of_word h
  rw [String.toList_ofList]
  intro hw
  rcases (splitsInto_lines bytes).line_cases mem with plain | ⟨body, plain, hbody⟩
  · exact lineFeed_notMem_of_utf8Encode (hcs ▸ plain) (mem_of_mem_trimmed hw)
  · obtain ⟨xs, rfl, none⟩ :=
      eq_concat_of_utf8Encode plain (hcs.trans hbody) (mem_of_mem_trimmed hw)
    rw [trimmed_concat rfl] at hw
    exact none (mem_of_mem_trimmed hw)

theorem lineFeed_notMem_of_mem {words : List String} (h : ofBytes bytes = .ok words)
    (hw : w ∈ words) : '\n' ∉ w.toList := by
  obtain ⟨vs, all, same⟩ := bind_eq_ok.mp h
  cases same
  obtain ⟨line, mem, heq⟩ := exists_of_mem_mapM all (List.mem_filter.mp hw).1
  exact lineFeed_notMem_word mem heq

end WordList

end KeywordTagger
