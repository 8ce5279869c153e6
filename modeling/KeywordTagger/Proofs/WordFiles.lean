import KeywordTagger.Proofs.PatternLists
import KeywordTagger.Proofs.TextWords
import Mathlib

/-!
Files of words. A file is read exactly when it is a text as a whole, although it is read line by
line; what is read are the words of the text, and only U+0000 keeps words from being compiled.
-/

namespace KeywordTagger

namespace Text

theorem eq_lineFeed_of_mem {c : Char} (h : lineFeed ∈ String.utf8EncodeChar c) : c = '\n' := by
  have upper : c.val.toNat < 0x110000 := by
    rcases c.valid with h | h <;> omega
  have same : c.val.toNat = 10 := by
    rw [String.utf8EncodeChar] at h
    split_ifs at h
    all_goals
      simp only [List.mem_cons, List.not_mem_nil, or_false, ← UInt8.toNat_inj, UInt8.toNat_ofNat',
        lineFeed, UInt8.reduceToNat] at h
      omega
  exact Char.ext (UInt32.toNat_inj.mp same)

theorem lineFeed_mem_of_utf8Encode {cs : List Char} (h : lineFeed ∈ cs.utf8Encode.data) :
    '\n' ∈ cs := by
  rw [List.utf8Encode, List.data_toByteArray, List.mem_toArray, List.mem_flatMap] at h
  obtain ⟨c, hc, mem⟩ := h
  exact eq_lineFeed_of_mem mem ▸ hc

theorem exists_cut_of_utf8Encode {cs : List Char} {body later : ByteArray}
    (plain : lineFeed ∉ body.data) (h : cs.utf8Encode = body.push lineFeed ++ later) :
    ∃ xs ys, cs = xs ++ '\n' :: ys ∧ '\n' ∉ xs ∧ xs.utf8Encode = body ∧ ys.utf8Encode = later := by
  have bytes : cs.utf8Encode.data.toList = body.data.toList ++ lineFeed :: later.data.toList := by
    rw [h, ByteArray.data_append, ByteArray.data_push, Array.toList_append, Array.toList_push,
      List.append_assoc, List.singleton_append]
  have mem : '\n' ∈ cs := by
    apply lineFeed_mem_of_utf8Encode
    rw [← Array.mem_toList_iff, bytes]
    exact List.mem_append_right _ List.mem_cons_self
  obtain ⟨xs, ys, rfl, first⟩ := List.eq_append_cons_of_mem mem
  rw [utf8Encode_split] at bytes
  have before : lineFeed ∉ xs.utf8Encode.data.toList := fun feed =>
    first (lineFeed_mem_of_utf8Encode (Array.mem_toList_iff.mp feed))
  have ahead : lineFeed ∉ body.data.toList := fun feed => plain (Array.mem_toList_iff.mp feed)
  obtain ⟨hxs, hys⟩ := split_unique before ahead bytes
  exact ⟨xs, ys, rfl, first, ByteArray.ext (Array.toList_inj.mp hxs),
    ByteArray.ext (Array.toList_inj.mp hys)⟩

end Text

namespace WordList

open Text

theorem word_utf8Encode (cs : List Char) :
    word cs.utf8Encode = .ok (String.ofList (trimmed cs)) := by
  have valid : cs.utf8Encode.IsValidUTF8 := ⟨cs, rfl⟩
  have text : String.fromUTF8 cs.utf8Encode valid = String.ofList cs := by
    rw [← String.toByteArray_inj, String.toByteArray_ofList]
    rfl
  simp only [word, String.fromUTF8?, dif_pos valid, text, trim, String.toList_ofList]

theorem notText_of_word {line : ByteArray} {e : FileError} (h : word line = .error e) :
    e = .notText := by
  unfold word at h
  split at h
  · cases h
  · cases h
    rfl

/-- Lines of a text have the words of the text. -/
theorem mapM_word_of_splitsInto {bytes : ByteArray} {lines : List ByteArray}
    (h : SplitsInto bytes lines) {cs : List Char} (text : cs.utf8Encode = bytes) :
    ∃ ws : List (List Char), lines.mapM word = .ok (ws.map String.ofList) ∧
      ws.filter (· ≠ []) = words cs := by
  induction h generalizing cs with
  | none =>
    cases List.utf8Encode_eq_empty.mp text
    exact ⟨[], rfl, words_nil.symm⟩
  | rest _ plain =>
    rw [← text] at plain ⊢
    refine ⟨[trimmed cs], ?_, (words_line (lineFeed_notMem_of_utf8Encode plain)).symm⟩
    exact mapM_cons_eq_ok.mpr ⟨_, [], word_utf8Encode cs, rfl, rfl⟩
  | line plain _ ih =>
    obtain ⟨xs, ys, rfl, first, hxs, hys⟩ := exists_cut_of_utf8Encode plain text
    obtain ⟨ws, read, kept⟩ := ih hys
    refine ⟨trimmed xs :: ws, ?_, ?_⟩
    · have terminated : (xs ++ ['\n']).utf8Encode = xs.utf8Encode.push lineFeed := by
        rw [List.utf8Encode_append, utf8Encode_lineFeed]
        exact ByteArray.ext (by simp)
      have first := word_utf8Encode (xs ++ ['\n'])
      rw [terminated, hxs, trimmed_concat rfl] at first
      exact mapM_cons_eq_ok.mpr ⟨_, _, first, read, rfl⟩
    · rw [← List.singleton_append, List.filter_append, kept, words_append_lineFeed,
        words_line first]

theorem ofBytes_utf8Encode (cs : List Char) :
    ofBytes cs.utf8Encode = .ok ((words cs).map String.ofList) := by
  obtain ⟨ws, read, kept⟩ := mapM_word_of_splitsInto (splitsInto_lines _) (rfl : cs.utf8Encode = _)
  have same : (fun w : String => decide (w ≠ "")) ∘ String.ofList = fun w => decide (w ≠ []) := by
    funext w
    simp
  rw [ofBytes, ofLines, read, ← kept]
  refine congrArg Except.ok ?_
  rw [List.filter_map, same]

theorem exists_text_of_mapM {bytes : ByteArray} {lines : List ByteArray} {ws : List String}
    (h : SplitsInto bytes lines) (read : lines.mapM word = .ok ws) :
    ∃ cs : List Char, cs.utf8Encode = bytes := by
  induction h generalizing ws with
  | none => exact ⟨[], List.utf8Encode_nil⟩
  | rest _ _ =>
    obtain ⟨w, _, first, _⟩ := mapM_cons_eq_ok.mp read
    obtain ⟨cs, text, _⟩ := exists_of_word first
    exact ⟨cs, text⟩
  | line _ _ ih =>
    obtain ⟨w, ws, first, rest, _⟩ := mapM_cons_eq_ok.mp read
    obtain ⟨xs, line, _⟩ := exists_of_word first
    obtain ⟨ys, later⟩ := ih rest
    exact ⟨xs ++ ys, by rw [List.utf8Encode_append, line, later]⟩

theorem ofBytes_eq_error_iff {bytes : ByteArray} {e : FileError} :
    ofBytes bytes = .error e ↔ e = .notText ∧ ¬ bytes.IsValidUTF8 := by
  cases all : (lines bytes).toList.mapM word with
  | error fault =>
    have invalid : ¬ bytes.IsValidUTF8 := by
      rintro ⟨cs, text⟩
      obtain ⟨ws, read, _⟩ := mapM_word_of_splitsInto (splitsInto_lines bytes) text.symm
      cases all.symm.trans read
    have failed : ofBytes bytes = .error fault := by
      rw [ofBytes, ofLines, all]
      rfl
    obtain ⟨line, _, unread⟩ := exists_of_mapM_error all
    rw [failed, Except.error.injEq, notText_of_word unread]
    exact ⟨fun same => ⟨same.symm, invalid⟩, fun h => h.1.symm⟩
  | ok ws =>
    obtain ⟨cs, text⟩ := exists_text_of_mapM (splitsInto_lines bytes) all
    have valid : bytes.IsValidUTF8 := ⟨cs, text.symm⟩
    rw [← text, ofBytes_utf8Encode, text]
    simp [valid]

theorem ne_empty_of_mem {cs : List Char} {w : String}
    (hw : w ∈ (words cs).map String.ofList) : w ≠ "" := by
  obtain ⟨v, hv, rfl⟩ := List.mem_map.mp hw
  intro empty
  exact ne_nil_of_mem_words hv (String.ofList_eq_empty_iff.mp empty)

theorem map_toList_ofList (ws : List (List Char)) :
    (ws.map String.ofList).map String.toList = ws := by
  rw [List.map_map]
  exact (List.map_congr_left fun w _ => String.toList_ofList).trans (List.map_id ws)

/-- However the words that were read are laid out on lines, they are read again. -/
theorem ofBytes_of_holds {bytes : ByteArray} {ws : List String} (read : ofBytes bytes = .ok ws)
    {lines : List (List Char)} (h : Holds lines (ws.map String.toList)) :
    ofBytes (['\n'].intercalate lines).utf8Encode = .ok ws := by
  have valid : bytes.IsValidUTF8 := by
    by_contra invalid
    cases read.symm.trans (ofBytes_eq_error_iff.mpr ⟨rfl, invalid⟩)
  obtain ⟨cs, rfl⟩ := valid
  have whole : ∀ w ∈ ws.map String.toList, '\n' ∉ w := by
    intro w hw
    obtain ⟨v, hv, rfl⟩ := List.mem_map.mp hw
    exact lineFeed_notMem_of_mem read hv
  rw [ofBytes_utf8Encode, Except.ok.injEq] at read
  have texts : ws.map String.toList = words cs := by rw [← read, map_toList_ofList]
  have alone : ∀ w ∈ ws.map String.toList, words w = [w] := fun w hw =>
    words_of_mem (texts ▸ hw) (whole w hw)
  rw [ofBytes_utf8Encode, h.words_eq whole alone, texts, read]

end WordList

section Compile

variable {s : Settings} {words : List String}

theorem Pattern.fault?_eq_some_iff {p reason : String} (hp : p ≠ "") :
    fault? p = some reason ↔ reason = "pattern contains U+0000" ∧ '\x00' ∈ p.toList := by
  unfold fault?
  rw [if_neg hp]
  split
  · rename_i nul
    simp [nul, eq_comm]
  · rename_i plain
    simp [plain]

namespace Automaton

theorem compile_eq_error_iff {e : TaggerError} :
    compile s words = .error e ↔ Dictionary.ofList words = .error e := by
  unfold compile
  cases Dictionary.ofList words with
  | error e' => simp [Except.map]
  | ok d => simp [Except.map]

theorem exists_compile_iff : (∃ a, compile s words = .ok a) ↔
    words ≠ [] ∧ ∀ w ∈ words, w ≠ "" ∧ '\x00' ∉ w.toList := by
  rw [← Dictionary.exists_ofList_iff]
  constructor
  · rintro ⟨a, compiled⟩
    obtain ⟨d, patterns, _⟩ := compile_eq_ok_iff.mp compiled
    exact ⟨d, patterns⟩
  · rintro ⟨d, patterns⟩
    exact ⟨ofDictionary s d, compile_eq_ok_iff.mpr ⟨d, patterns, rfl⟩⟩

theorem compile_eq_empty_iff : compile s words = .error .emptyDictionary ↔ words = [] := by
  rw [compile_eq_error_iff, Dictionary.ofList_eq_error_iff]
  constructor
  · rintro (fault | ⟨none, _⟩)
    · obtain ⟨_, _, _, _, _, _, heq⟩ := Dictionary.firstFault?_eq_some_iff.mp fault
      cases heq
    · exact none
  · exact fun none => .inr ⟨none, rfl⟩

theorem compile_eq_invalid_iff (filled : ∀ w ∈ words, w ≠ "") {i : Nat} {reason : String} :
    compile s words = .error (.invalidPattern i reason) ↔
      reason = "pattern contains U+0000" ∧ (∃ w, words[i]? = some w ∧ '\x00' ∈ w.toList) ∧
        ∀ w ∈ words.take i, '\x00' ∉ w.toList := by
  rw [compile_eq_error_iff, Dictionary.ofList_eq_error_iff, Dictionary.firstFault?_eq_some_iff]
  simp only [Nat.zero_add]
  constructor
  · rintro (⟨j, w, reason', hw, fault, before, heq⟩ | ⟨_, heq⟩)
    · cases heq
      have some := filled w (List.mem_of_getElem? hw)
      obtain ⟨rfl, nul⟩ := (Pattern.fault?_eq_some_iff some).mp fault
      refine ⟨rfl, ⟨w, hw, nul⟩, fun v hv => ?_⟩
      exact (Pattern.fault?_eq_none_iff.mp (before v hv)).2
    · cases heq
  · rintro ⟨rfl, ⟨w, hw, nul⟩, before⟩
    refine .inl ⟨i, w, _, hw, ?_, fun v hv => ?_, rfl⟩
    · exact (Pattern.fault?_eq_some_iff (filled w (List.mem_of_getElem? hw))).mpr ⟨rfl, nul⟩
    · have some : v.toList ≠ [] := fun none =>
        filled v (List.mem_of_mem_take hv) (String.toList_eq_nil_iff.mp none)
      exact Pattern.fault?_eq_none_iff.mpr ⟨some, before v hv⟩

theorem exists_invalid_iff (filled : ∀ w ∈ words, w ≠ "") :
    (∃ i reason, compile s words = .error (.invalidPattern i reason)) ↔
      ∃ w ∈ words, '\x00' ∈ w.toList := by
  constructor
  · rintro ⟨i, reason, failed⟩
    obtain ⟨_, ⟨w, hw, nul⟩, _⟩ := (compile_eq_invalid_iff filled).mp failed
    exact ⟨w, List.mem_of_getElem? hw, nul⟩
  · rintro ⟨w, hw, nul⟩
    cases compiled : compile s words with
    | ok a => exact absurd nul ((exists_compile_iff.mp ⟨a, compiled⟩).2 w hw).2
    | error e =>
      cases e with
      | emptyDictionary => exact absurd (compile_eq_empty_iff.mp compiled ▸ hw) List.not_mem_nil
      | invalidPattern i reason => exact ⟨i, reason, rfl⟩
      | workersGone =>
        rw [compile_eq_error_iff, Dictionary.ofList_eq_error_iff,
          Dictionary.firstFault?_eq_some_iff] at compiled
        rcases compiled with ⟨_, _, _, _, _, _, heq⟩ | ⟨_, heq⟩
        · cases heq
        · cases heq

/-- A file is read unless it is no text, and what is read are the words of the text, which are read
again from any lines that hold them. They are compiled unless there is none or one of them has
U+0000, and then the first of these is named. -/
theorem word_file_compiles_iff (s : Settings) (bytes : ByteArray) :
    (∀ e, WordList.ofBytes bytes = .error e ↔ e = .notText ∧ ¬ bytes.IsValidUTF8) ∧
    ∀ text : String, text.toUTF8 = bytes →
      ∃ words, WordList.ofBytes bytes = .ok words ∧
        words.map String.toList =
          ((text.toList.splitOn '\n').map Text.trimmed).filter (· ≠ []) ∧
        (∀ lines, Text.Holds lines (words.map String.toList) →
          WordList.ofBytes (['\n'].intercalate lines).utf8Encode = .ok words) ∧
        (compile s words = .error .emptyDictionary ↔
          ∀ line ∈ text.toList.splitOn '\n', Text.Blank line) ∧
        (∀ i reason, compile s words = .error (.invalidPattern i reason) ↔
          reason = "pattern contains U+0000" ∧ (∃ w, words[i]? = some w ∧ '\x00' ∈ w.toList) ∧
            ∀ w ∈ words.take i, '\x00' ∉ w.toList) ∧
        ((∃ i reason, compile s words = .error (.invalidPattern i reason)) ↔
          ∃ w ∈ words, '\x00' ∈ w.toList) ∧
        ((∃ a, compile s words = .ok a) ↔
          (∃ line ∈ text.toList.splitOn '\n', ¬ Text.Blank line) ∧
            ∀ w ∈ words, '\x00' ∉ w.toList) := by
  refine ⟨fun e => WordList.ofBytes_eq_error_iff, fun text htext => ?_⟩
  have read : WordList.ofBytes bytes = .ok ((Text.words text.toList).map String.ofList) := by
    rw [← htext, ← WordList.ofBytes_utf8Encode, String.utf8Encode_toList]
    rfl
  have filled : ∀ w ∈ (Text.words text.toList).map String.ofList, w ≠ "" := fun _ =>
    WordList.ne_empty_of_mem
  have nothing : (Text.words text.toList).map String.ofList = [] ↔
      ∀ line ∈ text.toList.splitOn '\n', Text.Blank line := by
    rw [List.map_eq_nil_iff, Text.words_eq_nil_iff]
  refine ⟨_, read, ?_, fun lines => WordList.ofBytes_of_holds read, ?_, fun i reason => ?_, ?_, ?_⟩
  · exact WordList.map_toList_ofList _
  · rw [compile_eq_empty_iff, nothing]
  · exact compile_eq_invalid_iff filled
  · exact exists_invalid_iff filled
  · rw [exists_compile_iff, ne_eq, nothing]
    simp only [not_forall, exists_prop]
    exact and_congr_right fun _ => forall₂_congr fun w hw => and_iff_right (filled w hw)

theorem word_file_with_nul :
    WordList.ofBytes "cat\r\n\n\u3000dog\x00 \n".toUTF8 = .ok ["cat", "dog\x00"] ∧
      compile {} ["cat", "dog\x00"] = .error (.invalidPattern 1 "pattern contains U+0000") ∧
      WordList.ofBytes (['\n'].intercalate
        [['\t'], ['\t', 'c', 'a', 't'], ['d', 'o', 'g', '\x00', '\r']]).utf8Encode =
          .ok ["cat", "dog\x00"] := by
  have read : WordList.ofBytes "cat\r\n\n\u3000dog\x00 \n".toUTF8 = .ok ["cat", "dog\x00"] := by
    cbv
  obtain ⟨words, loaded, _, again, _, invalid, _⟩ :=
    (word_file_compiles_iff {} "cat\r\n\n\u3000dog\x00 \n".toUTF8).2 _ rfl
  cases read.symm.trans loaded
  have blank : ∀ c, Text.isBlank c = true → Text.Blank [c] := fun c hc _ h =>
    List.mem_singleton.mp h ▸ hc
  have held : Text.Holds [['\t'], ['\t', 'c', 'a', 't'], ['d', 'o', 'g', '\x00', '\r']]
      [['c', 'a', 't'], ['d', 'o', 'g', '\x00']] :=
    .blank (blank '\t' rfl) (@Text.Holds.word ['\t'] [] ['c', 'a', 't'] _ _ (blank '\t' rfl)
      Text.blank_nil (@Text.Holds.word [] ['\r'] ['d', 'o', 'g', '\x00'] _ _ Text.blank_nil
        (blank '\r' rfl) .none))
  refine ⟨read, (invalid 1 _).mpr ⟨rfl, ⟨"dog\x00", rfl, by decide⟩, ?_⟩, again _ held⟩
  intro w hw
  cases List.mem_singleton.mp hw
  decide

end Automaton

end Compile

end KeywordTagger
