import KeywordTagger.Proofs.JoinedLines
import Mathlib

/-!
Separators. No word goes over a code point that is in no pattern, nor over a byte that is in no
encoding, and either is one position whatever stands around it. So what is before it and what is
after it are scanned and tagged as lines of their own, by either rule.
-/

namespace KeywordTagger

open Decoded

namespace Dictionary

def Bars (d : Dictionary) (o : Option Char) : Prop := ∀ c, o = some c → ∀ p ∈ d.patterns, c ∉ p

/-- The encoding of a code point that is in no pattern, or a byte that is in no encoding. -/
def Separates (d : Dictionary) (x : ByteArray) : Prop :=
  (∃ c : Char, (∀ p ∈ d.patterns, c ∉ p) ∧ x = [c].utf8Encode) ∨
    ∃ b : UInt8, (b = 0xC0 ∨ b = 0xC1 ∨ 0xF5 ≤ b) ∧ x = ⟨#[b]⟩

section Bars

variable {d : Dictionary} {rule : LinkRule} {positions : List (Option Char)} {o : Option Char}

theorem bars_none (d : Dictionary) : d.Bars none := nofun

theorem notMem_of_isStem {c : Char} {w : List Char} (absent : ∀ p ∈ d.patterns, c ∉ p)
    (stem : d.isStem w = true) : c ∉ w := by
  obtain ⟨i, p, hp, begins⟩ := isStem_iff.mp stem
  intro hc
  exact absent p (Array.mem_of_getElem? hp) (Array.mem_toList_iff.mp (begins.subset hc))

theorem extend_of_absent {c : Char} (absent : ∀ p ∈ d.patterns, c ∉ p) (w : List Char) :
    d.extend rule c w = [] := by
  rcases List.suffix_concat_iff.mp (d.extend_suffix rule c w) with hnil | ⟨t, heq, _⟩
  · exact hnil
  · have stem := d.isStem_extend rule c w
    rw [heq] at stem
    exact absurd (List.mem_concat_self) (notMem_of_isStem absent stem)

/-- By either rule, and whatever was read before. -/
theorem wordAfter_of_bars {n : Nat} (here : positions[n]? = some o) (bars : d.Bars o) :
    d.wordAfter rule positions (n + 1) = [] := by
  cases o with
  | none => exact wordAfter_succ_none here
  | some c => rw [wordAfter_succ_some here, extend_of_absent (bars c rfl)]

theorem wordAfter_snoc_bars (rule : LinkRule) (us : List (Option Char)) (bars : d.Bars o) :
    d.wordAfter rule (us ++ [o]) (us ++ [o]).length = [] := by
  rw [List.length_append, List.length_singleton]
  exact wordAfter_of_bars List.getElem?_concat_length bars

theorem kept_snoc_bars (us : List (Option Char)) (bars : d.Bars o) :
    d.kept rule (us ++ [o]) = d.kept rule us := by
  have last := wordAfter_snoc_bars rule us bars
  rw [List.length_append, List.length_singleton] at last
  have none : d.matchAt? us.length (d.wordAfter rule (us ++ [o]) (us.length + 1)) = none := by
    rw [last, matchAt?, idOf?_nil]
    rfl
  rw [kept, kept, List.length_append, List.length_singleton, Match.filterMap_range_succ, none,
    Option.toList_none, List.append_nil]
  refine congrArg _ (List.filterMap_congr fun k hk => ?_)
  rw [wordAfter_left (List.mem_range.mp hk)]

theorem kept_bars (bars : d.Bars o) : d.kept rule [o] = [] := kept_snoc_bars [] bars

end Bars

section Separates

variable {d : Dictionary} {x : ByteArray}

theorem separates_nul (d : Dictionary) : d.Separates ['\x00'].utf8Encode :=
  .inl ⟨'\x00', fun p hp => (d.valid p hp).2, rfl⟩

theorem Separates.exists_position (h : d.Separates x) :
    ∃ o, d.Bars o ∧ (ofBytes x).positions = #[o] := by
  rcases h with ⟨c, absent, rfl⟩ | ⟨b, foreign, rfl⟩
  · refine ⟨some c, ?_, positions_char c⟩
    intro _ heq
    cases heq
    exact absent
  · exact ⟨none, bars_none d, positions_foreign foreign⟩

theorem Separates.border_before (h : d.Separates x) (u v : ByteArray) : Border u (x ++ v) := by
  rcases h with ⟨c, _, rfl⟩ | ⟨b, foreign, rfl⟩
  · exact border_before_char u c v
  · exact border_before_foreign u foreign v

theorem Separates.border_after (h : d.Separates x) (v : ByteArray) : Border x v := by
  rcases h with ⟨c, _, rfl⟩ | ⟨b, foreign, rfl⟩
  · exact border_char c v
  · exact border_foreign foreign v

end Separates

end Dictionary

namespace Automaton

section Separates

variable {s : Settings} {d : Dictionary} {x : ByteArray}

theorem find_separator (h : d.Separates x) : (ofDictionary s d).find x = #[] := by
  obtain ⟨o, bars, position⟩ := h.exists_position
  apply Array.toList_inj.mp
  rw [toList_find, position]
  exact Dictionary.kept_bars bars

theorem find_append_separator (h : d.Separates x) (u : ByteArray) :
    (ofDictionary s d).find (u ++ x) = (ofDictionary s d).find u := by
  obtain ⟨o, bars, position⟩ := h.exists_position
  have border := h.border_before u .empty
  rw [ByteArray.append_empty] at border
  apply Array.toList_inj.mp
  rw [toList_find, toList_find, positions_append border, position, Array.toList_append]
  exact Dictionary.kept_snoc_bars _ bars

end Separates

/-- What stands before a separator and what stands after it are scanned and tagged apart. -/
theorem separator_parts_line (s : Settings) (d : Dictionary) {x : ByteArray} (h : d.Separates x)
    (u v : ByteArray) :
    let a := ofDictionary s d
    a.find (u ++ x ++ v) = a.find u ++
        (a.find v).map (Match.shift ((ofBytes u).positions.size + 1)) ∧
      a.tagLine (u ++ x ++ v) = a.tagLine u ++ x ++ a.tagLine v := by
  intro a
  obtain ⟨o, bars, position⟩ := h.exists_position
  have before : Border u x := by
    have border := h.border_before u .empty
    rwa [ByteArray.append_empty] at border
  have after : Border (u ++ x) v := (h.border_before u v).append (h.border_after v)
  have positions : (ofBytes (u ++ x)).positions = (ofBytes u).positions.push o := by
    rw [positions_append before, position, Array.append_singleton]
  have size : (ofBytes (u ++ x)).positions.size = (ofBytes u).positions.size + 1 := by
    rw [positions, Array.size_push]
  -- Whatever has been read before, no word goes over the separator.
  have rests : d.wordAfter s.rule (ofBytes (u ++ x)).positions.toList
      (ofBytes (u ++ x)).positions.size = [] := by
    have snoc := Dictionary.wordAfter_snoc_bars s.rule (ofBytes u).positions.toList bars
    rwa [← Array.toList_push, ← positions, Array.length_toList] at snoc
  have whole := find_append (s := s) after rests
  have left : a.find (u ++ x) = a.find u := find_append_separator h u
  have alone : a.find x = #[] := find_separator h
  -- Before the separator a word may still be read; there it counts that nothing is found in it.
  have tagged : a.tagLine (u ++ x) = a.tagLine u ++ x := by
    have found : a.find (u ++ x) =
        a.find u ++ (a.find x).map (Match.shift (ofBytes u).positions.size) := by
      rw [left, alone, Array.map_empty, Array.append_empty]
    rw [tagLine_append found before, tagLine_of_find_eq_empty alone]
  refine ⟨?_, ?_⟩
  · rw [whole, left, size]
  · rw [tagLine_append whole after, tagged]

theorem separator_parts_broken_lines :
    ∃ d, Dictionary.ofList ["he", "hers"] = .ok d ∧ d.Separates ['\x00'].utf8Encode ∧
      let a := ofDictionary {} d
      let u : ByteArray := ⟨#[0x68, 0x65, 0xE3, 0x80]⟩
      let v : ByteArray := ⟨#[0x80, 0x68, 0x65, 0x72, 0x73]⟩
      a.find (u ++ ['\x00'].utf8Encode ++ v) = #[⟨0, 2, 0⟩, ⟨6, 10, 1⟩] ∧
        a.tagLine (u ++ ['\x00'].utf8Encode ++ v) =
          "【he】".toUTF8 ++ ⟨#[0xE3, 0x80, 0x00, 0x80]⟩ ++ "【hers】".toUTF8 := by
  have computed : (Dictionary.ofList ["he", "hers"]).map (fun d =>
      (d.findWords .parentOnly ⟨#[0x68, 0x65, 0xE3, 0x80]⟩,
        d.findWords .parentOnly ⟨#[0x80, 0x68, 0x65, 0x72, 0x73]⟩)) =
      .ok (#[⟨0, 2, 0⟩], #[⟨1, 5, 1⟩]) := by cbv
  have size : (ofBytes ⟨#[0x68, 0x65, 0xE3, 0x80]⟩).positions.size = 4 := by cbv
  have woven : weaveFrom ⟨#[0x68, 0x65, 0xE3, 0x80]⟩ (ofBytes ⟨#[0x68, 0x65, 0xE3, 0x80]⟩) 0
      [⟨0, 2⟩] ++ ['\x00'].utf8Encode ++ weaveFrom ⟨#[0x80, 0x68, 0x65, 0x72, 0x73]⟩
        (ofBytes ⟨#[0x80, 0x68, 0x65, 0x72, 0x73]⟩) 0 [⟨1, 5⟩] =
      "【he】".toUTF8 ++ ⟨#[0xE3, 0x80, 0x00, 0x80]⟩ ++ "【hers】".toUTF8 := by cbv
  obtain ⟨d, hd, facts⟩ := Dictionary.exists_of_map_ofList computed
  simp only [Prod.mk.injEq] at facts
  obtain ⟨first, second⟩ := facts
  refine ⟨d, hd, d.separates_nul, ?_⟩
  intro a u v
  obtain ⟨found, tagged⟩ := separator_parts_line {} d d.separates_nul u v
  have hu : a.find u = #[⟨0, 2, 0⟩] := (find_eq_findWords {} d u).trans first
  have hv : a.find v = #[⟨1, 5, 1⟩] := (find_eq_findWords {} d v).trans second
  rw [found, tagged, tagLine_eq, tagLine_eq, hu, hv, size]
  exact ⟨by simp [Match.shift], woven⟩

end Automaton

end KeywordTagger
