import KeywordTagger.Proofs.LongestMatches
import Mathlib

/-!
Complete reports. Along the chained rule a pattern is read to its end unless a stem that began before
it is still being read there. The longest occurrence at a position is reported exactly when no such
stem hides it, and where it is hidden nothing is reported at its start.
-/

namespace KeywordTagger

namespace Dictionary

/-- Some stem begins before `start` and is read at least up to `stop`. -/
def Hidden (d : Dictionary) (positions : List (Option Char)) (start stop : Nat) : Prop :=
  ∃ i, i < start ∧ ∃ w, d.isStem w = true ∧ (positions.take stop).drop i = w.map some

section Hidden

variable {d : Dictionary} {positions : List (Option Char)} {b : Nat}

theorem LongestEnd.not_hidden {n : Nat} {u : List Char} (h : d.LongestEnd (positions.take n) u)
    (hn : n ≤ positions.length) (start : b + u.length = n) : ¬ d.Hidden positions b n := by
  rintro ⟨i, hi, w, stem, heq⟩
  have hle := h.longest w (heq ▸ List.drop_suffix i _) stem
  have hlen := congrArg List.length heq
  rw [List.length_drop, List.length_take, List.length_map] at hlen
  omega

theorem LongestEnd.eq_of_not_hidden {n : Nat} {u w : List Char}
    (h : d.LongestEnd (positions.take n) u) (hn : n ≤ positions.length)
    (stem : d.isStem w = true) (suffix : w.map some <:+ positions.take n)
    (start : b + w.length = n) (clear : ¬ d.Hidden positions b n) : u = w := by
  have hle := h.longest w suffix stem
  have inner := suffix_of_map_suffix suffix h.suffix hle
  by_contra ne
  have hlt : w.length < u.length :=
    Nat.lt_of_le_of_ne hle fun heq => ne (inner.eq_of_length heq).symm
  have hread := h.suffix.length_le
  rw [List.length_map, List.length_take, Nat.min_eq_left hn] at hread
  refine clear ⟨n - u.length, by omega, u, h.stem, ?_⟩
  have heq := List.suffix_iff_eq_drop.mp h.suffix
  rw [List.length_take, Nat.min_eq_left hn, List.length_map] at heq
  exact heq.symm

/-- Along the chained rule some match starts at a position exactly when the longest pattern that
occurs there is not hidden. -/
theorem exists_start_iff (occurs : d.longestAt (positions.drop b) ≠ 0) :
    (∃ m ∈ d.kept .chained positions, m.start = b) ↔
      ¬ d.Hidden positions b (b + d.longestAt (positions.drop b)) := by
  constructor
  · rintro ⟨m, hm, rfl⟩
    obtain ⟨k, hk, found, _⟩ := mem_kept_iff.mp hm
    obtain ⟨p, reports, hword⟩ := exists_reports hk found
    have hstop := stop_of_matchAt found
    have ends := d.longestEnd_wordAfter positions (n := k + 1) hk
    rw [← stop_of_mem hm, hstop]
    refine ends.not_hidden hk ?_
    rw [← hword, Array.length_toList, ← reports.stop, hstop]
  · intro clear
    obtain ⟨p, hp, here, hsize⟩ := exists_longest occurs
    obtain ⟨i, hi⟩ := Array.mem_iff_getElem?.mp hp
    have hpos := size_ne_zero hp
    have hroom := longestAt_le (d := d) (positions.drop b)
    rw [List.length_drop] at hroom
    have hle : b + p.size ≤ positions.length := by omega
    rw [← hsize] at clear
    have word := (d.longestEnd_wordAfter positions hle).eq_of_not_hidden hle (isStem_pattern hi)
      (Pattern.suffix_of_occurs here) (by rw [Array.length_toList]) clear
    exact ⟨⟨b, b + p.size, i⟩, mem_kept_of_word hi hsize hle word, rfl⟩

end Hidden

end Dictionary

namespace Automaton

/-- By the chained rule a line's matches give, at a position where a pattern occurs, the longest one
that occurs there, exactly when no stem that begins earlier is read up to its end; otherwise no match
starts there. -/
theorem find_reports_unless_hidden (growth : Nat) (d : Dictionary) (line : ByteArray) (b : Nat)
    (occurs : ∃ p ∈ d.patterns,
      Pattern.occurs p ((Decoded.ofBytes line).positions.toList.drop b) = true) :
    let positions := (Decoded.ofBytes line).positions.toList
    let stop := b + d.longestAt (positions.drop b)
    let found := (ofDictionary { growth, rule := .chained } d).find line
    ((∃ m ∈ found, m.start = b ∧ m.stop = stop) ↔ ¬ d.Hidden positions b stop) ∧
      (d.Hidden positions b stop → ∀ m ∈ found, m.start ≠ b) := by
  intro positions stop found
  have listed : found.toList = d.kept .chained positions := toList_find _ d line
  have reported := Dictionary.exists_start_iff (Dictionary.longestAt_ne_zero_iff.mpr occurs)
  simp only [← Array.mem_toList_iff, listed]
  refine ⟨⟨?_, ?_⟩, ?_⟩
  · rintro ⟨m, hm, hstart, _⟩
    exact reported.mp ⟨m, hm, hstart⟩
  · intro clear
    obtain ⟨m, hm, hstart⟩ := reported.mpr clear
    refine ⟨m, hm, hstart, ?_⟩
    rw [Dictionary.stop_of_mem hm, hstart]
  · exact fun hidden m hm hstart => reported.mp ⟨m, hm, hstart⟩ hidden

theorem find_reports_overlapping_pattern :
    ∃ d, Dictionary.ofList ["ab", "bcd", "bc"] = .ok d ∧
      (∃ p ∈ d.patterns,
        Pattern.occurs p ((Decoded.ofBytes "abcx".toUTF8).positions.toList.drop 1) = true) ∧
      ∃ m ∈ (ofDictionary { growth := 1, rule := .chained } d).find "abcx".toUTF8,
        m.start = 1 ∧ m.stop = 3 := by
  have positions : (Decoded.ofBytes "abcx".toUTF8).positions =
      #[some 'a', some 'b', some 'c', some 'x'] := by cbv
  have computed : (Dictionary.ofList ["ab", "bcd", "bc"]).map (fun d =>
      (d.patterns, d.isStem ['a', 'b', 'c'], d.longestAt [some 'b', some 'c', some 'x'])) =
        .ok (#[#['a', 'b'], #['b', 'c'], #['b', 'c', 'd']], false, 2) := by cbv
  obtain ⟨d, hd, facts⟩ := Dictionary.exists_of_map_ofList computed
  simp only [Prod.mk.injEq] at facts
  obtain ⟨patterns, noStem, longest⟩ := facts
  have occurs : ∃ p ∈ d.patterns,
      Pattern.occurs p ((Decoded.ofBytes "abcx".toUTF8).positions.toList.drop 1) = true := by
    rw [positions]
    exact ⟨#['b', 'c'], by simp [patterns], by decide⟩
  have reported := (find_reports_unless_hidden 1 d "abcx".toUTF8 1 occurs).1
  rw [positions] at reported
  simp only [List.drop_succ_cons, List.drop_zero, longest] at reported
  refine ⟨d, hd, occurs, reported.mpr ?_⟩
  rintro ⟨i, hi, w, stem, heq⟩
  cases Nat.lt_one_iff.mp hi
  have hw : ['a', 'b', 'c'].map some = w.map some := heq
  cases (List.map_inj_right fun _ _ => Option.some.inj).mp hw
  rw [noStem] at stem
  cases stem

/-- A pattern is missed while a longer stem is read that goes on otherwise. -/
theorem pattern_in_stem_is_missed :
    ∃ d, Dictionary.ofList ["abc", "b"] = .ok d ∧
      (∃ p ∈ d.patterns,
        Pattern.occurs p ((Decoded.ofBytes "abd".toUTF8).positions.toList.drop 1) = true) ∧
      ∀ m ∈ (ofDictionary { rule := .chained } d).find "abd".toUTF8, m.start ≠ 1 := by
  have positions : (Decoded.ofBytes "abd".toUTF8).positions =
      #[some 'a', some 'b', some 'd'] := by cbv
  have computed : (Dictionary.ofList ["abc", "b"]).map (fun d =>
      (d.patterns, d.findWords .chained "abd".toUTF8)) =
        .ok (#[#['a', 'b', 'c'], #['b']], #[]) := by cbv
  obtain ⟨d, hd, facts⟩ := Dictionary.exists_of_map_ofList computed
  simp only [Prod.mk.injEq] at facts
  obtain ⟨patterns, found⟩ := facts
  refine ⟨d, hd, ?_, ?_⟩
  · rw [positions]
    exact ⟨#['b'], by simp [patterns], by decide⟩
  · intro m hm
    rw [find_eq_findWords, found] at hm
    cases Array.not_mem_empty m hm

end Automaton

end KeywordTagger
