import KeywordTagger.Proofs.Completeness
import Mathlib

/-!
The two link rules compared. By either rule what is reported at a position is the longest pattern
that occurs there, so two rules differ only in where they report. What the parent rule reports the
chained rule reports too, unless it is still reading a stem that began earlier.
-/

namespace KeywordTagger

namespace Dictionary

section Kept

variable {d : Dictionary} {rule rule' : LinkRule} {positions : List (Option Char)} {m n : Match}

theorem eq_of_start (hm : m ∈ d.kept rule positions) (hn : n ∈ d.kept rule' positions)
    (start : m.start = n.start) : m = n := by
  obtain ⟨p, first⟩ := exists_reports_of_mem hm
  obtain ⟨q, second⟩ := exists_reports_of_mem hn
  have stop : m.stop = n.stop := by rw [stop_of_mem hm, stop_of_mem hn, start]
  have spelled : p.toList.map some = q.toList.map some := by
    rw [← first.take_eq, ← second.take_eq, start, stop]
  have same : p = q :=
    Array.toList_inj.mp ((List.map_inj_right fun _ _ => Option.some.inj).mp spelled)
  have pattern : m.pattern = n.pattern := index_unique first.pattern (same ▸ second.pattern)
  cases m
  cases n
  simp only at start stop pattern
  rw [start, stop, pattern]

theorem mem_chained_iff (hm : m ∈ d.kept rule positions) :
    m ∈ d.kept .chained positions ↔ ¬ d.Hidden positions m.start m.stop := by
  obtain ⟨p, reports⟩ := exists_reports_of_mem hm
  have occurs := longestAt_ne_zero_iff.mpr ⟨p, reports.mem, reports.occurs⟩
  rw [stop_of_mem hm, ← exists_start_iff occurs]
  constructor
  · exact fun chained => ⟨m, chained, rfl⟩
  · rintro ⟨n, hn, start⟩
    rwa [← eq_of_start hn hm start]

end Kept

end Dictionary

namespace Automaton

/-- What is found by the parent rule is found by the chained rule unless an earlier stem hides
it. -/
theorem chained_finds_unless_hidden (growth growth' : Nat) (d : Dictionary) (line : ByteArray)
    {m : Match} (hm : m ∈ (ofDictionary { growth, rule := .parentOnly } d).find line) :
    m ∈ (ofDictionary { growth := growth', rule := .chained } d).find line ↔
      ¬ d.Hidden (Decoded.ofBytes line).positions.toList m.start m.stop := by
  rw [← Array.mem_toList_iff, toList_find] at hm ⊢
  exact Dictionary.mem_chained_iff hm

theorem match_after_fallback_stays :
    ∃ d, Dictionary.ofList ["abcx", "by", "cdz", "d"] = .ok d ∧
      ⟨1, 3, 1⟩ ∈ (ofDictionary { growth := 1, rule := .parentOnly } d).find "abyd".toUTF8 ∧
      ⟨1, 3, 1⟩ ∈ (ofDictionary { growth := 2, rule := .chained } d).find "abyd".toUTF8 := by
  have positions : (Decoded.ofBytes "abyd".toUTF8).positions =
      #[some 'a', some 'b', some 'y', some 'd'] := by cbv
  have computed : (Dictionary.ofList ["abcx", "by", "cdz", "d"]).map (fun d =>
      (d.isStem ['a', 'b', 'y'], d.findWords .parentOnly "abyd".toUTF8)) =
        .ok (false, #[⟨1, 3, 1⟩, ⟨3, 4, 3⟩]) := by cbv
  obtain ⟨d, hd, facts⟩ := Dictionary.exists_of_map_ofList computed
  simp only [Prod.mk.injEq] at facts
  obtain ⟨noStem, found⟩ := facts
  have mem : ⟨1, 3, 1⟩ ∈
      (ofDictionary { growth := 1, rule := .parentOnly } d).find "abyd".toUTF8 := by
    rw [find_eq_findWords, found]
    simp
  refine ⟨d, hd, mem, (chained_finds_unless_hidden 1 2 d _ mem).mpr ?_⟩
  rw [positions]
  rintro ⟨i, hi, w, stem, heq⟩
  cases Nat.lt_one_iff.mp hi
  have hw : ['a', 'b', 'y'].map some = w.map some := heq
  cases (List.map_inj_right fun _ _ => Option.some.inj).mp hw
  rw [noStem] at stem
  cases stem

/-- The chained rule goes on with a longer end of what was read, and misses a pattern that the
parent rule finds because it gave up that end. -/
theorem chained_rule_loses_match :
    ∃ d, Dictionary.ofList ["abcx", "by", "cdz", "d"] = .ok d ∧
      ∃ m ∈ (ofDictionary { rule := .parentOnly } d).find "abcd".toUTF8,
        m ∉ (ofDictionary { rule := .chained } d).find "abcd".toUTF8 := by
  have computed : (Dictionary.ofList ["abcx", "by", "cdz", "d"]).map (fun d =>
      (d.findWords .parentOnly "abcd".toUTF8, d.findWords .chained "abcd".toUTF8)) =
        .ok (#[⟨3, 4, 3⟩], #[]) := by cbv
  obtain ⟨d, hd, facts⟩ := Dictionary.exists_of_map_ofList computed
  simp only [Prod.mk.injEq] at facts
  obtain ⟨parent, chained⟩ := facts
  refine ⟨d, hd, ⟨3, 4, 3⟩, ?_, ?_⟩
  · rw [find_eq_findWords, parent]
    simp
  · rw [find_eq_findWords, chained]
    exact Array.not_mem_empty _

end Automaton

end KeywordTagger
