import KeywordTagger.Proofs.Completeness
import KeywordTagger.Proofs.Offsets
import KeywordTagger.Proofs.Weaving

/-!
Tagging by one pass. When no pattern occurs inside a pattern, nothing is hidden along the chained
rule: every longest occurrence is reported, the matches chosen are those of the leftmost-longest
scan, and the tagged line is what that scan writes.
-/

namespace KeywordTagger

open Match

namespace Dictionary

/-- No pattern occurs in a pattern except at its beginning. -/
def Unnested (d : Dictionary) : Prop :=
  ∀ p ∈ d.patterns, ∀ q ∈ d.patterns, ¬ q.toList <:+: p.toList.tail

section Unnested

variable {d : Dictionary} {positions : List (Option Char)}

theorem suffix_tail_of_length_lt {α : Type} {u w : List α} (h : u <:+ w)
    (shorter : u.length < w.length) : u <:+ w.tail := by
  cases w with
  | nil => exact absurd shorter (Nat.not_lt_zero _)
  | cons c w =>
    rcases List.suffix_cons_iff.mp h with rfl | h
    · exact absurd shorter (Nat.lt_irrefl _)
    · exact h

theorem Unnested.not_hidden (unnested : d.Unnested) {p : Pattern} {b : Nat} (hp : p ∈ d.patterns)
    (occurs : Pattern.occurs p (positions.drop b) = true) :
    ¬ d.Hidden positions b (b + p.size) := by
  rintro ⟨i, hi, w, stem, heq⟩
  have hroom := Pattern.size_le_of_occurs occurs
  have hpos := size_ne_zero hp
  have hlen := congrArg List.length heq
  simp only [List.length_map, List.length_drop, List.length_take] at hroom hlen
  have shorter : p.toList.length < w.length := by
    rw [Array.length_toList]
    omega
  have ends := suffix_of_map_suffix (Pattern.suffix_of_occurs occurs)
    (heq ▸ List.drop_suffix i _) (Nat.le_of_lt shorter)
  have inner := suffix_tail_of_length_lt ends shorter
  obtain ⟨j, r, hr, begins⟩ := isStem_iff.mp stem
  have begins := begins.drop 1
  rw [List.drop_one, List.drop_one] at begins
  exact unnested r (Array.mem_of_getElem? hr) p hp (inner.isInfix.trans begins.isInfix)

theorem Unnested.exists_start_iff (unnested : d.Unnested) (b : Nat) :
    (∃ m ∈ d.kept .chained positions, m.start = b) ↔ d.longestAt (positions.drop b) ≠ 0 := by
  constructor
  · rintro ⟨m, hm, rfl⟩
    obtain ⟨p, reports⟩ := exists_reports_of_mem hm
    exact longestAt_ne_zero_iff.mpr ⟨p, reports.mem, reports.occurs⟩
  · intro h
    obtain ⟨p, hp, occurs, hsize⟩ := exists_longest h
    exact (Dictionary.exists_start_iff h).mpr (hsize ▸ unnested.not_hidden hp occurs)

/-- Choosing among the matches goes as the leftmost-longest scan does. -/
theorem Unnested.map_span_chooseFrom (unnested : d.Unnested) (k : Nat)
    (rest : List (Option Char)) (hrest : rest = positions.drop k) :
    (chooseFrom k (d.kept .chained positions)).map Match.span = d.leftmostLongest k rest := by
  have ascending := (pairwise_kept d .chained positions).imp And.left
  fun_induction leftmostLongest d k rest with
  | case1 k =>
    have nothing : chooseFrom k (d.kept .chained positions) = [] := by
      refine chooseFrom_eq_nil fun m hm => ?_
      by_contra after
      have found := (unnested.exists_start_iff m.start).mp ⟨m, hm, rfl⟩
      have hle := longestAt_le (d := d) (positions.drop m.start)
      have hlen := congrArg List.length hrest
      rw [List.length_nil, List.length_drop] at hlen
      rw [List.length_drop] at hle
      omega
    rw [nothing]
    rfl
  | case2 k c cs n hn ih =>
    have nothing (m : Match) (hm : m ∈ d.kept .chained positions) : m.start ≠ k := by
      intro hstart
      have found := (unnested.exists_start_iff k).mp ⟨m, hm, hstart⟩
      rw [← hrest] at found
      exact found hn
    rw [chooseFrom_succ nothing]
    refine ih ?_
    rw [← List.drop_drop, ← hrest]
    rfl
  | case3 k c cs n hn ih =>
    have occurs : d.longestAt (positions.drop k) ≠ 0 := by rwa [← hrest]
    obtain ⟨m, hm, hstart⟩ := (unnested.exists_start_iff k).mpr occurs
    have hstop : m.stop = k + n := by rw [stop_of_mem hm, hstart, ← hrest]
    rw [← hstart, chooseFrom_of_mem ascending hm (by omega), List.map_cons, hstart, hstop]
    have next : (chooseFrom (k + n) (d.kept .chained positions)).map Match.span =
        d.leftmostLongest (k + n) (cs.drop (n - 1)) := by
      refine ih ?_
      obtain ⟨j, hj⟩ := Nat.exists_eq_succ_of_ne_zero hn
      rw [← List.drop_drop, ← hrest, hj]
      rfl
    rw [next, Match.span, hstart, hstop]

end Unnested

/-! The bytes that the scan writes. -/

theorem start_of_mem (d : Dictionary) (k : Nat) (rest : List (Option Char)) :
    ∀ s ∈ d.leftmostLongest k rest, k ≤ s.start ∧ s.start < k + rest.length := by
  fun_induction leftmostLongest d k rest with
  | case1 k => simp
  | case2 k c cs n hn ih =>
    intro s hs
    have bounds := ih s hs
    simp only [List.length_cons]
    omega
  | case3 k c cs n hn ih =>
    have hle := longestAt_le (d := d) (c :: cs)
    rw [List.length_cons] at hle ⊢
    refine List.forall_mem_cons.mpr ⟨by simp, fun s hs => ?_⟩
    have bounds := ih s hs
    rw [List.length_drop] at bounds
    omega

theorem weaveFrom_leftmostLongest (d : Dictionary) (line : ByteArray) (k : Nat)
    (rest : List (Option Char))
    (hroom : k + rest.length = (Decoded.ofBytes line).positions.size) :
    weaveFrom line (.ofBytes line) ((Decoded.ofBytes line).offset k) (d.leftmostLongest k rest) =
      d.tagFrom line (.ofBytes line) k rest := by
  fun_induction leftmostLongest d k rest with
  | case1 k =>
    have hend : k = (Decoded.ofBytes line).positions.size := hroom
    rw [weaveFrom, tagFrom, hend, Decoded.offset_size, ByteArray.extract_same]
  | case2 k c cs n hn ih =>
    rw [List.length_cons] at hroom
    have before := Decoded.offset_le line (Nat.le_succ k) (by omega)
    have fits := Decoded.offset_le_size line (k := k + 1) (by omega)
    have after : ∀ s ∈ d.leftmostLongest (k + 1) cs,
        (Decoded.ofBytes line).offset (k + 1) ≤ (Decoded.ofBytes line).offset s.start := by
      intro s hs
      have bounds := d.start_of_mem (k + 1) cs s hs
      exact Decoded.offset_le line bounds.1 (by omega)
    rw [weaveFrom_split before fits after, ih (by omega), tagFrom, if_pos hn]
  | case3 k c cs n hn ih =>
    have hle := longestAt_le (d := d) (c :: cs)
    rw [List.length_cons] at hroom hle
    have next := ih (by rw [List.length_drop]; omega)
    rw [weaveFrom, next, tagFrom, if_neg hn, ByteArray.extract_same, ByteArray.empty_append]

end Dictionary

namespace Automaton

/-- When no pattern occurs inside a pattern, tagging by the chained rule is leftmost-longest
tagging. -/
theorem tagLine_eq_tagLeftmostLongest (growth : Nat) (d : Dictionary) (unnested : d.Unnested)
    (line : ByteArray) :
    (ofDictionary { growth, rule := .chained } d).tagLine line = d.tagLeftmostLongest line := by
  have spans := unnested.map_span_chooseFrom 0 (Decoded.ofBytes line).positions.toList rfl
  have bytes := d.weaveFrom_leftmostLongest line 0 (Decoded.ofBytes line).positions.toList
    (by rw [Nat.zero_add, Array.length_toList])
  rw [Decoded.offset_zero] at bytes
  rw [tagLine_eq, toList_find, spans, bytes]
  rfl

theorem tagLine_overlapping_patterns :
    ∃ d, Dictionary.ofList ["ab", "cd", "abc"] = .ok d ∧ d.Unnested ∧
      (ofDictionary { growth := 1, rule := .chained } d).tagLine "abcdcd".toUTF8 =
        "【abc】d【cd】".toUTF8 := by
  have computed : (Dictionary.ofList ["ab", "cd", "abc"]).map (fun d =>
      (d.patterns, d.tagLeftmostLongest "abcdcd".toUTF8)) =
        .ok (#[#['a', 'b'], #['a', 'b', 'c'], #['c', 'd']], "【abc】d【cd】".toUTF8) := by cbv
  obtain ⟨d, hd, facts⟩ := Dictionary.exists_of_map_ofList computed
  simp only [Prod.mk.injEq] at facts
  obtain ⟨patterns, tagged⟩ := facts
  have unnested : d.Unnested := by
    rw [Dictionary.Unnested, patterns]
    decide
  refine ⟨d, hd, unnested, ?_⟩
  rw [tagLine_eq_tagLeftmostLongest 1 d unnested, tagged]

end Automaton

end KeywordTagger
