import KeywordTagger.Proofs.Occurrences

/-!
Longest matches. The matches of a line come in ascending order of their starts and of their stops,
and each is the longest occurrence of a pattern at its start, by either rule.
-/

namespace KeywordTagger

namespace Dictionary

/-- Of the words after each position those that are patterns, and of those with one start the
last. -/
def kept (d : Dictionary) (rule : LinkRule) (positions : List (Option Char)) : List Match :=
  Match.keepLast ((List.range positions.length).filterMap fun k =>
    d.matchAt? k (d.wordAfter rule positions (k + 1)))

structure Reports (d : Dictionary) (positions : List (Option Char)) (m : Match) (p : Pattern) :
    Prop where
  pattern : d.patterns[m.pattern]? = some p
  occurs : Pattern.occurs p (positions.drop m.start) = true
  stop : m.stop = m.start + p.size

section Reports

variable {d : Dictionary} {positions : List (Option Char)} {m : Match} {p : Pattern}

theorem Reports.mem (h : d.Reports positions m p) : p ∈ d.patterns :=
  Array.mem_of_getElem? h.pattern

theorem Reports.stop_le (h : d.Reports positions m p) : m.stop ≤ positions.length := by
  have hle := Pattern.size_le_of_occurs h.occurs
  rw [List.length_drop] at hle
  have hstop := h.stop
  have hsize := size_ne_zero h.mem
  omega

theorem Reports.take_eq (h : d.Reports positions m p) :
    (positions.drop m.start).take (m.stop - m.start) = p.toList.map some := by
  have hlen : m.stop - m.start = (p.toList.map some).length := by
    rw [h.stop, Nat.add_sub_cancel_left, List.length_map, Array.length_toList]
  rw [hlen]
  exact (List.prefix_iff_eq_take.mp (Pattern.occurs_iff.mp h.occurs)).symm

end Reports

section Kept

variable {d : Dictionary} {rule : LinkRule} {positions : List (Option Char)} {m : Match}

theorem stop_of_matchAt {k : Nat} {u : List Char} (h : d.matchAt? k u = some m) :
    m.stop = k + 1 := by
  obtain ⟨id, _, rfl⟩ := Option.map_eq_some_iff.mp h
  rfl

theorem matchAt_pattern {b i : Nat} {p : Pattern} (hp : d.patterns[i]? = some p) :
    d.matchAt? (b + p.size - 1) p.toList = some ⟨b, b + p.size, i⟩ := by
  have hpos := size_ne_zero (Array.mem_of_getElem? hp)
  have hnext : b + p.size - 1 + 1 = b + p.size := by omega
  rw [matchAt?, idOf?_eq_some_iff.mpr ⟨p, hp, rfl⟩, hnext, Array.length_toList,
    Nat.add_sub_cancel_right]
  rfl

theorem exists_reports {k : Nat} (hk : k < positions.length)
    (found : d.matchAt? k (d.wordAfter rule positions (k + 1)) = some m) :
    ∃ p, d.Reports positions m p ∧ p.toList = d.wordAfter rule positions (k + 1) := by
  obtain ⟨id, hid, rfl⟩ := Option.map_eq_some_iff.mp found
  obtain ⟨p, hp, hword⟩ := idOf?_eq_some_iff.mp hid
  obtain ⟨_, suffix⟩ := d.wordAfter_facts rule (Nat.succ_le_of_lt hk)
  have short := suffix.length_le
  have occurs := prefix_drop_of_suffix_take suffix hk
  rw [← hword] at suffix short occurs ⊢
  rw [List.length_map, List.length_take] at short
  rw [List.length_map] at occurs
  refine ⟨p, ⟨hp, Pattern.occurs_iff.mpr occurs, ?_⟩, rfl⟩
  simp only [Array.length_toList] at *
  omega

theorem mem_kept_iff : m ∈ d.kept rule positions ↔ ∃ k, k < positions.length ∧
    d.matchAt? k (d.wordAfter rule positions (k + 1)) = some m ∧
      ∀ j later, k < j → j < positions.length →
        d.matchAt? j (d.wordAfter rule positions (j + 1)) = some later →
          later.start ≠ m.start :=
  Match.mem_keepLast_range_iff _ _

/-- The longest pattern that occurs at a position is kept when it is what the word has become at its
end: a later match with this start would report a longer one. -/
theorem mem_kept_of_word {b i : Nat} {p : Pattern} (hp : d.patterns[i]? = some p)
    (longest : p.size = d.longestAt (positions.drop b)) (fits : b + p.size ≤ positions.length)
    (word : d.wordAfter rule positions (b + p.size) = p.toList) :
    ⟨b, b + p.size, i⟩ ∈ d.kept rule positions := by
  have pos := size_ne_zero (Array.mem_of_getElem? hp)
  have hend : b + p.size - 1 + 1 = b + p.size := by omega
  refine mem_kept_iff.mpr ⟨b + p.size - 1, by omega, ?_, ?_⟩
  · rw [hend, word]
    exact matchAt_pattern hp
  · intro j later hj hlt found hstart
    obtain ⟨q, reports, _⟩ := exists_reports hlt found
    have hq := size_le_longestAt reports.mem reports.occurs
    have hstop := reports.stop
    rw [stop_of_matchAt found] at hstop
    simp only at hstart
    rw [hstart] at hq hstop
    omega

theorem exists_reports_of_mem (h : m ∈ d.kept rule positions) :
    ∃ p, d.Reports positions m p := by
  obtain ⟨k, hk, found, _⟩ := mem_kept_iff.mp h
  obtain ⟨p, reports, _⟩ := exists_reports hk found
  exact ⟨p, reports⟩

/-- A longer pattern at the start of a match that is kept would have been read after it, and its
match would have taken the place of the shorter one. -/
theorem longest_of_mem (h : m ∈ d.kept rule positions) {q : Pattern} (hq : q ∈ d.patterns)
    (occurs : Pattern.occurs q (positions.drop m.start) = true) : m.start + q.size ≤ m.stop := by
  obtain ⟨k, hk, found, last⟩ := mem_kept_iff.mp h
  obtain ⟨p, reports, hword⟩ := exists_reports hk found
  have hstop := reports.stop
  have hnext := stop_of_matchAt found
  by_contra longer
  obtain ⟨i, hi⟩ := Array.mem_iff_getElem?.mp hq
  have start : m.start + (d.wordAfter rule positions (k + 1)).length = k + 1 := by
    rw [← hword, Array.length_toList]
    omega
  have followed := wordAfter_of_occurs hk start hi occurs (by omega)
  have hroom := Pattern.size_le_of_occurs occurs
  rw [List.length_drop] at hroom
  have hend : m.start + q.size - 1 + 1 = m.start + q.size := by omega
  refine last (m.start + q.size - 1) ⟨m.start, m.start + q.size, i⟩ (by omega) (by omega) ?_ rfl
  rw [hend, followed]
  exact matchAt_pattern hi

theorem stop_of_mem (h : m ∈ d.kept rule positions) :
    m.stop = m.start + d.longestAt (positions.drop m.start) := by
  obtain ⟨p, reports⟩ := exists_reports_of_mem h
  have lower := size_le_longestAt reports.mem reports.occurs
  have hstop := reports.stop
  have hsize := size_ne_zero reports.mem
  have hlongest : d.longestAt (positions.drop m.start) ≠ 0 := by omega
  obtain ⟨q, hq, occurs, heq⟩ := exists_longest hlongest
  have upper := longest_of_mem h hq occurs
  omega

theorem pairwise_kept (d : Dictionary) (rule : LinkRule) (positions : List (Option Char)) :
    (d.kept rule positions).Pairwise fun m n => m.start < n.start ∧ m.stop < n.stop := by
  have starts := Match.pairwise_keepLast
    (d.pairwise_matches rule positions (Nat.le_refl positions.length))
  have stops : ((List.range positions.length).filterMap fun k =>
      d.matchAt? k (d.wordAfter rule positions (k + 1))).Pairwise fun m n => m.stop < n.stop := by
    rw [List.pairwise_filterMap]
    refine List.pairwise_lt_range.imp fun {j k} hjk m hm n hn => ?_
    rw [stop_of_matchAt hm, stop_of_matchAt hn]
    omega
  exact starts.and (stops.sublist (Match.keepLast_sublist _))

end Kept

theorem toList_findWords (d : Dictionary) (rule : LinkRule) (line : ByteArray) :
    (d.findWords rule line).toList = d.kept rule (Decoded.ofBytes line).positions.toList := by
  rw [findWords_eq, kept, Array.length_toList]

end Dictionary

namespace Automaton

theorem toList_find (s : Settings) (d : Dictionary) (line : ByteArray) :
    ((ofDictionary s d).find line).toList =
      d.kept s.rule (Decoded.ofBytes line).positions.toList := by
  rw [find_eq_findWords, Dictionary.toList_findWords]

/-- The matches of a line ascend in their starts and in their stops, each spells its pattern, and no
pattern that occurs at the start of a match ends after it. -/
theorem find_reports_longest_at_starts (s : Settings) (d : Dictionary) (line : ByteArray) :
    let positions := (Decoded.ofBytes line).positions
    let found := (ofDictionary s d).find line
    (found.toList.Pairwise fun m n => m.start < n.start ∧ m.stop < n.stop) ∧
      ∀ m ∈ found, m.start < m.stop ∧ m.stop ≤ positions.size ∧
        (∃ p, d.patterns[m.pattern]? = some p ∧ positions.extract m.start m.stop = p.map some) ∧
        ∀ q ∈ d.patterns, Pattern.occurs q (positions.toList.drop m.start) = true →
          m.start + q.size ≤ m.stop := by
  intro positions found
  have listed : found.toList = d.kept s.rule positions.toList := toList_find s d line
  refine ⟨listed ▸ Dictionary.pairwise_kept d s.rule positions.toList, fun m hm => ?_⟩
  rw [← Array.mem_toList_iff, listed] at hm
  obtain ⟨p, reports⟩ := Dictionary.exists_reports_of_mem hm
  have hstop := reports.stop
  have hsize := Dictionary.size_ne_zero reports.mem
  refine ⟨by omega, ?_, ⟨p, reports.pattern, ?_⟩, fun q => Dictionary.longest_of_mem hm⟩
  · simpa using reports.stop_le
  · apply Array.toList_inj.mp
    rw [Array.toList_extract, List.extract_eq_take_drop, Array.toList_map]
    exact reports.take_eq

end Automaton

end KeywordTagger
