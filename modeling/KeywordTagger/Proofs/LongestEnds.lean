import KeywordTagger.Proofs.Recording
import KeywordTagger.Proofs.Scanning

/-!
Longest ends. Along the chained rule the word after some positions is the longest stem that they end
with, so the automaton reports the pattern that is such a stem, and no shorter one.
-/

namespace KeywordTagger

namespace Dictionary

/-- The longest stem that some positions end with. A byte that belongs to no code point is part of
no word, so no stem reaches over it. -/
structure LongestEnd (d : Dictionary) (positions : List (Option Char)) (u : List Char) : Prop where
  suffix : u.map some <:+ positions
  stem : d.isStem u = true
  longest : ∀ v : List Char, v.map some <:+ positions → d.isStem v = true → v.length ≤ u.length

def matchAt? (d : Dictionary) (k : Nat) (u : List Char) : Option Match :=
  (d.idOf? u).map fun id => { start := k + 1 - u.length, stop := k + 1, pattern := id }

section LongestEnd

variable {d : Dictionary} {positions : List (Option Char)} {u : List Char}

theorem longestEnd_nil (d : Dictionary) : d.LongestEnd [] [] where
  suffix := List.suffix_refl _
  stem := isStem_nil
  longest := fun v hv _ => by simpa using hv.length_le

theorem suffix_snoc_cases {v : List Char} {x : Option Char}
    (h : v.map some <:+ positions ++ [x]) :
    v = [] ∨ ∃ w c, v = w ++ [c] ∧ x = some c ∧ w.map some <:+ positions := by
  rcases List.eq_nil_or_concat v with rfl | ⟨w, c, rfl⟩
  · exact .inl rfl
  · rw [List.concat_eq_append, List.map_append] at h
    rcases List.suffix_concat_iff.mp h with hnil | ⟨t, heq, ht⟩
    · cases List.append_ne_nil_of_right_ne_nil _ (List.cons_ne_nil _ _) hnil
    · obtain ⟨rfl, hx⟩ := List.append_inj' heq rfl
      exact .inr ⟨w, c, List.concat_eq_append, (List.singleton_inj.mp hx).symm, ht⟩

theorem longestEnd_none (d : Dictionary) (positions : List (Option Char)) :
    d.LongestEnd (positions ++ [none]) [] where
  suffix := List.nil_suffix
  stem := isStem_nil
  longest := by
    intro v hv _
    rcases suffix_snoc_cases hv with rfl | ⟨_, _, _, hx, _⟩
    · exact Nat.le_refl _
    · cases hx

/-- The longest stem at the next position is made of the one before it. -/
theorem LongestEnd.next (h : d.LongestEnd positions u) (c : Char) :
    d.LongestEnd (positions ++ [some c]) (d.extend .chained c u) where
  suffix := by
    have hsuffix := (d.extend_suffix .chained c u).map some
    rw [List.map_append] at hsuffix
    exact hsuffix.trans (List.suffix_append_self_iff.mpr h.suffix)
  stem := isStem_extend d .chained c u
  longest := by
    intro v hv stem
    rcases suffix_snoc_cases hv with rfl | ⟨w, b, rfl, hb, hw⟩
    · exact Nat.zero_le _
    · cases hb
      -- What precedes `c` in the longer stem is itself a stem at the positions before it.
      have shorter := h.longest w hw (isStem_of_append stem)
      have hmap : w.map some <:+ u.map some :=
        List.suffix_of_suffix_length_le hw h.suffix (by simpa using shorter)
      obtain ⟨t, ht, heq⟩ := List.suffix_map_iff.mp hmap
      cases (List.map_inj_right fun _ _ => Option.some.inj).mp heq
      rw [extend_chained c h.stem]
      exact length_le_longestStem (List.suffix_append_self_iff.mpr ht) stem

theorem start_of_matchAt {k : Nat} {m : Match} (h : d.matchAt? k u = some m) :
    m.start = k + 1 - u.length := by
  obtain ⟨id, _, rfl⟩ := Option.map_eq_some_iff.mp h
  rfl

end LongestEnd

section WordAfter

variable (d : Dictionary) (rule : LinkRule) (positions : List (Option Char))

def wordAfter (n : Nat) : List Char := (d.readWords rule 0 {} (positions.take n)).word

theorem readWords_succ {n : Nat} (hn : n < positions.length) :
    d.readWords rule 0 {} (positions.take (n + 1)) =
      d.readWord rule n (d.readWords rule 0 {} (positions.take n)) positions[n] := by
  have hlen : (positions.take n).length = n := by
    rw [List.length_take]
    omega
  rw [List.take_add_one, List.getElem?_eq_getElem hn, Option.toList_some,
    Automaton.readWords_append, hlen, Nat.zero_add]
  rfl

theorem word_readWord_none (k : Nat) (q : WordProgress) :
    (d.readWord rule k q none).word = [] := rfl

theorem word_readWord_some (k : Nat) (q : WordProgress) (c : Char) :
    (d.readWord rule k q (some c)).word = d.extend rule c q.word := by
  rw [readWord]
  split <;> rfl

theorem found_readWord (k : Nat) (q : WordProgress) (x : Option Char) :
    (d.readWord rule k q x).found =
      ((d.matchAt? k (d.readWord rule k q x).word).toList).foldl Match.record q.found := by
  cases x with
  | none =>
    rw [word_readWord_none, matchAt?, idOf?_nil]
    rfl
  | some c =>
    rw [word_readWord_some, readWord, matchAt?]
    cases d.idOf? (d.extend rule c q.word) with
    | none => rfl
    | some id => rfl

theorem length_wordAfter_succ {n : Nat} (hn : n < positions.length) :
    (d.wordAfter rule positions (n + 1)).length ≤ (d.wordAfter rule positions n).length + 1 := by
  rw [wordAfter, wordAfter, d.readWords_succ rule positions hn]
  cases positions[n] with
  | none => exact Nat.zero_le _
  | some c =>
    rw [word_readWord_some]
    have hle := (d.extend_suffix rule c (d.readWords rule 0 {} (positions.take n)).word).length_le
    rwa [List.length_append] at hle

theorem longestEnd_wordAfter {n : Nat} (hn : n ≤ positions.length) :
    d.LongestEnd (positions.take n) (d.wordAfter .chained positions n) := by
  induction n with
  | zero => exact longestEnd_nil d
  | succ n ih =>
    have before := ih (Nat.le_of_succ_le hn)
    rw [wordAfter, d.readWords_succ .chained positions hn, List.take_add_one,
      List.getElem?_eq_getElem hn, Option.toList_some]
    cases positions[n] with
    | none => exact longestEnd_none d _
    | some c =>
      rw [word_readWord_some]
      exact before.next c

theorem found_readWords {n : Nat} (hn : n ≤ positions.length) :
    (d.readWords rule 0 {} (positions.take n)).found =
      ((List.range n).filterMap fun k =>
        d.matchAt? k (d.wordAfter rule positions (k + 1))).foldl Match.record #[] := by
  induction n with
  | zero => rfl
  | succ n ih =>
    have before := ih (Nat.le_of_succ_le hn)
    rw [d.readWords_succ rule positions hn, found_readWord, before,
      ← d.readWords_succ rule positions hn, List.range_succ, List.filterMap_append,
      List.foldl_append]
    rfl

theorem start_mono {j k : Nat} (hjk : j ≤ k) (hk : k < positions.length) :
    j + 1 - (d.wordAfter rule positions (j + 1)).length ≤
      k + 1 - (d.wordAfter rule positions (k + 1)).length := by
  induction k with
  | zero =>
    cases Nat.le_zero.mp hjk
    exact Nat.le_refl _
  | succ k ih =>
    rcases Nat.le_succ_iff.mp hjk with hjk | rfl
    · have before := ih hjk (Nat.lt_of_succ_lt hk)
      have := d.length_wordAfter_succ rule positions hk
      omega
    · exact Nat.le_refl _

theorem pairwise_matches {n : Nat} (hn : n ≤ positions.length) :
    ((List.range n).filterMap fun k =>
      d.matchAt? k (d.wordAfter rule positions (k + 1))).Pairwise
        fun m m' => m.start ≤ m'.start := by
  rw [List.pairwise_filterMap]
  refine List.pairwise_lt_range.imp_of_mem fun {j k} _ hk hjk m hm m' hm' => ?_
  rw [start_of_matchAt hm, start_of_matchAt hm']
  have hlt := Nat.lt_of_lt_of_le (List.mem_range.mp hk) hn
  exact d.start_mono rule positions (Nat.le_of_lt hjk) hlt

theorem findWords_eq (line : ByteArray) :
    let positions := (Decoded.ofBytes line).positions
    d.findWords rule line = (Match.keepLast ((List.range positions.size).filterMap fun k =>
      d.matchAt? k (d.wordAfter rule positions.toList (k + 1)))).toArray := by
  have found := d.found_readWords rule (Decoded.ofBytes line).positions.toList (Nat.le_refl _)
  have ascending := d.pairwise_matches rule (Decoded.ofBytes line).positions.toList (Nat.le_refl _)
  rw [List.take_length, Match.foldl_record ascending, Array.length_toList] at found
  exact found

end WordAfter

end Dictionary

namespace Automaton

/-- By the chained rule the state after each position is that of the longest stem the positions end
with, and a pattern is reported exactly where it is that stem, unless a later match starts where it
does. -/
theorem find_reports_longest_ends (growth : Nat) (d : Dictionary) (line : ByteArray) :
    let a := ofDictionary { growth, rule := .chained } d
    let positions := (Decoded.ofBytes line).positions
    ∃ u : Nat → List Char,
      (∀ k, k < positions.size → d.LongestEnd (positions.toList.take (k + 1)) (u k) ∧
        a.table.stateOf? (u k) = some (a.readFirst positions #[] (k + 1)).state) ∧
      (a.find line).toList = Match.keepLast
        ((List.range positions.size).filterMap fun k => d.matchAt? k (u k)) ∧
      (∀ m, m ∈ a.find line ↔ ∃ k, k < positions.size ∧ d.matchAt? k (u k) = some m ∧
        ∀ j later, k < j → j < positions.size → d.matchAt? j (u j) = some later →
          later.start ≠ m.start) := by
  intro a positions
  have listed : (a.find line).toList = Match.keepLast ((List.range positions.size).filterMap
      fun k => d.matchAt? k (d.wordAfter .chained positions.toList (k + 1))) := by
    rw [find_eq_findWords, Dictionary.findWords_eq]
  refine ⟨fun k => d.wordAfter .chained positions.toList (k + 1), fun k hk => ?_, listed, ?_⟩
  · have hk' : k + 1 ≤ positions.toList.length := by rwa [Array.length_toList]
    have ends := d.longestEnd_wordAfter positions.toList hk'
    obtain ⟨st, compiled⟩ := exists_compiled { growth, rule := .chained } d
    refine ⟨ends, ?_⟩
    rw [compiled.table.stateOf_eq, if_pos ends.stem, (compiled.agrees positions #[] hk).state]
    rfl
  · intro m
    rw [← Array.mem_toList_iff, listed]
    exact Match.mem_keepLast_range_iff _ _

end Automaton

end KeywordTagger
