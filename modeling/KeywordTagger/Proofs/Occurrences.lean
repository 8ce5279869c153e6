import KeywordTagger.LeftmostLongest
import KeywordTagger.Proofs.LongestEnds

/-!
Occurrences of patterns. A word that has been read is followed as long as it is a stem, by either
rule, so of the patterns that occur where it starts the longest is read last: every match that is
kept is the longest occurrence at its start.
-/

namespace KeywordTagger

/-! Where a text ends and where it starts. -/

theorem suffix_take_of_prefix_drop {α : Type} {u xs : List α} {b : Nat} (h : u <+: xs.drop b) :
    u <:+ xs.take (b + u.length) := by
  obtain ⟨after, heq⟩ := h
  rw [List.take_add, ← heq, List.take_left]
  exact List.suffix_append _ u

theorem prefix_drop_of_suffix_take {α : Type} {u xs : List α} {n : Nat} (h : u <:+ xs.take n)
    (hn : n ≤ xs.length) : u <+: xs.drop (n - u.length) := by
  obtain ⟨before, heq⟩ := h
  have hlen := congrArg List.length heq
  rw [List.length_append, List.length_take, Nat.min_eq_left hn] at hlen
  have hstart : n - u.length = before.length := by omega
  have hxs : xs = before ++ (u ++ xs.drop n) := by
    rw [← List.append_assoc, heq, List.take_append_drop]
  rw [hstart]
  conv => rhs; rw [hxs]
  rw [List.drop_left]
  exact List.prefix_append u _

theorem suffix_of_map_suffix {u w : List Char} {positions : List (Option Char)}
    (hu : u.map some <:+ positions) (hw : w.map some <:+ positions) (hle : u.length ≤ w.length) :
    u <:+ w := by
  have inner : u.map some <:+ w.map some :=
    List.suffix_of_suffix_length_le hu hw (by simpa using hle)
  exact (List.suffix_map_iff_of_injective fun _ _ => Option.some.inj).mp inner

namespace Pattern

variable {p : Pattern} {positions : List (Option Char)}

theorem occurs_iff : occurs p positions = true ↔ p.toList.map some <+: positions := by
  rw [occurs, List.isPrefixOf_iff_prefix]

theorem size_le_of_occurs (h : occurs p positions = true) : p.size ≤ positions.length := by
  have hle := (occurs_iff.mp h).length_le
  rwa [List.length_map, Array.length_toList] at hle

theorem suffix_of_occurs {b : Nat} (h : occurs p (positions.drop b) = true) :
    p.toList.map some <:+ positions.take (b + p.size) := by
  have suffix := suffix_take_of_prefix_drop (occurs_iff.mp h)
  rwa [List.length_map, Array.length_toList] at suffix

end Pattern

namespace Dictionary

theorem size_ne_zero {d : Dictionary} {p : Pattern} (hp : p ∈ d.patterns) : p.size ≠ 0 := by
  simpa using (d.valid p hp).1

section LongestAt

variable {d : Dictionary} {positions : List (Option Char)}

theorem foldl_longest (positions : List (Option Char)) (ps : List Pattern) (n : Nat) :
    let m := ps.foldl (fun n p => if Pattern.occurs p positions then max n p.size else n) n
    n ≤ m ∧ (∀ p ∈ ps, Pattern.occurs p positions = true → p.size ≤ m) ∧
      (m = n ∨ ∃ p ∈ ps, Pattern.occurs p positions = true ∧ p.size = m) := by
  induction ps generalizing n with
  | nil => simp
  | cons p ps ih =>
    obtain ⟨le, upper, attained⟩ := ih (if Pattern.occurs p positions then max n p.size else n)
    rw [List.foldl_cons]
    generalize ps.foldl _ _ = m at le upper attained ⊢
    by_cases occurs : Pattern.occurs p positions = true
    · rw [if_pos occurs] at le attained
      refine ⟨by omega, List.forall_mem_cons.mpr ⟨fun _ => by omega, upper⟩, ?_⟩
      rcases attained with heq | ⟨q, hq, h⟩
      · by_cases hle : p.size ≤ n
        · exact .inl (by omega)
        · exact .inr ⟨p, List.mem_cons_self, occurs, by omega⟩
      · exact .inr ⟨q, List.mem_cons_of_mem p hq, h⟩
    · rw [if_neg occurs] at le attained
      refine ⟨le, List.forall_mem_cons.mpr ⟨fun h => absurd h occurs, upper⟩, ?_⟩
      rcases attained with heq | ⟨q, hq, h⟩
      · exact .inl heq
      · exact .inr ⟨q, List.mem_cons_of_mem p hq, h⟩

theorem longestAt_eq_foldl (d : Dictionary) (positions : List (Option Char)) :
    d.longestAt positions = d.patterns.toList.foldl
      (fun n p => if Pattern.occurs p positions then max n p.size else n) 0 := by
  rw [longestAt, Array.foldl_toList]

theorem size_le_longestAt {p : Pattern} (hp : p ∈ d.patterns)
    (occurs : Pattern.occurs p positions = true) : p.size ≤ d.longestAt positions := by
  rw [longestAt_eq_foldl]
  exact (foldl_longest positions d.patterns.toList 0).2.1 p (Array.mem_toList_iff.mpr hp) occurs

theorem exists_longest (h : d.longestAt positions ≠ 0) :
    ∃ p ∈ d.patterns, Pattern.occurs p positions = true ∧ p.size = d.longestAt positions := by
  rw [longestAt_eq_foldl] at h ⊢
  rcases (foldl_longest positions d.patterns.toList 0).2.2 with zero | ⟨p, hp, found⟩
  · exact absurd zero h
  · exact ⟨p, Array.mem_toList_iff.mp hp, found⟩

theorem longestAt_ne_zero_iff :
    d.longestAt positions ≠ 0 ↔ ∃ p ∈ d.patterns, Pattern.occurs p positions = true := by
  constructor
  · intro h
    obtain ⟨p, hp, occurs, _⟩ := exists_longest h
    exact ⟨p, hp, occurs⟩
  · rintro ⟨p, hp, occurs⟩
    have hle := size_le_longestAt hp occurs
    have hpos := size_ne_zero hp
    omega

theorem longestAt_le (positions : List (Option Char)) :
    d.longestAt positions ≤ positions.length := by
  by_cases h : d.longestAt positions = 0
  · omega
  · obtain ⟨p, _, occurs, hsize⟩ := exists_longest h
    exact hsize ▸ Pattern.size_le_of_occurs occurs

end LongestAt

section WordAfter

variable {d : Dictionary} {rule : LinkRule} {positions : List (Option Char)}

theorem wordAfter_succ_none {n : Nat} (hn : positions[n]? = some none) :
    d.wordAfter rule positions (n + 1) = [] := by
  obtain ⟨hlt, heq⟩ := List.getElem?_eq_some_iff.mp hn
  rw [wordAfter, d.readWords_succ rule positions hlt, heq, word_readWord_none]

theorem wordAfter_succ_some {n : Nat} {c : Char} (hn : positions[n]? = some (some c)) :
    d.wordAfter rule positions (n + 1) = d.extend rule c (d.wordAfter rule positions n) := by
  obtain ⟨hlt, heq⟩ := List.getElem?_eq_some_iff.mp hn
  rw [wordAfter, d.readWords_succ rule positions hlt, heq, word_readWord_some, wordAfter]

theorem wordAfter_facts (d : Dictionary) (rule : LinkRule) {n : Nat} (hn : n ≤ positions.length) :
    d.isStem (d.wordAfter rule positions n) = true ∧
      (d.wordAfter rule positions n).map some <:+ positions.take n := by
  induction n with
  | zero => exact ⟨isStem_nil, List.nil_suffix⟩
  | succ n ih =>
    have hlt : n < positions.length := hn
    obtain ⟨_, suffix⟩ := ih (Nat.le_of_lt hlt)
    have here : positions[n]? = some positions[n] := List.getElem?_eq_getElem hlt
    cases hc : positions[n] with
    | none =>
      rw [wordAfter_succ_none (hc ▸ here)]
      exact ⟨isStem_nil, List.nil_suffix⟩
    | some c =>
      rw [wordAfter_succ_some (hc ▸ here)]
      refine ⟨isStem_extend d rule c _, ?_⟩
      have shorter := (d.extend_suffix rule c (d.wordAfter rule positions n)).map some
      rw [List.map_append] at shorter
      rw [List.take_add_one, here, hc]
      exact shorter.trans (List.suffix_append_self_iff.mpr suffix)

/-- A word that has been read is followed as long as it is a stem. -/
theorem wordAfter_append {n : Nat} (x : List Char) (next : x.map some <+: positions.drop n)
    (stem : d.isStem (d.wordAfter rule positions n ++ x) = true) :
    d.wordAfter rule positions (n + x.length) = d.wordAfter rule positions n ++ x := by
  induction x using List.reverseRecOn with
  | nil => rw [List.length_nil, Nat.add_zero, List.append_nil]
  | append_singleton x c ih =>
    rw [← List.append_assoc] at stem ⊢
    rw [List.map_append] at next
    have before := ih ((List.prefix_append _ _).trans next) (isStem_of_append stem)
    have here : positions[n + x.length]? = some (some c) := by
      obtain ⟨after, heq⟩ := next
      rw [← List.getElem?_drop, ← heq]
      simp
    rw [List.length_append, List.length_singleton, ← Nat.add_assoc, wordAfter_succ_some here,
      before, extend_of_isStem stem]

/-- A pattern that occurs where the word starts is read to its end. -/
theorem wordAfter_of_occurs {b n i : Nat} {q : Pattern} (hn : n ≤ positions.length)
    (start : b + (d.wordAfter rule positions n).length = n) (hq : d.patterns[i]? = some q)
    (occurs : Pattern.occurs q (positions.drop b) = true) (long : n ≤ b + q.size) :
    d.wordAfter rule positions (b + q.size) = q.toList := by
  have read := prefix_drop_of_suffix_take (d.wordAfter_facts rule hn).2 hn
  have spelled := Pattern.occurs_iff.mp occurs
  rw [List.length_map, Nat.sub_eq_of_eq_add start.symm] at read
  have begins : d.wordAfter rule positions n <+: q.toList := by
    refine (List.prefix_map_iff_of_injective fun _ _ => Option.some.inj).mp ?_
    refine List.prefix_of_prefix_length_le read spelled ?_
    simp only [List.length_map, Array.length_toList]
    omega
  obtain ⟨x, hx⟩ := begins
  have hlen := congrArg List.length hx
  simp only [List.length_append, Array.length_toList] at hlen
  -- The rest of the pattern is what comes next.
  have next : x.map some <+: positions.drop n := by
    obtain ⟨after, heq⟩ := spelled
    rw [← hx, List.map_append, List.append_assoc] at heq
    rw [← start, ← List.drop_drop, ← heq, ← List.length_map some, List.drop_left]
    exact List.prefix_append _ after
  have stem : d.isStem (d.wordAfter rule positions n ++ x) = true := hx ▸ isStem_pattern hq
  have followed := wordAfter_append x next stem
  have hend : n + x.length = b + q.size := by omega
  rwa [hx, hend] at followed

end WordAfter

end Dictionary

end KeywordTagger
