import KeywordTagger.Proofs.Stems
import Mathlib.Data.List.Induction

/-!
Falling back from word to word. By either rule a word falls back to a shorter end of it that is a
stem; by the chained rule to the longest one, so that extending a stem by a code point gives the
longest stem that the extended word ends with.
-/

namespace KeywordTagger.Dictionary

variable {d : Dictionary}

theorem fallback_singleton (rule : LinkRule) (c : Char) : d.fallback rule [c] = [] := by
  cases rule with
  | parentOnly => simp [fallback, parentFallback]
  | chained => simp [fallback, longestStem]

theorem fallback_parentOnly_append (v : List Char) (c : Char) (hv : v ≠ []) :
    d.fallback .parentOnly (v ++ [c]) =
      if d.isStem (d.fallback .parentOnly v ++ [c]) then d.fallback .parentOnly v ++ [c]
      else [] := by
  have hr : v.reverse ≠ [] := by simpa using hv
  simp only [fallback, List.reverse_append, List.reverse_singleton, List.singleton_append]
  rw [parentFallback, if_neg hr]
  rfl

theorem fallback_chained_append (v : List Char) (c : Char) (hv : v ≠ []) :
    d.fallback .chained (v ++ [c]) = d.longestStem (d.fallback .chained v ++ [c]) := by
  simp only [fallback]
  rw [List.tail_append_of_ne_nil hv, longestStem_append_singleton]

theorem fallback_facts (d : Dictionary) (rule : LinkRule) (w : List Char) :
    d.isStem (d.fallback rule w) = true ∧ d.fallback rule w <:+ w.tail := by
  cases rule with
  | chained => exact ⟨isStem_longestStem d _, longestStem_suffix d _⟩
  | parentOnly =>
    induction w using List.reverseRecOn with
    | nil => exact ⟨isStem_nil, List.nil_suffix⟩
    | append_singleton v c ih =>
      by_cases hv : v = []
      · subst hv
        rw [List.nil_append, fallback_singleton]
        exact ⟨isStem_nil, List.nil_suffix⟩
      · rw [fallback_parentOnly_append v c hv]
        split
        · rename_i h
          rw [List.tail_append_of_ne_nil hv]
          exact ⟨h, List.suffix_append_self_iff.mpr ih.2⟩
        · exact ⟨isStem_nil, List.nil_suffix⟩

theorem isStem_fallback (d : Dictionary) (rule : LinkRule) (w : List Char) :
    d.isStem (d.fallback rule w) = true := (d.fallback_facts rule w).1

theorem fallback_suffix_tail (d : Dictionary) (rule : LinkRule) (w : List Char) :
    d.fallback rule w <:+ w.tail := (d.fallback_facts rule w).2

theorem fallback_suffix (d : Dictionary) (rule : LinkRule) (w : List Char) :
    d.fallback rule w <:+ w := (d.fallback_suffix_tail rule w).trans (List.tail_suffix w)

theorem fallback_suffix_chained (d : Dictionary) (rule : LinkRule) (w : List Char) :
    d.fallback rule w <:+ d.fallback .chained w :=
  suffix_longestStem (d.fallback_suffix_tail rule w) (d.isStem_fallback rule w)

/-! Extending a word by a code point. -/

theorem extend_of_isStem {rule : LinkRule} {c : Char} {w : List Char}
    (h : d.isStem (w ++ [c]) = true) : d.extend rule c w = w ++ [c] := by
  rw [extend, if_pos h]

theorem extend_nil_of_not {rule : LinkRule} {c : Char} (h : ¬ d.isStem [c] = true) :
    d.extend rule c [] = [] := by
  rw [extend, List.nil_append, if_neg h, dif_pos rfl]

theorem extend_of_not {rule : LinkRule} {c : Char} {w : List Char}
    (h : ¬ d.isStem (w ++ [c]) = true) (hw : w ≠ []) :
    d.extend rule c w = d.extend rule c (d.fallback rule w) := by
  rw [extend, if_neg h, dif_neg hw]

/-- The word after a code point is an end of the word before it, and the code point. -/
theorem extend_facts (d : Dictionary) (rule : LinkRule) (c : Char) (w : List Char) :
    d.isStem (d.extend rule c w) = true ∧ d.extend rule c w <:+ w ++ [c] := by
  fun_induction extend d rule c w with
  | case1 w h => exact ⟨h, List.suffix_refl _⟩
  | case2 h => exact ⟨isStem_nil, List.nil_suffix⟩
  | case3 w h hw _ ih =>
    exact ⟨ih.1, ih.2.trans (List.suffix_append_self_iff.mpr (d.fallback_suffix rule w))⟩

theorem isStem_extend (d : Dictionary) (rule : LinkRule) (c : Char) (w : List Char) :
    d.isStem (d.extend rule c w) = true := (d.extend_facts rule c w).1

theorem extend_suffix (d : Dictionary) (rule : LinkRule) (c : Char) (w : List Char) :
    d.extend rule c w <:+ w ++ [c] := (d.extend_facts rule c w).2

theorem extend_chained {w : List Char} (c : Char) (hw : d.isStem w = true) :
    d.extend .chained c w = d.longestStem (w ++ [c]) := by
  fun_induction extend d .chained c w with
  | case1 w h => exact (longestStem_of_isStem h).symm
  | case2 h => rw [List.nil_append, longestStem_cons_of_not h, longestStem]
  | case3 w h hne _ ih =>
    rw [ih (isStem_longestStem d _)]
    cases w with
    | nil => exact absurd rfl hne
    | cons a w =>
      rw [List.cons_append] at h ⊢
      rw [longestStem_cons_of_not h]
      exact (longestStem_append_singleton w c).symm

end KeywordTagger.Dictionary
