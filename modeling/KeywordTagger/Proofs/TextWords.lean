import KeywordTagger.Proofs.WordLists
import Mathlib.Data.List.DropRight

/-!
Words of a text. Between line feeds there is at most one word: what trimming leaves. A text in which
some words have a line each, with blanks around them and blank lines between them, has those words.
-/

namespace KeywordTagger.Text

def Blank (cs : List Char) : Prop := ∀ c ∈ cs, isBlank c = true

/-- What trimming leaves of the parts between line feeds, in order, where it leaves anything. -/
def words (cs : List Char) : List (List Char) :=
  ((cs.splitOn '\n').map trimmed).filter (· ≠ [])

/-- Some lines hold some words, in order: each word is alone on its line, among blanks, and the
other lines are blank. -/
inductive Holds : List (List Char) → List (List Char) → Prop where
  | none : Holds [] []
  | blank {line : List Char} {lines ws : List (List Char)} : Blank line → Holds lines ws →
      Holds (line :: lines) ws
  | word {before after w : List Char} {lines ws : List (List Char)} : Blank before → Blank after →
      Holds lines ws → Holds ((before ++ w ++ after) :: lines) (w :: ws)

/-! Trimming. -/

theorem blank_nil : Blank [] := fun _ h => absurd h List.not_mem_nil

theorem trimmed_eq_rdropWhile (cs : List Char) :
    trimmed cs = (cs.dropWhile isBlank).rdropWhile isBlank := rfl

theorem trimmed_eq_nil_iff {cs : List Char} : trimmed cs = [] ↔ Blank cs := by
  rw [trimmed_eq_rdropWhile, List.rdropWhile_eq_nil_iff]
  constructor
  · intro rest
    have nothing : cs.dropWhile isBlank = [] := by
      rw [← List.dropWhile_idempotent]
      exact List.dropWhile_eq_nil_iff.mpr rest
    exact List.dropWhile_eq_nil_iff.mp nothing
  · intro blank c hc
    exact blank c ((List.dropWhile_suffix isBlank).mem hc)

theorem trimmed_trimmed (cs : List Char) : trimmed (trimmed cs) = trimmed cs := by
  have front : (trimmed cs).dropWhile isBlank = trimmed cs := by
    rw [List.dropWhile_eq_self_iff]
    intro pos
    obtain ⟨rest, heq⟩ := List.rdropWhile_prefix isBlank (cs.dropWhile isBlank)
    rw [← trimmed_eq_rdropWhile] at heq
    have kept := List.dropWhile_eq_self_iff.mp (List.dropWhile_idempotent isBlank cs)
    have inside : 0 < (cs.dropWhile isBlank).length := by
      rw [← heq, List.length_append]
      omega
    have same : (cs.dropWhile isBlank)[0] = (trimmed cs)[0] := by
      simp only [← heq, List.getElem_append_left pos]
    rw [← same]
    exact kept inside
  rw [trimmed_eq_rdropWhile (trimmed cs), front, trimmed_eq_rdropWhile cs,
    List.rdropWhile_idempotent]

theorem trimmed_cons {c : Char} (blank : isBlank c = true) (cs : List Char) :
    trimmed (c :: cs) = trimmed cs := by
  rw [trimmed_eq_rdropWhile, trimmed_eq_rdropWhile, List.dropWhile_cons_of_pos blank]

/-! Words of a text in parts. -/

theorem words_append_lineFeed (xs ys : List Char) :
    words (xs ++ '\n' :: ys) = words xs ++ words ys := by
  rw [words, List.splitOn_eq_splitOnP, List.splitOnP_append_cons xs ys (by rfl), List.map_append,
    List.filter_append]
  rfl

theorem words_line {cs : List Char} (line : '\n' ∉ cs) :
    words cs = [trimmed cs].filter (· ≠ []) := by
  rw [words, List.splitOn_eq_splitOnP, List.splitOnP_eq_singleton, List.map_singleton]
  intro c hc
  exact beq_false_of_ne fun heq => line (heq ▸ hc)

theorem words_nil : words [] = [] := words_line List.not_mem_nil

theorem words_cons {c : Char} (blank : isBlank c = true) (cs : List Char) :
    words (c :: cs) = words cs := by
  by_cases feed : c = '\n'
  · rw [feed, ← List.nil_append ('\n' :: cs), words_append_lineFeed, words_nil, List.nil_append]
  · obtain ⟨line, lines, split⟩ := List.exists_cons_of_ne_nil (List.splitOnP_ne_nil (· == '\n') cs)
    have hc : ¬ (c == '\n') = true := by rwa [beq_iff_eq]
    rw [words, words, List.splitOn_eq_splitOnP, List.splitOn_eq_splitOnP,
      List.splitOnP_cons_eq_if_modifyHead, if_neg hc, split, List.modifyHead_cons, List.map_cons,
      List.map_cons, trimmed_cons blank]

theorem words_append_left {before : List Char} (blank : Blank before) (cs : List Char) :
    words (before ++ cs) = words cs := by
  induction before with
  | nil => rfl
  | cons c before ih =>
    obtain ⟨first, rest⟩ := List.forall_mem_cons.mp blank
    rw [List.cons_append, words_cons first, ih rest]

theorem words_blank {cs : List Char} (blank : Blank cs) : words cs = [] := by
  rw [← List.append_nil cs, words_append_left blank, words_nil]

/-- Blanks that follow a line belong to it up to the next line feed, and hold no word. -/
theorem words_append_right {after : List Char} (blank : Blank after) {line : List Char}
    (whole : '\n' ∉ line) : words (line ++ after) = words line := by
  induction after generalizing line with
  | nil => rw [List.append_nil]
  | cons c after ih =>
    obtain ⟨first, rest⟩ := List.forall_mem_cons.mp blank
    by_cases feed : c = '\n'
    · rw [feed, words_append_lineFeed, words_blank rest, List.append_nil]
    · have longer : '\n' ∉ line ++ [c] := by
        simp [whole, Ne.symm feed]
      rw [List.append_cons, ih rest longer, words_line longer, words_line whole,
        trimmed_concat first]

theorem words_intercalate (line : List Char) (lines : List (List Char)) :
    words (['\n'].intercalate (line :: lines)) =
      words line ++ words (['\n'].intercalate lines) := by
  cases lines with
  | nil => rw [List.intercalate_singleton, List.intercalate_nil, words_nil, List.append_nil]
  | cons next lines =>
    rw [List.intercalate_cons_cons, List.append_assoc, List.singleton_append,
      words_append_lineFeed]

theorem Holds.words_eq {lines ws : List (List Char)} (h : Holds lines ws)
    (whole : ∀ w ∈ ws, '\n' ∉ w) (alone : ∀ w ∈ ws, words w = [w]) :
    words (['\n'].intercalate lines) = ws := by
  induction h with
  | none => exact words_nil
  | blank blank _ ih => rw [words_intercalate, words_blank blank, List.nil_append, ih whole alone]
  | word before after _ ih =>
    obtain ⟨line, lines⟩ := List.forall_mem_cons.mp whole
    obtain ⟨single, rest⟩ := List.forall_mem_cons.mp alone
    rw [words_intercalate, List.append_assoc, words_append_left before,
      words_append_right after line, single, ih lines rest, List.singleton_append]

theorem ne_nil_of_mem_words {cs w : List Char} (h : w ∈ words cs) : w ≠ [] := by
  simpa using (List.mem_filter.mp h).2

theorem words_of_mem {cs w : List Char} (h : w ∈ words cs) (line : '\n' ∉ w) : words w = [w] := by
  obtain ⟨part, _, rfl⟩ := List.mem_map.mp (List.mem_filter.mp h).1
  have some := ne_nil_of_mem_words h
  rw [words_line line, trimmed_trimmed, List.filter_cons_of_pos (by simpa using some),
    List.filter_nil]

theorem words_eq_nil_iff {cs : List Char} :
    words cs = [] ↔ ∀ line ∈ cs.splitOn '\n', Blank line := by
  simp only [words, List.filter_eq_nil_iff, List.forall_mem_map, ne_eq, decide_not,
    Bool.not_eq_true', decide_eq_false_iff_not, Decidable.not_not, trimmed_eq_nil_iff]

end KeywordTagger.Text
