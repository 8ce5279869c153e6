import KeywordTagger.Tagging

/-!
Tagging as recursion. Choosing goes through the matches with the end of the last one chosen, weaving
through the chosen spans with the byte up to which the line has been copied; what was in the buffers
or in the output before changes neither.
-/

namespace KeywordTagger

def Match.chooseFrom (stop : Nat) : List Match → List Match
  | [] => []
  | m :: ms => if m.start < stop then chooseFrom stop ms else m :: chooseFrom m.stop ms

/-- The bytes of a line from `done` on, with the parts at some spans between tags. -/
def weaveFrom (line : ByteArray) (d : Decoded) (done : Nat) : List Span → ByteArray
  | [] => line.extract done line.size
  | s :: ss =>
    line.extract done (d.offset s.start) ++ startTag ++
      line.extract (d.offset s.start) (d.offset s.stop) ++ endTag ++
        weaveFrom line d (d.offset s.stop) ss

namespace Match

theorem foldl_choose (ms : List Match) (chosen : Array Match) :
    (ms.foldl choose chosen).toList =
      chosen.toList ++ chooseFrom (chosen.back?.elim 0 Match.stop) ms := by
  induction ms generalizing chosen with
  | nil => simp [chooseFrom]
  | cons m ms ih =>
    rw [List.foldl_cons, ih, chooseFrom, choose]
    cases last : chosen.back? with
    | none => simp
    | some n =>
      by_cases inside : m.start < n.stop
      · simp [last, inside]
      · simp [inside]

theorem toList_chosen (found : Array Match) :
    (chosen found).toList = chooseFrom 0 found.toList := by
  rw [chosen, ← Array.foldl_toList, foldl_choose]
  rfl

section ChooseFrom

variable {m : Match} {ms : List Match} {k : Nat}

theorem chooseFrom_append_of_lt (past : ∀ m ∈ ms, m.start < k) (ns : List Match) :
    chooseFrom k (ms ++ ns) = chooseFrom k ns := by
  induction ms with
  | nil => rfl
  | cons m ms ih =>
    obtain ⟨first, rest⟩ := List.forall_mem_cons.mp past
    rw [List.cons_append, chooseFrom, if_pos first, ih rest]

theorem chooseFrom_eq_nil (h : ∀ m ∈ ms, m.start < k) : chooseFrom k ms = [] := by
  have past := chooseFrom_append_of_lt h []
  rwa [List.append_nil] at past

theorem chooseFrom_succ (h : ∀ m ∈ ms, m.start ≠ k) : chooseFrom k ms = chooseFrom (k + 1) ms := by
  induction ms with
  | nil => rfl
  | cons m ms ih =>
    obtain ⟨first, rest⟩ := List.forall_mem_cons.mp h
    rw [chooseFrom, chooseFrom, ih rest]
    by_cases before : m.start < k
    · rw [if_pos before, if_pos (Nat.lt_succ_of_lt before)]
    · rw [if_neg before, if_neg (by omega)]

/-- A match that starts where nothing is tagged yet is chosen; all before it are passed over. -/
theorem chooseFrom_of_mem (ascending : ms.Pairwise fun m n => m.start < n.start) (hm : m ∈ ms)
    (pos : m.start < m.stop) : chooseFrom m.start ms = m :: chooseFrom m.stop ms := by
  induction ms with
  | nil => cases hm
  | cons n ms ih =>
    obtain ⟨first, rest⟩ := List.pairwise_cons.mp ascending
    rw [chooseFrom, chooseFrom]
    rcases List.mem_cons.mp hm with rfl | hm
    · rw [if_neg (Nat.lt_irrefl _), if_pos pos]
    · have before := first m hm
      rw [if_pos before, if_pos (Nat.lt_trans before pos), ih rest hm]

end ChooseFrom

end Match

theorem weave_eq (line : ByteArray) (d : Decoded) (chosen : Array Match) (output : ByteArray) :
    weave line d chosen output =
      output ++ weaveFrom line d 0 (chosen.toList.map Match.span) := by
  have woven (ms : List Match) (w : Woven) :
      (ms.foldl (fun w m => w.tag line (d.offset m.start) (d.offset m.stop)) w).finish line =
        w.output ++ weaveFrom line d w.done (ms.map Match.span) := by
    induction ms generalizing w with
    | nil => rfl
    | cons m ms ih =>
      rw [List.foldl_cons, ih, List.map_cons, weaveFrom]
      simp only [Woven.tag, Match.span, ByteArray.append_assoc]
  rw [weave, ← Array.foldl_toList, woven]

/-- Bytes that lie before the next span may be copied apart. -/
theorem weaveFrom_split {line : ByteArray} {d : Decoded} {done mid : Nat} {ss : List Span}
    (h : done ≤ mid) (fits : mid ≤ line.size) (before : ∀ s ∈ ss, mid ≤ d.offset s.start) :
    weaveFrom line d done ss = line.extract done mid ++ weaveFrom line d mid ss := by
  cases ss with
  | nil => exact ByteArray.extract_eq_extract_append_extract mid h fits
  | cons s ss =>
    have hs := before s List.mem_cons_self
    rw [weaveFrom, weaveFrom, ByteArray.extract_eq_extract_append_extract mid h hs]
    simp only [ByteArray.append_assoc]

namespace Automaton

variable (a : Automaton) (line : ByteArray)

theorem findIn_positions (found : Array Match) :
    a.findIn (Decoded.ofBytes line).positions found = a.find line := by
  simp [find, findIn, readFirst]

theorem tagWith_eq (scratch : Scratch) (output : ByteArray) :
    (a.tagWith line scratch output).2 = output ++ weaveFrom line (.ofBytes line) 0
      ((Match.chooseFrom 0 (a.find line).toList).map Match.span) := by
  rw [tagWith]
  simp only [Decoded.refill_eq_ofBytes, findIn_positions, weave_eq, Match.toList_chosen]

theorem tagLine_eq : a.tagLine line = weaveFrom line (.ofBytes line) 0
    ((Match.chooseFrom 0 (a.find line).toList).map Match.span) := by
  rw [tagLine, tagInto, tagWith_eq, ByteArray.empty_append]

variable {a line} in
theorem tagLine_of_find_eq_empty (h : a.find line = #[]) : a.tagLine line = line := by
  rw [tagLine_eq, h]
  exact ByteArray.extract_zero_size

theorem tagWith_snd (scratch : Scratch) (output : ByteArray) :
    (a.tagWith line scratch output).2 = output ++ a.tagLine line := by
  rw [tagWith_eq, tagLine_eq]

end Automaton

end KeywordTagger
