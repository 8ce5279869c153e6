import KeywordTagger.Proofs.Borders
import KeywordTagger.Proofs.LongestMatches
import KeywordTagger.Proofs.Weaving
import Mathlib.Data.List.Basic

/-!
Lines put together. When the word is empty at a border, what follows is scanned and tagged as a line
of its own: its matches are only moved, and the tagged parts are put together.
-/

namespace KeywordTagger

def Match.shift (n : Nat) (m : Match) : Match :=
  { m with start := n + m.start, stop := n + m.stop }

def Span.shift (n : Nat) (s : Span) : Span := ⟨n + s.start, n + s.stop⟩

namespace Match

variable {n : Nat} {ms ns : List Match}

theorem keepLast_append (apart : ∀ m ∈ ms, ∀ k ∈ ns, k.start ≠ m.start) :
    keepLast (ms ++ ns) = keepLast ms ++ keepLast ns := by
  induction ms with
  | nil => rfl
  | cons m ms ih =>
    obtain ⟨first, rest⟩ := List.forall_mem_cons.mp apart
    have none : (ns.any fun k => k.start = m.start) = false := by
      rw [List.any_eq_false]
      exact fun k hk => by simpa using first k hk
    rw [List.cons_append, keepLast, keepLast, List.any_append, none, Bool.or_false, ih rest]
    split
    · rfl
    · rfl

theorem keepLast_shift (n : Nat) (ms : List Match) :
    keepLast (ms.map (shift n)) = (keepLast ms).map (shift n) := by
  induction ms with
  | nil => rfl
  | cons m ms ih =>
    have same : ((ms.map (shift n)).any fun k => k.start = (m.shift n).start) =
        ms.any fun k => k.start = m.start := by
      rw [List.any_map]
      congr 1
      funext k
      simp [shift]
    rw [List.map_cons, keepLast, keepLast, same, ih]
    split
    · rfl
    · rfl

/-! Choosing among the matches of two parts. -/

theorem chooseFrom_of_le {j k : Nat} (hjk : j ≤ k) (after : ∀ m ∈ ms, k ≤ m.start) :
    chooseFrom j ms = chooseFrom k ms := by
  cases ms with
  | nil => rfl
  | cons m ms =>
    have hm := after m List.mem_cons_self
    rw [chooseFrom, chooseFrom, if_neg (by omega), if_neg (by omega)]

theorem chooseFrom_append {k : Nat} (hk : k ≤ n) (before : ∀ m ∈ ms, m.stop ≤ n)
    (after : ∀ m ∈ ns, n ≤ m.start) :
    chooseFrom k (ms ++ ns) = chooseFrom k ms ++ chooseFrom n ns := by
  induction ms generalizing k with
  | nil => exact chooseFrom_of_le hk after
  | cons m ms ih =>
    obtain ⟨first, rest⟩ := List.forall_mem_cons.mp before
    rw [List.cons_append, chooseFrom, chooseFrom]
    split
    · exact ih hk rest
    · rw [ih first rest, List.cons_append]

theorem chooseFrom_shift (n k : Nat) (ms : List Match) :
    chooseFrom (n + k) (ms.map (shift n)) = (chooseFrom k ms).map (shift n) := by
  induction ms generalizing k with
  | nil => rfl
  | cons m ms ih =>
    have inside : (m.shift n).start < n + k ↔ m.start < k := Nat.add_lt_add_iff_left
    rw [List.map_cons, chooseFrom, chooseFrom]
    simp only [inside]
    split
    · exact ih k
    · exact congrArg _ (ih m.stop)

theorem mem_of_mem_chooseFrom {m : Match} {k : Nat} (h : m ∈ chooseFrom k ms) : m ∈ ms := by
  induction ms generalizing k with
  | nil => exact h
  | cons l ms ih =>
    rw [chooseFrom] at h
    split at h
    · exact List.mem_cons_of_mem l (ih h)
    · rcases List.mem_cons.mp h with rfl | h
      · exact List.mem_cons_self
      · exact List.mem_cons_of_mem l (ih h)

end Match

namespace Dictionary

variable {d : Dictionary} {rule : LinkRule} {us vs : List (Option Char)}

theorem wordAfter_left {n : Nat} (hn : n ≤ us.length) :
    d.wordAfter rule (us ++ vs) n = d.wordAfter rule us n := by
  rw [wordAfter, wordAfter, List.take_append_of_le_length hn]

theorem wordAfter_right (rests : d.wordAfter rule us us.length = []) {n : Nat}
    (hn : n ≤ vs.length) :
    d.wordAfter rule (us ++ vs) (us.length + n) = d.wordAfter rule vs n := by
  induction n with
  | zero =>
    rw [Nat.add_zero, wordAfter_left (Nat.le_refl _), rests]
    rfl
  | succ n ih =>
    have before := ih (Nat.le_of_succ_le hn)
    have here : vs[n]? = some vs[n] := List.getElem?_eq_getElem hn
    have there : (us ++ vs)[us.length + n]? = some vs[n] := by
      rw [List.getElem?_append_right (Nat.le_add_right _ _), Nat.add_sub_cancel_left, here]
    rw [← Nat.add_assoc]
    cases hc : vs[n] with
    | none => rw [wordAfter_succ_none (hc ▸ there), wordAfter_succ_none (hc ▸ here)]
    | some c =>
      rw [wordAfter_succ_some (hc ▸ there), wordAfter_succ_some (hc ▸ here), before]

theorem matchAt_shift (n : Nat) {k : Nat} {w : List Char} (hw : w.length ≤ k + 1) :
    d.matchAt? (n + k) w = (d.matchAt? k w).map (Match.shift n) := by
  have hstart : n + k + 1 - w.length = n + (k + 1 - w.length) := by omega
  rw [matchAt?, matchAt?, Option.map_map, hstart]
  rfl

theorem length_wordAfter_le {n : Nat} (hn : n ≤ us.length) :
    (d.wordAfter rule us n).length ≤ n := by
  have short := (d.wordAfter_facts rule hn).2.length_le
  rw [List.length_map, List.length_take] at short
  omega

/-- Where the word is empty the matches before and after do not touch. -/
theorem kept_append (rests : d.wordAfter rule us us.length = []) :
    d.kept rule (us ++ vs) =
      d.kept rule us ++ (d.kept rule vs).map (Match.shift us.length) := by
  have first : (List.range us.length).filterMap (fun k =>
      d.matchAt? k (d.wordAfter rule (us ++ vs) (k + 1))) =
        (List.range us.length).filterMap fun k => d.matchAt? k (d.wordAfter rule us (k + 1)) := by
    refine List.filterMap_congr fun k hk => ?_
    rw [wordAfter_left (List.mem_range.mp hk)]
  have second : ((List.range vs.length).map (us.length + ·)).filterMap (fun k =>
      d.matchAt? k (d.wordAfter rule (us ++ vs) (k + 1))) =
        ((List.range vs.length).filterMap fun k =>
          d.matchAt? k (d.wordAfter rule vs (k + 1))).map (Match.shift us.length) := by
    rw [List.filterMap_map, List.map_filterMap]
    refine List.filterMap_congr fun k hk => ?_
    have hlt := List.mem_range.mp hk
    rw [Function.comp_apply, Nat.add_assoc, wordAfter_right rests hlt]
    exact matchAt_shift _ (length_wordAfter_le hlt)
  rw [kept, kept, kept, List.length_append, List.range_add, List.filterMap_append, first, second,
    ← Match.keepLast_shift]
  refine Match.keepLast_append fun m hm k hk => ?_
  obtain ⟨j, hj, found⟩ := List.mem_filterMap.mp hm
  obtain ⟨p, reports, _⟩ := exists_reports (List.mem_range.mp hj) found
  obtain ⟨l, _, rfl⟩ := List.mem_map.mp hk
  have hstop := reports.stop
  have hle := reports.stop_le
  have hsize := size_ne_zero reports.mem
  simp only [Match.shift]
  omega

theorem within_of_mem {positions : List (Option Char)} {m : Match}
    (h : m ∈ d.kept rule positions) : m.start < m.stop ∧ m.stop ≤ positions.length := by
  obtain ⟨p, reports⟩ := exists_reports_of_mem h
  have hstop := reports.stop
  have hsize := size_ne_zero reports.mem
  exact ⟨by omega, reports.stop_le⟩

end Dictionary

open Decoded

def Span.Within (n : Nat) (s : Span) : Prop := s.start ≤ s.stop ∧ s.stop ≤ n

section Weave

variable {a b : ByteArray} {first second : List Span}

theorem weaveFrom_append_right (border : Border a b) (done : Nat)
    (fits : ∀ s ∈ second, s.Within (ofBytes b).positions.size) :
    weaveFrom (a ++ b) (ofBytes (a ++ b)) (a.size + done)
        (second.map (Span.shift (ofBytes a).positions.size)) =
      weaveFrom b (ofBytes b) done second := by
  induction second generalizing done with
  | nil => rw [List.map_nil, weaveFrom, weaveFrom, ByteArray.size_append,
      ByteArray.extract_append_size_add]
  | cons s second ih =>
    obtain ⟨⟨hle, hfit⟩, rest⟩ := List.forall_mem_cons.mp fits
    have start := offset_append_right border (Nat.le_trans hle hfit)
    have stop := offset_append_right border hfit
    rw [List.map_cons, weaveFrom, weaveFrom, Span.shift, start, stop, ih _ rest,
      ByteArray.extract_append_size_add, ByteArray.extract_append_size_add]

theorem weaveFrom_append_left (border : Border a b) {done : Nat} (hdone : done ≤ a.size)
    (before : ∀ s ∈ first, s.Within (ofBytes a).positions.size)
    (after : ∀ s ∈ second, a.size ≤ (ofBytes (a ++ b)).offset s.start) :
    weaveFrom (a ++ b) (ofBytes (a ++ b)) done (first ++ second) =
      weaveFrom a (ofBytes a) done first ++
        weaveFrom (a ++ b) (ofBytes (a ++ b)) a.size second := by
  induction first generalizing done with
  | nil =>
    have room : a.size ≤ (a ++ b).size := by simp
    rw [List.nil_append, weaveFrom_split hdone room after, extract_append_left (Nat.le_refl _),
      weaveFrom]
  | cons s first ih =>
    obtain ⟨⟨hle, hfit⟩, rest⟩ := List.forall_mem_cons.mp before
    have start := offset_append_left border (Nat.le_trans hle hfit)
    have stop := offset_append_left border hfit
    have hstart := offset_le_size a (Nat.le_trans hle hfit)
    have hstop := offset_le_size a hfit
    rw [List.cons_append, weaveFrom, weaveFrom, start, stop, ih hstop rest,
      extract_append_left hstart, extract_append_left hstop]
    simp only [ByteArray.append_assoc]

end Weave

namespace Automaton

variable {s : Settings} {d : Dictionary} {a b : ByteArray}

theorem within_of_mem_find {m : Match} (h : m ∈ (ofDictionary s d).find a) :
    m.start < m.stop ∧ m.stop ≤ (ofBytes a).positions.size := by
  rw [← Array.mem_toList_iff, toList_find] at h
  simpa using Dictionary.within_of_mem h

/-- When the word is empty at a border, the two parts are scanned apart. -/
theorem find_append (border : Border a b)
    (rests : d.wordAfter s.rule (ofBytes a).positions.toList (ofBytes a).positions.size = []) :
    (ofDictionary s d).find (a ++ b) = (ofDictionary s d).find a ++
      ((ofDictionary s d).find b).map (Match.shift (ofBytes a).positions.size) := by
  apply Array.toList_inj.mp
  rw [← Array.length_toList] at rests ⊢
  rw [Array.toList_append, Array.toList_map, toList_find, toList_find, toList_find,
    positions_append border, Array.toList_append, Dictionary.kept_append rests]

theorem mem_chooseFrom_within {t : Span} {k : Nat} {line : ByteArray}
    (h : t ∈ (Match.chooseFrom k ((ofDictionary s d).find line).toList).map Match.span) :
    t.Within (ofBytes line).positions.size := by
  obtain ⟨m, hm, rfl⟩ := List.mem_map.mp h
  have found := Array.mem_toList_iff.mp (Match.mem_of_mem_chooseFrom hm)
  exact ⟨Nat.le_of_lt (within_of_mem_find found).1, (within_of_mem_find found).2⟩

section Parted

variable (found : (ofDictionary s d).find (a ++ b) = (ofDictionary s d).find a ++
  ((ofDictionary s d).find b).map (Match.shift (ofBytes a).positions.size))
include found

theorem chooseFrom_find_right :
    Match.chooseFrom (ofBytes a).positions.size ((ofDictionary s d).find (a ++ b)).toList =
      (Match.chooseFrom 0 ((ofDictionary s d).find b).toList).map
        (Match.shift (ofBytes a).positions.size) := by
  have past : ∀ m ∈ ((ofDictionary s d).find a).toList,
      m.start < (ofBytes a).positions.size := by
    intro m hm
    obtain ⟨hlt, hle⟩ := within_of_mem_find (Array.mem_toList_iff.mp hm)
    exact Nat.lt_of_lt_of_le hlt hle
  rw [found, Array.toList_append, Array.toList_map, ← Match.chooseFrom_shift, Nat.add_zero,
    Match.chooseFrom_append_of_lt past]

theorem chooseFrom_find_append :
    Match.chooseFrom 0 ((ofDictionary s d).find (a ++ b)).toList =
      Match.chooseFrom 0 ((ofDictionary s d).find a).toList ++
        Match.chooseFrom (ofBytes a).positions.size ((ofDictionary s d).find (a ++ b)).toList := by
  rw [chooseFrom_find_right found, ← Match.chooseFrom_shift, Nat.add_zero, found,
    Array.toList_append, Array.toList_map, Match.chooseFrom_append (Nat.zero_le _)]
  · exact fun m hm => (within_of_mem_find (Array.mem_toList_iff.mp hm)).2
  · intro m hm
    obtain ⟨l, _, rfl⟩ := List.mem_map.mp hm
    exact Nat.le_add_right _ _

theorem tagLine_append_left (border : Border a b) :
    (ofDictionary s d).tagLine (a ++ b) = (ofDictionary s d).tagLine a ++
      weaveFrom (a ++ b) (ofBytes (a ++ b)) a.size ((Match.chooseFrom (ofBytes a).positions.size
        ((ofDictionary s d).find (a ++ b)).toList).map Match.span) := by
  have after : ∀ t ∈ (Match.chooseFrom (ofBytes a).positions.size
      ((ofDictionary s d).find (a ++ b)).toList).map Match.span,
        a.size ≤ (ofBytes (a ++ b)).offset t.start := by
    intro t ht
    have fits := Nat.le_trans (mem_chooseFrom_within ht).1 (mem_chooseFrom_within ht).2
    rw [chooseFrom_find_right found] at ht
    obtain ⟨m, hm, rfl⟩ := List.mem_map.mp ht
    obtain ⟨l, _, rfl⟩ := List.mem_map.mp hm
    rw [← offset_border border]
    exact offset_le _ (Nat.le_add_right _ _) fits
  rw [tagLine_eq, tagLine_eq, chooseFrom_find_append found, List.map_append]
  exact weaveFrom_append_left border (Nat.zero_le _) (fun _ => mem_chooseFrom_within) after

theorem tagLine_append (border : Border a b) :
    (ofDictionary s d).tagLine (a ++ b) =
      (ofDictionary s d).tagLine a ++ (ofDictionary s d).tagLine b := by
  have spans : ((Match.chooseFrom 0 ((ofDictionary s d).find b).toList).map
      (Match.shift (ofBytes a).positions.size)).map Match.span =
        ((Match.chooseFrom 0 ((ofDictionary s d).find b).toList).map Match.span).map
          (Span.shift (ofBytes a).positions.size) := by
    rw [List.map_map, List.map_map]
    rfl
  have within : ∀ t ∈ (Match.chooseFrom 0 ((ofDictionary s d).find b).toList).map Match.span,
      t.Within (ofBytes b).positions.size := fun _ => mem_chooseFrom_within
  have right := weaveFrom_append_right border 0 within
  rw [Nat.add_zero] at right
  rw [tagLine_append_left found border, chooseFrom_find_right found, spans, right, ← tagLine_eq]

end Parted

end Automaton

end KeywordTagger
