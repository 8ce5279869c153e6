import KeywordTagger.Proofs.Links

/-!
Scanning with tables and with words. The tables and the word machine go through a line side by side:
after each position the state of the one is the state of the word of the other, the word is what was
read last, and both have found the same matches.
-/

namespace KeywordTagger

open Dictionary DoubleArray

namespace Automaton

/-- The tables of an automaton are those of a dictionary: the double array represents it and the
links are its fallbacks. -/
structure Compiled (a : Automaton) (rule : LinkRule) (d : Dictionary) (st : List Char → Nat) :
    Prop where
  dictionary : a.dictionary = d
  table : a.table.Represents d st
  links : a.links.LinksTo rule a.table d st fun _ => True

theorem table_ofDictionary (s : Settings) (d : Dictionary) :
    (ofDictionary s d).table = (Encoding.ofDictionary s.growth d).table := by
  rw [ofDictionary]

theorem links_ofDictionary (s : Settings) (d : Dictionary) : (ofDictionary s d).links =
    FailureLinks.ofEncoding s.rule (Encoding.ofDictionary s.growth d) := by
  rw [ofDictionary]

theorem compiled_ofDictionary {s : Settings} {d : Dictionary} {st : List Char → Nat}
    (fin : (Encoding.ofDictionary s.growth d).Finished d st) :
    (ofDictionary s d).Compiled s.rule d st := by
  have table := table_ofDictionary s d
  have links := FailureLinks.linksTo_ofEncoding s.rule fin
  rw [← links_ofDictionary, ← table] at links
  exact ⟨rfl, table ▸ fin.represents, links⟩

theorem exists_compiled (s : Settings) (d : Dictionary) :
    ∃ st, (ofDictionary s d).Compiled s.rule d st := by
  obtain ⟨st, fin⟩ := Encoding.exists_finished s.growth d
  exact ⟨st, compiled_ofDictionary fin⟩

section Advance

variable {a : Automaton} {rule : LinkRule} {d : Dictionary} {st : List Char → Nat}

theorem Compiled.retreat_eq (h : a.Compiled rule d st) {w : List Char} (stem : d.isStem w = true)
    (hw : w ≠ []) : a.retreat (st w) = st (d.fallback rule w) := by
  simp only [retreat, h.links.linked stem hw trivial]
  exact FailureLinks.state_of_target h.table (isStem_fallback d rule w)

theorem Compiled.moves (h : a.Compiled rule d st) {w : List Char} (stem : d.isStem w = true)
    (on : st w ≠ startState) : w ≠ [] ∧ a.retreat (st w) = st (d.fallback rule w) ∧
      (d.fallback rule w).length < w.length := by
  have hw : w ≠ [] := fun empty => on ((h.table.state_eq_start_iff stem).mpr empty)
  exact ⟨hw, h.retreat_eq stem hw, d.length_fallback_lt rule hw⟩

/-- A state goes on where its word is extended, if anything is left of the word and the code
point. -/
theorem Compiled.advance_eq (h : a.Compiled rule d st) (c : Char) (tries : Nat) {w : List Char}
    (stem : d.isStem w = true) (enough : w.length < tries) :
    a.advance? c.toNat tries (st w) =
      if d.extend rule c w = [] then none else some (st (d.extend rule c w)) := by
  induction tries generalizing w with
  | zero => exact absurd enough (Nat.not_lt_zero _)
  | succ tries ih =>
    rw [advance?, h.table.next_eq stem]
    by_cases longer : d.isStem (w ++ [c]) = true
    · have hne : w ++ [c] ≠ [] := List.append_ne_nil_of_right_ne_nil w (List.cons_ne_nil c [])
      rw [extend_of_isStem longer, if_pos longer, if_neg hne]
    · rw [if_neg longer]
      by_cases start : st w = startState
      · cases (h.table.state_eq_start_iff stem).mp start
        simp only [if_pos start, extend_nil_of_not longer, if_true]
      · obtain ⟨hw, retreat, shorter⟩ := h.moves stem start
        simp only [if_neg start, retreat, extend_of_not longer hw]
        exact ih (isStem_fallback d rule w) (by omega)

end Advance

theorem spells_of_suffix {positions : Array (Option Char)} {stop : Nat} {p : Pattern}
    (hstop : stop ≤ positions.size) (h : p.toList.map some <:+ positions.toList.take stop) :
    spells positions stop p = true := by
  obtain ⟨before, heq⟩ := h
  have hlen := congrArg List.length heq
  simp only [List.length_append, List.length_map, Array.length_toList, List.length_take,
    Nat.min_eq_left hstop] at hlen
  simp only [spells, Bool.and_eq_true, decide_eq_true_eq, Nat.all_eq_finRange_all,
    List.all_eq_true]
  refine ⟨by omega, fun i _ => ?_⟩
  have hi := i.isLt
  have hat : positions[stop - p.size + i]? = some (some p[i]) := by
    have hbefore : stop - p.size + i = before.length + i := by omega
    have hlt : before.length + i < stop := by omega
    rw [hbefore, ← Array.getElem?_toList, ← List.getElem?_take_of_lt hlt, ← heq,
      List.getElem?_append_right (Nat.le_add_right _ _), Nat.add_sub_cancel_left]
    simp
  simp [holds, hat]

structure Agrees (d : Dictionary) (st : List Char → Nat) (positions : Array (Option Char)) (n : Nat)
    (p : Progress) (q : WordProgress) : Prop where
  state : p.state = st q.word
  stem : d.isStem q.word = true
  read : q.word.map some <:+ positions.toList.take n
  found : p.found = q.found

section Read

variable {a : Automaton} {rule : LinkRule} {d : Dictionary} {st : List Char → Nat}
  {positions : Array (Option Char)}

theorem Agrees.length_le {n : Nat} {p : Progress} {q : WordProgress}
    (h : Agrees d st positions n p q) : q.word.length ≤ n := by
  have hle := h.read.length_le
  rw [List.length_map, List.length_take] at hle
  omega

theorem Compiled.report_eq (h : a.Compiled rule d st) {w : List Char} {stop : Nat}
    (stem : d.isStem w = true) (hstop : stop ≤ positions.size)
    (read : w.map some <:+ positions.toList.take stop) (found : Array Match) :
    a.report positions (st w) stop found =
      match d.idOf? w with
      | some id => Match.record found { start := stop - w.length, stop, pattern := id }
      | none => found := by
  rw [report, h.table.output_eq stem, h.dictionary]
  cases hid : d.idOf? w with
  | none => rfl
  | some id =>
    obtain ⟨p, hp, rfl⟩ := idOf?_eq_some_iff.mp hid
    simp only [hp, spells_of_suffix hstop read, if_true, Array.length_toList]

theorem take_next {k : Nat} {c : Option Char} (hc : positions[k]? = some c) :
    positions.toList.take (k + 1) = positions.toList.take k ++ [c] := by
  rw [List.take_add_one, Array.getElem?_toList, hc]
  rfl

theorem Agrees.read_next {k : Nat} {p : Progress} {q : WordProgress} {c : Option Char}
    (agrees : Agrees d st positions k p q) (h : a.Compiled rule d st)
    (hc : positions[k]? = some c) :
    Agrees d st positions (k + 1) (a.read positions k p) (d.readWord rule k q c) := by
  have hk : k < positions.size := (Array.getElem?_eq_some_iff.mp hc).1
  have begin : st [] = startState := h.table.start
  cases c with
  | none =>
    simp only [Automaton.read, hc, readWord]
    exact ⟨begin.symm, isStem_nil, List.nil_suffix, agrees.found⟩
  | some c =>
    have enough : q.word.length < k + 1 := Nat.lt_succ_of_le agrees.length_le
    have stem := isStem_extend d rule c q.word
    -- The word only loses code points in front, so it still ends where the positions do.
    have read : (d.extend rule c q.word).map some <:+ positions.toList.take (k + 1) := by
      obtain ⟨before, hbefore⟩ := agrees.read
      have hsuffix := (d.extend_suffix rule c q.word).map some
      rw [List.map_append] at hsuffix
      rw [take_next hc, ← hbefore, List.append_assoc]
      exact hsuffix.trans (List.suffix_append before _)
    simp only [Automaton.read, hc, readWord, agrees.state, h.advance_eq c _ agrees.stem enough]
    by_cases hw : d.extend rule c q.word = []
    · simp only [hw, if_true, idOf?_nil]
      exact ⟨begin.symm, isStem_nil, List.nil_suffix, agrees.found⟩
    · simp only [if_neg hw, h.report_eq stem hk read, agrees.found]
      cases d.idOf? (d.extend rule c q.word) with
      | none => exact ⟨rfl, stem, read, rfl⟩
      | some id => exact ⟨rfl, stem, read, rfl⟩

theorem readWords_append (d : Dictionary) (rule : LinkRule) (k : Nat) (q : WordProgress)
    (xs ys : List (Option Char)) : d.readWords rule k q (xs ++ ys) =
      d.readWords rule (k + xs.length) (d.readWords rule k q xs) ys := by
  induction xs generalizing k q with
  | nil => rfl
  | cons x xs ih =>
    rw [List.cons_append, readWords, readWords, ih, List.length_cons, Nat.add_right_comm,
      Nat.add_assoc]

theorem Compiled.agrees (h : a.Compiled rule d st) (positions : Array (Option Char))
    (found : Array Match) {n : Nat} (hn : n ≤ positions.size) :
    Agrees d st positions n (a.readFirst positions found n)
      (d.readWords rule 0 {} (positions.toList.take n)) := by
  induction n with
  | zero =>
    have begin : st [] = startState := h.table.start
    refine ⟨begin.symm, isStem_nil, List.nil_suffix, ?_⟩
    simp [readFirst, readWords]
  | succ n ih =>
    have hc : positions[n]? = some positions[n] := Array.getElem?_eq_getElem hn
    have next := (ih (Nat.le_of_succ_le hn)).read_next h hc
    have hlen : (positions.toList.take n).length = n := by
      rw [List.length_take, Array.length_toList]
      omega
    rw [take_next hc, readWords_append, hlen, Nat.zero_add]
    simpa only [readFirst, Nat.fold_succ, readWords] using next

end Read

theorem find_eq_findWords (s : Settings) (d : Dictionary) (line : ByteArray) :
    (ofDictionary s d).find line = d.findWords s.rule line := by
  obtain ⟨st, compiled⟩ := exists_compiled s d
  have agrees := compiled.agrees (Decoded.ofBytes line).positions #[] (Nat.le_refl _)
  rw [List.take_of_length_le (Nat.le_of_eq Array.length_toList)] at agrees
  exact agrees.found

/-- Compiling fails as making the dictionary does, and what is compiled finds in every line what the
word machine of the dictionary finds. -/
theorem compile_finds_as_words (s : Settings) (patterns : List String) (line : ByteArray) :
    (compile s patterns).map (fun a => a.find line) =
      (Dictionary.ofList patterns).map fun d => d.findWords s.rule line := by
  rw [compile]
  cases Dictionary.ofList patterns with
  | error e => rfl
  | ok d => exact congrArg Except.ok (find_eq_findWords s d line)

end Automaton

end KeywordTagger
