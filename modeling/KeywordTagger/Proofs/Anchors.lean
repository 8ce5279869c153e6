import KeywordTagger.Proofs.Separators

/-!
Anchored patterns. At the beginning of a line, and after a position that no word goes over, the word
is empty. A pattern that occurs there is read from its beginning, so by either rule the longest one
is found, and nothing that was tagged before reaches over it.
-/

namespace KeywordTagger

open Decoded

namespace Dictionary

/-- At the beginning, or after a position that holds no code point of a pattern. -/
def Anchored (d : Dictionary) (positions : List (Option Char)) (b : Nat) : Prop :=
  b = 0 ∨ ∃ k o, b = k + 1 ∧ positions[k]? = some o ∧ d.Bars o

section Anchored

variable {d : Dictionary} {rule : LinkRule} {positions : List (Option Char)} {b : Nat}

theorem Anchored.wordAfter_eq_nil (h : d.Anchored positions b) (rule : LinkRule) :
    d.wordAfter rule positions b = [] := by
  rcases h with rfl | ⟨k, o, rfl, here, bars⟩
  · rfl
  · exact wordAfter_of_bars here bars

theorem mem_kept_of_rests {i : Nat} {p : Pattern} (rests : d.wordAfter rule positions b = [])
    (hp : d.patterns[i]? = some p) (occurs : Pattern.occurs p (positions.drop b) = true)
    (longest : p.size = d.longestAt (positions.drop b)) :
    ⟨b, b + p.size, i⟩ ∈ d.kept rule positions := by
  have pos := size_ne_zero (Array.mem_of_getElem? hp)
  have room := Pattern.size_le_of_occurs occurs
  rw [List.length_drop] at room
  have start : b + (d.wordAfter rule positions b).length = b := by
    rw [rests, List.length_nil, Nat.add_zero]
  have word := wordAfter_of_occurs (by omega) start hp occurs (Nat.le_add_right b p.size)
  exact mem_kept_of_word hp longest (by omega) word

theorem mem_kept_pattern (rule : LinkRule) {i : Nat} {p : Pattern} (hp : d.patterns[i]? = some p) :
    ⟨0, p.size, i⟩ ∈ d.kept rule (p.toList.map some) := by
  have occurs : Pattern.occurs p ((p.toList.map some).drop 0) = true :=
    Pattern.occurs_iff.mpr (List.prefix_refl _)
  have lower := size_le_longestAt (Array.mem_of_getElem? hp) occurs
  have upper := longestAt_le (d := d) ((p.toList.map some).drop 0)
  simp only [List.drop_zero, List.length_map, Array.length_toList] at lower upper
  have mem : ⟨0, 0 + p.size, i⟩ ∈ d.kept rule (p.toList.map some) :=
    mem_kept_of_rests rfl hp occurs (Nat.le_antisymm lower upper)
  rwa [Nat.zero_add] at mem

theorem kept_eq_singleton {m : Match} (h : m ∈ d.kept rule positions) (start : m.start = 0)
    (stop : m.stop = positions.length) : d.kept rule positions = [m] := by
  have ascending := d.pairwise_kept rule positions
  have within (l : Match) (hl : l ∈ d.kept rule positions) : l.stop ≤ positions.length :=
    (within_of_mem hl).2
  obtain ⟨before, after, heq⟩ := List.append_of_mem h
  rw [heq] at ascending within ⊢
  obtain ⟨_, later, earlier⟩ := List.pairwise_append.mp ascending
  have noneBefore : before = [] := by
    refine List.eq_nil_iff_forall_not_mem.mpr fun l hl => ?_
    have := (earlier l hl m List.mem_cons_self).1
    omega
  have noneAfter : after = [] := by
    refine List.eq_nil_iff_forall_not_mem.mpr fun l hl => ?_
    have past := ((List.pairwise_cons.mp later).1 l hl).2
    have := within l (by simp [hl])
    omega
  rw [noneBefore, noneAfter, List.nil_append]

end Anchored

end Dictionary

namespace Automaton

section Anchored

variable {s : Settings} {d : Dictionary} {line : ByteArray} {b : Nat}

theorem exists_mem_find (rests : d.wordAfter s.rule (ofBytes line).positions.toList b = [])
    (occurs : ∃ p ∈ d.patterns,
      Pattern.occurs p ((ofBytes line).positions.toList.drop b) = true) :
    ∃ m ∈ (ofDictionary s d).find line, m.start = b ∧
      m.stop = b + d.longestAt ((ofBytes line).positions.toList.drop b) := by
  obtain ⟨p, hp, here, size⟩ :=
    Dictionary.exists_longest (Dictionary.longestAt_ne_zero_iff.mpr occurs)
  obtain ⟨i, hi⟩ := Array.mem_iff_getElem?.mp hp
  simp only [← Array.mem_toList_iff, toList_find]
  exact ⟨_, Dictionary.mem_kept_of_rests rests hi here size, rfl, congrArg (b + ·) size⟩

theorem find_text {i : Nat} {text : String} (h : d.text? i = some text) :
    (ofDictionary s d).find text.toUTF8 = #[⟨0, text.length, i⟩] := by
  obtain ⟨p, hp, rfl⟩ := Option.map_eq_some_iff.mp h
  have positions : (ofBytes (String.ofList p.toList).toUTF8).positions.toList =
      p.toList.map some := by
    simp [positions_utf8Encode]
  have whole := Dictionary.kept_eq_singleton (Dictionary.mem_kept_pattern s.rule hp) rfl
    (by simp)
  apply Array.toList_inj.mp
  rw [toList_find, positions, whole, String.length_ofList, Array.length_toList]

/-- A match that starts where the word is empty is chosen, and the line is tagged as what stands
before it alone, the match between two tags, and what is chosen after it. -/
theorem tagLine_of_mem_find {m : Match} (hm : m ∈ (ofDictionary s d).find line)
    (rests : d.wordAfter s.rule (ofBytes line).positions.toList m.start = []) :
    let decoded := ofBytes line
    let a := ofDictionary s d
    m ∈ Match.chosen (a.find line) ∧
      a.tagLine line = a.tagLine (line.extract 0 (decoded.offset m.start)) ++ startTag ++
        line.extract (decoded.offset m.start) (decoded.offset m.stop) ++ endTag ++
          weaveFrom line decoded (decoded.offset m.stop)
            ((Match.chooseFrom m.stop (a.find line).toList).map Match.span) := by
  intro decoded a
  obtain ⟨pos, fits⟩ := within_of_mem_find hm
  have ascending : (a.find line).toList.Pairwise fun m n => m.start < n.start := by
    rw [toList_find]
    exact (d.pairwise_kept s.rule _).imp And.left
  have next := Match.chooseFrom_of_mem ascending (Array.mem_toList_iff.mpr hm) pos
  -- The line is cut where the match starts; nothing found before reaches over the cut.
  obtain ⟨u, v, joined, hu, border, size⟩ := exists_cut line (k := m.start) (by omega)
  have before :
      d.wordAfter s.rule (ofBytes u).positions.toList (ofBytes u).positions.size = [] := by
    rw [← joined, positions_append border, Array.toList_append, ← size] at rests
    rwa [Dictionary.wordAfter_left (by simp)] at rests
  have found := find_append (s := s) border before
  have place := offset_border border
  have chosen := chooseFrom_find_append found
  have tagged := tagLine_append_left found border
  rw [joined, size] at place chosen tagged
  rw [next] at chosen tagged
  refine ⟨?_, ?_⟩
  · rw [← Array.mem_toList_iff, Match.toList_chosen, chosen]
    exact List.mem_append_right _ List.mem_cons_self
  · rw [tagged, ← place, ← hu, List.map_cons, weaveFrom, Match.span, ByteArray.extract_same,
      ByteArray.empty_append]
    simp only [ByteArray.append_assoc, decoded, a]

/-- By either rule the longest pattern that occurs where no word goes on is found and tagged. In
particular a line that is a pattern is one match. -/
theorem anchored_pattern_is_tagged (s : Settings) (d : Dictionary) :
    let a := ofDictionary s d
    (∀ (line : ByteArray) (b : Nat),
      let decoded := ofBytes line
      let stop := b + d.longestAt (decoded.positions.toList.drop b)
      d.Anchored decoded.positions.toList b →
      (∃ p ∈ d.patterns, Pattern.occurs p (decoded.positions.toList.drop b) = true) →
      ∃ m ∈ a.find line, m.start = b ∧ m.stop = stop ∧ m ∈ Match.chosen (a.find line) ∧
        a.tagLine line = a.tagLine (line.extract 0 (decoded.offset b)) ++ startTag ++
          line.extract (decoded.offset b) (decoded.offset stop) ++ endTag ++
            weaveFrom line decoded (decoded.offset stop)
              ((Match.chooseFrom stop (a.find line).toList).map Match.span)) ∧
      ∀ i text, d.text? i = some text → a.find text.toUTF8 = #[⟨0, text.length, i⟩] := by
  intro a
  refine ⟨?_, ?_⟩
  · intro line b decoded stop anchored occurs
    have rests := anchored.wordAfter_eq_nil s.rule
    obtain ⟨m, hm, rfl, hstop⟩ := exists_mem_find rests occurs
    obtain ⟨chosen, tagged⟩ := tagLine_of_mem_find hm rests
    rw [hstop] at tagged
    exact ⟨m, hm, rfl, hstop, chosen, tagged⟩
  · exact fun i text => find_text

theorem pattern_after_stray_byte_is_tagged :
    ∃ d, Dictionary.ofList ["he", "hers", "she"] = .ok d ∧
      let line : ByteArray := ⟨#[0x73, 0x68, 0xFF, 0x68, 0x65, 0x72, 0x73]⟩
      let positions := (ofBytes line).positions.toList
      let a := ofDictionary {} d
      d.Anchored positions 3 ∧
        (∃ p ∈ d.patterns, Pattern.occurs p (positions.drop 3) = true) ∧
        (∃ m ∈ Match.chosen (a.find line), m.start = 3 ∧ m.stop = 7) ∧
        d.text? 1 = some "hers" ∧ a.find "hers".toUTF8 = #[⟨0, 4, 1⟩] := by
  have computed : (Dictionary.ofList ["he", "hers", "she"]).map (fun d =>
      (d.patterns, d.text? 1, d.longestAt [some 'h', some 'e', some 'r', some 's'])) =
        .ok (#[#['h', 'e'], #['h', 'e', 'r', 's'], #['s', 'h', 'e']], some "hers", 4) := by cbv
  have read : (ofBytes ⟨#[0x73, 0x68, 0xFF, 0x68, 0x65, 0x72, 0x73]⟩).positions =
      #[some 's', some 'h', none, some 'h', some 'e', some 'r', some 's'] := by cbv
  obtain ⟨d, hd, facts⟩ := Dictionary.exists_of_map_ofList computed
  simp only [Prod.mk.injEq] at facts
  obtain ⟨patterns, text, longest⟩ := facts
  refine ⟨d, hd, ?_⟩
  intro line positions a
  have shown : positions = [some 's', some 'h', none, some 'h', some 'e', some 'r', some 's'] :=
    congrArg Array.toList read
  have rest : positions.drop 3 = [some 'h', some 'e', some 'r', some 's'] := by
    rw [shown]
    rfl
  have anchored : d.Anchored positions 3 := .inr ⟨2, none, rfl, by rw [shown]; rfl, d.bars_none⟩
  have occurs : ∃ p ∈ d.patterns, Pattern.occurs p (positions.drop 3) = true := by
    rw [rest]
    exact ⟨#['h', 'e', 'r', 's'], by simp [patterns], by decide⟩
  obtain ⟨inLine, asLine⟩ := anchored_pattern_is_tagged {} d
  obtain ⟨m, _, start, stop, chosen, _⟩ := inLine line 3 anchored occurs
  have stop : m.stop = 3 + d.longestAt (positions.drop 3) := stop
  rw [rest, longest] at stop
  exact ⟨anchored, occurs, ⟨m, chosen, start, stop⟩, text, asLine 1 "hers" text⟩

end Anchored

end Automaton

end KeywordTagger
