import KeywordTagger.Proofs.Scanning

/-!
Outputs taken on trust. A state puts out a pattern only where the positions read last spell it, so a
scan that does not compare the two finds the same matches.
-/

namespace KeywordTagger

open Dictionary DoubleArray

namespace Automaton

def reportTrusting (a : Automaton) (state stop : Nat) (found : Array Match) : Array Match :=
  match a.table.output? state with
  | some id =>
    match a.dictionary.patterns[id]? with
    | some p => Match.record found { start := stop - p.size, stop, pattern := id }
    | none => found
  | none => found

def readTrusting (a : Automaton) (positions : Array (Option Char)) (k : Nat) (p : Progress) :
    Progress :=
  match positions[k]? with
  | some (some c) =>
    match a.advance? c.toNat (k + 1) p.state with
    | some state => { state, found := a.reportTrusting state (k + 1) p.found }
    | none => { p with state := startState }
  | _ => { p with state := startState }

def findTrusting (a : Automaton) (line : ByteArray) : Array Match :=
  let positions := (Decoded.ofBytes line).positions
  (positions.size.fold (fun k _ p => a.readTrusting positions k p) {}).found

section

variable {a : Automaton} {positions : Array (Option Char)}

theorem report_eq_reportTrusting {state stop : Nat}
    (spelled : ∀ id p, a.table.output? state = some id → a.dictionary.patterns[id]? = some p →
      spells positions stop p = true) (found : Array Match) :
    a.report positions state stop found = a.reportTrusting state stop found := by
  unfold report reportTrusting
  cases out : a.table.output? state with
  | none => rfl
  | some id =>
    cases hp : a.dictionary.patterns[id]? with
    | none => simp only [hp]
    | some p => simp only [hp, spelled id p out hp, if_true]

theorem extract_of_suffix {stop : Nat} {p : Pattern} (hstop : stop ≤ positions.size)
    (h : p.toList.map some <:+ positions.toList.take stop) :
    p.size ≤ stop ∧ positions.extract (stop - p.size) stop = p.map some := by
  have hle := h.length_le
  have slice := List.suffix_iff_eq_drop.mp h
  simp only [List.length_map, Array.length_toList, List.length_take, Nat.min_eq_left hstop]
    at hle slice
  refine ⟨hle, ?_⟩
  apply Array.toList_inj.mp
  rw [Array.toList_extract, List.extract_eq_take_drop, Array.toList_map, slice, List.drop_take]

variable {rule : LinkRule} {d : Dictionary} {st : List Char → Nat}

theorem Compiled.output_suffix (h : a.Compiled rule d st) {n id : Nat} {p : Progress}
    {q : WordProgress} (agrees : Agrees d st positions n p q)
    (out : a.table.output? p.state = some id) :
    ∃ r, d.patterns[id]? = some r ∧ r.toList.map some <:+ positions.toList.take n := by
  rw [agrees.state, h.table.output_eq agrees.stem] at out
  obtain ⟨r, hr, word⟩ := idOf?_eq_some_iff.mp out
  exact ⟨r, hr, word ▸ agrees.read⟩

theorem Compiled.spelled (h : a.Compiled rule d st) {n : Nat} (hn : n ≤ positions.size)
    {p : Progress} {q : WordProgress} (agrees : Agrees d st positions n p q) (id : Nat)
    (r : Pattern) (out : a.table.output? p.state = some id)
    (hr : a.dictionary.patterns[id]? = some r) : spells positions n r = true := by
  obtain ⟨r', hr', suffix⟩ := h.output_suffix agrees out
  rw [h.dictionary, hr'] at hr
  cases hr
  exact spells_of_suffix hn suffix

theorem Compiled.read_eq (h : a.Compiled rule d st) {k : Nat} {p : Progress} {q : WordProgress}
    (agrees : Agrees d st positions k p q) :
    a.read positions k p = a.readTrusting positions k p := by
  unfold Automaton.read readTrusting
  cases hc : positions[k]? with
  | none => rfl
  | some c =>
    cases c with
    | none => rfl
    | some c =>
      cases reached : a.advance? c.toNat (k + 1) p.state with
      | none => simp only [reached]
      | some state =>
        have next := agrees.read_next h hc
        have hk := (Array.getElem?_eq_some_iff.mp hc).1
        have spelled := h.spelled hk next
        simp only [Automaton.read, hc, reached] at spelled
        simp only [reached, report_eq_reportTrusting spelled]

theorem Compiled.readFirst_eq (h : a.Compiled rule d st) {n : Nat} (hn : n ≤ positions.size) :
    a.readFirst positions #[] n = n.fold (fun k _ p => a.readTrusting positions k p) {} := by
  induction n with
  | zero => rfl
  | succ n ih =>
    have agrees := h.agrees positions #[] (Nat.le_of_succ_le hn)
    have before := ih (Nat.le_of_succ_le hn)
    rw [Nat.fold_succ, ← before, ← h.read_eq agrees, readFirst, Nat.fold_succ]
    rfl

end

/-- Where the state after a position puts out a pattern, the positions up to there end with it, so
the comparison never fails and a scan without it finds the same. -/
theorem outputs_are_spelled (s : Settings) (d : Dictionary) (line : ByteArray) :
    let a := ofDictionary s d
    let positions := (Decoded.ofBytes line).positions
    (∀ k, k < positions.size →
      ∀ id, a.table.output? (a.readFirst positions #[] (k + 1)).state = some id →
        ∃ p, d.patterns[id]? = some p ∧ p.size ≤ k + 1 ∧
          positions.extract (k + 1 - p.size) (k + 1) = p.map some ∧
          spells positions (k + 1) p = true) ∧
    a.findTrusting line = a.find line := by
  intro a positions
  obtain ⟨st, compiled⟩ := exists_compiled s d
  constructor
  · intro k hk id out
    obtain ⟨p, hp, suffix⟩ := compiled.output_suffix (compiled.agrees positions #[] hk) out
    obtain ⟨short, slice⟩ := extract_of_suffix hk suffix
    exact ⟨p, hp, short, slice, spells_of_suffix hk suffix⟩
  · have run := compiled.readFirst_eq (Nat.le_refl positions.size)
    exact (congrArg Progress.found run).symm

end Automaton

end KeywordTagger
