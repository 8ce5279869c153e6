import KeywordTagger.Proofs.Encoded
import KeywordTagger.Proofs.Representation

/-!
The table of a dictionary. The slots that are not free are those of edges between the nodes of a
finished encoding, and each word has at most one inner node, so the states of nodes are states of
words and the table represents the dictionary.
-/

namespace KeywordTagger

open Dictionary

namespace Encoding.Complete

variable {d : Dictionary} {e : Encoding} {st : Nat → Nat}

theorem exists_wordState (h : e.Complete d st) : ∃ f : List Char → Nat,
    ∀ {w : List Char} {q : Nat} {m : Node}, e.tree.nodes[q]? = some m → m.Covers d w →
      f w = st q := by
  obtain rfl := h.dictionary
  have choice (w : List Char) : ∃ s, ∀ (q : Nat) (m : Node), e.tree.nodes[q]? = some m →
      m.Covers e.tree.dictionary w → s = st q := by
    by_cases hex : ∃ (q : Nat) (m : Node), e.tree.nodes[q]? = some m ∧
        m.Covers e.tree.dictionary w
    · obtain ⟨p, n, hn, hw⟩ := hex
      refine ⟨st p, fun q m hm hw' => ?_⟩
      rw [h.coherent.tree.covers_unique hn hm hw hw']
    · exact ⟨0, fun q m hm hw => absurd ⟨q, m, hm, hw⟩ hex⟩
  obtain ⟨f, hf⟩ := Classical.axiomOfChoice choice
  exact ⟨f, fun hm hw => hf _ _ _ hm hw⟩

theorem slot_table (h : e.Complete d st) (i : Nat) : e.table.slot i = e.layout.slot i :=
  h.coherent.layout.slot_finish i

theorem edge_of_slot (h : e.Complete d st) {i : Nat} (hi : e.table.slot i ≠ Slot.free) :
    ∃ p n q m, e.tree.Edge p n q m ∧ i = st p + m.code ∧ e.table.slot i = m.content (st p) := by
  rw [h.slot_table] at hi ⊢
  have claimed : (e.layout.slot i).check ≠ 0 := by
    intro hfree
    exact hi (h.coherent.layout.free_eq i hfree)
  obtain ⟨p, n, q, m, edge, rfl⟩ := h.coherent.owned i claimed
  exact ⟨p, n, q, m, edge, rfl, h.content edge⟩

variable {f : List Char → Nat}
  (states : ∀ {w : List Char} {q : Nat} {m : Node}, e.tree.nodes[q]? = some m → m.Covers d w →
    f w = st q)

include states

theorem word_of_next (h : e.Complete d st) {state code target : Nat}
    (hnext : e.table.next? state code = some target) :
    ∃ (w : List Char) (c : Char), d.isStem (w ++ [c]) = true ∧ state = f w ∧ code = c.toNat ∧
      target = f (w ++ [c]) := by
  obtain rfl := h.dictionary
  obtain ⟨hcheck, hbase, htarget⟩ := DoubleArray.next?_eq_some_iff.mp hnext
  have hne : e.table.slot (state + code) ≠ Slot.free := by
    intro hfree
    rw [hfree] at hbase
    exact absurd hbase (Int.lt_irrefl 0)
  obtain ⟨p, n, q, m, edge, hi, hslot⟩ := h.edge_of_slot hne
  rw [hslot] at hcheck hbase htarget
  have hcheck : st p = state := hcheck
  have hbase : 0 < m.base := hbase
  -- The slot of an end holds a negative base, and so does not count as an edge.
  have inner : m.isEnd = false := by
    refine Bool.eq_false_iff.mpr fun isEnd => ?_
    have hend := (h.coherent.settled edge id).2.2.1 isEnd
    rw [hend, Slot.endBase] at hbase
    omega
  obtain ⟨v, hv⟩ := h.coherent.tree.covers_parent edge
  obtain ⟨c, hc, hvc⟩ := h.coherent.tree.covers_of_edge edge hv inner
  refine ⟨v, c, hvc.isStem, ?_, ?_, ?_⟩
  · rw [states edge.parent hv, hcheck]
  · omega
  · rw [states edge.child hvc, ← htarget]
    exact h.state_eq edge.child inner

theorem next_of_word (h : e.Complete d st) {w : List Char} {c : Char}
    (stem : d.isStem (w ++ [c]) = true) :
    e.table.next? (f w) c.toNat = some (f (w ++ [c])) := by
  obtain rfl := h.dictionary
  obtain ⟨q, m, hm, hwc⟩ := h.exists_node stem
  obtain ⟨p, n, edge, hw, hc⟩ := h.coherent.tree.edge_of_covers_append hm hwc
  obtain ⟨expanded, hbase⟩ := h.inner hm hwc.inner
  have hslot : e.table.slot (f w + c.toNat) = m.content (st p) := by
    rw [h.slot_table, states edge.parent hw, ← hc]
    exact h.content edge
  rw [DoubleArray.next?_eq_some_iff, hslot, states edge.parent hw, states hm hwc]
  refine ⟨rfl, ?_, h.state_eq hm hwc.inner⟩
  show 0 < m.base
  rw [hbase]
  exact Int.natCast_pos.mpr (h.coherent.state_pos expanded)

theorem pattern_of_output (h : e.Complete d st) {state i : Nat}
    (hout : e.table.output? state = some i) :
    ∃ p, d.patterns[i]? = some p ∧ state = f p.toList := by
  obtain rfl := h.dictionary
  rw [DoubleArray.output?_eq] at hout
  have hne : e.table.slot state ≠ Slot.free := by
    intro hfree
    rw [hfree] at hout
    cases hout
  obtain ⟨p, n, q, m, edge, hi, hslot⟩ := h.edge_of_slot hne
  rw [hslot] at hout
  have hout : (if m.isEnd then some m.left else none) = some i := hout
  split at hout
  · rename_i isEnd
    cases hout
    obtain ⟨v, hv⟩ := h.coherent.tree.covers_parent edge
    obtain ⟨r, hr, rfl⟩ := (h.coherent.tree.closes_of_edge edge hv isEnd).pattern
    refine ⟨r, hr, ?_⟩
    rw [states edge.parent hv, hi, Node.isEnd_iff.mp isEnd]
    rfl
  · cases hout

theorem output_of_pattern (h : e.Complete d st) {i : Nat} {p : Pattern}
    (hp : d.patterns[i]? = some p) : e.table.output? (f p.toList) = some i := by
  obtain rfl := h.dictionary
  obtain ⟨q, n, r, m, edge, hw, isEnd, rfl⟩ :=
    h.coherent.tree.exists_end (fun hn he => (h.inner hn he).1) hp
  have hslot := h.content edge
  rw [Node.isEnd_iff.mp isEnd] at hslot
  have hslot : e.layout.slot (st q) = m.content (st q) := hslot
  rw [DoubleArray.output?_eq, states edge.parent hw, h.slot_table, hslot]
  exact if_pos isEnd

theorem represents (h : e.Complete d st) : e.table.Represents d f where
  start := by
    obtain ⟨n, hn, _⟩ := h.root
    obtain ⟨q, m, hm, hcov⟩ := h.exists_node (d := d) isStem_nil
    obtain rfl := h.dictionary
    rw [states hm hcov, h.coherent.tree.eq_root_of_covers_nil hm hcov, h.start]
  pos := by
    intro w stem
    obtain ⟨q, m, hm, hw⟩ := h.exists_node stem
    rw [states hm hw]
    exact h.coherent.state_pos (h.inner hm hw.inner).1
  inj := by
    intro v w hv hw heq
    obtain ⟨p, n, hn, hnv⟩ := h.exists_node hv
    obtain ⟨q, m, hm, hmw⟩ := h.exists_node hw
    rw [states hn hnv, states hm hmw] at heq
    cases h.coherent.inj (h.inner hn hnv.inner).1 (h.inner hm hmw.inner).1 heq
    cases Option.some.inj (hn.symm.trans hm)
    exact hnv.word_unique hmw
  next_iff := by
    intro state code target
    constructor
    · exact h.word_of_next states
    · rintro ⟨w, c, stem, rfl, rfl, rfl⟩
      exact h.next_of_word states stem
  output_iff := by
    intro state i
    constructor
    · exact h.pattern_of_output states
    · rintro ⟨p, hp, rfl⟩
      exact h.output_of_pattern states hp

end Encoding.Complete

/-- What a finished encoding is known by from outside: its tree is expanded everywhere, and its
inner nodes hold the states of their words in a table that represents the dictionary. -/
structure Encoding.Finished (e : Encoding) (d : Dictionary) (st : List Char → Nat) : Prop where
  tree : e.tree.WellFormed
  dictionary : e.tree.dictionary = d
  expanded : ∀ {q : Nat} {m : Node}, e.tree.nodes[q]? = some m → m.isEnd = false →
    e.tree.Expanded q
  state_eq : ∀ {w : List Char} {q : Nat} {m : Node}, e.tree.nodes[q]? = some m →
    m.Covers d w → m.state = st w
  represents : e.table.Represents d st

theorem Encoding.exists_finished (growth : Nat) (d : Dictionary) :
    ∃ st, (ofDictionary growth d).Finished d st := by
  obtain ⟨st, complete⟩ := exists_complete growth d
  obtain ⟨f, states⟩ := complete.exists_wordState
  refine ⟨f, complete.coherent.tree, complete.dictionary, ?_, ?_, complete.represents states⟩
  · intro q m hm inner
    exact (complete.inner hm inner).1
  · intro w q m hm hw
    rw [complete.state_eq hm hw.inner, states hm hw]

/-- Walking the table from the start reads exactly the stems, and exactly the patterns lead to a
state with an id. -/
theorem Encoding.table_reads_dictionary (growth : Nat) (d : Dictionary) :
    let a := (ofDictionary growth d).table
    ∃ st, a.Represents d st ∧ (∀ state, a.next? state endCode = none) ∧
      (∀ w, (a.walk w).2 = true ↔ d.isStem w = true) ∧
      (∀ w, a.stateOf? w = if d.isStem w then some (st w) else none) ∧
      (∀ w, (∃ s i, a.stateOf? w = some s ∧ a.output? s = some i) ↔
        ∃ p ∈ d.patterns, p.toList = w) := by
  intro a
  obtain ⟨st, finished⟩ := exists_finished growth d
  have represents := finished.represents
  refine ⟨st, represents, represents.next_endCode, fun w => ?_, represents.stateOf_eq, fun w => ?_⟩
  · rw [(represents.walk_eq w).1]
  · rw [represents.stateOf_eq]
    constructor
    · rintro ⟨s, i, hs, hout⟩
      obtain ⟨stem, heq⟩ := Option.ite_none_right_eq_some.mp hs
      cases heq
      obtain ⟨p, hp, heq⟩ := represents.output_iff.mp hout
      exact ⟨p, Array.mem_of_getElem? hp, (represents.inj stem (isStem_pattern hp) heq).symm⟩
    · rintro ⟨p, hp, rfl⟩
      obtain ⟨i, hi⟩ := Array.getElem?_of_mem hp
      exact ⟨st p.toList, i, if_pos (isStem_pattern hi), represents.output_iff.mpr ⟨p, hi, rfl⟩⟩

end KeywordTagger
