import KeywordTagger.Proofs.EncodedTable
import KeywordTagger.Proofs.PatternLists
import Mathlib.Data.Set.Function

/-!
The slots of a finished table. A slot is free or it is the slot of one node below the root: it names
the state of the node's parent and holds the state of the node, or the mark of its pattern when it
is an end. The claimed slots and the nodes below the root are therefore in bijection.
-/

namespace KeywordTagger

open Dictionary

/-- What the slots of every finished table of `n` patterns satisfy. Slots past the end count as
free. -/
structure DoubleArray.Sound (a : DoubleArray) (n : Nat) : Prop where
  first_free : 0 < a.size ∧ a.slot 0 = Slot.free
  last_claimed : (a.slot (a.size - 1)).check ≠ 0
  claimed_iff : ∀ v, (a.slot v).check ≠ 0 ↔ (a.slot v).base ≠ 0
  /-- The free slot zero would pass for an end by its check alone. -/
  end_iff : ∀ v, v ≠ 0 → ((a.slot v).check = v ↔ (a.slot v).base < 0)
  output_iff : ∀ v, (a.slot v).base < 0 ↔ (a.slot v).output ≠ none
  output_base : ∀ v id, (a.slot v).output = some id → (a.slot v).base = -(id : Int) - 1
  states_distinct : ∀ v w, 0 < (a.slot v).base → (a.slot v).base = (a.slot w).base → v = w
  state_ge : ∀ v, 0 < (a.slot v).base → 2 ≤ (a.slot v).base
  check_iff : ∀ c, c ≠ 0 →
    ((∃ v, (a.slot v).check = c) ↔ c = 1 ∨ ∃ v, (a.slot v).base = (c : Int))
  output_lt : ∀ v id, (a.slot v).output = some id → id < n
  output_unique : ∀ id, id < n → ∃! v, (a.slot v).output = some id

namespace Encoding

def slotOf (e : Encoding) (q : Nat) : Nat := (e.tree.nodes[q]?.map Node.slot).getD 0

/-- The nodes below the root have the claimed slots of the table, each its own. A slot holds what
its node is settled with and names the state of the parent. -/
structure Seated (e : Encoding) : Prop where
  root : ∃ n, e.tree.nodes[PrefixTree.rootId]? = some n ∧ n.base = 1
  expanded : ∀ (q : Nat) (m : Node), e.tree.nodes[q]? = some m → m.isEnd = false →
    e.tree.Expanded q
  parent : ∀ (q : Nat) (m : Node), q ≠ PrefixTree.rootId → e.tree.nodes[q]? = some m →
    ∃! p, ∃ n, e.tree.Edge p n q m
  slot : ∀ (p q : Nat) (n m : Node), e.tree.Edge p n q m →
    (e.table.slot m.slot).base = m.base ∧ ((e.table.slot m.slot).check : Int) = n.base ∧
      m.slot = (e.table.slot m.slot).check + m.code
  bijective : Set.BijOn e.slotOf {q | PrefixTree.rootId < q ∧ q < e.tree.nodes.size}
    {v | (e.table.slot v).check ≠ 0}

namespace Complete

variable {d : Dictionary} {e : Encoding} {st : Nat → Nat} {p q : Nat} {n m : Node} {v : Nat}

theorem base_inner (h : e.Complete d st) (edge : e.tree.Edge p n q m) (inner : m.isEnd = false) :
    m.base = st q ∧ 2 ≤ st q := by
  obtain ⟨expanded, hbase⟩ := h.inner edge.child inner
  obtain ⟨r, hr, _, hne, _⟩ := h.root
  have pos := h.coherent.state_pos expanded
  have other : st q ≠ st PrefixTree.rootId := by
    intro same
    cases h.coherent.inj expanded ⟨r, hr, hne⟩ same
    exact Nat.not_lt_zero p (h.coherent.tree.lt_of_edge edge)
  rw [h.start, DoubleArray.startState] at other
  exact ⟨hbase, by omega⟩

theorem exists_edge (h : e.Complete d st) (expanded : e.tree.Expanded p) :
    ∃ n q m, e.tree.Edge p n q m := by
  obtain ⟨n, hn, hne⟩ := expanded
  have hlt : n.children.start < n.children.stop := by simpa [Span.isEmpty] using hne
  obtain ⟨m, hm, _⟩ := h.coherent.tree.exists_child hn (Nat.le_refl _) hlt
  exact ⟨n, _, m, hn, hm, Nat.le_refl _, hlt⟩

theorem slot_edge (h : e.Complete d st) (edge : e.tree.Edge p n q m) :
    e.table.slot (st p + m.code) = m.content (st p) :=
  (h.slot_table _).trans (h.content edge)

theorem slot_cases (h : e.Complete d st) (v : Nat) :
    e.table.slot v = Slot.free ∨
      (∃ p n q m, e.tree.Edge p n q m ∧ v = st p ∧
        e.table.slot v = { base := Slot.endBase m.left, check := st p, output := some m.left }) ∨
      ∃ p n q m, e.tree.Edge p n q m ∧ m.isEnd = false ∧ v = st p + m.code ∧ m.code ≠ 0 ∧
        2 ≤ st q ∧ e.table.slot v = { base := st q, check := st p } := by
  by_cases free : e.table.slot v = Slot.free
  · exact .inl free
  · obtain ⟨p, n, q, m, edge, hv, content⟩ := h.edge_of_slot free
    cases he : m.isEnd with
    | true =>
      have code : m.code = 0 := Node.isEnd_iff.mp he
      refine .inr (.inl ⟨p, n, q, m, edge, by rw [hv, code, Nat.add_zero], ?_⟩)
      rw [content, Node.content, he, (h.coherent.settled edge id).2.2.1 he]
      rfl
    | false =>
      obtain ⟨base, ge⟩ := h.base_inner edge he
      refine .inr (.inr ⟨p, n, q, m, edge, he, hv, Node.isEnd_eq_false_iff.mp he, ge, ?_⟩)
      rw [content, Node.content, he, base]
      rfl

theorem first_free (h : e.Complete d st) : e.table.slot 0 = Slot.free := by
  rcases h.slot_cases 0 with free | ⟨p, n, q, m, edge, hv, _⟩ | ⟨p, n, q, m, edge, _, hv, _⟩
  · exact free
  · have := h.coherent.state_pos edge.expanded
    omega
  · have := h.coherent.state_pos edge.expanded
    omega

theorem last_claimed (h : e.Complete d st) :
    0 < e.table.size ∧ (e.table.slot (e.table.size - 1)).check ≠ 0 := by
  obtain ⟨r, hr, _, hne, _⟩ := h.root
  obtain ⟨n, q, m, edge⟩ := h.exists_edge ⟨r, hr, hne⟩
  have size : e.table.size = e.layout.extent := h.coherent.layout.size_finish
  have pos := h.coherent.layout.claimed_lt _ (h.coherent.claimed edge)
  refine ⟨by omega, ?_⟩
  rw [h.slot_table, size]
  exact h.coherent.layout.last_claimed _ (by omega)

theorem claimed_iff (h : e.Complete d st) (v : Nat) :
    (e.table.slot v).check ≠ 0 ↔ (e.table.slot v).base ≠ 0 := by
  rcases h.slot_cases v with free | ⟨p, n, q, m, edge, _, slot⟩ |
    ⟨p, n, q, m, edge, _, _, _, ge, slot⟩
  · simp [free, Slot.free]
  · have := h.coherent.state_pos edge.expanded
    simp only [slot, Slot.endBase]
    omega
  · have := h.coherent.state_pos edge.expanded
    simp only [slot]
    omega

theorem end_iff (h : e.Complete d st) (v : Nat) (hv : v ≠ 0) :
    (e.table.slot v).check = v ↔ (e.table.slot v).base < 0 := by
  rcases h.slot_cases v with free | ⟨p, n, q, m, _, rfl, slot⟩ | ⟨p, n, q, m, _, _, rfl, _, _, slot⟩
  · simp only [free, Slot.free]
    omega
  · simp only [slot, Slot.endBase, true_iff]
    omega
  · simp only [slot]
    omega

theorem output_iff (h : e.Complete d st) (v : Nat) :
    (e.table.slot v).base < 0 ↔ (e.table.slot v).output ≠ none := by
  rcases h.slot_cases v with free | ⟨p, n, q, m, _, _, slot⟩ | ⟨p, n, q, m, _, _, _, _, _, slot⟩
  · simp [free, Slot.free]
  · simp only [slot, Slot.endBase, ne_eq, reduceCtorEq, not_false_eq_true, iff_true]
    omega
  · simp only [slot, ne_eq, not_true_eq_false, iff_false]
    omega

theorem output_base (h : e.Complete d st) (v id : Nat) (out : (e.table.slot v).output = some id) :
    (e.table.slot v).base = -(id : Int) - 1 := by
  rcases h.slot_cases v with free | ⟨p, n, q, m, _, _, slot⟩ | ⟨p, n, q, m, _, _, _, _, _, slot⟩
  · simp [free, Slot.free] at out
  · rw [slot] at out ⊢
    cases out
    rfl
  · simp [slot] at out

theorem edge_of_base_pos (h : e.Complete d st) (pos : 0 < (e.table.slot v).base) :
    ∃ p n q m, e.tree.Edge p n q m ∧ m.isEnd = false ∧ v = st p + m.code ∧ 2 ≤ st q ∧
      (e.table.slot v).base = st q := by
  rcases h.slot_cases v with free | ⟨p, n, q, m, _, _, slot⟩ |
    ⟨p, n, q, m, edge, inner, hv, _, ge, slot⟩
  · simp [free, Slot.free] at pos
  · simp only [slot, Slot.endBase] at pos
    omega
  · exact ⟨p, n, q, m, edge, inner, hv, ge, by rw [slot]⟩

theorem states_distinct (h : e.Complete d st) (v w : Nat) (pos : 0 < (e.table.slot v).base)
    (same : (e.table.slot v).base = (e.table.slot w).base) : v = w := by
  obtain ⟨p, n, q, m, edge, inner, rfl, _, base⟩ := h.edge_of_base_pos pos
  obtain ⟨p', n', q', m', edge', inner', rfl, _, base'⟩ := h.edge_of_base_pos (same ▸ pos)
  have states : st q = st q' := by
    rw [base, base'] at same
    exact Int.ofNat_inj.mp same
  cases h.coherent.inj (h.inner edge.child inner).1 (h.inner edge'.child inner').1 states
  cases h.coherent.tree.disjoint edge edge'
  cases Option.some.inj (edge.child.symm.trans edge'.child)
  rfl

theorem state_ge (h : e.Complete d st) (v : Nat) (pos : 0 < (e.table.slot v).base) :
    2 ≤ (e.table.slot v).base := by
  obtain ⟨p, n, q, m, _, _, _, ge, base⟩ := h.edge_of_base_pos pos
  omega

/-- The states that slots are claimed for are that of the start and those that slots hold. -/
theorem check_iff (h : e.Complete d st) (c : Nat) (hc : c ≠ 0) :
    (∃ v, (e.table.slot v).check = c) ↔ c = 1 ∨ ∃ v, (e.table.slot v).base = (c : Int) := by
  have start := h.start
  have claims {p : Nat} (expanded : e.tree.Expanded p) : ∃ v, (e.table.slot v).check = st p := by
    obtain ⟨n, q, m, edge⟩ := h.exists_edge expanded
    exact ⟨st p + m.code, by rw [h.slot_edge edge]; rfl⟩
  constructor
  · rintro ⟨v, rfl⟩
    obtain ⟨p, n, q, m, edge, _, slot⟩ := h.edge_of_slot fun free => hc (by rw [free]; rfl)
    have check : (e.table.slot v).check = st p := by rw [slot]; rfl
    rw [check]
    by_cases root : p = PrefixTree.rootId
    · exact .inl (root ▸ start)
    · obtain ⟨p', n', above⟩ := h.coherent.tree.edge_of_ne_root edge.parent root
      have inner := (h.coherent.tree.above edge.parent edge.not_isEmpty).1
      refine .inr ⟨st p' + n.code, ?_⟩
      rw [h.slot_edge above]
      exact (h.base_inner above inner).1
  · rintro (rfl | ⟨v, base⟩)
    · obtain ⟨r, hr, _, hne, _⟩ := h.root
      rw [← DoubleArray.startState, ← start]
      exact claims ⟨r, hr, hne⟩
    · have pos : 0 < (e.table.slot v).base := by omega
      obtain ⟨p, n, q, m, edge, inner, _, _, base'⟩ := h.edge_of_base_pos pos
      have state : st q = c := Int.ofNat_inj.mp (base'.symm.trans base)
      rw [← state]
      exact claims (h.inner edge.child inner).1

/-! The nodes and their slots. -/

theorem slot_node (h : e.Complete d st) (edge : e.tree.Edge p n q m) :
    e.slotOf q = st p + m.code := by
  rw [slotOf, edge.child]
  exact (h.coherent.settled edge id).2.1

theorem parent_unique (h : e.Complete d st) (hq : q ≠ PrefixTree.rootId)
    (hm : e.tree.nodes[q]? = some m) : ∃! p, ∃ n, e.tree.Edge p n q m := by
  obtain ⟨p, n, edge⟩ := h.coherent.tree.edge_of_ne_root hm hq
  exact ⟨p, ⟨n, edge⟩, fun p' ⟨n', edge'⟩ => h.coherent.tree.disjoint edge' edge⟩

theorem bijOn_slotOf (h : e.Complete d st) :
    Set.BijOn e.slotOf {q | PrefixTree.rootId < q ∧ q < e.tree.nodes.size}
      {v | (e.table.slot v).check ≠ 0} := by
  refine ⟨?maps, ?inj, ?onto⟩
  case maps =>
    rintro q ⟨hq, hlt⟩
    obtain ⟨p, n, m, edge⟩ := h.coherent.tree.parent q hq hlt
    rw [Set.mem_ofPred_eq, h.slot_node edge, h.slot_table]
    exact h.coherent.claimed edge
  case inj =>
    rintro q ⟨hq, hlt⟩ q' ⟨hq', hlt'⟩ same
    obtain ⟨p, n, m, edge⟩ := h.coherent.tree.parent q hq hlt
    obtain ⟨p', n', m', edge'⟩ := h.coherent.tree.parent q' hq' hlt'
    rw [h.slot_node edge, h.slot_node edge'] at same
    exact h.coherent.edge_unique edge edge' same
  case onto =>
    intro v claimed
    rw [Set.mem_ofPred_eq, h.slot_table] at claimed
    obtain ⟨p, n, q, m, edge, rfl⟩ := h.coherent.owned v claimed
    have below := Nat.lt_of_le_of_lt (Nat.zero_le p) (h.coherent.tree.lt_of_edge edge)
    exact ⟨q, ⟨below, (Array.getElem?_eq_some_iff.mp edge.child).1⟩, h.slot_node edge⟩

theorem seated (h : e.Complete d st) : e.Seated where
  root := by
    obtain ⟨n, hn, _, _, base⟩ := h.root
    exact ⟨n, hn, by rw [base, h.start]; rfl⟩
  expanded := fun _ _ hm inner => (h.inner hm inner).1
  parent := fun _ _ => h.parent_unique
  slot := by
    intro p q n m edge
    have slot := (h.coherent.settled edge id).2.1
    have inner := (h.coherent.tree.above edge.parent edge.not_isEmpty).1
    rw [slot, h.slot_edge edge]
    exact ⟨rfl, (h.inner edge.parent inner).2.symm, rfl⟩
  bijective := h.bijOn_slotOf

end Complete

variable (growth : Nat) (d : Dictionary)

theorem sound_table : (ofDictionary growth d).table.Sound d.size := by
  obtain ⟨st, complete⟩ := exists_complete growth d
  obtain ⟨f, finished⟩ := exists_finished growth d
  have output {v id : Nat} : ((ofDictionary growth d).table.slot v).output = some id ↔
      ∃ p, d.patterns[id]? = some p ∧ v = f p.toList := by
    rw [← DoubleArray.output?_eq]
    exact finished.represents.output_iff
  obtain ⟨size, last⟩ := complete.last_claimed
  refine ⟨⟨size, complete.first_free⟩, last, complete.claimed_iff, complete.end_iff,
    complete.output_iff, complete.output_base, complete.states_distinct, complete.state_ge,
    complete.check_iff, ?output_lt, ?output_unique⟩
  case output_lt =>
    intro v id out
    obtain ⟨p, hp, _⟩ := output.mp out
    exact (Array.getElem?_eq_some_iff.mp hp).1
  case output_unique =>
    intro id hid
    have hp := Array.getElem?_eq_getElem hid
    refine ⟨f d.patterns[id].toList, output.mpr ⟨_, hp, rfl⟩, fun v out => ?_⟩
    obtain ⟨p, hp', rfl⟩ := output.mp out
    rw [Option.some.inj (hp'.symm.trans hp)]

/-- The slots of a finished table keep states, ends and free slots apart, and the claimed ones are
those of the nodes below the root. -/
theorem claimed_slots_are_nodes :
    (ofDictionary growth d).table.Sound d.size ∧ (ofDictionary growth d).Seated := by
  obtain ⟨st, complete⟩ := exists_complete growth d
  exact ⟨sound_table growth d, complete.seated⟩

theorem free_slot_names_itself :
    ∃ d, Dictionary.ofList ["a"] = .ok d ∧ let a := (ofDictionary 65536 d).table
      ¬ ∀ v, v < a.size → ((a.slot v).check = v ↔ (a.slot v).base < 0) := by
  obtain ⟨d, hd⟩ := exists_ofList_iff.mpr ⟨List.cons_ne_nil "a" [], by simp⟩
  refine ⟨d, hd, fun ends => ?_⟩
  obtain ⟨size, free⟩ := (sound_table 65536 d).first_free
  have zero := ends 0 size
  rw [free] at zero
  exact absurd (zero.mp rfl) (Int.lt_irrefl 0)

end Encoding

end KeywordTagger
