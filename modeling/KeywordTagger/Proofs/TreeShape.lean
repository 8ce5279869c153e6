import KeywordTagger.Proofs.Branching

/-!
The shape of a prefix tree. Nodes are only appended, a node's children are appended together and
stay side by side, and slots and bases are written without touching what a node stands for. So each
node but the root keeps one parent, which has a lower place, and in whatever order nodes are
expanded, every node stands for a word and each stem for at most one inner node.
-/

namespace KeywordTagger

open Dictionary

namespace PrefixTree

structure Edge (t : PrefixTree) (p : Nat) (n : Node) (q : Nat) (m : Node) : Prop where
  parent : t.nodes[p]? = some n
  child : t.nodes[q]? = some m
  start_le : n.children.start ≤ q
  lt_stop : q < n.children.stop

def Expanded (t : PrefixTree) (p : Nat) : Prop :=
  ∃ n, t.nodes[p]? = some n ∧ n.children.isEmpty = false

structure WellFormed (t : PrefixTree) : Prop where
  root : ∃ n, t.nodes[rootId]? = some n ∧ n.Covers t.dictionary []
  standsFor : ∀ {id : Nat} {n : Node}, t.nodes[id]? = some n → ∃ w, n.StandsFor t.dictionary w
  above : ∀ {id : Nat} {n : Node}, t.nodes[id]? = some n → n.children.isEmpty = false →
    n.isEnd = false ∧ id < n.children.start
  children : ∀ {id : Nat} {n : Node}, t.nodes[id]? = some n → n.children.isEmpty = false →
    (n.children.toList.map fun q => t.nodes[q]?.map Node.bare) =
      (t.dictionary.branches n.depth n.ids).map some
  parent : ∀ q, rootId < q → q < t.nodes.size → ∃ p n m, t.Edge p n q m
  disjoint : ∀ {p p' q : Nat} {n n' m m' : Node}, t.Edge p n q m → t.Edge p' n' q m' → p = p'

theorem Edge.not_isEmpty {t : PrefixTree} {p q : Nat} {n m : Node} (e : t.Edge p n q m) :
    n.children.isEmpty = false := by
  have := e.start_le
  have := e.lt_stop
  simp only [Span.isEmpty, decide_eq_false_iff_not]
  omega

theorem Edge.expanded {t : PrefixTree} {p q : Nat} {n m : Node} (e : t.Edge p n q m) :
    t.Expanded p := ⟨n, e.parent, e.not_isEmpty⟩

theorem WellFormed.exists_child {t : PrefixTree} (h : t.WellFormed) {p q : Nat} {n : Node}
    (hn : t.nodes[p]? = some n) (hl : n.children.start ≤ q) (hr : q < n.children.stop) :
    ∃ m, t.nodes[q]? = some m ∧ m.bare ∈ t.dictionary.branches n.depth n.ids := by
  have hne : n.children.isEmpty = false := by
    simp only [Span.isEmpty, decide_eq_false_iff_not]
    omega
  have hq : t.nodes[q]?.map Node.bare ∈ (t.dictionary.branches n.depth n.ids).map some := by
    rw [← h.children hn hne]
    exact List.mem_map_of_mem (Span.mem_toList.mpr ⟨hl, hr⟩)
  obtain ⟨b, hb, heq⟩ := List.mem_map.mp hq
  obtain ⟨m, hm, hmb⟩ := Option.map_eq_some_iff.mp heq.symm
  exact ⟨m, hm, hmb ▸ hb⟩

theorem WellFormed.branch_of_edge {t : PrefixTree} (h : t.WellFormed) {p q : Nat} {n m : Node}
    (e : t.Edge p n q m) : m.bare ∈ t.dictionary.branches n.depth n.ids := by
  obtain ⟨k, hk, hb⟩ := h.exists_child e.parent e.start_le e.lt_stop
  rwa [Option.some.inj (e.child.symm.trans hk)]

theorem WellFormed.covers_of_inner {t : PrefixTree} (h : t.WellFormed) {id : Nat} {n : Node}
    (hn : t.nodes[id]? = some n) (he : n.isEnd = false) : ∃ w, n.Covers t.dictionary w := by
  obtain ⟨w, hw | hw⟩ := h.standsFor hn
  · exact ⟨w, hw⟩
  · exact absurd hw.isEnd (by simp [he])

theorem wellFormed_ofDictionary (d : Dictionary) : (ofDictionary d).WellFormed := by
  have read {id : Nat} {n : Node} (h : (ofDictionary d).nodes[id]? = some n) :
      id = rootId ∧ n = { code := rootCode, depth := 0, left := 0, right := d.size } := by
    obtain ⟨hi, hn⟩ := Array.getElem?_eq_some_iff.mp h
    have : id = 0 := by simpa [ofDictionary] using hi
    subst this
    exact ⟨rfl, hn.symm⟩
  have covers : Node.Covers d { code := rootCode, depth := 0, left := 0, right := d.size } [] := by
    refine ⟨rfl, rfl, d.size_pos, ?_⟩
    intro i
    constructor
    · rintro ⟨_, hi⟩
      exact ⟨d.patterns[i], Array.getElem?_eq_getElem hi, List.nil_prefix⟩
    · rintro ⟨p, hp, _⟩
      obtain ⟨hi, _⟩ := Array.getElem?_eq_some_iff.mp hp
      exact ⟨Nat.zero_le i, hi⟩
  constructor
  · exact ⟨_, rfl, covers⟩
  · intro id n h
    obtain ⟨_, rfl⟩ := read h
    exact ⟨[], .inl covers⟩
  · intro id n h hne
    obtain ⟨_, rfl⟩ := read h
    exact absurd hne (by simp [Span.isEmpty])
  · intro id n h hne
    obtain ⟨_, rfl⟩ := read h
    exact absurd hne (by simp [Span.isEmpty])
  · intro q hq hlt
    simp only [ofDictionary, List.size_toArray, List.length_singleton, rootId] at hq hlt
    omega
  · intro p n p' n' q m m' e e'
    rw [(read e.parent).1, (read e'.parent).1]

/-! Making the children of a node. -/

def grown (t : PrefixTree) (id : Nat) (n : Node) : PrefixTree :=
  let below := t.dictionary.branches n.depth n.ids
  { t with
    nodes := (t.nodes ++ below).modify id fun n =>
      { n with children := ⟨t.nodes.size, t.nodes.size + below.length⟩ } }

def withChildren (d : Dictionary) (size : Nat) (n : Node) : Node :=
  { n with children := ⟨size, size + (d.branches n.depth n.ids).length⟩ }

theorem expand_of_isEnd {t : PrefixTree} {id : Nat} {n : Node} (hn : t.nodes[id]? = some n)
    (he : n.isEnd = true) : t.expand id = ({}, t) := by
  simp [expand, hn, he]

theorem expand_of_expanded {t : PrefixTree} {id : Nat} {n : Node} (hn : t.nodes[id]? = some n)
    (he : n.isEnd = false) (hc : n.children.isEmpty = false) : t.expand id = (n.children, t) := by
  simp [expand, hn, he, hc]

theorem expand_of_isEmpty {t : PrefixTree} {id : Nat} {n : Node} (hn : t.nodes[id]? = some n)
    (he : n.isEnd = false) (hc : n.children.isEmpty = true) :
    t.expand id = ((withChildren t.dictionary t.nodes.size n).children, t.grown id n) := by
  simp [expand, hn, he, hc, grown, withChildren]

section Grown

variable {t : PrefixTree} {id : Nat} {n : Node}

theorem read_append (nodes : Array Node) (below : List Node) (j : Nat) :
    (nodes ++ below)[j]? = if j < nodes.size then nodes[j]? else below[j - nodes.size]? := by
  rw [← Array.getElem?_toList, Array.toList_appendList, List.getElem?_append]
  simp only [Array.length_toList, Array.getElem?_toList]

theorem read_grown (hn : t.nodes[id]? = some n) {j : Nat} {m : Node} :
    (t.grown id n).nodes[j]? = some m ↔
      (j = id ∧ m = withChildren t.dictionary t.nodes.size n) ∨
      (j ≠ id ∧ t.nodes[j]? = some m) ∨
      ∃ i, j = t.nodes.size + i ∧ (t.dictionary.branches n.depth n.ids)[i]? = some m := by
  obtain ⟨hid, _⟩ := Array.getElem?_eq_some_iff.mp hn
  simp only [grown, Array.getElem?_modify, read_append]
  by_cases hj : id = j
  · subst hj
    have old (i : Nat) : ¬ id = t.nodes.size + i := by omega
    simp only [if_pos hid, hn, old]
    simp [withChildren, eq_comm]
  · rw [if_neg hj]
    have hj' : j ≠ id := Ne.symm hj
    by_cases hlt : j < t.nodes.size
    · have old (i : Nat) : ¬ j = t.nodes.size + i := by omega
      simp [hlt, old, hj']
    · have fresh : t.nodes[j]? = none := Array.getElem?_eq_none (Nat.le_of_not_lt hlt)
      simp only [if_neg hlt, hj', fresh, false_and, false_or, reduceCtorEq, and_false]
      constructor
      · intro h
        exact ⟨j - t.nodes.size, by omega, h⟩
      · rintro ⟨i, rfl, h⟩
        rwa [Nat.add_sub_cancel_left]

theorem size_grown : (t.grown id n).nodes.size =
    t.nodes.size + (t.dictionary.branches n.depth n.ids).length := by
  simp only [grown, Array.size_modify]
  rw [← Array.length_toList, Array.toList_appendList, List.length_append, Array.length_toList]

theorem edge_grown (h : t.WellFormed) (hn : t.nodes[id]? = some n) (he : n.isEnd = false)
    {p q : Nat} {a b : Node} (e : (t.grown id n).Edge p a q b) :
    (p ≠ id ∧ ∃ m, t.Edge p a q m ∧
      b = if q = id then withChildren t.dictionary t.nodes.size n else m) ∨
    (p = id ∧ a = withChildren t.dictionary t.nodes.size n ∧
      ∃ i, q = t.nodes.size + i ∧ (t.dictionary.branches n.depth n.ids)[i]? = some b) := by
  obtain ⟨hid, _⟩ := Array.getElem?_eq_some_iff.mp hn
  obtain ⟨w, hw⟩ := h.covers_of_inner hn he
  have hl := e.start_le
  have hr := e.lt_stop
  rcases (read_grown hn).mp e.parent with ⟨rfl, rfl⟩ | ⟨hp, hpa⟩ | ⟨i, rfl, hi⟩
  · refine .inr ⟨rfl, rfl, ?_⟩
    simp only [withChildren] at hl hr
    rcases (read_grown hn).mp e.child with ⟨rfl, _⟩ | ⟨_, hq⟩ | hq
    · omega
    · obtain ⟨hlt, _⟩ := Array.getElem?_eq_some_iff.mp hq
      omega
    · exact hq
  · refine .inl ⟨hp, ?_⟩
    obtain ⟨m, hm, _⟩ := h.exists_child hpa hl hr
    refine ⟨m, ⟨hpa, hm, hl, hr⟩, ?_⟩
    rcases (read_grown hn).mp e.child with ⟨hq, rfl⟩ | ⟨hq, hqb⟩ | ⟨j, rfl, _⟩
    · rw [if_pos hq]
    · rw [if_neg hq]
      exact Option.some.inj (hqb.symm.trans hm)
    · obtain ⟨hlt, _⟩ := Array.getElem?_eq_some_iff.mp hm
      omega
  · -- a new node has no children yet
    have hb := bare_of_mem_branches hw (List.mem_of_getElem? hi)
    rw [← hb] at hl hr
    simp only [Node.bare] at hl hr
    omega

theorem Edge.grown {p q : Nat} {a m : Node} (e : t.Edge p a q m) (hn : t.nodes[id]? = some n)
    (hc : n.children.isEmpty = true) : (t.grown id n).Edge p a q
      (if q = id then withChildren t.dictionary t.nodes.size n else m) := by
  have hp : p ≠ id := by
    rintro rfl
    cases Option.some.inj (e.parent.symm.trans hn)
    exact absurd hc (by simp [e.not_isEmpty])
  have parent := (read_grown hn).mpr (.inr (.inl ⟨hp, e.parent⟩))
  refine ⟨parent, ?_, e.start_le, e.lt_stop⟩
  split
  · rename_i hq
    exact (read_grown hn).mpr (.inl ⟨hq, rfl⟩)
  · rename_i hq
    exact (read_grown hn).mpr (.inr (.inl ⟨hq, e.child⟩))

theorem code_of_grown {p q : Nat} {a m : Node} (hn : t.nodes[id]? = some n)
    (e : t.Edge p a q m) :
    (if q = id then withChildren t.dictionary t.nodes.size n else m).code = m.code := by
  split
  · rename_i hq
    subst hq
    rw [Option.some.inj (e.child.symm.trans hn)]
    rfl
  · rfl

theorem edge_grown_new (hn : t.nodes[id]? = some n) {i : Nat} {b : Node}
    (hb : (t.dictionary.branches n.depth n.ids)[i]? = some b) :
    (t.grown id n).Edge id (withChildren t.dictionary t.nodes.size n) (t.nodes.size + i) b := by
  refine ⟨(read_grown hn).mpr (.inl ⟨rfl, rfl⟩), (read_grown hn).mpr (.inr (.inr ⟨i, rfl, hb⟩)),
    Nat.le_add_right _ i, ?_⟩
  exact Nat.add_lt_add_left (List.getElem?_eq_some_iff.mp hb).1 _

theorem edge_of_new (h : t.WellFormed) (hn : t.nodes[id]? = some n) (he : n.isEnd = false) {q : Nat}
    (hq : q ∈ (withChildren t.dictionary t.nodes.size n).children.toList) :
    ∃ a b, (t.grown id n).Edge id a q b ∧ b.children.isEmpty = true := by
  obtain ⟨w, covers⟩ := h.covers_of_inner hn he
  obtain ⟨hl, hr⟩ := Span.mem_toList.mp hq
  obtain ⟨i, rfl⟩ := Nat.exists_eq_add_of_le hl
  have hb := List.getElem?_eq_getElem (Nat.lt_of_add_lt_add_left hr)
  refine ⟨_, _, edge_grown_new hn hb, ?_⟩
  rw [← bare_of_mem_branches covers (List.mem_of_getElem? hb)]
  rfl

theorem bare_withChildren (d : Dictionary) (size : Nat) (n : Node) :
    (withChildren d size n).bare = n.bare := rfl

theorem bare_grown_of_lt (hn : t.nodes[id]? = some n) {j : Nat} (hj : j < t.nodes.size) :
    (t.grown id n).nodes[j]?.map Node.bare = t.nodes[j]?.map Node.bare := by
  by_cases h : j = id
  · subst h
    rw [(read_grown hn).mpr (.inl ⟨rfl, rfl⟩), hn]
    rfl
  · obtain ⟨m, hm⟩ : ∃ m, t.nodes[j]? = some m := ⟨_, Array.getElem?_eq_getElem hj⟩
    rw [(read_grown hn).mpr (.inr (.inl ⟨h, hm⟩)), hm]

theorem children_grown (h : t.WellFormed) (hn : t.nodes[id]? = some n) (he : n.isEnd = false) :
    ((withChildren t.dictionary t.nodes.size n).children.toList.map fun q =>
      (t.grown id n).nodes[q]?.map Node.bare) =
      (t.dictionary.branches n.depth n.ids).map some := by
  obtain ⟨w, hw⟩ := h.covers_of_inner hn he
  apply List.ext_getElem
  · simp [Span.length, withChildren]
  · intro i hi hi'
    have hlt : i < (t.dictionary.branches n.depth n.ids).length := by simpa using hi'
    have read := (read_grown hn).mpr
      (.inr (.inr ⟨i, rfl, List.getElem?_eq_getElem hlt⟩))
    simp only [Span.toList, withChildren, List.getElem_map, List.getElem_range', Nat.one_mul, read,
      Option.map_some]
    exact congrArg some (bare_of_mem_branches hw (List.getElem_mem hlt))

theorem WellFormed.grown (h : t.WellFormed) (hn : t.nodes[id]? = some n) (he : n.isEnd = false)
    (hc : n.children.isEmpty = true) : (t.grown id n).WellFormed := by
  obtain ⟨hid, _⟩ := Array.getElem?_eq_some_iff.mp hn
  obtain ⟨w, hw⟩ := h.covers_of_inner hn he
  have bareOf {m : Node} {i : Nat} (hi : (t.dictionary.branches n.depth n.ids)[i]? = some m) :
      m.bare = m := bare_of_mem_branches hw (List.mem_of_getElem? hi)
  constructor
  case root =>
    obtain ⟨r, hr, hcov⟩ := h.root
    by_cases hroot : rootId = id
    · subst hroot
      refine ⟨_, (read_grown hn).mpr (.inl ⟨rfl, rfl⟩), ?_⟩
      rw [Option.some.inj (hr.symm.trans hn)] at hcov
      exact Node.covers_of_bare_eq (bare_withChildren _ _ n) hcov
    · exact ⟨r, (read_grown hn).mpr (.inr (.inl ⟨hroot, hr⟩)), hcov⟩
  case standsFor =>
    intro j m hm
    rcases (read_grown hn).mp hm with ⟨rfl, rfl⟩ | ⟨_, hold⟩ | ⟨i, rfl, hi⟩
    · exact ⟨w, .inl (Node.covers_of_bare_eq (bare_withChildren _ _ n) hw)⟩
    · exact h.standsFor hold
    · exact standsFor_of_branch hw (List.mem_of_getElem? hi)
  case above =>
    intro j m hm hne
    rcases (read_grown hn).mp hm with ⟨rfl, rfl⟩ | ⟨_, hold⟩ | ⟨i, rfl, hi⟩
    · exact ⟨he, hid⟩
    · exact h.above hold hne
    · rw [← bareOf hi] at hne
      exact absurd hne (by simp [Node.bare, Span.isEmpty])
  case children =>
    intro j m hm hne
    rcases (read_grown hn).mp hm with ⟨rfl, rfl⟩ | ⟨_, hold⟩ | ⟨i, rfl, hi⟩
    · exact children_grown h hn he
    · refine Eq.trans (List.map_congr_left ?_) (h.children hold hne)
      intro q hq
      obtain ⟨hl, hr⟩ := Span.mem_toList.mp hq
      obtain ⟨k, hk, _⟩ := h.exists_child hold hl hr
      exact bare_grown_of_lt hn (Array.getElem?_eq_some_iff.mp hk).1
    · rw [← bareOf hi] at hne
      exact absurd hne (by simp [Node.bare, Span.isEmpty])
  case parent =>
    intro q hq hlt
    rw [size_grown] at hlt
    by_cases hold : q < t.nodes.size
    · obtain ⟨p, a, m, e⟩ := h.parent q hq hold
      exact ⟨p, a, _, e.grown hn hc⟩
    · obtain ⟨i, rfl⟩ := Nat.exists_eq_add_of_le (Nat.le_of_not_lt hold)
      have below := List.getElem?_eq_getElem (Nat.lt_of_add_lt_add_left hlt)
      exact ⟨id, _, _, edge_grown_new hn below⟩
  case disjoint =>
    intro p p' q a a' b b' e e'
    rcases edge_grown h hn he e with ⟨_, m, em, _⟩ | ⟨rfl, _, i, rfl, _⟩ <;>
      rcases edge_grown h hn he e' with ⟨_, m', em', _⟩ | ⟨rfl, _, i', hq, _⟩
    · exact h.disjoint em em'
    · have := (Array.getElem?_eq_some_iff.mp em.child).1
      omega
    · have := (Array.getElem?_eq_some_iff.mp em'.child).1
      omega
    · rfl

theorem withChildren_not_isEmpty (h : t.WellFormed) (hn : t.nodes[id]? = some n)
    (he : n.isEnd = false) :
    (withChildren t.dictionary t.nodes.size n).children.isEmpty = false := by
  obtain ⟨w, hw⟩ := h.covers_of_inner hn he
  have := List.length_pos_iff.mpr (branches_ne_nil hw)
  exact decide_eq_false (Nat.not_le.mpr (Nat.lt_add_of_pos_right this))

theorem expanded_grown (h : t.WellFormed) (hn : t.nodes[id]? = some n) (he : n.isEnd = false)
    {p : Nat} : (t.grown id n).Expanded p ↔ p = id ∨ (p ≠ id ∧ t.Expanded p) := by
  obtain ⟨w, hw⟩ := h.covers_of_inner hn he
  constructor
  · rintro ⟨a, ha, hne⟩
    rcases (read_grown hn).mp ha with ⟨rfl, _⟩ | ⟨hp, hold⟩ | ⟨i, rfl, hi⟩
    · exact .inl rfl
    · exact .inr ⟨hp, a, hold, hne⟩
    · rw [← bare_of_mem_branches hw (List.mem_of_getElem? hi)] at hne
      exact absurd hne (by simp [Node.bare, Span.isEmpty])
  · rintro (rfl | ⟨hp, a, ha, hne⟩)
    · exact ⟨_, (read_grown hn).mpr (.inl ⟨rfl, rfl⟩), withChildren_not_isEmpty h hn he⟩
    · exact ⟨a, (read_grown hn).mpr (.inr (.inl ⟨hp, ha⟩)), hne⟩

end Grown

theorem codes_ne_nil {t : PrefixTree} {ids : Span} (h : ids.isEmpty = false) : t.codes ids ≠ [] := by
  rw [codes, ne_eq, List.map_eq_nil_iff, ← Span.isEmpty_iff, h]
  exact Bool.false_ne_true

theorem WellFormed.codes_children {t : PrefixTree} (h : t.WellFormed) {id : Nat} {n : Node}
    (hn : t.nodes[id]? = some n) (hne : n.children.isEmpty = false) :
    t.codes n.children = (t.dictionary.branches n.depth n.ids).map Node.code := by
  have hmap := congrArg (List.map fun o : Option Node => (o.map Node.code).getD endCode)
    (h.children hn hne)
  simp only [List.map_map] at hmap
  refine Eq.trans (List.map_congr_left ?_) (hmap.trans (List.map_congr_left ?_))
  · intro q _
    simp only [PrefixTree.code, Function.comp_apply]
    cases t.nodes[q]? <;> rfl
  · intro b _
    rfl

theorem expand_cases (t : PrefixTree) (id : Nat) : (t.expand id).2 = t ∨
    ∃ n, t.nodes[id]? = some n ∧ n.isEnd = false ∧ n.children.isEmpty = true ∧
      (t.expand id).2 = t.grown id n := by
  cases hn : t.nodes[id]? with
  | none =>
    left
    simp [expand, hn]
  | some n =>
    cases he : n.isEnd with
    | true => exact .inl (congrArg Prod.snd (expand_of_isEnd hn he))
    | false =>
      cases hc : n.children.isEmpty with
      | false => exact .inl (congrArg Prod.snd (expand_of_expanded hn he hc))
      | true => exact .inr ⟨n, rfl, he, hc, congrArg Prod.snd (expand_of_isEmpty hn he hc)⟩

theorem WellFormed.expand {t : PrefixTree} (h : t.WellFormed) (id : Nat) :
    (t.expand id).2.WellFormed := by
  rcases expand_cases t id with same | ⟨n, hn, he, hc, grown⟩
  · rwa [same]
  · rw [grown]
    exact h.grown hn he hc

/-! Storing the slot of a node and what it holds. -/

section Settle

variable {t : PrefixTree} {id slot : Nat} {base : Int}

theorem read_settle (j : Nat) : (t.settle id slot base).nodes[j]? =
    t.nodes[j]?.map fun n => if j = id then { n with slot, base } else n := by
  simp only [settle, Array.getElem?_modify, eq_comm (a := id)]
  split
  · rfl
  · simp

theorem read_settle_some {j : Nat} {m : Node} (h : (t.settle id slot base).nodes[j]? = some m) :
    ∃ n, t.nodes[j]? = some n ∧ m = if j = id then { n with slot, base } else n := by
  rw [read_settle] at h
  obtain ⟨n, hn, rfl⟩ := Option.map_eq_some_iff.mp h
  exact ⟨n, hn, rfl⟩

theorem read_settle_bare {j : Nat} {m : Node} (h : (t.settle id slot base).nodes[j]? = some m) :
    ∃ n, t.nodes[j]? = some n ∧ m.bare = n.bare ∧ m.children = n.children := by
  obtain ⟨n, hn, rfl⟩ := read_settle_some h
  refine ⟨n, hn, ?_⟩
  split <;> exact ⟨rfl, rfl⟩

theorem bare_settle (j : Nat) :
    (t.settle id slot base).nodes[j]?.map Node.bare = t.nodes[j]?.map Node.bare := by
  rw [read_settle, Option.map_map]
  congr 1
  funext n
  simp only [Function.comp_apply]
  split <;> rfl

theorem edge_settle {p q : Nat} {a b : Node} (e : (t.settle id slot base).Edge p a q b) :
    ∃ n m, t.Edge p n q m ∧ a.bare = n.bare ∧
      b = if q = id then { m with slot, base } else m := by
  obtain ⟨n, hn, ha, hch⟩ := read_settle_bare e.parent
  obtain ⟨m, hm, hb⟩ := read_settle_some e.child
  have hl := e.start_le
  have hr := e.lt_stop
  rw [hch] at hl hr
  exact ⟨n, m, ⟨hn, hm, hl, hr⟩, ha, hb⟩

theorem expanded_settle {p : Nat} : (t.settle id slot base).Expanded p ↔ t.Expanded p := by
  constructor
  · rintro ⟨a, ha, hne⟩
    obtain ⟨n, hn, _, hch⟩ := read_settle_bare ha
    exact ⟨n, hn, hch ▸ hne⟩
  · rintro ⟨n, hn, hne⟩
    have read := @read_settle t id slot base p
    rw [hn] at read
    refine ⟨_, read, ?_⟩
    split <;> exact hne

theorem Edge.settle {p q : Nat} {n m : Node} (e : t.Edge p n q m) : ∃ a,
    (t.settle id slot base).Edge p a q (if q = id then { m with slot, base } else m) := by
  have parent := @read_settle t id slot base p
  have child := @read_settle t id slot base q
  rw [e.parent] at parent
  rw [e.child] at child
  have hl := e.start_le
  have hr := e.lt_stop
  refine ⟨_, parent, child, ?_, ?_⟩
  · split <;> exact hl
  · split <;> exact hr

end Settle

theorem WellFormed.settle {t : PrefixTree} (h : t.WellFormed) (id slot : Nat) (base : Int) :
    (t.settle id slot base).WellFormed := by
  constructor
  case root =>
    obtain ⟨n, hn, hcov⟩ := h.root
    have hb := @bare_settle t id slot base rootId
    rw [hn] at hb
    obtain ⟨m, hm, hmb⟩ := Option.map_eq_some_iff.mp hb
    exact ⟨m, hm, Node.covers_of_bare_eq hmb hcov⟩
  case standsFor =>
    intro j m hm
    obtain ⟨n, hn, hb, _⟩ := read_settle_bare hm
    obtain ⟨w, hw | hw⟩ := h.standsFor hn
    · exact ⟨w, .inl (Node.covers_of_bare_eq hb hw)⟩
    · exact ⟨w, .inr (Node.closes_of_bare_eq hb hw)⟩
  case above =>
    intro j m hm hne
    obtain ⟨n, hn, hb, hch⟩ := read_settle_bare hm
    rw [hch] at hne ⊢
    have habove := h.above hn hne
    exact ⟨(Node.isEnd_of_bare_eq hb).trans habove.1, habove.2⟩
  case children =>
    intro j m hm hne
    obtain ⟨n, hn, hb, hch⟩ := read_settle_bare hm
    obtain ⟨_, hdepth, hleft, hright⟩ := Node.fields_of_bare_eq hb
    rw [hch] at hne ⊢
    simp only [bare_settle, Node.ids, hdepth, hleft, hright]
    exact h.children hn hne
  case parent =>
    intro q hq hlt
    have hlt : q < t.nodes.size := by simpa [PrefixTree.settle] using hlt
    obtain ⟨p, n, m, e⟩ := h.parent q hq hlt
    obtain ⟨a, e'⟩ := e.settle
    exact ⟨p, a, _, e'⟩
  case disjoint =>
    intro p p' q a a' b b' e e'
    obtain ⟨n, m, em, _⟩ := edge_settle e
    obtain ⟨n', m', em', _⟩ := edge_settle e'
    exact h.disjoint em em'

end PrefixTree

end KeywordTagger
