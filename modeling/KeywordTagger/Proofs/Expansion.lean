import KeywordTagger.Proofs.EncodedTable

/-!
Trees explored in any order. Expanding a node leaves every node in its place with what it stands
for, and what was expanded once is found again. So the shape of a tree does not depend on which
nodes were expanded or when; in the tree of a finished encoding nothing is missing.
-/

namespace KeywordTagger

open Dictionary

namespace PrefixTree

structure Extends (t t' : PrefixTree) : Prop where
  dictionary : t'.dictionary = t.dictionary
  node : ∀ {id : Nat} {n : Node}, t.nodes[id]? = some n → ∃ n', t'.nodes[id]? = some n' ∧
    n'.bare = n.bare ∧ (n.children.isEmpty = false → n'.children = n.children)

def expandAll (t : PrefixTree) (ids : List Nat) : PrefixTree :=
  ids.foldl (fun t id => (t.expand id).2) t

section Extends

variable {t t' t'' : PrefixTree} {id : Nat} {n : Node}

theorem Extends.refl (t : PrefixTree) : t.Extends t := ⟨rfl, fun hn => ⟨_, hn, rfl, fun _ => rfl⟩⟩

theorem Extends.trans (h : t.Extends t') (next : t'.Extends t'') : t.Extends t'' where
  dictionary := next.dictionary.trans h.dictionary
  node := by
    intro id n hn
    obtain ⟨n', hn', bare, kept⟩ := h.node hn
    obtain ⟨n'', hn'', bare', kept'⟩ := next.node hn'
    refine ⟨n'', hn'', bare'.trans bare, fun hne => ?_⟩
    have same := kept hne
    rw [kept' (same ▸ hne), same]

theorem extends_grown (hn : t.nodes[id]? = some n) (hc : n.children.isEmpty = true) :
    t.Extends (t.grown id n) where
  dictionary := rfl
  node := by
    intro j m hm
    by_cases hj : j = id
    · subst hj
      cases Option.some.inj (hm.symm.trans hn)
      refine ⟨_, (read_grown hn).mpr (.inl ⟨rfl, rfl⟩), bare_withChildren _ _ _, fun hne => ?_⟩
      rw [hc] at hne
      cases hne
    · exact ⟨m, (read_grown hn).mpr (.inr (.inl ⟨hj, hm⟩)), rfl, fun _ => rfl⟩

theorem extends_expand (t : PrefixTree) (id : Nat) : t.Extends (t.expand id).2 := by
  rcases expand_cases t id with same | ⟨n, hn, _, hc, grown⟩
  · rw [same]
    exact .refl t
  · rw [grown]
    exact extends_grown hn hc

theorem Extends.settle (h : t.Extends t') {id slot : Nat} {base : Int} :
    t.Extends (t'.settle id slot base) where
  dictionary := h.dictionary
  node := by
    intro j m hm
    obtain ⟨n, hn, bare, kept⟩ := h.node hm
    have read := @read_settle t' id slot base j
    rw [hn] at read
    refine ⟨_, read, ?_, ?_⟩
    · split <;> exact bare
    · split <;> exact kept

theorem extends_expandAll (t : PrefixTree) (ids : List Nat) : t.Extends (t.expandAll ids) := by
  induction ids generalizing t with
  | nil => exact .refl t
  | cons id ids ih => exact (extends_expand t id).trans (ih _)

theorem WellFormed.expandAll (h : t.WellFormed) (ids : List Nat) : (t.expandAll ids).WellFormed := by
  induction ids generalizing t with
  | nil => exact h
  | cons id ids ih => exact ih (h.expand id)

theorem WellFormed.expand_inner (h : t.WellFormed) (hn : t.nodes[id]? = some n)
    (inner : n.isEnd = false) : (t.expand id).1.isEmpty = false ∧
      ∃ n', (t.expand id).2.nodes[id]? = some n' ∧ n'.bare = n.bare ∧
        n'.children = (t.expand id).1 := by
  cases hc : n.children.isEmpty with
  | false =>
    rw [expand_of_expanded hn inner hc]
    exact ⟨hc, n, hn, rfl, rfl⟩
  | true =>
    rw [expand_of_isEmpty hn inner hc]
    have read := (read_grown hn).mpr (.inl ⟨rfl, rfl⟩)
    obtain ⟨m, hm, hne⟩ := (expanded_grown h hn inner).mpr (.inl rfl)
    cases Option.some.inj (read.symm.trans hm)
    exact ⟨hne, _, read, bare_withChildren _ _ n, rfl⟩

/-- A node that was expanded gives the same children ever after, and nothing is made for them. -/
theorem WellFormed.expand_again (h : t.WellFormed) (hn : t.nodes[id]? = some n)
    (later : (t.expand id).2.Extends t') : t'.expand id = ((t.expand id).1, t') := by
  cases he : n.isEnd with
  | true =>
    rw [expand_of_isEnd hn he] at later ⊢
    obtain ⟨m, hm, bare, _⟩ := later.node hn
    exact expand_of_isEnd hm ((Node.isEnd_of_bare_eq bare).trans he)
  | false =>
    obtain ⟨hne, n', hn', bare', made⟩ := h.expand_inner hn he
    obtain ⟨m, hm, bare, kept⟩ := later.node hn'
    have inner := (Node.isEnd_of_bare_eq (bare.trans bare')).trans he
    have same := kept (made ▸ hne)
    rw [expand_of_expanded hm inner (by rw [same, made, hne]), same, made]

end Extends

/-! The shape of a tree. -/

/-- Nodes whose ids lie side by side from `left` to `right`, none without an id. -/
def Tile (left : Nat) : List Node → Nat → Prop
  | [], right => left = right
  | m :: ms, right => m.left = left ∧ left < m.right ∧ Tile m.right ms right

structure Shape (d : Dictionary) (t : PrefixTree) : Prop where
  inner : ∀ (id : Nat) (n : Node), t.nodes[id]? = some n → n.isEnd = false →
    n.left < n.right ∧ (t.path n).size = n.depth ∧ ∀ i, (n.left ≤ i ∧ i < n.right) ↔
      ∃ p, d.patterns[i]? = some p ∧ (t.path n).toList <+: p.toList
  ends : ∀ (id : Nat) (n : Node), t.nodes[id]? = some n → n.isEnd = true →
    n.right = n.left + 1 ∧ d.patterns[n.left]? = some (t.path n) ∧ n.depth = (t.path n).size + 1
  /-- The children of an expanded node share its ids out in the order of their codes, and an end is
  among them, as the first, if the path of the node is a pattern. -/
  children : ∀ (id : Nat) (n : Node), t.nodes[id]? = some n → n.children.isEmpty = false →
    ∃ ms : List Node, n.children.toList.map (t.nodes[·]?) = ms.map some ∧
      (ms.Pairwise fun k m => k.code < m.code) ∧ Tile n.left ms n.right ∧
      ((∃ m ∈ ms, m.isEnd = true) ↔ t.path n ∈ d.patterns) ∧
      ∀ m ∈ ms, m.isEnd = true → ms.head? = some m
  distinct : ∀ (p q : Nat) (n m : Node), t.nodes[p]? = some n → t.nodes[q]? = some m →
    n.isEnd = false → m.isEnd = false → t.path n = t.path m → p = q
  parent : ∀ q, rootId < q → q < t.nodes.size → ∃ p, ∀ p' : Nat,
    (∃ n : Node, t.nodes[p']? = some n ∧ q ∈ n.children.toList) ↔ p' = p

section Shape

variable {t : PrefixTree} {n m : Node} {w : List Char}

theorem path_of_covers (h : n.Covers t.dictionary w) : (t.path n).toList = w := by
  obtain ⟨p, hp, hw⟩ := (h.mem_iff n.left).mp ⟨Nat.le_refl _, h.nonempty⟩
  rw [path, hp, h.depth]
  simpa using (List.prefix_iff_eq_take.mp hw).symm

theorem path_of_closes (h : n.Closes t.dictionary w) : (t.path n).toList = w := by
  obtain ⟨p, hp, rfl⟩ := h.pattern
  rw [path, hp, h.depth]
  simp

theorem tile_of_runs {d : Dictionary} {depth left right : Nat} {ms : List Node}
    (h : Runs d depth left (ms.map Node.bare) right) : Tile left ms right := by
  induction ms generalizing left with
  | nil => exact h
  | cons m ms ih =>
    obtain ⟨run, _, rest⟩ := h
    exact ⟨run.left_eq, run.nonempty, ih rest⟩

theorem WellFormed.exists_children (h : t.WellFormed) {id : Nat} (hn : t.nodes[id]? = some n)
    (hne : n.children.isEmpty = false) : ∃ ms : List Node,
      n.children.toList.map (t.nodes[·]?) = ms.map some ∧
        ms.map Node.bare = t.dictionary.branches n.depth n.ids := by
  have read (ids : List Nat) (bs : List Node)
      (same : (ids.map fun q => t.nodes[q]?.map Node.bare) = bs.map some) :
      ∃ ms : List Node, ids.map (t.nodes[·]?) = ms.map some ∧ ms.map Node.bare = bs := by
    induction ids generalizing bs with
    | nil => exact ⟨[], rfl, (List.map_eq_nil_iff.mp same.symm).symm⟩
    | cons q ids ih =>
      cases bs with
      | nil => cases same
      | cons b bs =>
        obtain ⟨head, tail⟩ := List.cons_eq_cons.mp same
        obtain ⟨m, hm, hb⟩ := Option.map_eq_some_iff.mp head
        obtain ⟨ms, hms, hbs⟩ := ih bs tail
        exact ⟨m :: ms, by simp [hm, hms], by simp [hb, hbs]⟩
  exact read _ _ (h.children hn hne)

theorem WellFormed.shape_children (h : t.WellFormed) {id : Nat} (hn : t.nodes[id]? = some n)
    (hne : n.children.isEmpty = false) : ∃ ms : List Node,
      n.children.toList.map (t.nodes[·]?) = ms.map some ∧
      (ms.Pairwise fun k m => k.code < m.code) ∧ Tile n.left ms n.right ∧
      ((∃ m ∈ ms, m.isEnd = true) ↔ t.path n ∈ t.dictionary.patterns) ∧
      ∀ m ∈ ms, m.isEnd = true → ms.head? = some m := by
  obtain ⟨w, covers⟩ := h.covers_of_inner hn (h.above hn hne).1
  obtain ⟨ms, read, branches⟩ := h.exists_children hn hne
  have path := path_of_covers covers
  have ascend := pairwise_branches covers
  have runs := runs_of_covers covers
  rw [← branches] at runs ascend
  have ascend : ms.Pairwise fun k m => k.code < m.code :=
    (List.pairwise_map (f := Node.bare)).mp ascend
  refine ⟨ms, read, ascend, tile_of_runs runs, ⟨?_, ?_⟩, ?_⟩
  · rintro ⟨m, hm, isEnd⟩
    have hb : m.bare ∈ t.dictionary.branches n.depth n.ids := branches ▸ List.mem_map_of_mem hm
    obtain ⟨p, hp, hw⟩ := (closes_of_branch covers hb isEnd).pattern
    rw [Array.toList_inj.mp (path.trans hw.symm)]
    exact Array.mem_of_getElem? hp
  · intro mem
    obtain ⟨i, hi⟩ := Array.getElem?_of_mem mem
    obtain ⟨b, hb, hcode⟩ := exists_branch_of_pattern covers hi path
    rw [← branches] at hb
    obtain ⟨m, hm, rfl⟩ := List.mem_map.mp hb
    exact ⟨m, hm, Node.isEnd_iff.mpr hcode⟩
  · intro m hm isEnd
    cases ms with
    | nil => cases hm
    | cons k ms =>
      rcases List.mem_cons.mp hm with rfl | hm
      · rfl
      · -- No code is below the code of an end.
        have below := (List.pairwise_cons.mp ascend).1 m hm
        rw [Node.isEnd_iff.mp isEnd] at below
        exact absurd below (Nat.not_lt_zero _)

theorem WellFormed.shape (h : t.WellFormed) : Shape t.dictionary t where
  inner := by
    intro id n hn inner
    obtain ⟨w, covers⟩ := h.covers_of_inner hn inner
    have path := path_of_covers covers
    refine ⟨covers.nonempty, ?_, ?_⟩
    · rw [← Array.length_toList, path, covers.depth]
    · rw [path]
      exact covers.mem_iff
  ends := by
    intro id n hn isEnd
    obtain ⟨_, _, w, _, _, closes⟩ := h.edge_of_end hn isEnd
    have path := path_of_closes closes
    obtain ⟨p, hp, hw⟩ := closes.pattern
    refine ⟨closes.single, ?_, ?_⟩
    · rw [hp, Array.toList_inj.mp (path.trans hw.symm)]
    · rw [← Array.length_toList, path, closes.depth]
  children := fun _ _ => h.shape_children
  distinct := by
    intro p q n m hn hm innerN innerM same
    obtain ⟨v, hv⟩ := h.covers_of_inner hn innerN
    obtain ⟨w, hw⟩ := h.covers_of_inner hm innerM
    have words : v = w := by rw [← path_of_covers hv, same, path_of_covers hw]
    exact h.covers_unique hn hm hv (words ▸ hw)
  parent := by
    intro q hq hlt
    obtain ⟨p, n, m, edge⟩ := h.parent q hq hlt
    refine ⟨p, fun p' => ⟨?_, ?_⟩⟩
    · rintro ⟨n', hn', hq'⟩
      obtain ⟨hl, hr⟩ := Span.mem_toList.mp hq'
      exact h.disjoint ⟨hn', edge.child, hl, hr⟩ edge
    · rintro rfl
      exact ⟨n, edge.parent, Span.mem_toList.mpr ⟨edge.start_le, edge.lt_stop⟩⟩

variable
  (complete : ∀ {id : Nat} {n : Node}, t.nodes[id]? = some n → n.isEnd = false → t.Expanded id)

include complete

theorem WellFormed.exists_one_inner (h : t.WellFormed) (stem : t.dictionary.isStem w = true) :
    ∃ q, ∀ q' : Nat, (∃ m : Node, t.nodes[q']? = some m ∧ m.isEnd = false ∧
      (t.path m).toList = w) ↔ q' = q := by
  obtain ⟨q, m, hm, covers⟩ := h.exists_covers complete stem
  have path := path_of_covers covers
  refine ⟨q, fun q' => ⟨?_, ?_⟩⟩
  · rintro ⟨m', hm', inner, hw⟩
    exact h.shape.distinct q' q m' m hm' hm inner covers.inner
      (Array.toList_inj.mp (hw.trans path.symm))
  · rintro rfl
    exact ⟨m, hm, covers.inner, path⟩

theorem WellFormed.exists_one_end (h : t.WellFormed) {i : Nat} (hi : i < t.dictionary.size) :
    ∃ q, ∀ q' : Nat, (∃ m : Node, t.nodes[q']? = some m ∧ m.isEnd = true ∧ m.left = i) ↔
      q' = q := by
  have hp := Array.getElem?_eq_getElem hi
  obtain ⟨_, _, q, m, edge, _, isEnd, hleft⟩ := h.exists_end complete hp
  refine ⟨q, fun q' => ⟨?_, ?_⟩⟩
  · rintro ⟨m', hm', isEnd', hleft'⟩
    exact h.end_unique hm' edge.child isEnd' isEnd (hleft'.trans hleft.symm)
  · rintro rfl
    exact ⟨m, edge.child, isEnd, hleft⟩

end Shape

/-- Whichever nodes are expanded, in any order and again and again, the tree has its shape, a node
gives the same children ever after, and an end gives none. In the tree of a finished encoding each
stem has exactly one inner node and each pattern exactly one end. -/
theorem shape_of_explored (d : Dictionary) :
    (∀ ids, Shape d ((ofDictionary d).expandAll ids)) ∧
    (∀ (ids later : List Nat) (id : Nat) (n : Node), let t := (ofDictionary d).expandAll ids
      t.nodes[id]? = some n →
        let t' := (t.expand id).2.expandAll later
        (n.isEnd = true → t.expand id = ({}, t)) ∧
        (n.isEnd = false → (t.expand id).1.isEmpty = false) ∧
        (n.children.isEmpty = false → t.expand id = (n.children, t)) ∧
        t'.expand id = ((t.expand id).1, t')) ∧
    ∀ growth, let t := (Encoding.ofDictionary growth d).tree
      Shape d t ∧
      (∀ w, d.isStem w = true → ∃ q, ∀ q' : Nat,
        (∃ m : Node, t.nodes[q']? = some m ∧ m.isEnd = false ∧ (t.path m).toList = w) ↔ q' = q) ∧
      ∀ i < d.size, ∃ q, ∀ q' : Nat,
        (∃ m : Node, t.nodes[q']? = some m ∧ m.isEnd = true ∧ m.left = i) ↔ q' = q := by
  have wf (ids : List Nat) := (wellFormed_ofDictionary d).expandAll ids
  have same (ids : List Nat) := (extends_expandAll (ofDictionary d) ids).dictionary
  refine ⟨?_, ?_, ?_⟩
  · intro ids
    have shape := (wf ids).shape
    rwa [same ids] at shape
  · intro ids later id n t hn t'
    refine ⟨expand_of_isEnd hn, fun inner => ((wf ids).expand_inner hn inner).1, fun hne => ?_,
      (wf ids).expand_again hn (extends_expandAll _ later)⟩
    exact expand_of_expanded hn ((wf ids).above hn hne).1 hne
  · intro growth
    obtain ⟨st, finished⟩ := Encoding.exists_finished growth d
    generalize Encoding.ofDictionary growth d = e at finished ⊢
    obtain rfl := finished.dictionary
    exact ⟨finished.tree.shape, fun w => finished.tree.exists_one_inner finished.expanded,
      fun i => finished.tree.exists_one_end finished.expanded⟩

end PrefixTree

end KeywordTagger
