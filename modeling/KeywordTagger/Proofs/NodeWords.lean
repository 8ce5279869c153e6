import KeywordTagger.Proofs.TreeShape
import Mathlib.Data.List.Induction

/-!
Nodes and words. An inner node has one word and is the only inner node with it; in a tree whose
inner nodes are all expanded, every stem has its node and every pattern its end.
-/

namespace KeywordTagger

open Dictionary

namespace Node

variable {d : Dictionary} {n : Node} {v w : List Char}

theorem Covers.isStem (h : n.Covers d w) : d.isStem w = true := by
  obtain ⟨p, hp, hw⟩ := (h.mem_iff n.left).mp ⟨Nat.le_refl _, h.nonempty⟩
  exact isStem_iff.mpr ⟨n.left, p, hp, hw⟩

theorem Covers.word_unique (hv : n.Covers d v) (hw : n.Covers d w) : v = w := by
  obtain ⟨p, hp, hvp⟩ := (hv.mem_iff n.left).mp ⟨Nat.le_refl _, hv.nonempty⟩
  obtain ⟨q, hq, hwq⟩ := (hw.mem_iff n.left).mp ⟨Nat.le_refl _, hv.nonempty⟩
  cases Option.some.inj (hp.symm.trans hq)
  have hlen : v.length = w.length := hv.depth.symm.trans hw.depth
  exact (List.prefix_of_prefix_length_le hvp hwq (Nat.le_of_eq hlen)).eq_of_length hlen

end Node

namespace PrefixTree.WellFormed

variable {t : PrefixTree} {p q p' q' : Nat} {n m n' m' : Node} {v w : List Char}

theorem covers_parent (h : t.WellFormed) (e : t.Edge p n q m) : ∃ v, n.Covers t.dictionary v :=
  h.covers_of_inner e.parent (h.above e.parent e.not_isEmpty).1

theorem lt_of_edge (h : t.WellFormed) (e : t.Edge p n q m) : p < q :=
  Nat.lt_of_lt_of_le (h.above e.parent e.not_isEmpty).2 e.start_le

theorem covers_root (h : t.WellFormed) (hn : t.nodes[rootId]? = some n) :
    n.Covers t.dictionary [] := by
  obtain ⟨r, hr, hroot⟩ := h.root
  cases Option.some.inj (hr.symm.trans hn)
  exact hroot

theorem edge_of_ne_root (h : t.WellFormed) (hm : t.nodes[q]? = some m) (hq : q ≠ rootId) :
    ∃ p n, t.Edge p n q m := by
  obtain ⟨hlt, _⟩ := Array.getElem?_eq_some_iff.mp hm
  obtain ⟨p, n, m', e⟩ := h.parent q (Nat.pos_of_ne_zero hq) hlt
  cases Option.some.inj (e.child.symm.trans hm)
  exact ⟨p, n, e⟩

theorem depth_of_edge (h : t.WellFormed) (e : t.Edge p n q m) : m.depth = n.depth + 1 := by
  obtain ⟨v, hv⟩ := h.covers_parent e
  exact ((runs_of_covers hv).isRun (h.branch_of_edge e)).1.depth_eq

theorem covers_of_edge (h : t.WellFormed) (e : t.Edge p n q m) (hn : n.Covers t.dictionary v)
    (inner : m.isEnd = false) :
    ∃ c : Char, m.code = c.toNat ∧ m.Covers t.dictionary (v ++ [c]) := by
  obtain ⟨c, hc, hcov⟩ := covers_of_branch hn (h.branch_of_edge e) inner
  exact ⟨c, hc, Node.covers_of_bare_eq (Node.bare_bare m).symm hcov⟩

theorem closes_of_edge (h : t.WellFormed) (e : t.Edge p n q m) (hn : n.Covers t.dictionary v)
    (isEnd : m.isEnd = true) : m.Closes t.dictionary v :=
  Node.closes_of_bare_eq (Node.bare_bare m).symm
    (closes_of_branch hn (h.branch_of_edge e) isEnd)

theorem branch_at (h : t.WellFormed) (e : t.Edge p n q m) :
    (t.dictionary.branches n.depth n.ids)[q - n.children.start]? = some m.bare := by
  have hl := e.start_le
  have hr := e.lt_stop
  have hmap := congrArg (·[q - n.children.start]?) (h.children e.parent e.not_isEmpty)
  have hlt : q - n.children.start < n.children.stop - n.children.start := by omega
  simp only [List.getElem?_map, Span.toList, Span.length, List.getElem?_range' hlt,
    Option.map_some, Nat.one_mul, Nat.add_sub_cancel' hl, e.child] at hmap
  obtain ⟨b, hb, heq⟩ := Option.map_eq_some_iff.mp hmap.symm
  rw [hb, heq]

theorem eq_of_code_eq (h : t.WellFormed) (e : t.Edge p n q m) (e' : t.Edge p n' q' m')
    (hc : m.code = m'.code) : q = q' := by
  cases Option.some.inj (e.parent.symm.trans e'.parent)
  obtain ⟨v, hv⟩ := h.covers_parent e
  have hl := e.start_le
  have hl' := e'.start_le
  obtain ⟨hi, hbi⟩ := List.getElem?_eq_some_iff.mp (h.branch_at e)
  obtain ⟨hj, hbj⟩ := List.getElem?_eq_some_iff.mp (h.branch_at e')
  have ascend := List.pairwise_iff_getElem.mp (pairwise_branches hv)
  rcases Nat.lt_trichotomy (q - n.children.start) (q' - n.children.start) with hlt | heq | hlt
  · have := ascend _ _ hi hj hlt
    rw [hbi, hbj] at this
    exact absurd hc (Nat.ne_of_lt this)
  · omega
  · have := ascend _ _ hj hi hlt
    rw [hbi, hbj] at this
    exact absurd hc (Nat.ne_of_gt this)

theorem eq_root_of_covers_nil (h : t.WellFormed) (hn : t.nodes[p]? = some n)
    (hcov : n.Covers t.dictionary []) : p = rootId := by
  by_cases hp : p = rootId
  · exact hp
  · obtain ⟨p₀, n₀, e⟩ := h.edge_of_ne_root hn hp
    obtain ⟨v, hv⟩ := h.covers_parent e
    obtain ⟨c, _, hc⟩ := h.covers_of_edge e hv hcov.inner
    exact absurd (hc.word_unique hcov) (by simp)

/-- The node of a longer word is a child of the node of the word before it. -/
theorem edge_of_covers_append (h : t.WellFormed) {c : Char} (hn : t.nodes[q]? = some m)
    (hcov : m.Covers t.dictionary (v ++ [c])) :
    ∃ p n, t.Edge p n q m ∧ n.Covers t.dictionary v ∧ m.code = c.toNat := by
  have hq : q ≠ rootId := by
    rintro rfl
    exact absurd ((h.covers_root hn).word_unique hcov) (by simp)
  obtain ⟨p, n, e⟩ := h.edge_of_ne_root hn hq
  obtain ⟨u, hu⟩ := h.covers_parent e
  obtain ⟨b, hb, hbc⟩ := h.covers_of_edge e hu hcov.inner
  obtain ⟨rfl, hbc'⟩ := List.append_inj' (hbc.word_unique hcov) rfl
  cases List.singleton_inj.mp hbc'
  exact ⟨p, n, e, hu, hb⟩

theorem covers_unique (h : t.WellFormed) (hn : t.nodes[p]? = some n) (hm : t.nodes[q]? = some m)
    (hnw : n.Covers t.dictionary w) (hmw : m.Covers t.dictionary w) : p = q := by
  induction w using List.reverseRecOn generalizing p q n m with
  | nil => rw [h.eq_root_of_covers_nil hn hnw, h.eq_root_of_covers_nil hm hmw]
  | append_singleton v c ih =>
    obtain ⟨p₀, n₀, e, hv, hc⟩ := h.edge_of_covers_append hn hnw
    obtain ⟨q₀, m₀, e', hv', hc'⟩ := h.edge_of_covers_append hm hmw
    cases ih e.parent e'.parent hv hv'
    exact h.eq_of_code_eq e e' (hc.trans hc'.symm)

theorem depth_le (h : t.WellFormed) (hn : t.nodes[p]? = some n) : n.depth ≤ p := by
  induction p using Nat.strongRecOn generalizing n with
  | ind p ih =>
    by_cases hp : p = rootId
    · subst hp
      exact Nat.le_of_eq (h.covers_root hn).depth
    · obtain ⟨p₀, n₀, e⟩ := h.edge_of_ne_root hn hp
      have := h.depth_of_edge e
      have := ih p₀ (h.lt_of_edge e) e.parent
      have := h.lt_of_edge e
      omega

theorem edge_of_end (h : t.WellFormed) (hn : t.nodes[q]? = some m) (isEnd : m.isEnd = true) :
    ∃ p n v, t.Edge p n q m ∧ n.Covers t.dictionary v ∧ m.Closes t.dictionary v := by
  have hq : q ≠ rootId := by
    rintro rfl
    rw [(h.covers_root hn).inner] at isEnd
    cases isEnd
  obtain ⟨p, n, e⟩ := h.edge_of_ne_root hn hq
  obtain ⟨v, hv⟩ := h.covers_parent e
  exact ⟨p, n, v, e, hv, h.closes_of_edge e hv isEnd⟩

theorem end_unique (h : t.WellFormed) (hn : t.nodes[p]? = some n) (hm : t.nodes[q]? = some m)
    (endN : n.isEnd = true) (endM : m.isEnd = true) (same : n.left = m.left) : p = q := by
  obtain ⟨p₀, n₀, v, e, hv, closes⟩ := h.edge_of_end hn endN
  obtain ⟨q₀, m₀, v', e', hv', closes'⟩ := h.edge_of_end hm endM
  obtain ⟨r, hr, rfl⟩ := closes.pattern
  obtain ⟨r', hr', rfl⟩ := closes'.pattern
  cases Option.some.inj (hr.symm.trans (same ▸ hr'))
  cases h.covers_unique e.parent e'.parent hv hv'
  exact h.eq_of_code_eq e e' ((Node.isEnd_iff.mp endN).trans (Node.isEnd_iff.mp endM).symm)

/-! Trees in which every inner node is expanded. -/

theorem exists_child_of_code (h : t.WellFormed) (hn : t.nodes[p]? = some n)
    (expanded : t.Expanded p) {b : Node} (hb : b ∈ t.dictionary.branches n.depth n.ids) :
    ∃ q m, t.Edge p n q m ∧ m.bare = b := by
  obtain ⟨n', hn', hne⟩ := expanded
  cases Option.some.inj (hn'.symm.trans hn)
  have hmem := List.mem_map_of_mem (f := some) hb
  rw [← h.children hn hne] at hmem
  obtain ⟨q, hq, heq⟩ := List.mem_map.mp hmem
  obtain ⟨m, hm, rfl⟩ := Option.map_eq_some_iff.mp heq
  obtain ⟨hl, hr⟩ := Span.mem_toList.mp hq
  exact ⟨q, m, ⟨hn, hm, hl, hr⟩, rfl⟩

theorem exists_covers (h : t.WellFormed)
    (complete : ∀ {id : Nat} {n : Node}, t.nodes[id]? = some n → n.isEnd = false → t.Expanded id)
    (stem : t.dictionary.isStem w = true) :
    ∃ (q : Nat) (m : Node), t.nodes[q]? = some m ∧ m.Covers t.dictionary w := by
  induction w using List.reverseRecOn with
  | nil =>
    obtain ⟨r, hr, hroot⟩ := h.root
    exact ⟨rootId, r, hr, hroot⟩
  | append_singleton v c ih =>
    obtain ⟨p, n, hn, hv⟩ := ih (isStem_of_append stem)
    obtain ⟨b, hb, hc⟩ := exists_branch_of_isStem hv stem
    obtain ⟨q, m, e, rfl⟩ := h.exists_child_of_code hn (complete hn hv.inner) hb
    have hc : m.code = c.toNat := hc
    have inner : m.isEnd = false := Node.isEnd_eq_false_iff.mpr (hc ▸ toNat_ne_endCode stem)
    obtain ⟨a, ha, hcov⟩ := h.covers_of_edge e hv inner
    have : a = c := Char.ext (UInt32.toNat_inj.mp (ha.symm.trans hc))
    exact ⟨q, m, e.child, this ▸ hcov⟩

theorem exists_end (h : t.WellFormed)
    (complete : ∀ {id : Nat} {n : Node}, t.nodes[id]? = some n → n.isEnd = false → t.Expanded id)
    {i : Nat} {r : Pattern} (hr : t.dictionary.patterns[i]? = some r) :
    ∃ p n q m, t.Edge p n q m ∧ n.Covers t.dictionary r.toList ∧ m.isEnd = true ∧ m.left = i := by
  obtain ⟨p, n, hn, hw⟩ := h.exists_covers complete (isStem_pattern hr)
  obtain ⟨b, hb, hcode⟩ := exists_branch_of_pattern hw hr rfl
  obtain ⟨q, m, e, rfl⟩ := h.exists_child_of_code hn (complete hn hw.inner) hb
  have isEnd : m.isEnd = true := Node.isEnd_iff.mpr hcode
  obtain ⟨r', hr', hword⟩ := (h.closes_of_edge e hw isEnd).pattern
  cases Array.toList_inj.mp hword
  exact ⟨p, n, q, m, e, hw, isEnd, index_unique hr' hr⟩

end PrefixTree.WellFormed

end KeywordTagger
