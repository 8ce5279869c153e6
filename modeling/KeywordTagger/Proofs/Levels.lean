import KeywordTagger.FailureLinks
import KeywordTagger.Proofs.EncodedTable

/-!
The levels of a finished tree. The nodes that end no pattern are visited length by length of their
words, each once, so what a node needs of shorter words is there, and since a node lies no deeper
than its place, as many levels as there are nodes are all of them. A queue from which nodes are
taken while their children are put behind the others visits them in the same order.
-/

namespace KeywordTagger

open Dictionary

namespace PrefixTree

variable {t : PrefixTree} {p : Nat} {n m : Node}

theorem mem_inner_iff (hn : t.nodes[p]? = some n) :
    m ∈ t.inner n.children ↔ ∃ q, t.Edge p n q m ∧ m.isEnd = false := by
  simp only [inner, List.mem_filter, List.mem_filterMap, Span.mem_toList, Bool.not_eq_true']
  constructor
  · rintro ⟨⟨q, ⟨hl, hr⟩, hm⟩, inner⟩
    exact ⟨q, ⟨hn, hm, hl, hr⟩, inner⟩
  · rintro ⟨q, edge, inner⟩
    exact ⟨⟨q, ⟨edge.start_le, edge.lt_stop⟩, edge.child⟩, inner⟩

end PrefixTree

namespace FailureLinks

theorem breadthFirst_eq (t : PrefixTree) (levels : Nat) (level : List Node) (found : Array Node) :
    breadthFirst t levels level found = found ++ breadthFirst t levels level #[] := by
  induction levels generalizing level found with
  | zero => simp [breadthFirst]
  | succ levels ih =>
    cases level with
    | nil => simp [breadthFirst]
    | cons n ns =>
      simp only [breadthFirst]
      rw [ih _ (found ++ (n :: ns)), ih _ (#[] ++ (n :: ns))]
      apply Array.ext'
      simp

theorem toList_breadthFirst (t : PrefixTree) (levels : Nat) (level : List Node) :
    (breadthFirst t (levels + 1) level #[]).toList =
      level ++ (breadthFirst t levels (level.flatMap fun n => t.inner n.children) #[]).toList := by
  cases level with
  | nil =>
    cases levels with
    | zero => rfl
    | succ levels => rfl
  | cons n ns =>
    simp only [breadthFirst]
    rw [breadthFirst_eq]
    simp

structure Level (e : Encoding) (d : Dictionary) (depth : Nat) (level : List Node) : Prop where
  node : ∀ n ∈ level, ∃ (p : Nat) (w : List Char), e.tree.nodes[p]? = some n ∧ n.Covers d w ∧
    w.length = depth
  all : ∀ w, d.isStem w = true → w.length = depth → ∃ n ∈ level, n.Covers d w

variable {e : Encoding} {d : Dictionary} {st : List Char → Nat}

theorem child_facts (h : e.Finished d st) {p : Nat} {n m : Node} {v : List Char}
    (hn : e.tree.nodes[p]? = some n) (hv : n.Covers d v) (hm : m ∈ e.tree.inner n.children) :
    ∃ c : Char, m.code = c.toNat ∧ m.Covers d (v ++ [c]) ∧ m.state = st (v ++ [c]) ∧
      ∃ q : Nat, e.tree.nodes[q]? = some m := by
  obtain ⟨q, edge, inner⟩ := (PrefixTree.mem_inner_iff hn).mp hm
  obtain rfl := h.dictionary
  obtain ⟨c, hc, hvc⟩ := h.tree.covers_of_edge edge hv inner
  exact ⟨c, hc, hvc, h.state_eq edge.child hvc, q, edge.child⟩

theorem exists_inner (h : e.Finished d st) {p : Nat} {n : Node} {v : List Char} {c : Char}
    (hn : e.tree.nodes[p]? = some n) (hv : n.Covers d v) (stem : d.isStem (v ++ [c]) = true) :
    ∃ m ∈ e.tree.inner n.children, m.Covers d (v ++ [c]) := by
  obtain rfl := h.dictionary
  obtain ⟨q, m, hm, hvc⟩ := h.tree.exists_covers h.expanded stem
  obtain ⟨p', n', edge, hv', _⟩ := h.tree.edge_of_covers_append hm hvc
  cases h.tree.covers_unique hn edge.parent hv hv'
  cases Option.some.inj (hn.symm.trans edge.parent)
  exact ⟨m, (PrefixTree.mem_inner_iff hn).mpr ⟨q, edge, hvc.inner⟩, hvc⟩

theorem Level.next (h : e.Finished d st) {depth : Nat} {level : List Node}
    (hl : Level e d depth level) :
    Level e d (depth + 1) (level.flatMap fun n => e.tree.inner n.children) where
  node := by
    intro m hm
    obtain ⟨n, hn, hm⟩ := List.mem_flatMap.mp hm
    obtain ⟨p, v, hp, hv, hlen⟩ := hl.node n hn
    obtain ⟨c, _, hvc, _, q, hq⟩ := child_facts h hp hv hm
    refine ⟨q, v ++ [c], hq, hvc, ?_⟩
    rw [List.length_append, hlen]
    rfl
  all := by
    intro w stem hlen
    rcases List.eq_nil_or_concat w with rfl | ⟨v, c, rfl⟩
    · cases hlen
    · rw [List.concat_eq_append] at stem hlen ⊢
      have hv : v.length = depth := by simpa using hlen
      obtain ⟨n, hn, hnv⟩ := hl.all v (isStem_of_append stem) hv
      obtain ⟨p, u, hp, hu, _⟩ := hl.node n hn
      obtain ⟨m, hm, hvc⟩ := exists_inner h hp hnv stem
      exact ⟨m, List.mem_flatMap.mpr ⟨n, hn, hm⟩, hvc⟩

theorem level_root (h : e.Finished d st) {r : Node}
    (hr : e.tree.nodes[PrefixTree.rootId]? = some r) : Level e d 0 [r] := by
  obtain rfl := h.dictionary
  obtain ⟨r', hr', hcov⟩ := h.tree.root
  cases Option.some.inj (hr'.symm.trans hr)
  constructor
  · intro n hn
    cases List.mem_singleton.mp hn
    exact ⟨PrefixTree.rootId, [], hr, hcov, rfl⟩
  · intro w _ hlen
    cases List.eq_nil_of_length_eq_zero hlen
    exact ⟨r, List.mem_singleton_self r, hcov⟩

theorem length_lt_nodes (h : e.Finished d st) {w : List Char} (stem : d.isStem w = true) :
    w.length < e.tree.nodes.size := by
  obtain rfl := h.dictionary
  obtain ⟨q, m, hm, hw⟩ := h.tree.exists_covers h.expanded stem
  rw [← hw.depth]
  exact Nat.lt_of_le_of_lt (h.tree.depth_le hm) (Array.getElem?_eq_some_iff.mp hm).1

/-! Each node is visited once. -/

def Distinct (d : Dictionary) (ns : List Node) : Prop :=
  ns.Pairwise fun n m => ∀ w, n.Covers d w → ¬ m.Covers d w

theorem distinct_inner (h : e.Finished d st) (ids : Span) : Distinct d (e.tree.inner ids) := by
  obtain rfl := h.dictionary
  refine List.Pairwise.filter _ (List.Pairwise.filterMap _ ?_ (List.nodup_range' (s := ids.start)))
  intro p q hne n hn m hm w hnw hmw
  exact hne (h.tree.covers_unique hn hm hnw hmw)

theorem Level.distinct_next (h : e.Finished d st) {depth : Nat} {level : List Node}
    (hl : Level e d depth level) (once : Distinct d level) :
    Distinct d (level.flatMap fun n => e.tree.inner n.children) := by
  refine List.pairwise_flatMap.mpr ⟨fun n _ => distinct_inner h n.children, ?_⟩
  refine once.imp_of_mem fun {n n'} hn hn' apart m hm m' hm' w hw hw' => ?_
  obtain ⟨p, v, hp, hv, _⟩ := hl.node n hn
  obtain ⟨p', v', hp', hv', _⟩ := hl.node n' hn'
  obtain ⟨c, _, hvc, _⟩ := child_facts h hp hv hm
  obtain ⟨c', _, hvc', _⟩ := child_facts h hp' hv' hm'
  -- Both parents have the word without its last code point.
  have same := (hvc.word_unique hw).trans (hvc'.word_unique hw').symm
  exact apart v hv (List.append_inj_left' same rfl ▸ hv')

/-- The nodes of the stems of some lengths, each once and none before one of a shorter stem. -/
structure Ordered (e : Encoding) (d : Dictionary) (depth stop : Nat) (ns : List Node) : Prop where
  node : ∀ n ∈ ns, ∃ (p : Nat) (w : List Char), e.tree.nodes[p]? = some n ∧ n.Covers d w ∧
    depth ≤ w.length
  all : ∀ w, d.isStem w = true → depth ≤ w.length → w.length < stop → ∃ n ∈ ns, n.Covers d w
  ascending : ns.Pairwise fun n m => n.depth ≤ m.depth
  distinct : Distinct d ns

theorem Level.ordered_append {depth stop : Nat} {level ns : List Node} (hl : Level e d depth level)
    (once : Distinct d level) (later : Ordered e d (depth + 1) stop ns) :
    Ordered e d depth stop (level ++ ns) := by
  have here {n : Node} (hn : n ∈ level) : n.depth = depth := by
    obtain ⟨p, w, _, hw, hlen⟩ := hl.node n hn
    exact hw.depth.trans hlen
  have below {n : Node} (hn : n ∈ ns) : depth < n.depth := by
    obtain ⟨p, w, _, hw, hlen⟩ := later.node n hn
    exact hw.depth ▸ hlen
  refine ⟨?node, ?all, ?ascending, ?distinct⟩
  case node =>
    intro n hn
    rcases List.mem_append.mp hn with hn | hn
    · obtain ⟨p, w, hp, hw, hlen⟩ := hl.node n hn
      exact ⟨p, w, hp, hw, Nat.le_of_eq hlen.symm⟩
    · obtain ⟨p, w, hp, hw, hlen⟩ := later.node n hn
      exact ⟨p, w, hp, hw, Nat.le_of_succ_le hlen⟩
  case all =>
    intro w stem hle hlt
    rcases Nat.lt_or_eq_of_le hle with deeper | same
    · obtain ⟨n, hn, hw⟩ := later.all w stem deeper hlt
      exact ⟨n, List.mem_append_right _ hn, hw⟩
    · obtain ⟨n, hn, hw⟩ := hl.all w stem same.symm
      exact ⟨n, List.mem_append_left _ hn, hw⟩
  case ascending =>
    refine List.pairwise_append.mpr ⟨?_, later.ascending, fun n hn m hm => ?_⟩
    · refine List.pairwise_of_forall_mem_list fun n hn m hm => ?_
      exact Nat.le_of_eq ((here hn).trans (here hm).symm)
    · exact here hn ▸ Nat.le_of_lt (below hm)
  case distinct =>
    refine List.pairwise_append.mpr ⟨once, later.distinct, fun n hn m hm w hw hw' => ?_⟩
    have deeper := below hm
    rw [← here hn, hw.depth, hw'.depth] at deeper
    exact Nat.lt_irrefl _ deeper

theorem ordered_breadthFirst (h : e.Finished d st) (levels : Nat) {depth : Nat} {level : List Node}
    (hl : Level e d depth level) (once : Distinct d level) :
    Ordered e d depth (depth + levels) (breadthFirst e.tree levels level #[]).toList := by
  induction levels generalizing depth level with
  | zero => exact ⟨by simp [breadthFirst], by omega, .nil, .nil⟩
  | succ levels ih =>
    have later := ih (hl.next h) (hl.distinct_next h once)
    rw [Nat.add_assoc, Nat.add_comm 1] at later
    rw [toList_breadthFirst]
    exact hl.ordered_append once later

theorem ordered_linkOrder (h : e.Finished d st) :
    Ordered e d 1 (1 + e.tree.nodes.size) (linkOrder e.tree).toList := by
  obtain ⟨r, hr, _⟩ := h.tree.root
  have root := level_root h hr
  have first := root.next h
  have once := root.distinct_next h (List.pairwise_singleton _ r)
  rw [List.flatMap_singleton] at first once
  simp only [linkOrder, hr]
  exact ordered_breadthFirst h _ first once

/-! The queue. -/

/-- Taking nodes from the front of a queue and putting their children at its end. -/
inductive Queued (t : PrefixTree) : List Node → List Node → Prop where
  | done : Queued t [] []
  | next {n : Node} {queue order : List Node} : Queued t (queue ++ t.inner n.children) order →
      Queued t (n :: queue) (n :: order)

theorem Queued.eq_append {t : PrefixTree} {queue order : List Node} (h : Queued t queue order) :
    order = queue ++ order.flatMap fun n => t.inner n.children := by
  induction h with
  | done => rfl
  | @next n queue order _ ih =>
    rw [List.flatMap_cons, List.cons_append, ← List.append_assoc, ← ih]

theorem Queued.level {t : PrefixTree} {level queue order : List Node}
    (h : Queued t (queue ++ level.flatMap fun n => t.inner n.children) order) :
    Queued t (level ++ queue) (level ++ order) := by
  induction level generalizing queue with
  | nil => simpa using h
  | cons n level ih =>
    rw [List.flatMap_cons, ← List.append_assoc] at h
    have later := ih h
    rw [← List.append_assoc] at later
    exact .next later

theorem queued_breadthFirst (h : e.Finished d st) (levels : Nat) {depth : Nat} {level : List Node}
    (hl : Level e d depth level) (enough : e.tree.nodes.size ≤ depth + levels) :
    Queued e.tree level (breadthFirst e.tree levels level #[]).toList := by
  induction levels generalizing depth level with
  | zero =>
    -- No stem is as long as there are nodes.
    have empty : level = [] := List.eq_nil_iff_forall_not_mem.mpr fun n hn => by
      obtain ⟨_, w, _, hw, hlen⟩ := hl.node n hn
      have := length_lt_nodes h hw.isStem
      omega
    rw [empty]
    exact .done
  | succ levels ih =>
    have later := ih (hl.next h) (by omega)
    rw [← List.nil_append (level.flatMap _)] at later
    have all := later.level
    rw [List.append_nil] at all
    rwa [toList_breadthFirst]

theorem queued_linkOrder (h : e.Finished d st) {r : Node}
    (hr : e.tree.nodes[PrefixTree.rootId]? = some r) :
    Queued e.tree (e.tree.inner r.children) (linkOrder e.tree).toList := by
  have first := (level_root h hr).next h
  rw [List.flatMap_singleton] at first
  simp only [linkOrder, hr]
  exact queued_breadthFirst h _ first (Nat.le_add_left _ _)

end FailureLinks

end KeywordTagger
