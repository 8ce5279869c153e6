import KeywordTagger.Proofs.EncodingRun

/-!
The finished encoding of a dictionary. Every inner node is expanded and holds its state, every end
holds its pattern, and the claimed slots are exactly those of the nodes below the root.
-/

namespace KeywordTagger

open Dictionary

namespace Encoding

structure Complete (d : Dictionary) (e : Encoding) (st : Nat → Nat) : Prop where
  coherent : e.Coherent st fun _ => False
  dictionary : e.tree.dictionary = d
  start : st PrefixTree.rootId = DoubleArray.startState
  root : ∃ n, e.tree.nodes[PrefixTree.rootId]? = some n ∧ n.isEnd = false ∧
    n.children.isEmpty = false ∧ n.base = st PrefixTree.rootId

def rootNode (d : Dictionary) : Node where
  code := PrefixTree.rootCode
  depth := 0
  left := 0
  right := d.size

section Start

variable (growth : Nat) (d : Dictionary)

theorem read_root : (PrefixTree.ofDictionary d).nodes[PrefixTree.rootId]? = some (rootNode d) := rfl

theorem covers_root : (rootNode d).Covers d [] :=
  (PrefixTree.wellFormed_ofDictionary d).covers_root (read_root d)

/-- No pattern ends at the root, so its children get the offset one. -/
theorem offset_root : (grow growth { tree := .ofDictionary d } PrefixTree.rootId (rootNode d)).1 =
    DoubleArray.startState := by
  have coherent := coherent_start d (fun _ => 0) (fun _ => True)
  obtain ⟨offset, _⟩ := grow_eq coherent growth (read_root d) rfl rfl
  refine offset.trans (Layout.place_empty growth ?_)
  have covers := covers_root d
  have hne := branches_ne_nil covers
  show 0 < ((d.branches (rootNode d).depth (rootNode d).ids).map Node.code).headD 0
  cases hb : d.branches (rootNode d).depth (rootNode d).ids with
  | nil => exact absurd hb hne
  | cons b bs =>
    refine Nat.pos_of_ne_zero fun hcode => ?_
    have hmem : b ∈ d.branches (rootNode d).depth (rootNode d).ids := hb ▸ List.mem_cons_self
    obtain ⟨p, hp, hw⟩ := (closes_of_branch covers hmem (Node.isEnd_iff.mpr hcode)).pattern
    exact pattern_ne_nil hp hw

def rootGroup : Group where
  waiting := (PrefixTree.withChildren d 1 (rootNode d)).children
  offset := (grow growth { tree := .ofDictionary d } PrefixTree.rootId (rootNode d)).1
  parent := none

theorem expand_root : expand { tree := .ofDictionary d } PrefixTree.rootId =
    ((PrefixTree.withChildren d 1 (rootNode d)).children,
      { tree := (PrefixTree.ofDictionary d).grown PrefixTree.rootId (rootNode d) }) := by
  simp only [expand, PrefixTree.expand_of_isEmpty (read_root d) rfl rfl]
  rfl

theorem ofDictionary_eq : ofDictionary growth d =
    let e := (grow growth { tree := .ofDictionary d } PrefixTree.rootId (rootNode d)).2
    let e' := run growth (steps d) e [rootGroup growth d]
    { e' with tree := e'.tree.settle PrefixTree.rootId 0 (rootGroup growth d).offset } := by
  simp only [ofDictionary, expand_root]
  rfl

theorem running_start :
    (grow growth { tree := .ofDictionary d } PrefixTree.rootId (rootNode d)).2.Running
      [rootGroup growth d] (assign (fun _ => 0) PrefixTree.rootId
        (grow growth { tree := .ofDictionary d } PrefixTree.rootId (rootNode d)).1) := by
  have hr := read_root d
  have coherent := (coherent_start d (fun _ => 0) (fun _ => False)).grow growth hr rfl rfl
  have expanded := (PrefixTree.expanded_grown (PrefixTree.wellFormed_ofDictionary d) hr rfl).mpr
    (.inl rfl)
  have hpending : pendingIn [rootGroup growth d] = (rootGroup growth d).waiting.toList :=
    List.append_nil _
  refine ⟨coherent.congr ?_, ?_, ?_, expanded, ?_⟩
  · intro q
    rw [hpending, false_or]
    rfl
  · rw [hpending]
    exact List.nodup_range'
  · intro g hg
    cases List.mem_singleton.mp hg
    refine ⟨(assign_self _ _ _).symm, expanded, ?_, ?_⟩
    · exact fun q hq => PrefixTree.edge_of_new (PrefixTree.wellFormed_ofDictionary d) hr rfl hq
    · intro id slot hp
      cases hp
  · rw [assign_self, offset_root]

theorem potential_start :
    (grow growth { tree := .ofDictionary d } PrefixTree.rootId (rootNode d)).2.potential
      [rootGroup growth d] ≤ steps d := by
  have below := sum_roomAt_children growth (e := { tree := .ofDictionary d })
    (PrefixTree.wellFormed_ofDictionary d) (read_root d) rfl
  have weight : d.room 1 0 d.size = d.weight := room_root d
  have total := potential_cons
    (grow growth { tree := .ofDictionary d } PrefixTree.rootId (rootNode d)).2
    (rootGroup growth d) []
  have none : (grow growth { tree := .ofDictionary d } PrefixTree.rootId (rootNode d)).2.potential
      [] = 0 := rfl
  have sum : ((rootGroup growth d).waiting.toList.map fun q => 2 *
      (grow growth { tree := .ofDictionary d } PrefixTree.rootId (rootNode d)).2.roomAt q).sum =
        2 * d.room 1 0 d.size := below
  rw [total, sum, none, weight, steps]
  omega

theorem exists_complete : ∃ st, (ofDictionary growth d).Complete d st := by
  have running := running_start growth d
  obtain ⟨same, st, done⟩ := (running.runsTo (potential_start growth d)).running running
  have offset : (rootGroup growth d).offset = DoubleArray.startState := offset_root growth d
  simp only [ofDictionary_eq]
  generalize run growth (steps d) _ _ = e at same done ⊢
  have settled : e.Coherent st fun _ => False := done.coherent.congr (by simp [pendingIn])
  obtain ⟨r, hr, hne⟩ := done.start.1
  have read := @PrefixTree.read_settle e.tree PrefixTree.rootId 0 (rootGroup growth d).offset
    PrefixTree.rootId
  rw [hr, Option.map_some, if_pos rfl] at read
  refine ⟨st, settled.settleRoot _, same, done.start.2, _, read, ?_, hne, ?_⟩
  · exact (settled.tree.above hr hne).1
  · rw [offset, done.start.2]

end Start

section Complete

variable {d : Dictionary} {e : Encoding} {st : Nat → Nat}

theorem Complete.inner (h : e.Complete d st) {q : Nat} {m : Node} (hm : e.tree.nodes[q]? = some m)
    (inner : m.isEnd = false) : e.tree.Expanded q ∧ m.base = st q := by
  by_cases hq : q = PrefixTree.rootId
  · subst hq
    obtain ⟨n, hn, _, hne, hbase⟩ := h.root
    cases Option.some.inj (hn.symm.trans hm)
    exact ⟨⟨m, hm, hne⟩, hbase⟩
  · obtain ⟨p, n, edge⟩ := h.coherent.tree.edge_of_ne_root hm hq
    exact (h.coherent.settled edge id).2.2.2 inner

theorem Complete.state_eq (h : e.Complete d st) {q : Nat} {m : Node}
    (hm : e.tree.nodes[q]? = some m) (inner : m.isEnd = false) : m.state = st q := by
  rw [Node.state, (h.inner hm inner).2, Int.toNat_natCast]

theorem Complete.content (h : e.Complete d st) {p q : Nat} {n m : Node}
    (edge : e.tree.Edge p n q m) : e.layout.slot (st p + m.code) = m.content (st p) :=
  (h.coherent.settled edge id).1

theorem Complete.exists_node (h : e.Complete d st) {w : List Char} (stem : d.isStem w = true) :
    ∃ (q : Nat) (m : Node), e.tree.nodes[q]? = some m ∧ m.Covers d w := by
  have same := h.dictionary
  subst same
  exact h.coherent.tree.exists_covers (fun hn he => (h.inner hn he).1) stem

end Complete

end Encoding

end KeywordTagger
