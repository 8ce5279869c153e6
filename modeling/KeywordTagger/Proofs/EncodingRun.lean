import KeywordTagger.Proofs.Coherence
import KeywordTagger.Proofs.TreeSize

/-!
The encoder's run. Whatever groups are unfinished, the tree and the row agree, and exactly the
siblings not yet visited and the parents of unfinished groups are pending. Every step keeps this and
uses up room of the tree or a group, so a run with enough steps ends with nothing pending.
-/

namespace KeywordTagger

open Dictionary

namespace Group

def owner (g : Group) : Nat :=
  match g.parent with
  | some (id, _) => id
  | none => PrefixTree.rootId

def pending (g : Group) : List Nat :=
  match g.parent with
  | some (id, _) => id :: g.waiting.toList
  | none => g.waiting.toList

def rest (g : Group) : Group := { g with waiting := ⟨g.waiting.start + 1, g.waiting.stop⟩ }

theorem mem_pending_of_waiting {g : Group} {q : Nat} (hq : q ∈ g.waiting.toList) :
    q ∈ g.pending := by
  unfold pending
  split
  · exact List.mem_cons_of_mem _ hq
  · exact hq

theorem waiting_eq_cons {g : Group} (h : g.waiting.isEmpty = false) :
    g.waiting.toList = g.waiting.start :: g.rest.waiting.toList := by
  have hlt : g.waiting.start < g.waiting.stop := by
    simpa [Span.isEmpty] using h
  simp only [Span.toList, Span.length, rest]
  rw [show g.waiting.stop - g.waiting.start = g.waiting.stop - (g.waiting.start + 1) + 1 by omega,
    List.range'_succ]

theorem pending_perm {g : Group} (h : g.waiting.isEmpty = false) :
    g.pending.Perm (g.waiting.start :: g.rest.pending) := by
  have hw := waiting_eq_cons h
  cases hp : g.parent with
  | none => simp [pending, rest, hp] at hw ⊢; rw [hw]
  | some parent =>
    simp only [pending, rest, hp] at hw ⊢
    rw [hw]
    exact List.Perm.swap _ _ _

end Group

namespace Encoding

def pendingIn (groups : List Group) : List Nat := groups.flatMap Group.pending

structure Tracks (e : Encoding) (st : Nat → Nat) (g : Group) : Prop where
  offset : g.offset = st g.owner
  expanded : e.tree.Expanded g.owner
  sibling : ∀ q ∈ g.waiting.toList, ∃ n m, e.tree.Edge g.owner n q m ∧ m.children.isEmpty = true
  parent : ∀ id slot, g.parent = some (id, slot) →
    ∃ p n m, e.tree.Edge p n id m ∧ slot = st p + m.code

structure Running (e : Encoding) (groups : List Group) (st : Nat → Nat) : Prop where
  coherent : e.Coherent st (· ∈ pendingIn groups)
  nodup : (pendingIn groups).Nodup
  tracks : ∀ g ∈ groups, e.Tracks st g
  start : e.tree.Expanded PrefixTree.rootId ∧ st PrefixTree.rootId = DoubleArray.startState

def roomAt (e : Encoding) (q : Nat) : Nat :=
  ((e.tree.nodes[q]?).map (Node.room e.tree.dictionary)).getD 0

def potential (e : Encoding) (groups : List Group) : Nat :=
  (groups.map fun g => 1 + (g.waiting.toList.map fun q => 2 * e.roomAt q).sum).sum

/-! What one step does. -/

def childGroup (growth : Nat) (e : Encoding) (id : Nat) (m : Node) (slot : Nat) : Group where
  waiting := (PrefixTree.withChildren e.tree.dictionary e.tree.nodes.size m).children
  offset := (e.grow growth id m).1
  parent := some (id, slot)

section Step

variable {e : Encoding} {st : Nat → Nat} {g : Group} {rest : List Group} {growth : Nat}

theorem step_done (hw : g.waiting.isEmpty = true) (hp : g.parent = none) :
    e.step growth g rest = (e, rest) := by
  simp only [step, hw, if_true, hp]

theorem step_leave {id slot : Nat} (hw : g.waiting.isEmpty = true)
    (hp : g.parent = some (id, slot)) :
    e.step growth g rest = (e.settle id slot g.offset, rest) := by
  simp only [step, hw, if_true, hp]

theorem step_childless {children : Span} {made : Encoding} (hw : g.waiting.isEmpty = false)
    (hex : e.expand g.waiting.start = (children, made)) (none : children.isEmpty = true) :
    e.step growth g rest = (made.settleEnd g.waiting.start
      (g.offset + made.tree.code g.waiting.start) (made.left g.waiting.start), g.rest :: rest) := by
  simp only [step, hw, hex, none, if_true]
  rfl

theorem step_enter {children : Span} {made placed : Encoding} {state : Nat}
    (hw : g.waiting.isEmpty = false) (hex : e.expand g.waiting.start = (children, made))
    (hne : children.isEmpty = false) (hplace : made.place growth children = (state, placed)) :
    e.step growth g rest = (placed,
      ⟨children, state, some (g.waiting.start, g.offset + made.tree.code g.waiting.start)⟩ ::
        g.rest :: rest) := by
  simp only [step, hw, hex, hne, enter, hplace]
  rfl

theorem step_end {m : Node} (hw : g.waiting.isEmpty = false)
    (hm : e.tree.nodes[g.waiting.start]? = some m) (isEnd : m.isEnd = true) :
    e.step growth g rest =
      (e.settleEnd g.waiting.start (g.offset + m.code) m.left, g.rest :: rest) := by
  have hex : e.expand g.waiting.start = ({}, e) := by
    simp only [expand, PrefixTree.expand_of_isEnd hm isEnd]
  simp only [step_childless hw hex rfl, left, PrefixTree.code, hm]

theorem step_inner (wf : e.tree.WellFormed) {m : Node} (hw : g.waiting.isEmpty = false)
    (hm : e.tree.nodes[g.waiting.start]? = some m) (inner : m.isEnd = false)
    (hc : m.children.isEmpty = true) :
    e.step growth g rest = ((e.grow growth g.waiting.start m).2,
      e.childGroup growth g.waiting.start m (g.offset + m.code) :: g.rest :: rest) := by
  have hex : e.expand g.waiting.start =
      ((PrefixTree.withChildren e.tree.dictionary e.tree.nodes.size m).children,
        { e with tree := e.tree.grown g.waiting.start m }) := by
    simp only [expand, PrefixTree.expand_of_isEmpty hm inner hc]
  have read := (PrefixTree.read_grown hm).mpr (.inl ⟨rfl, rfl⟩)
  have hne := PrefixTree.withChildren_not_isEmpty wf hm inner
  have hcode : (e.tree.grown g.waiting.start m).code g.waiting.start = m.code := by
    simp only [PrefixTree.code, read]
    rfl
  simp only [step_enter hw hex hne rfl, hcode]
  rfl

end Step

/-! Every step keeps the groups tracked. -/

section Keep

variable {e e' : Encoding} {st : Nat → Nat} {g : Group} {groups : List Group}

theorem Tracks.rest (h : e.Tracks st g) : e.Tracks st g.rest := by
  refine ⟨h.offset, h.expanded, ?_, h.parent⟩
  intro q hq
  apply h.sibling
  have := Span.mem_toList.mp hq
  simp only [Group.rest] at this
  exact Span.mem_toList.mpr (by omega)

theorem Tracks.settle (h : e.Tracks st g) {id slot : Nat} {base : Int}
    (tree : e'.tree = e.tree.settle id slot base) : e'.Tracks st g := by
  refine ⟨h.offset, ?_, ?_, ?_⟩
  · rw [tree]
    exact PrefixTree.expanded_settle.mpr h.expanded
  · intro q hq
    obtain ⟨n, m, edge, hc⟩ := h.sibling q hq
    obtain ⟨a, edge'⟩ := edge.settle
    rw [tree]
    refine ⟨a, _, edge', ?_⟩
    split <;> exact hc
  · intro q slot hq
    obtain ⟨p, n, m, edge, hslot⟩ := h.parent q slot hq
    obtain ⟨a, edge'⟩ := edge.settle
    rw [tree]
    refine ⟨p, a, _, edge', ?_⟩
    split <;> exact hslot

theorem Tracks.grow (h : e.Tracks st g) (wf : e.tree.WellFormed) {id : Nat} {n : Node} {o : Nat}
    (hn : e.tree.nodes[id]? = some n) (inner : n.isEnd = false) (hc : n.children.isEmpty = true)
    (tree : e'.tree = e.tree.grown id n) (notWaiting : id ∉ g.waiting.toList) :
    e'.Tracks (assign st id o) g := by
  have old {p : Nat} (hp : e.tree.Expanded p) : p ≠ id :=
    fun heq => not_expanded hn hc (heq ▸ hp)
  refine ⟨?_, ?_, ?_, ?_⟩
  · rw [assign_of_ne st o (old h.expanded)]
    exact h.offset
  · rw [tree]
    exact (PrefixTree.expanded_grown wf hn inner).mpr (.inr ⟨old h.expanded, h.expanded⟩)
  · intro q hq
    obtain ⟨a, m, edge, hm⟩ := h.sibling q hq
    have hqid : q ≠ id := fun heq => notWaiting (heq ▸ hq)
    have edge' := edge.grown hn hc
    rw [if_neg hqid] at edge'
    exact ⟨a, m, tree ▸ edge', hm⟩
  · intro q slot hq
    obtain ⟨p, a, m, edge, hslot⟩ := h.parent q slot hq
    refine ⟨p, a, _, tree ▸ edge.grown hn hc, ?_⟩
    rw [PrefixTree.code_of_grown hn edge, assign_of_ne st o (old edge.expanded)]
    exact hslot

theorem Tracks.lt_size (h : e.Tracks st g) {q : Nat} (hq : q ∈ g.pending) :
    q < e.tree.nodes.size := by
  have child {p : Nat} {n m : Node} (edge : e.tree.Edge p n q m) : q < e.tree.nodes.size :=
    (Array.getElem?_eq_some_iff.mp edge.child).1
  have waiting (hq : q ∈ g.waiting.toList) : q < e.tree.nodes.size := by
    obtain ⟨n, m, edge, _⟩ := h.sibling q hq
    exact child edge
  unfold Group.pending at hq
  split at hq
  · rename_i id slot hp
    rcases List.mem_cons.mp hq with rfl | hq
    · obtain ⟨p, n, m, edge, _⟩ := h.parent q slot hp
      exact child edge
    · exact waiting hq
  · exact waiting hq

theorem Running.lt_size (h : e.Running groups st) {q : Nat} (hq : q ∈ pendingIn groups) :
    q < e.tree.nodes.size := by
  obtain ⟨g, hg, hqg⟩ := List.mem_flatMap.mp hq
  exact (h.tracks g hg).lt_size hqg

theorem tracks_childGroup (wf : e.tree.WellFormed) (growth : Nat) {p id : Nat} {n m : Node}
    (edge : e.tree.Edge p n id m) (inner : m.isEnd = false) (hc : m.children.isEmpty = true) :
    (e.grow growth id m).2.Tracks (assign st id (e.grow growth id m).1)
      (e.childGroup growth id m (st p + m.code)) where
  offset := (assign_self st _ _).symm
  expanded := (PrefixTree.expanded_grown wf edge.child inner).mpr (.inl rfl)
  sibling := fun _ hq => PrefixTree.edge_of_new wf edge.child inner hq
  parent := by
    rintro id' slot hp
    cases Option.some.inj hp
    refine ⟨p, n, _, edge.grown edge.child hc, ?_⟩
    have hne : p ≠ id := Nat.ne_of_lt (wf.lt_of_edge edge)
    rw [PrefixTree.code_of_grown edge.child edge, assign_of_ne st _ hne]

end Keep

section RunningStep

variable {e : Encoding} {st : Nat → Nat} {g : Group} {rest : List Group} {growth : Nat}

theorem pendingIn_cons (g : Group) (rest : List Group) :
    pendingIn (g :: rest) = g.pending ++ pendingIn rest := rfl

theorem mem_rest_iff {id q : Nat} {ids : List Nat} (h : (id :: ids).Nodup) :
    q ∈ ids ↔ q ∈ id :: ids ∧ q ≠ id := by
  have hid := (List.nodup_cons.mp h).1
  rw [List.mem_cons]
  constructor
  · intro hq
    exact ⟨.inr hq, fun heq => hid (heq ▸ hq)⟩
  · rintro ⟨hq | hq, hne⟩
    · exact absurd hq hne
    · exact hq

theorem Running.leave (h : e.Running (g :: rest) st) (hw : g.waiting.isEmpty = true)
    {id slot : Nat} (hp : g.parent = some (id, slot)) :
    (e.settle id slot g.offset).Running rest st := by
  have tracks := h.tracks g List.mem_cons_self
  have howner : g.owner = id := by simp only [Group.owner, hp]
  have hpending : pendingIn (g :: rest) = id :: pendingIn rest := by
    rw [pendingIn_cons, Group.pending, hp, Span.isEmpty_iff.mp hw]
    rfl
  obtain ⟨p, n, m, edge, rfl⟩ := tracks.parent id slot hp
  have hnodup := h.nodup
  have hmem : id ∈ pendingIn (g :: rest) := hpending ▸ List.mem_cons_self
  have coherent := h.coherent.settle edge hmem (howner ▸ tracks.expanded)
  have hoffset : (g.offset : Int) = (st id : Int) := by rw [tracks.offset, howner]
  rw [hpending] at hnodup
  rw [hoffset]
  refine ⟨coherent.congr ?_, (List.nodup_cons.mp hnodup).2, ?_, ?_⟩
  · intro q
    rw [hpending]
    exact mem_rest_iff hnodup
  · intro g' hg'
    exact (h.tracks g' (List.mem_cons_of_mem g hg')).settle rfl
  · exact ⟨PrefixTree.expanded_settle.mpr h.start.1, h.start.2⟩

/-- The next sibling is pending once, and it is a child of the owner. -/
theorem Running.next (h : e.Running (g :: rest) st) (hw : g.waiting.isEmpty = false) :
    (pendingIn (g :: rest)).Perm (g.waiting.start :: pendingIn (g.rest :: rest)) ∧
      ∃ n m, e.tree.Edge g.owner n g.waiting.start m ∧ m.children.isEmpty = true := by
  refine ⟨(Group.pending_perm hw).append_right _, ?_⟩
  refine (h.tracks g List.mem_cons_self).sibling _ ?_
  rw [Group.waiting_eq_cons hw]
  exact List.mem_cons_self

theorem Running.visitEnd (h : e.Running (g :: rest) st) (hw : g.waiting.isEmpty = false)
    {n m : Node} (edge : e.tree.Edge g.owner n g.waiting.start m) (isEnd : m.isEnd = true) :
    (e.settleEnd g.waiting.start (g.offset + m.code) m.left).Running (g.rest :: rest) st := by
  have tracks := h.tracks g List.mem_cons_self
  obtain ⟨perm, _⟩ := h.next hw
  have hnodup := perm.nodup_iff.mp h.nodup
  have hmem := perm.mem_iff.mpr (List.mem_cons_self (a := g.waiting.start))
  have coherent := h.coherent.settleEnd edge hmem isEnd
  rw [← tracks.offset] at coherent
  refine ⟨coherent.congr ?_, (List.nodup_cons.mp hnodup).2, ?_, ?_⟩
  · intro q
    rw [perm.mem_iff]
    exact mem_rest_iff hnodup
  · intro g' hg'
    rcases List.mem_cons.mp hg' with rfl | hg'
    · exact tracks.rest.settle rfl
    · exact (h.tracks g' (List.mem_cons_of_mem g hg')).settle rfl
  · exact ⟨PrefixTree.expanded_settle.mpr h.start.1, h.start.2⟩

theorem Running.pending_inner (h : e.Running (g :: rest) st) (growth : Nat)
    (hw : g.waiting.isEmpty = false) (m : Node) (slot : Nat) :
    (pendingIn (e.childGroup growth g.waiting.start m slot :: g.rest :: rest)).Perm
      ((PrefixTree.withChildren e.tree.dictionary e.tree.nodes.size m).children.toList ++
        pendingIn (g :: rest)) := by
  have hpending : pendingIn (e.childGroup growth g.waiting.start m slot :: g.rest :: rest) =
      g.waiting.start ::
        ((PrefixTree.withChildren e.tree.dictionary e.tree.nodes.size m).children.toList ++
          pendingIn (g.rest :: rest)) := rfl
  rw [hpending]
  exact List.perm_middle.symm.trans ((h.next hw).1.symm.append_left _)

theorem Running.visitInner (h : e.Running (g :: rest) st) (growth : Nat)
    (hw : g.waiting.isEmpty = false) {n m : Node} (edge : e.tree.Edge g.owner n g.waiting.start m)
    (inner : m.isEnd = false) (hc : m.children.isEmpty = true) :
    (e.grow growth g.waiting.start m).2.Running
      (e.childGroup growth g.waiting.start m (g.offset + m.code) :: g.rest :: rest)
      (assign st g.waiting.start (e.grow growth g.waiting.start m).1) := by
  have tracks := h.tracks g List.mem_cons_self
  have wf := h.coherent.tree
  have hm := edge.child
  have unvisited := (List.nodup_cons.mp ((h.next hw).1.nodup_iff.mp h.nodup)).1
  have perm := h.pending_inner growth hw m (g.offset + m.code)
  refine ⟨(h.coherent.grow growth hm inner hc).congr ?_, ?_, ?_, ?_⟩
  · intro q
    rw [perm.mem_iff, List.mem_append]
    exact or_comm
  · -- The children lie behind all nodes there were, those that are pending among them.
    rw [perm.nodup_iff, List.nodup_append]
    refine ⟨List.nodup_range', h.nodup, ?_⟩
    rintro q hq q' hq' rfl
    exact Nat.not_le.mpr (h.lt_size hq') (Span.mem_toList.mp hq).1
  · intro g' hg'
    have keep {k : Group} (ht : e.Tracks st k) (hk : k ∈ g.rest :: rest) :
        (e.grow growth g.waiting.start m).2.Tracks
          (assign st g.waiting.start (e.grow growth g.waiting.start m).1) k :=
      ht.grow wf hm inner hc rfl fun hq =>
        unvisited (List.mem_flatMap.mpr ⟨k, hk, Group.mem_pending_of_waiting hq⟩)
    rcases List.mem_cons.mp hg' with rfl | hg'
    · rw [tracks.offset]
      exact tracks_childGroup wf growth edge inner hc
    · rcases List.mem_cons.mp hg' with rfl | hg'
      · exact keep tracks.rest List.mem_cons_self
      · exact keep (h.tracks g' (List.mem_cons_of_mem g hg')) (List.mem_cons_of_mem _ hg')
  · have hroot : PrefixTree.rootId ≠ g.waiting.start := fun heq =>
      not_expanded hm hc (heq ▸ h.start.1)
    refine ⟨(PrefixTree.expanded_grown wf hm inner).mpr (.inr ⟨hroot, h.start.1⟩), ?_⟩
    rw [assign_of_ne st _ hroot]
    exact h.start.2

end RunningStep

/-! Every step uses up potential. -/

section Potential

variable {e e' : Encoding} {groups : List Group}

theorem roomAt_eq (e : Encoding) {q : Nat} {n : Node} (hn : e.tree.nodes[q]? = some n) :
    e.roomAt q = n.room e.tree.dictionary := by
  simp only [roomAt, hn, Option.map_some, Option.getD_some]

theorem roomAt_congr (same : e'.tree.dictionary = e.tree.dictionary) {q : Nat}
    (bare : e'.tree.nodes[q]?.map Node.bare = e.tree.nodes[q]?.map Node.bare) :
    e'.roomAt q = e.roomAt q := by
  have key (f : Encoding) : f.roomAt q =
      ((f.tree.nodes[q]?.map Node.bare).map (Node.room f.tree.dictionary)).getD 0 := by
    simp only [roomAt, Option.map_map]
    rfl
  rw [key, key, bare, same]

theorem potential_cons (e : Encoding) (g : Group) (groups : List Group) :
    e.potential (g :: groups) =
      1 + (g.waiting.toList.map fun q => 2 * e.roomAt q).sum + e.potential groups := by
  simp only [potential, List.map_cons, List.sum_cons]

theorem potential_congr (same : ∀ g ∈ groups, ∀ q ∈ g.waiting.toList, e'.roomAt q = e.roomAt q) :
    e'.potential groups = e.potential groups := by
  unfold potential
  congr 1
  apply List.map_congr_left
  intro g hg
  congr 2
  apply List.map_congr_left
  intro q hq
  rw [same g hg q hq]

theorem roomAt_settle {id slot : Nat} {base : Int} (tree : e'.tree = e.tree.settle id slot base)
    (q : Nat) : e'.roomAt q = e.roomAt q := by
  apply roomAt_congr
  · rw [tree]
    rfl
  · rw [tree]
    exact PrefixTree.bare_settle q

theorem potential_rest (e : Encoding) {g : Group} (rest : List Group)
    (hw : g.waiting.isEmpty = false) :
    e.potential (g :: rest) = 2 * e.roomAt g.waiting.start + e.potential (g.rest :: rest) := by
  rw [potential_cons, potential_cons, Group.waiting_eq_cons hw, List.map_cons, List.sum_cons]
  omega

theorem sum_roomAt_children {id : Nat} {n : Node} (growth : Nat) (wf : e.tree.WellFormed)
    (hn : e.tree.nodes[id]? = some n) (inner : n.isEnd = false) :
    ((PrefixTree.withChildren e.tree.dictionary e.tree.nodes.size n).children.toList.map fun q =>
      2 * (e.grow growth id n).2.roomAt q).sum =
        2 * e.tree.dictionary.room (n.depth + 1) n.left n.right := by
  obtain ⟨w, covers⟩ := wf.covers_of_inner hn inner
  have rooms : ((PrefixTree.withChildren e.tree.dictionary e.tree.nodes.size n).children.toList.map
      fun q => (e.grow growth id n).2.roomAt q) =
        (e.tree.dictionary.branches n.depth n.ids).map (Node.room e.tree.dictionary) := by
    have hmap := congrArg (List.map fun o : Option Node =>
      (o.map (Node.room e.tree.dictionary)).getD 0) (PrefixTree.children_grown wf hn inner)
    simp only [List.map_map] at hmap
    refine Eq.trans (List.map_congr_left ?_) (hmap.trans (List.map_congr_left ?_))
    · intro q _
      simp only [roomAt, tree_grow, Function.comp_apply, Option.map_map]
      rfl
    · intro b _
      rfl
  have double (ns : List Nat) (f : Nat → Nat) :
      (ns.map fun q => 2 * f q).sum = 2 * (ns.map f).sum := by
    induction ns with
    | nil => rfl
    | cons q ns ih =>
      simp only [List.map_cons, List.sum_cons, ih, Nat.mul_add]
  rw [double, rooms, sum_room_of_runs (runs_of_covers covers)]

end Potential

section Uses

variable {e : Encoding} {st : Nat → Nat} {g : Group} {rest : List Group}

/-- A settled node no longer counts, and nothing else changes. -/
theorem potential_settle {e' : Encoding} {id slot : Nat} {base : Int}
    (tree : e'.tree = e.tree.settle id slot base) (groups : List Group) :
    e'.potential groups = e.potential groups :=
  potential_congr fun _ _ q _ => roomAt_settle tree q

theorem Running.visitEnd_lt (h : e.Running (g :: rest) st) (hw : g.waiting.isEmpty = false)
    {n m : Node} (edge : e.tree.Edge g.owner n g.waiting.start m) (isEnd : m.isEnd = true) :
    (e.settleEnd g.waiting.start (g.offset + m.code) m.left).potential (g.rest :: rest) <
      e.potential (g :: rest) := by
  obtain ⟨v, covers⟩ := h.coherent.tree.covers_parent edge
  have positive := room_pos (h.coherent.tree.closes_of_edge edge covers isEnd)
  rw [potential_settle (e := e) rfl, potential_rest e rest hw, roomAt_eq e edge.child]
  omega

theorem Running.visitInner_lt (h : e.Running (g :: rest) st) (growth : Nat)
    (hw : g.waiting.isEmpty = false) {n m : Node} (edge : e.tree.Edge g.owner n g.waiting.start m)
    (inner : m.isEnd = false) :
    (e.grow growth g.waiting.start m).2.potential
      (e.childGroup growth g.waiting.start m (g.offset + m.code) :: g.rest :: rest) <
        e.potential (g :: rest) := by
  have hm := edge.child
  have below := sum_roomAt_children growth h.coherent.tree hm inner
  obtain ⟨w, covers⟩ := h.coherent.tree.covers_of_inner hm inner
  have shrinks := room_below_lt covers
  have less : 1 + 2 * e.tree.dictionary.room (m.depth + 1) m.left m.right <
      2 * m.room e.tree.dictionary := by omega
  rw [← below] at less
  -- Other groups keep their room: what stands at a place is not changed by what is appended.
  have same : (e.grow growth g.waiting.start m).2.potential (g.rest :: rest) =
      e.potential (g.rest :: rest) := by
    apply potential_congr
    intro g' hg' q hq
    have hmem := List.mem_flatMap.mpr ⟨g', hg', Group.mem_pending_of_waiting hq⟩
    have hlt := h.lt_size ((h.next hw).1.mem_iff.mpr (List.mem_cons_of_mem _ hmem))
    apply roomAt_congr
    · rw [tree_grow]
      rfl
    · rw [tree_grow]
      exact PrefixTree.bare_grown_of_lt hm hlt
  rw [potential_cons, same, potential_rest e rest hw, roomAt_eq e hm]
  exact Nat.add_lt_add_right less _

/-- Every step keeps what holds between steps and uses up potential. -/
theorem Running.step (h : e.Running (g :: rest) st) (growth : Nat) {e' : Encoding}
    {groups : List Group} (taken : e.step growth g rest = (e', groups)) :
    e'.potential groups < e.potential (g :: rest) ∧ e'.tree.dictionary = e.tree.dictionary ∧
      ∃ st', e'.Running groups st' := by
  cases hw : g.waiting.isEmpty with
  | true =>
    cases hp : g.parent with
    | none =>
      rw [step_done hw hp] at taken
      cases taken
      have hpending : pendingIn (g :: rest) = pendingIn rest := by
        rw [pendingIn_cons, Group.pending, hp, Span.isEmpty_iff.mp hw]
        rfl
      refine ⟨?_, rfl, st, ?_⟩
      · rw [potential_cons]
        omega
      · refine ⟨h.coherent.congr fun q => by rw [hpending], hpending ▸ h.nodup, ?_, h.start⟩
        exact fun g' hg' => h.tracks g' (List.mem_cons_of_mem g hg')
    | some parent =>
      obtain ⟨id, slot⟩ := parent
      rw [step_leave hw hp] at taken
      cases taken
      refine ⟨?_, rfl, st, h.leave hw hp⟩
      rw [potential_settle rfl, potential_cons]
      omega
  | false =>
    obtain ⟨_, n, m, edge, hc⟩ := h.next hw
    cases he : m.isEnd with
    | true =>
      rw [step_end hw edge.child he] at taken
      cases taken
      exact ⟨h.visitEnd_lt hw edge he, rfl, st, h.visitEnd hw edge he⟩
    | false =>
      rw [step_inner h.coherent.tree hw edge.child he hc] at taken
      cases taken
      exact ⟨h.visitInner_lt growth hw edge he, rfl, _, h.visitInner growth hw edge he hc⟩

end Uses

/-! The loop over the groups. -/

inductive RunsTo (growth : Nat) : Encoding → List Group → Encoding → Prop where
  | done {e : Encoding} : RunsTo growth e [] e
  | step {e e' : Encoding} {g : Group} {rest : List Group} :
      RunsTo growth (e.step growth g rest).1 (e.step growth g rest).2 e' →
      RunsTo growth e (g :: rest) e'

section Loop

variable {growth : Nat} {e e' e'' : Encoding} {st : Nat → Nat} {groups : List Group}

theorem RunsTo.unique (h : RunsTo growth e groups e') (h' : RunsTo growth e groups e'') :
    e' = e'' := by
  induction h with
  | done =>
    cases h'
    rfl
  | step _ ih =>
    obtain _ | later := h'
    exact ih later

/-- When the loop ends, nothing is pending. -/
theorem RunsTo.running (h : RunsTo growth e groups e') (start : e.Running groups st) :
    e'.tree.dictionary = e.tree.dictionary ∧ ∃ st', e'.Running [] st' := by
  induction h generalizing st with
  | done => exact ⟨rfl, st, start⟩
  | step _ ih =>
    obtain ⟨_, same, st', next⟩ := start.step growth rfl
    obtain ⟨same', result⟩ := ih next
    exact ⟨same'.trans same, result⟩

theorem Running.runsTo (h : e.Running groups st) {steps : Nat}
    (enough : e.potential groups ≤ steps) :
    RunsTo growth e groups (Encoding.run growth steps e groups) := by
  induction steps generalizing e st groups with
  | zero =>
    cases groups with
    | nil => exact .done
    | cons g rest =>
      rw [potential_cons] at enough
      omega
  | succ steps ih =>
    cases groups with
    | nil => exact .done
    | cons g rest =>
      obtain ⟨less, _, st', next⟩ := h.step growth rfl
      exact .step (ih next (Nat.le_of_lt_succ (Nat.lt_of_lt_of_le less enough)))

end Loop

end Encoding

end KeywordTagger
