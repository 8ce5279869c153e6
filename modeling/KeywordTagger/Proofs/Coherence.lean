import KeywordTagger.Encoding
import KeywordTagger.Proofs.NodeWords
import KeywordTagger.Proofs.Placement

/-!
A prefix tree and a row of slots that agree. Every node whose children were made has a state of its
own, and the children's slots are claimed for it and for nothing else. What a slot holds is known
for the nodes that are settled; the slots of pending nodes are claimed and hold nothing yet.
-/

namespace KeywordTagger

open Dictionary

def Node.content (m : Node) (state : Nat) : Slot where
  base := m.base
  check := state
  output := if m.isEnd then some m.left else none

namespace Encoding

/-- The tree and the row agree, when `st` gives the state of each expanded node. The states are no
part of the encoding until a node is settled, so they are a parameter here. -/
structure Coherent (e : Encoding) (st : Nat → Nat) (pending : Nat → Prop) : Prop where
  tree : e.tree.WellFormed
  layout : e.layout.Sound
  used_iff : ∀ o, e.layout.used.contains o = true ↔ ∃ p, e.tree.Expanded p ∧ st p = o
  inj : ∀ {p q : Nat}, e.tree.Expanded p → e.tree.Expanded q → st p = st q → p = q
  owned : ∀ i, (e.layout.slot i).check ≠ 0 →
    ∃ p n q m, e.tree.Edge p n q m ∧ i = st p + m.code
  waiting : ∀ {p q : Nat} {n m : Node}, e.tree.Edge p n q m → pending q →
    e.layout.slot (st p + m.code) = { check := st p }
  settled : ∀ {p q : Nat} {n m : Node}, e.tree.Edge p n q m → ¬ pending q →
    e.layout.slot (st p + m.code) = m.content (st p) ∧ m.slot = st p + m.code ∧
    (m.isEnd = true → m.base = Slot.endBase m.left) ∧
    (m.isEnd = false → e.tree.Expanded q ∧ m.base = st q)

namespace Coherent

variable {e : Encoding} {st : Nat → Nat} {pending : Nat → Prop}

theorem congr {pending' : Nat → Prop} (h : e.Coherent st pending)
    (same : ∀ q, pending' q ↔ pending q) : e.Coherent st pending' := by
  have heq : pending' = pending := funext fun q => propext (same q)
  exact heq ▸ h

theorem state_pos (h : e.Coherent st pending) {p : Nat} (hp : e.tree.Expanded p) : 0 < st p :=
  h.layout.used_pos _ ((h.used_iff _).mpr ⟨p, hp, rfl⟩)

theorem check_eq (h : e.Coherent st pending) {p q : Nat} {n m : Node} (edge : e.tree.Edge p n q m) :
    (e.layout.slot (st p + m.code)).check = st p := by
  by_cases hq : pending q
  · rw [h.waiting edge hq]
  · rw [(h.settled edge hq).1]
    rfl

theorem claimed (h : e.Coherent st pending) {p q : Nat} {n m : Node} (edge : e.tree.Edge p n q m) :
    (e.layout.slot (st p + m.code)).check ≠ 0 := by
  rw [h.check_eq edge]
  exact Nat.ne_of_gt (h.state_pos edge.expanded)

theorem edge_unique (h : e.Coherent st pending) {p q p' q' : Nat} {n m n' m' : Node}
    (edge : e.tree.Edge p n q m) (edge' : e.tree.Edge p' n' q' m')
    (same : st p + m.code = st p' + m'.code) : q = q' := by
  have hstate : st p = st p' := by
    rw [← h.check_eq edge, ← h.check_eq edge', same]
  cases h.inj edge.expanded edge'.expanded hstate
  exact h.tree.eq_of_code_eq edge edge' (by omega)

end Coherent

theorem coherent_start (d : Dictionary) (st : Nat → Nat) (pending : Nat → Prop) :
    Coherent { tree := .ofDictionary d } st pending := by
  have wf := PrefixTree.wellFormed_ofDictionary d
  have fresh : ∀ p, ¬ (PrefixTree.ofDictionary d).Expanded p := by
    rintro p ⟨n, hn, hne⟩
    obtain ⟨hp, rfl⟩ := Array.getElem?_eq_some_iff.mp hn
    cases Nat.lt_one_iff.mp hp
    exact absurd hne (by simp [PrefixTree.ofDictionary, Span.isEmpty])
  refine ⟨wf, Layout.sound_empty, ?used_iff, ?inj, ?owned, ?waiting, ?settled⟩
  case used_iff =>
    intro o
    constructor
    · intro ho
      simp at ho
    · rintro ⟨p, hp, _⟩
      exact absurd hp (fresh p)
  case inj =>
    intro p q hp
    exact absurd hp (fresh p)
  case owned =>
    intro i hi
    exact absurd rfl hi
  case waiting =>
    intro p q n m edge
    exact absurd edge.expanded (fresh p)
  case settled =>
    intro p q n m edge
    exact absurd edge.expanded (fresh p)

/-! Making and placing the children of a node. -/

def grow (growth : Nat) (e : Encoding) (id : Nat) (n : Node) : Nat × Encoding :=
  place growth (PrefixTree.withChildren e.tree.dictionary e.tree.nodes.size n).children
    { e with tree := e.tree.grown id n }

def assign (st : Nat → Nat) (id o : Nat) : Nat → Nat := fun p => if p = id then o else st p

@[simp] theorem assign_self (st : Nat → Nat) (id o : Nat) : assign st id o id = o := if_pos rfl

theorem assign_of_ne (st : Nat → Nat) {id p : Nat} (o : Nat) (h : p ≠ id) :
    assign st id o p = st p := if_neg h

section Grow

variable {e : Encoding} {st : Nat → Nat} {pending : Nat → Prop} {id : Nat} {n : Node}

@[simp] theorem tree_grow (growth : Nat) : (e.grow growth id n).2.tree = e.tree.grown id n := rfl

theorem not_expanded (hn : e.tree.nodes[id]? = some n) (hc : n.children.isEmpty = true) :
    ¬ e.tree.Expanded id := by
  rintro ⟨a, ha, hne⟩
  cases Option.some.inj (ha.symm.trans hn)
  exact absurd hc (by simp [hne])

theorem grow_eq (h : e.Coherent st pending) (growth : Nat) (hn : e.tree.nodes[id]? = some n)
    (he : n.isEnd = false) (hc : n.children.isEmpty = true) :
    let codes := (e.tree.dictionary.branches n.depth n.ids).map Node.code
    (e.grow growth id n).1 = (e.layout.place growth codes).1 ∧
      (e.grow growth id n).2.layout = (e.layout.place growth codes).2 := by
  have wf := h.tree.grown hn he hc
  have read := (PrefixTree.read_grown hn).mpr (.inl ⟨rfl, rfl⟩)
  have expanded := (PrefixTree.expanded_grown h.tree hn he).mpr (.inl rfl)
  obtain ⟨a, ha, hne⟩ := expanded
  cases Option.some.inj (read.symm.trans ha)
  have codes := wf.codes_children read hne
  simp only [grow, place, codes]
  exact ⟨rfl, rfl⟩

theorem assign_of_expanded (hn : e.tree.nodes[id]? = some n) (hc : n.children.isEmpty = true)
    (o : Nat) {p : Nat} (hp : e.tree.Expanded p) : assign st id o p = st p :=
  assign_of_ne st o fun heq => not_expanded hn hc (heq ▸ hp)

namespace Coherent

theorem placed_grow (h : e.Coherent st pending) (growth : Nat) (hn : e.tree.nodes[id]? = some n)
    (he : n.isEnd = false) (hc : n.children.isEmpty = true) :
    (e.grow growth id n).2.layout.Sound ∧
      Layout.Placed e.layout (e.grow growth id n).2.layout
        ((e.tree.dictionary.branches n.depth n.ids).map Node.code) (e.grow growth id n).1 := by
  obtain ⟨w, hw⟩ := h.tree.covers_of_inner hn he
  obtain ⟨offset, layout⟩ := grow_eq h growth hn he hc
  have hne : (e.tree.dictionary.branches n.depth n.ids).map Node.code ≠ [] :=
    List.map_eq_nil_iff.not.mpr (branches_ne_nil hw)
  rw [offset, layout]
  exact ⟨h.layout.place growth hne, h.layout.placed growth hne⟩

theorem state_ne_grow (h : e.Coherent st pending) (growth : Nat)
    (hn : e.tree.nodes[id]? = some n) (he : n.isEnd = false) (hc : n.children.isEmpty = true)
    {p : Nat} (hp : e.tree.Expanded p) : st p ≠ (e.grow growth id n).1 := by
  intro heq
  have used := (h.used_iff _).mpr ⟨p, hp, heq⟩
  exact absurd used (by simp [(h.placed_grow growth hn he hc).2.unused])

/-- The new slots were free, so a claimed slot is none of them. -/
theorem slot_grow (h : e.Coherent st pending) (growth : Nat) (hn : e.tree.nodes[id]? = some n)
    (he : n.isEnd = false) (hc : n.children.isEmpty = true) {i : Nat}
    (hi : (e.layout.slot i).check ≠ 0) :
    (e.grow growth id n).2.layout.slot i = e.layout.slot i := by
  have placed := (h.placed_grow growth hn he hc).2
  apply placed.kept
  rintro c hcode rfl
  rw [placed.was_free c hcode] at hi
  exact hi rfl

theorem used_grow (h : e.Coherent st pending) (growth : Nat) (hn : e.tree.nodes[id]? = some n)
    (he : n.isEnd = false) (hc : n.children.isEmpty = true) (o : Nat) :
    (e.grow growth id n).2.layout.used.contains o = true ↔
      ∃ p, (e.tree.grown id n).Expanded p ∧ assign st id (e.grow growth id n).1 p = o := by
  have expanded {p : Nat} := PrefixTree.expanded_grown h.tree hn he (p := p)
  rw [(h.placed_grow growth hn he hc).2.used_iff, h.used_iff]
  constructor
  · rintro (rfl | ⟨p, hp, rfl⟩)
    · exact ⟨id, expanded.mpr (.inl rfl), assign_self st id _⟩
    · have hpid : p ≠ id := fun heq => not_expanded hn hc (heq ▸ hp)
      exact ⟨p, expanded.mpr (.inr ⟨hpid, hp⟩), assign_of_ne st _ hpid⟩
  · rintro ⟨p, hp, rfl⟩
    rcases expanded.mp hp with rfl | ⟨hpid, hp⟩
    · exact .inl (assign_self st p _)
    · exact .inr ⟨p, hp, (assign_of_ne st _ hpid).symm⟩

theorem inj_grow (h : e.Coherent st pending) (growth : Nat) (hn : e.tree.nodes[id]? = some n)
    (he : n.isEnd = false) (hc : n.children.isEmpty = true) {p q : Nat}
    (hp : (e.tree.grown id n).Expanded p) (hq : (e.tree.grown id n).Expanded q)
    (same : assign st id (e.grow growth id n).1 p = assign st id (e.grow growth id n).1 q) :
    p = q := by
  rcases (PrefixTree.expanded_grown h.tree hn he).mp hp with hpid | ⟨hpid, hp⟩
  · rcases (PrefixTree.expanded_grown h.tree hn he).mp hq with hqid | ⟨hqid, hq⟩
    · rw [hpid, hqid]
    · rw [hpid, assign_self, assign_of_ne st _ hqid] at same
      exact absurd same.symm (h.state_ne_grow growth hn he hc hq)
  · rcases (PrefixTree.expanded_grown h.tree hn he).mp hq with hqid | ⟨hqid, hq⟩
    · rw [hqid, assign_self, assign_of_ne st _ hpid] at same
      exact absurd same (h.state_ne_grow growth hn he hc hp)
    · rw [assign_of_ne st _ hpid, assign_of_ne st _ hqid] at same
      exact h.inj hp hq same

theorem owned_grow (h : e.Coherent st pending) (growth : Nat) (hn : e.tree.nodes[id]? = some n)
    (he : n.isEnd = false) (hc : n.children.isEmpty = true) {i : Nat}
    (hi : ((e.grow growth id n).2.layout.slot i).check ≠ 0) :
    ∃ p a q b, (e.tree.grown id n).Edge p a q b ∧
      i = assign st id (e.grow growth id n).1 p + b.code := by
  by_cases new : ∃ c ∈ (e.tree.dictionary.branches n.depth n.ids).map Node.code,
      i = (e.grow growth id n).1 + c
  · obtain ⟨c, hcode, rfl⟩ := new
    obtain ⟨b, hb, rfl⟩ := List.mem_map.mp hcode
    obtain ⟨j, hj⟩ := List.mem_iff_getElem?.mp hb
    exact ⟨id, _, _, b, PrefixTree.edge_grown_new hn hj, by rw [assign_self]⟩
  · have placed := (h.placed_grow growth hn he hc).2
    rw [placed.kept i fun c hcode heq => new ⟨c, hcode, heq⟩] at hi
    obtain ⟨p, a, q, m, edge, rfl⟩ := h.owned i hi
    refine ⟨p, a, q, _, edge.grown hn hc, ?_⟩
    rw [assign_of_expanded hn hc _ edge.expanded, PrefixTree.code_of_grown hn edge]

theorem waiting_grow (h : e.Coherent st pending) (growth : Nat)
    (hn : e.tree.nodes[id]? = some n) (he : n.isEnd = false) (hc : n.children.isEmpty = true)
    {p q : Nat} {a b : Node} (edge : (e.tree.grown id n).Edge p a q b)
    (hq : pending q ∨
      q ∈ (PrefixTree.withChildren e.tree.dictionary e.tree.nodes.size n).children.toList) :
    (e.grow growth id n).2.layout.slot (assign st id (e.grow growth id n).1 p + b.code) =
      { check := assign st id (e.grow growth id n).1 p } := by
  rcases PrefixTree.edge_grown h.tree hn he edge with ⟨_, m, prior, rfl⟩ | ⟨rfl, _, i, _, hb⟩
  · have hlt := (Array.getElem?_eq_some_iff.mp prior.child).1
    have hnew : q ∉
        (PrefixTree.withChildren e.tree.dictionary e.tree.nodes.size n).children.toList :=
      fun hmem => Nat.not_le.mpr hlt (Span.mem_toList.mp hmem).1
    rw [assign_of_expanded hn hc _ prior.expanded, PrefixTree.code_of_grown hn prior,
      h.slot_grow growth hn he hc (h.claimed prior)]
    exact h.waiting prior (hq.resolve_right hnew)
  · rw [assign_self]
    exact (h.placed_grow growth hn he hc).2.claimed _
      (List.mem_map_of_mem (List.mem_of_getElem? hb))

theorem settled_grow (h : e.Coherent st pending) (growth : Nat)
    (hn : e.tree.nodes[id]? = some n) (he : n.isEnd = false) (hc : n.children.isEmpty = true)
    {p q : Nat} {a b : Node} (edge : (e.tree.grown id n).Edge p a q b)
    (hq : ¬ (pending q ∨
      q ∈ (PrefixTree.withChildren e.tree.dictionary e.tree.nodes.size n).children.toList)) :
    (e.grow growth id n).2.layout.slot (assign st id (e.grow growth id n).1 p + b.code) =
        b.content (assign st id (e.grow growth id n).1 p) ∧
      b.slot = assign st id (e.grow growth id n).1 p + b.code ∧
      (b.isEnd = true → b.base = Slot.endBase b.left) ∧
      (b.isEnd = false → (e.tree.grown id n).Expanded q ∧
        b.base = assign st id (e.grow growth id n).1 q) := by
  obtain ⟨hq, hnew⟩ := not_or.mp hq
  rcases PrefixTree.edge_grown h.tree hn he edge with ⟨_, m, prior, rfl⟩ | ⟨_, _, i, rfl, hb⟩
  · obtain ⟨content, slot, isEnd, inner⟩ := h.settled prior hq
    have hqid : q ≠ id := by
      rintro rfl
      cases Option.some.inj (prior.child.symm.trans hn)
      exact not_expanded hn hc (inner he).1
    rw [assign_of_expanded hn hc _ prior.expanded, if_neg hqid,
      h.slot_grow growth hn he hc (h.claimed prior)]
    refine ⟨content, slot, isEnd, ?_⟩
    intro hm
    obtain ⟨hexp, hbase⟩ := inner hm
    have later := (PrefixTree.expanded_grown h.tree hn he).mpr (.inr ⟨hqid, hexp⟩)
    exact ⟨later, by rw [assign_of_ne st _ hqid, hbase]⟩
  · have hlt := (List.getElem?_eq_some_iff.mp hb).1
    exact absurd (Span.mem_toList.mpr ⟨Nat.le_add_right _ i, Nat.add_lt_add_left hlt _⟩) hnew

/-- Making and placing the children of a node keeps the tree and the row together; the children are
pending then. -/
theorem grow (h : e.Coherent st pending) (growth : Nat) (hn : e.tree.nodes[id]? = some n)
    (he : n.isEnd = false) (hc : n.children.isEmpty = true) :
    (e.grow growth id n).2.Coherent (assign st id (e.grow growth id n).1)
      (fun q => pending q ∨
        q ∈ (PrefixTree.withChildren e.tree.dictionary e.tree.nodes.size n).children.toList) where
  tree := h.tree.grown hn he hc
  layout := (h.placed_grow growth hn he hc).1
  used_iff := h.used_grow growth hn he hc
  inj := h.inj_grow growth hn he hc
  owned := fun _ => h.owned_grow growth hn he hc
  waiting := h.waiting_grow growth hn he hc
  settled := h.settled_grow growth hn he hc

end Coherent

end Grow

/-! Storing what the slot of a pending node holds. -/

section Settle

variable {e : Encoding} {st : Nat → Nat} {pending : Nat → Prop} {p q : Nat} {n m : Node}

/-- Settling changes one slot and one node, and the node is pending no longer. -/
theorem Coherent.settle_at (h : e.Coherent st pending) (edge : e.tree.Edge p n q m) (base : Int)
    {l : Layout} (sound : l.Sound) (used : l.used = e.layout.used)
    (stored : ∀ i, l.slot i = if i = st p + m.code then
      Node.content { m with base } (st p) else e.layout.slot i)
    (isEnd : m.isEnd = true → base = Slot.endBase m.left)
    (inner : m.isEnd = false → e.tree.Expanded q ∧ base = st q) :
    Coherent { tree := e.tree.settle q (st p + m.code) base, layout := l } st
      (fun x => pending x ∧ x ≠ q) := by
  -- every other edge has another slot
  have other {p' q' : Nat} {n' m' : Node} (edge' : e.tree.Edge p' n' q' m') (hq : q' ≠ q) :
      l.slot (st p' + m'.code) = e.layout.slot (st p' + m'.code) := by
    rw [stored, if_neg]
    exact fun same => hq (h.edge_unique edge' edge same)
  refine ⟨h.tree.settle q _ base, sound, ?used_iff, ?inj, ?owned, ?waiting, ?settled⟩
  case used_iff =>
    intro o
    simp only [used, h.used_iff, PrefixTree.expanded_settle]
  case inj =>
    intro p' q' hp hq
    exact h.inj (PrefixTree.expanded_settle.mp hp) (PrefixTree.expanded_settle.mp hq)
  case owned =>
    intro i hi
    have claimed : (e.layout.slot i).check ≠ 0 := by
      rw [stored] at hi
      split at hi
      · rename_i heq
        rw [heq]
        exact h.claimed edge
      · exact hi
    obtain ⟨p', n', q', m', edge', rfl⟩ := h.owned i claimed
    obtain ⟨a, edge₁⟩ := edge'.settle
    refine ⟨p', a, q', _, edge₁, ?_⟩
    split <;> rfl
  case waiting =>
    rintro p' q' a b edge₁ ⟨hq, hne⟩
    obtain ⟨n', m', edge', _, rfl⟩ := PrefixTree.edge_settle edge₁
    rw [if_neg hne, other edge' hne]
    exact h.waiting edge' hq
  case settled =>
    intro p' q' a b edge₁ hq
    obtain ⟨n', m', edge', _, rfl⟩ := PrefixTree.edge_settle edge₁
    by_cases hqq : q' = q
    · subst hqq
      cases h.tree.disjoint edge edge'
      cases Option.some.inj (edge.child.symm.trans edge'.child)
      rw [if_pos rfl]
      refine ⟨(stored _).trans (if_pos rfl), rfl, isEnd, ?_⟩
      intro hm
      exact ⟨PrefixTree.expanded_settle.mpr (inner hm).1, (inner hm).2⟩
    · have hq : ¬ pending q' := fun hp => hq ⟨hp, hqq⟩
      obtain ⟨content, slot, isEnd', inner'⟩ := h.settled edge' hq
      rw [if_neg hqq, other edge' hqq]
      refine ⟨content, slot, isEnd', ?_⟩
      intro hm
      exact ⟨PrefixTree.expanded_settle.mpr (inner' hm).1, (inner' hm).2⟩

theorem Coherent.settle (h : e.Coherent st pending) (edge : e.tree.Edge p n q m) (hq : pending q)
    (expanded : e.tree.Expanded q) :
    (e.settle q (st p + m.code) (st q)).Coherent st (fun x => pending x ∧ x ≠ q) := by
  have claimed := h.claimed edge
  have inner : m.isEnd = false := by
    obtain ⟨a, ha, hne⟩ := expanded
    cases Option.some.inj (ha.symm.trans edge.child)
    exact (h.tree.above ha hne).1
  refine h.settle_at edge (st q) (h.layout.setBase claimed _) rfl ?_ ?_ fun _ => ⟨expanded, rfl⟩
  · intro i
    rw [Layout.slot_setBase (h.layout.lt_size claimed)]
    split
    · rename_i heq
      rw [heq, h.waiting edge hq]
      simp [Node.content, Node.isEnd, Node.isEnd_eq_false_iff.mp inner]
    · rfl
  · intro he
    exact absurd he (by simp [inner])

theorem Coherent.settleEnd (h : e.Coherent st pending) (edge : e.tree.Edge p n q m) (hq : pending q)
    (isEnd : m.isEnd = true) :
    (e.settleEnd q (st p + m.code) m.left).Coherent st (fun x => pending x ∧ x ≠ q) := by
  have claimed := h.claimed edge
  have room := h.layout.lt_size claimed
  have sound := h.layout.setOutput claimed m.left
  have claimed' : ((e.layout.setOutput (st p + m.code) m.left).slot (st p + m.code)).check ≠ 0 := by
    rw [Layout.slot_setOutput room, if_pos rfl]
    exact claimed
  refine h.settle_at edge (Slot.endBase m.left) (sound.setBase claimed' _) rfl ?_ (fun _ => rfl) ?_
  · intro i
    rw [Layout.slot_setBase (sound.lt_size claimed'), Layout.slot_setOutput room]
    split
    · rename_i heq
      rw [heq, h.waiting edge hq]
      simp [Node.content, Node.isEnd, Node.isEnd_iff.mp isEnd]
    · rfl
  · intro he
    exact absurd isEnd (by simp [he])

/-- The root has no slot; what it stands for is kept in the node alone. -/
theorem Coherent.settleRoot (h : e.Coherent st pending) (base : Int) :
    Coherent { e with tree := e.tree.settle PrefixTree.rootId 0 base } st pending := by
  have notRoot {p' q' : Nat} {n' m' : Node} (edge : e.tree.Edge p' n' q' m') :
      q' ≠ PrefixTree.rootId :=
    Nat.ne_of_gt (Nat.lt_of_le_of_lt (Nat.zero_le _) (h.tree.lt_of_edge edge))
  refine ⟨h.tree.settle _ 0 base, h.layout, ?used_iff, ?inj, ?owned, ?waiting, ?settled⟩
  case used_iff =>
    intro o
    simp only [h.used_iff, PrefixTree.expanded_settle]
  case inj =>
    intro p' q' hp hq
    exact h.inj (PrefixTree.expanded_settle.mp hp) (PrefixTree.expanded_settle.mp hq)
  case owned =>
    intro i hi
    obtain ⟨p', n', q', m', edge, rfl⟩ := h.owned i hi
    obtain ⟨a, edge₁⟩ := edge.settle
    exact ⟨p', a, q', _, edge₁, by rw [if_neg (notRoot edge)]⟩
  case waiting =>
    intro p' q' a b edge₁ hq
    obtain ⟨n', m', edge, _, rfl⟩ := PrefixTree.edge_settle edge₁
    rw [if_neg (notRoot edge)]
    exact h.waiting edge hq
  case settled =>
    intro p' q' a b edge₁ hq
    obtain ⟨n', m', edge, _, rfl⟩ := PrefixTree.edge_settle edge₁
    rw [if_neg (notRoot edge)]
    obtain ⟨content, slot, isEnd, inner⟩ := h.settled edge hq
    refine ⟨content, slot, isEnd, fun hm => ?_⟩
    exact ⟨PrefixTree.expanded_settle.mpr (inner hm).1, (inner hm).2⟩

end Settle

end Encoding

end KeywordTagger
