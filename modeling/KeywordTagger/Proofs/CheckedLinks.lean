import KeywordTagger.Checked.FailureLinks
import KeywordTagger.Proofs.CheckedEncoding
import KeywordTagger.Proofs.ClaimedSlots
import KeywordTagger.Proofs.Links

/-!
No access fails while links are found. Nodes hold the states of their words, which are positive and
lie in the table, and so do the states that links lead to; the words of a chain get shorter, so none
is cut short.
-/

namespace KeywordTagger

open Dictionary DoubleArray

theorem Checked.foldlM_eq {α β : Type} {f : β → α → Option β} {g : β → α → β} {xs : List α} {b : β}
    (step : ∀ before x after, xs = before ++ x :: after →
      f (before.foldl g b) x = some (g (before.foldl g b) x)) :
    xs.foldlM f b = some (xs.foldl g b) := by
  induction xs generalizing b with
  | nil => rfl
  | cons x xs ih =>
    have first : f b x = some (g b x) := step [] x xs rfl
    rw [List.foldlM_cons, first]
    exact ih fun before y after split => step (x :: before) y after (congrArg (x :: ·) split)

theorem Node.state?_eq {n : Node} (pos : 0 < n.state) : n.state? = some n.state := by
  have base : 0 < n.base := by
    unfold state at pos
    omega
  exact if_pos base

theorem PrefixTree.WellFormed.inner?_eq {t : PrefixTree} (h : t.WellFormed) {p : Nat} {n : Node}
    (hn : t.nodes[p]? = some n) : t.inner? n.children = some (t.inner n.children) := by
  have read (ids : List Nat) (there : ∀ q ∈ ids, ∃ m, t.nodes[q]? = some m) :
      (ids.mapM fun q => t.nodes[q]?) = some (ids.filterMap fun q => t.nodes[q]?) := by
    induction ids with
    | nil => rfl
    | cons q ids ih =>
      obtain ⟨⟨m, hm⟩, there⟩ := List.forall_mem_cons.mp there
      simp [List.mapM_cons, hm, ih there]
  rw [inner?, read]
  · rfl
  · intro q hq
    obtain ⟨hl, hr⟩ := Span.mem_toList.mp hq
    obtain ⟨m, hm, _⟩ := h.exists_child hn hl hr
    exact ⟨m, hm⟩

namespace FailureLinks

variable {e : Encoding} {d : Dictionary} {st : List Char → Nat} {links : FailureLinks}
  {rule : LinkRule} {done : List Char → Prop} {p : Nat} {n : Node} {v : List Char}

theorem LinksTo.follow?_eq {a : DoubleArray} (h : links.LinksTo rule a d st done)
    (rep : a.Represents d st) (c : Char) (tries : Nat) {u : List Char} (stem : d.isStem u = true)
    (ready : ∀ w, d.isStem w = true → w.length ≤ u.length → done w) (enough : u.length < tries) :
    follow? rule a links c.toNat tries (target st u) =
      some (follow rule a links c.toNat tries (target st u)) := by
  induction tries generalizing u with
  | zero => exact absurd enough (Nat.not_lt_zero _)
  | succ tries ih =>
    rw [follow?, follow]
    cases a.next? (if target st u = rootState then startState else target st u) c.toNat with
    | some _ => rfl
    | none =>
      by_cases stuck : rule = .parentOnly ∨ target st u = rootState
      · simp only [if_pos stuck]
      · obtain ⟨_, linked, shorter⟩ := h.moves rep stem (ready u stem (Nat.le_refl _)) fun root =>
          stuck (.inr root)
        simp only [if_neg stuck, link, linked, Option.getD_some]
        exact ih (isStem_fallback d rule u) (fun w hw hle => ready w hw (by omega)) (by omega)

theorem set?_eq (fin : e.Finished d st) (size : links.size = e.table.size)
    (hn : e.tree.nodes[p]? = some n) (hw : n.Covers d v) (target : Nat) :
    links.set? n target = some (links.setIfInBounds n.state target) := by
  have state := fin.state_eq hn hw
  have pos : 0 < n.state := state ▸ fin.represents.pos hw.isStem
  have room : n.state < links.size := by
    rw [size, state]
    exact fin.represents.state_lt_size hw.isStem
  have same : links.modify n.state (fun _ => target) = links.setIfInBounds n.state target := by
    apply Array.ext_getElem?
    intro i
    rw [Array.getElem?_modify, Array.getElem?_setIfInBounds]
    split
    · rename_i heq
      subst heq
      simp [room]
    · rfl
  rw [set?, Node.state?_eq pos]
  simp only [Option.bind_eq_bind, Option.bind_some, Checked.store?_eq room, same]

theorem exists_slot {st : Nat → Nat} (complete : e.Complete d st) {q : Nat} {m : Node}
    (edge : e.tree.Edge p n q m) : ∃ s, e.table.slots[m.slot]? = some s := by
  have claimed := complete.coherent.claimed edge
  rw [← (complete.coherent.settled edge id).2.1, ← complete.slot_table] at claimed
  have room : m.slot < e.table.slots.size := by
    by_contra outside
    rw [DoubleArray.slot, slotAt, Array.getElem?_eq_none (Nat.le_of_not_lt outside)] at claimed
    exact claimed rfl
  exact ⟨_, Array.getElem?_eq_getElem room⟩

section Children

variable (h : links.LinksTo rule e.table d st done) (fin : e.Finished d st)
  (hn : e.tree.nodes[p]? = some n) (hw : n.Covers d v) (hv : v ≠ [])
  (ready : ∀ u, d.isStem u = true → u.length ≤ v.length → done u)

include h fin hn hw hv ready

theorem LinksTo.linkChild?_eq {f : Nat → Nat} (complete : e.Complete d f) {m : Node}
    (hm : m ∈ e.tree.inner n.children) :
    linkChild? rule e.table n links m = some (FailureLinks.linkChild rule e.table n links m) := by
  have rep := fin.represents
  obtain ⟨q, edge, _⟩ := (PrefixTree.mem_inner_iff hn).mp hm
  obtain ⟨c, hc, hvc, _⟩ := child_facts fin hn hw hm
  obtain ⟨slot, hslot⟩ := exists_slot complete edge
  have state := fin.state_eq hn hw
  have pos : 0 < n.state := state ▸ rep.pos hw.isStem
  have linked := h.linked hw.isStem hv (ready v hw.isStem (Nat.le_refl _))
  rw [← state] at linked
  have shorter := d.length_fallback_lt rule hv
  have followed := h.follow?_eq rep c n.depth (isStem_fallback d rule v)
    (fun w hw hle => ready w hw (by omega)) (by rw [hw.depth]; exact shorter)
  simp only [linkChild?, hslot, Node.state?_eq pos, linked, hc, followed,
    set?_eq fin h.size edge.child hvc, Option.bind_eq_bind, Option.bind_some]
  rw [FailureLinks.linkChild, link, linked, hc, Option.getD_some]

theorem LinksTo.linkChildren?_eq {f : Nat → Nat} (complete : e.Complete d f) :
    linkChildren? rule e.tree e.table links n =
      some (FailureLinks.linkChildren rule e.tree e.table links n) := by
  rw [linkChildren?, fin.tree.inner?_eq hn]
  refine Checked.foldlM_eq fun before m after split => ?_
  have children : ∀ k ∈ before ++ m :: after, k ∈ e.tree.inner n.children := fun k hk => split ▸ hk
  have linked := h.linkSome fin hn hw hv ready fun k hk => children k (List.mem_append_left _ hk)
  exact linked.linkChild?_eq fin hn hw hv (fun u stem hle => .inl (ready u stem hle)) complete
    (children m (by simp))

end Children

theorem foldlM_set?_root (fin : e.Finished d st) {ms : List Node}
    (nodes : ∀ m ∈ ms, ∃ (q : Nat) (w : List Char), e.tree.nodes[q]? = some m ∧ m.Covers d w) :
    ms.foldlM (fun links child => set? links child rootState)
      (Array.replicate e.table.size rootState) = some (Array.replicate e.table.size rootState) := by
  induction ms with
  | nil => rfl
  | cons m ms ih =>
    obtain ⟨⟨q, w, hm, hw⟩, nodes⟩ := List.forall_mem_cons.mp nodes
    have written := set?_eq fin (Array.size_replicate (v := rootState)) hm hw rootState
    rw [Array.setIfInBounds_replicate_self] at written
    rw [List.foldlM_cons, written]
    exact ih nodes

theorem ofEncoding?_eq (rule : LinkRule) (fin : e.Finished d st) {f : Nat → Nat}
    (complete : e.Complete d f) : ofEncoding? rule e = some (ofEncoding rule e) := by
  obtain ⟨r, hr, _⟩ := fin.tree.root
  have first := (level_root fin hr).next fin
  rw [List.flatMap_singleton] at first
  have unlinked := foldlM_set?_root fin fun m hm => by
    obtain ⟨q, w, hq, hw, _⟩ := first.node m hm
    exact ⟨q, w, hq, hw⟩
  rw [ofEncoding?, complete.table?_eq]
  simp only [hr, fin.tree.inner?_eq hr, Option.bind_eq_bind, Option.bind_some]
  rw [unlinked, ofEncoding, ← Array.foldl_toList]
  refine Checked.foldlM_eq fun visited n later order => ?_
  obtain ⟨p, v, hn, hv, pos⟩ := (ordered_linkOrder fin).node n (by simp [order])
  exact (linksTo_visited rule fin order).linkChildren?_eq fin hn hv (List.length_pos_iff.mp pos)
    (linked_of_le fin order hv) complete

end FailureLinks

end KeywordTagger
