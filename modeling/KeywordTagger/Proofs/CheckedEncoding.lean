import KeywordTagger.Checked.Encoding
import KeywordTagger.Proofs.Encoded

/-!
No access of the encoder fails. The search makes the row long enough for the slots it looks at and
ends before its bound, the slots of all nodes that are settled are claimed and so lie in the row,
and behind the highest claimed slot there are free slots only.
-/

namespace KeywordTagger

open Dictionary

theorem Checked.store?_eq {α : Type} {xs : Array α} {i : Nat} (h : i < xs.size) (f : α → α) :
    Checked.store? xs i f = some (xs.modify i f) := if_pos h

namespace PrefixTree

variable {t : PrefixTree} {id : Nat} {n : Node}

theorem code?_eq (hn : t.nodes[id]? = some n) : t.code? id = some (t.code id) := by
  simp [code?, code, hn]

theorem codes?_eq {ids : Span} (there : ∀ id ∈ ids.toList, ∃ n, t.nodes[id]? = some n) :
    t.codes? ids = some (t.codes ids) := by
  unfold codes? codes
  generalize ids.toList = ids at there ⊢
  induction ids with
  | nil => rfl
  | cons id ids ih =>
    obtain ⟨⟨n, hn⟩, rest⟩ := List.forall_mem_cons.mp there
    simp [List.mapM_cons, code?_eq hn, ih rest]

theorem settle?_eq (h : id < t.nodes.size) (slot : Nat) (base : Int) :
    t.settle? id slot base = some (t.settle id slot base) := by
  simp [settle?, settle, Checked.store?_eq h]

theorem WellFormed.ids_within (h : t.WellFormed) (hn : t.nodes[id]? = some n) :
    n.left < n.right ∧ n.right ≤ t.dictionary.size := by
  obtain ⟨w, covers | closes⟩ := h.standsFor hn
  · have nonempty := covers.nonempty
    obtain ⟨p, hp, _⟩ := (covers.mem_iff (n.right - 1)).mp (by omega)
    have := (Array.getElem?_eq_some_iff.mp hp).1
    exact ⟨nonempty, by unfold Dictionary.size; omega⟩
  · obtain ⟨p, hp, _⟩ := closes.pattern
    have := (Array.getElem?_eq_some_iff.mp hp).1
    rw [closes.single]
    exact ⟨Nat.lt_succ_self _, this⟩

theorem WellFormed.fetch?_eq (h : t.WellFormed) (hn : t.nodes[id]? = some n) :
    t.fetch? id = some (t.expand id) := by
  simp [fetch?, hn, h.ids_within hn]

end PrefixTree

namespace Layout

section Search

variable {growth offset i : Nat} {codes : List Nat} {slots : Array Slot} {used : Std.HashSet Nat}

theorem isFree_of_getElem? {s : Slot} (h : slots[i]? = some s) : isFree slots i = s.isFree := by
  simp only [isFree, h]

theorem exists_grown (growth i : Nat) (slots : Array Slot) :
    ∃ s, (grow growth (i + 1) slots)[i]? = some s :=
  ⟨_, Array.getElem?_eq_getElem (le_size_grow growth (i + 1) slots)⟩

theorem probe?_eq (growth offset : Nat) (codes : List Nat) (slots : Array Slot) :
    probe? growth offset codes slots = some (probe growth offset codes slots) := by
  induction codes generalizing slots with
  | nil => rfl
  | cons c codes ih =>
    obtain ⟨s, hs⟩ := exists_grown growth (offset + c) slots
    simp only [probe?, probe, hs, isFree_of_getElem? hs, ih, Option.bind_eq_bind, Option.bind_some]
    split
    · rfl
    · rfl

theorem search?_succ (hne : codes ≠ []) (growth : Nat) (used : Std.HashSet Nat) (tries i : Nat)
    (slots : Array Slot) :
    let grown := grow growth (i + 1) slots
    search? growth used codes (tries + 1) i slots =
      if isFree grown i && !used.contains (i - codes.headD 0) then
        match probe growth (i - codes.headD 0) codes grown with
        | (true, slots) => some (i, slots)
        | (false, slots) => search? growth used codes tries (i + 1) slots
      else search? growth used codes tries (i + 1) grown := by
  intro grown
  obtain ⟨first, rest, rfl⟩ := List.exists_cons_of_ne_nil hne
  obtain ⟨s, hs⟩ := exists_grown growth i slots
  simp only [search?, List.head?_cons, List.headD_cons, hs, probe?_eq, isFree_of_getElem? hs, grown,
    Option.bind_eq_bind, Option.bind_some]
  split
  · obtain ⟨fits, longer⟩ := probe growth (i - first) (first :: rest) (grow growth (i + 1) slots)
    cases fits with
    | true => rfl
    | false => rfl
  · rfl

theorem search?_of_later (hne : codes ≠ []) {tries : Nat} (past : codes.headD 0 ≤ i)
    (later : ¬ Fits (slotAt slots) used codes (i - codes.headD 0) →
      ∀ longer, Extends slots longer → search? growth used codes tries (i + 1) longer =
        some (search growth used codes tries (i + 1) longer)) :
    search? growth used codes (tries + 1) i slots =
      some (search growth used codes (tries + 1) i slots) := by
  have fits := fits_iff hne growth used past slots
  have grows := extends_grow growth (i + 1) slots
  have probed := grows.trans (extends_probe growth (i - codes.headD 0) codes _)
  rw [search?_succ hne, search]
  generalize probe growth (i - codes.headD 0) codes (grow growth (i + 1) slots) = r at *
  obtain ⟨success, longer⟩ := r
  split
  · cases success with
    | true => rfl
    | false => exact later (fun h => Bool.false_ne_true (fits.mp h).2) _ probed
  · rename_i candidate
    exact later (fun h => candidate (fits.mp h).1) _ grows

/-- If the siblings fit at the last try, the search ends before its bound. -/
theorem search?_eq (hne : codes ≠ []) {tries : Nat} (past : codes.headD 0 ≤ i)
    (last : Fits (slotAt slots) used codes (i + tries - codes.headD 0)) :
    search? growth used codes (tries + 1) i slots =
      some (search growth used codes (tries + 1) i slots) := by
  induction tries generalizing i slots with
  | zero => exact search?_of_later hne past fun misfit => absurd last misfit
  | succ tries ih =>
    refine search?_of_later hne past fun _ longer grows => ih (Nat.le_succ_of_le past) ?_
    rwa [grows.same, Nat.add_right_comm]

end Search

section Place

variable {l : Layout} {codes : List Nat} {i : Nat}

theorem mark?_eq {offset : Nat} {slots : Array Slot} (room : ∀ c ∈ codes, offset + c < slots.size) :
    mark? offset codes slots = some (mark offset codes slots) := by
  induction codes generalizing slots with
  | nil => rfl
  | cons c codes ih =>
    obtain ⟨hc, room⟩ := List.forall_mem_cons.mp room
    simp only [mark?, Checked.store?_eq hc, Option.bind_eq_bind, Option.bind_some]
    exact ih (by simpa using room)

theorem Sound.place?_eq (h : l.Sound) (growth : Nat) (hne : codes ≠ []) :
    l.place? growth codes = some (l.place growth codes) := by
  obtain ⟨_, _, room⟩ := h.found_spec growth hne
  rw [place_fst] at room
  have head : codes.head? = some (codes.headD 0) := by
    obtain ⟨first, rest, rfl⟩ := List.exists_cons_of_ne_nil hne
    rfl
  have past := Nat.le_of_lt (searchStart_gt l.last (codes.headD 0))
  have searched : search? growth l.used codes (searchLength l.extent l.last (codes.headD 0))
      (searchStart l.last (codes.headD 0)) l.slots = some (l.found growth codes) :=
    search?_eq hne past (h.fits_last codes)
  simp only [place?, head, searched, mark?_eq room, Option.bind_eq_bind, Option.bind_some]
  rfl

theorem setBase?_eq (hi : i < l.slots.size) (base : Int) :
    l.setBase? i base = some (l.setBase i base) := by
  simp [setBase?, setBase, Checked.store?_eq hi]

theorem setOutput?_eq (hi : i < l.slots.size) (id : Nat) :
    l.setOutput? i id = some (l.setOutput i id) := by
  simp [setOutput?, setOutput, Checked.store?_eq hi]

theorem Sound.finish?_eq (h : l.Sound) : l.finish? = some l.finish := by
  refine if_pos ⟨h.extent_le, ?_⟩
  rw [Array.all_eq_true]
  intro i hi
  have free : (l.slot (l.extent + i)).check = 0 := by
    by_contra claimed
    exact absurd (h.claimed_lt _ claimed) (Nat.not_lt.mpr (Nat.le_add_right _ i))
  have inside : l.extent + i < l.slots.size := by
    simp only [Array.drop_eq_extract, Array.size_extract] at hi
    omega
  have free : isFree l.slots (l.extent + i) = true := isFree_iff.mpr free
  rw [isFree_of_getElem? (Array.getElem?_eq_getElem inside)] at free
  simpa [Array.drop_eq_extract] using free

end Place

end Layout

namespace Encoding

variable {e : Encoding} {st : Nat → Nat} {g : Group} {rest groups : List Group} {growth : Nat}

theorem settle?_eq {id slot : Nat} (node : id < e.tree.nodes.size)
    (room : slot < e.layout.slots.size) (base : Int) :
    e.settle? id slot base = some (e.settle id slot base) := by
  simp only [settle?, PrefixTree.settle?_eq node, Layout.setBase?_eq room, Option.bind_eq_bind,
    Option.bind_some]
  rfl

theorem settleEnd?_eq {id slot : Nat} {n : Node} (hn : e.tree.nodes[id]? = some n)
    (room : slot < e.layout.slots.size) :
    e.settleEnd? id slot = some (e.settleEnd id slot n.left) := by
  have node := (Array.getElem?_eq_some_iff.mp hn).1
  have room' : slot < (e.layout.setOutput slot n.left).slots.size := by
    simpa [Layout.setOutput] using room
  simp only [settleEnd?, hn, Layout.setOutput?_eq room, Option.bind_eq_bind, Option.bind_some]
  exact settle?_eq (e := { e with layout := e.layout.setOutput slot n.left }) node room' _

theorem place?_grown {pending : Nat → Prop} (h : e.Coherent st pending) (growth : Nat) {id : Nat}
    {n : Node} (hn : e.tree.nodes[id]? = some n) (inner : n.isEnd = false) :
    place? growth (PrefixTree.withChildren e.tree.dictionary e.tree.nodes.size n).children
      { e with tree := e.tree.grown id n } = some (e.grow growth id n) := by
  have made := PrefixTree.codes?_eq (t := e.tree.grown id n) fun q hq => by
    obtain ⟨a, b, edge, _⟩ := PrefixTree.edge_of_new h.tree hn inner hq
    exact ⟨b, edge.child⟩
  have some := PrefixTree.withChildren_not_isEmpty h.tree hn inner
  have placed := h.layout.place?_eq growth
    (PrefixTree.codes_ne_nil (t := e.tree.grown id n) some)
  simp only [place?, made, placed, Option.bind_eq_bind, Option.bind_some]
  rfl

section Step

variable (h : e.Running (g :: rest) st) (growth : Nat)

include h

theorem Running.step?_leave (hw : g.waiting.isEmpty = true) {id slot : Nat}
    (hp : g.parent = some (id, slot)) : e.step? growth g rest = some (e.step growth g rest) := by
  obtain ⟨p, n, m, edge, rfl⟩ := (h.tracks g List.mem_cons_self).parent id slot hp
  have node := (Array.getElem?_eq_some_iff.mp edge.child).1
  have room := h.coherent.layout.lt_size (h.coherent.claimed edge)
  rw [step_leave hw hp, step?, if_pos hw, hp]
  simp only [settle?_eq node room, Option.bind_eq_bind, Option.bind_some]
  rfl

theorem Running.step?_end (hw : g.waiting.isEmpty = false) {n m : Node}
    (edge : e.tree.Edge g.owner n g.waiting.start m) (isEnd : m.isEnd = true) :
    e.step? growth g rest = some (e.step growth g rest) := by
  have room := h.coherent.layout.lt_size (h.coherent.claimed edge)
  rw [← (h.tracks g List.mem_cons_self).offset] at room
  have fetched := h.coherent.tree.fetch?_eq edge.child
  rw [PrefixTree.expand_of_isEnd edge.child isEnd] at fetched
  have ended := settleEnd?_eq edge.child room
  rw [step_end hw edge.child isEnd, step?, if_neg (Bool.eq_false_iff.mp hw)]
  simp only [fetched, PrefixTree.code?, edge.child, Option.map_some, ended, Option.bind_eq_bind,
    Option.bind_some]
  rfl

theorem Running.step?_inner (hw : g.waiting.isEmpty = false) {n m : Node}
    (edge : e.tree.Edge g.owner n g.waiting.start m) (inner : m.isEnd = false)
    (hc : m.children.isEmpty = true) : e.step? growth g rest = some (e.step growth g rest) := by
  have wf := h.coherent.tree
  have fetched := wf.fetch?_eq edge.child
  rw [PrefixTree.expand_of_isEmpty edge.child inner hc] at fetched
  have read := (PrefixTree.read_grown edge.child).mpr (.inl ⟨rfl, rfl⟩)
  have some := PrefixTree.withChildren_not_isEmpty wf edge.child inner
  have placed := place?_grown h.coherent growth edge.child inner
  rw [step_inner wf hw edge.child inner hc, step?, if_neg (Bool.eq_false_iff.mp hw)]
  simp only [fetched, PrefixTree.code?, read, Option.map_some, some, placed, Option.bind_eq_bind,
    Option.bind_some]
  rfl

theorem Running.step?_eq : e.step? growth g rest = some (e.step growth g rest) := by
  cases hw : g.waiting.isEmpty with
  | true =>
    cases hp : g.parent with
    | none => rw [step_done hw hp, step?, if_pos hw, hp]
    | some parent => exact h.step?_leave growth hw hp
  | false =>
    obtain ⟨_, n, m, edge, hc⟩ := h.next hw
    cases he : m.isEnd with
    | true => exact h.step?_end growth hw edge he
    | false => exact h.step?_inner growth hw edge he hc

end Step

theorem Running.run?_eq (h : e.Running groups st) (growth : Nat) {steps : Nat}
    (enough : e.potential groups ≤ steps) :
    run? growth steps e groups = some (run growth steps e groups) := by
  induction steps generalizing e st groups with
  | zero =>
    cases groups with
    | nil => rfl
    | cons g rest =>
      rw [potential_cons] at enough
      omega
  | succ steps ih =>
    cases groups with
    | nil => rfl
    | cons g rest =>
      obtain ⟨less, _, st', next⟩ := h.step growth rfl
      simp only [run?, h.step?_eq growth, Option.bind_eq_bind, Option.bind_some]
      exact ih next (Nat.le_of_lt_succ (Nat.lt_of_lt_of_le less enough))

theorem ofDictionary?_eq (growth : Nat) (d : Dictionary) :
    ofDictionary? growth d = some (ofDictionary growth d) := by
  have running := running_start growth d
  have enough := potential_start growth d
  have fetched := (PrefixTree.wellFormed_ofDictionary d).fetch?_eq (read_root d)
  rw [PrefixTree.expand_of_isEmpty (read_root d) rfl rfl] at fetched
  have placed := place?_grown (coherent_start d (fun _ => 0) (fun _ => False)) growth (read_root d)
    rfl
  have ran := running.run?_eq growth enough
  have runs : RunsTo growth _ _ _ := running.runsTo enough
  obtain ⟨_, _, done⟩ := runs.running running
  obtain ⟨_, root, _⟩ := done.start.1
  have settled := PrefixTree.settle?_eq (Array.getElem?_eq_some_iff.mp root).1 0
    (rootGroup growth d).offset
  rw [ofDictionary?, fetched, ofDictionary_eq]
  refine (congrArg (Option.bind · _) placed).trans ?_
  refine (congrArg (Option.bind · _) ran).trans ?_
  exact congrArg (Option.bind · _) settled

theorem Complete.table?_eq {d : Dictionary} (h : e.Complete d st) : e.table? = some e.table :=
  h.coherent.layout.finish?_eq

end Encoding

end KeywordTagger
