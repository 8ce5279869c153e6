import KeywordTagger.Automaton
import KeywordTagger.Proofs.Encoded
import KeywordTagger.Proofs.PatternLists
import Mathlib

/-!
Growth of the row. Two runs of the encoder whose rows grow by different numbers of slots at a time
go through rows of different lengths, but what the rows hold is the same at every slot, free slots
past their ends included, so every search ends at the same place. The finished rows end at the last
claimed slot and are equal.
-/

namespace KeywordTagger

open Dictionary

theorem getElem_eq_slotAt {slots : Array Slot} {i : Nat} (hi : i < slots.size) :
    slots[i] = slotAt slots i := by
  rw [slotAt, Array.getElem?_eq_getElem hi]
  rfl

namespace Layout

/-- Rows that differ at most in how many free slots they end with. -/
structure Alike (l l' : Layout) : Prop where
  sound : l.Sound
  sound' : l'.Sound
  slot : l.slot = l'.slot
  used : l.used = l'.used
  last : l.last = l'.last
  extent : l.extent = l'.extent

variable {l l' : Layout} {codes : List Nat} {i : Nat}

theorem alike_empty : Alike {} {} := ⟨sound_empty, sound_empty, rfl, rfl, rfl, rfl⟩

theorem Alike.place (h : Alike l l') (growth growth' : Nat) (hne : codes ≠ []) :
    (l.place growth codes).1 = (l'.place growth' codes).1 ∧
      Alike (l.place growth codes).2 (l'.place growth' codes).2 := by
  obtain ⟨least, _⟩ := h.sound.found_spec growth hne
  obtain ⟨least', _⟩ := h.sound'.found_spec growth' hne
  rw [h.slot, h.used, h.last] at least
  have position : (l.found growth codes).1 = (l'.found growth' codes).1 := least.unique least'
  have offset : (l.place growth codes).1 = (l'.place growth' codes).1 := by
    rw [place_fst, place_fst, position]
  have placed := h.sound.placed growth hne
  have placed' := h.sound'.placed growth' hne
  rw [← offset] at placed'
  refine ⟨offset, h.sound.place growth hne, h.sound'.place growth' hne, ?slot, ?used, ?last,
    ?extent⟩
  case slot =>
    funext i
    rcases placed.slot_cases i with ⟨c, hc, rfl, claimed⟩ | ⟨old, kept⟩
    · rw [claimed, placed'.claimed c hc]
    · rw [kept, placed'.kept i old, h.slot]
  case used =>
    show l.used.insert (l.place growth codes).1 = l'.used.insert (l'.place growth' codes).1
    rw [h.used, offset]
  case last => rw [last_place, last_place, position]
  case extent => rw [extent_place, extent_place, offset, h.extent]

theorem Alike.store (h : Alike l l') (hi : (l.slot i).check ≠ 0) {f : Slot → Slot}
    (keeps : ∀ s, (f s).check = s.check) :
    Alike { l with slots := l.slots.modify i f } { l' with slots := l'.slots.modify i f } := by
  have hi' : (l'.slot i).check ≠ 0 := h.slot ▸ hi
  refine ⟨h.sound.store hi keeps, h.sound'.store hi' keeps, ?_, h.used, h.last, h.extent⟩
  funext j
  have read := slotAt_modify (h.sound.lt_size hi) f j
  have read' := slotAt_modify (h.sound'.lt_size hi') f j
  have same : slotAt l.slots = slotAt l'.slots := h.slot
  rw [same] at read
  exact read.trans read'.symm

theorem Alike.setBase (h : Alike l l') (hi : (l.slot i).check ≠ 0) (base : Int) :
    Alike (l.setBase i base) (l'.setBase i base) := h.store hi fun _ => rfl

theorem Alike.setOutput (h : Alike l l') (hi : (l.slot i).check ≠ 0) (id : Nat) :
    Alike (l.setOutput i id) (l'.setOutput i id) := h.store hi fun _ => rfl

theorem Alike.finish (h : Alike l l') : l.finish = l'.finish := by
  refine congrArg DoubleArray.mk (Array.ext ?_ fun i hi hi' => ?_)
  · exact h.sound.size_finish.trans (h.extent.trans h.sound'.size_finish.symm)
  · rw [getElem_eq_slotAt, getElem_eq_slotAt]
    exact (h.sound.slot_finish i).trans (h.slot ▸ (h.sound'.slot_finish i).symm)

end Layout

namespace Encoding

structure Alike (e e' : Encoding) : Prop where
  tree : e.tree = e'.tree
  layout : e.layout.Alike e'.layout

variable {e e' : Encoding} {st : Nat → Nat} {g : Group} {rest groups : List Group} {id : Nat}
  {n : Node}

theorem Alike.settle (h : e.Alike e') {slot : Nat} (claimed : (e.layout.slot slot).check ≠ 0)
    (base : Int) : (e.settle id slot base).Alike (e'.settle id slot base) where
  tree := congrArg (PrefixTree.settle · id slot base) h.tree
  layout := h.layout.setBase claimed base

theorem Alike.settleEnd (h : e.Alike e') {slot : Nat} (claimed : (e.layout.slot slot).check ≠ 0)
    (left : Nat) : (e.settleEnd id slot left).Alike (e'.settleEnd id slot left) where
  tree := congrArg (PrefixTree.settle · id slot (Slot.endBase left)) h.tree
  layout := by
    refine (h.layout.setOutput claimed left).setBase ?_ _
    rw [Layout.slot_setOutput (h.layout.sound.lt_size claimed), if_pos rfl]
    exact claimed

theorem Alike.grow (h : e.Alike e') (growth growth' : Nat) (wf : e.tree.WellFormed)
    (hn : e.tree.nodes[id]? = some n) (inner : n.isEnd = false) :
    (e.grow growth id n).1 = (e'.grow growth' id n).1 ∧
      (e.grow growth id n).2.Alike (e'.grow growth' id n).2 := by
  have codes : (e.tree.grown id n).codes
      (PrefixTree.withChildren e.tree.dictionary e.tree.nodes.size n).children ≠ [] :=
    PrefixTree.codes_ne_nil (PrefixTree.withChildren_not_isEmpty wf hn inner)
  obtain ⟨offset, layout⟩ := h.layout.place growth growth' codes
  obtain ⟨tree', layout'⟩ := e'
  cases h.tree
  exact ⟨offset, rfl, layout⟩

/-- One step goes on alike, whether it leaves a group, settles an end or places children. -/
theorem Alike.step (h : e.Alike e') (running : e.Running (g :: rest) st) (growth growth' : Nat) :
    (e.step growth g rest).2 = (e'.step growth' g rest).2 ∧
      (e.step growth g rest).1.Alike (e'.step growth' g rest).1 := by
  have coherent := running.coherent
  have tracks := running.tracks g List.mem_cons_self
  cases hw : g.waiting.isEmpty with
  | true =>
    cases hp : g.parent with
    | none =>
      rw [step_done hw hp, step_done hw hp]
      exact ⟨rfl, h⟩
    | some parent =>
      obtain ⟨id, slot⟩ := parent
      obtain ⟨p, n, m, edge, rfl⟩ := tracks.parent id slot hp
      rw [step_leave hw hp, step_leave hw hp]
      exact ⟨rfl, h.settle (coherent.claimed edge) _⟩
  | false =>
    obtain ⟨_, n, m, edge, hc⟩ := running.next hw
    have claimed := coherent.claimed edge
    have child' : e'.tree.nodes[g.waiting.start]? = some m := h.tree ▸ edge.child
    rw [← tracks.offset] at claimed
    cases he : m.isEnd with
    | true =>
      rw [step_end hw edge.child he, step_end hw child' he]
      exact ⟨rfl, h.settleEnd claimed _⟩
    | false =>
      obtain ⟨offset, grown⟩ := h.grow growth growth' coherent.tree edge.child he
      rw [step_inner coherent.tree hw edge.child he hc,
        step_inner (h.tree ▸ coherent.tree) hw child' he hc, childGroup, childGroup, h.tree, offset]
      exact ⟨rfl, grown⟩

theorem Alike.run (h : e.Alike e') (running : e.Running groups st) (growth growth' steps : Nat) :
    (run growth steps e groups).Alike (run growth' steps e' groups) := by
  induction steps generalizing e e' st groups with
  | zero => exact h
  | succ steps ih =>
    cases groups with
    | nil => exact h
    | cons g rest =>
      have taken : e.step growth g rest =
        ((e.step growth g rest).1, (e.step growth g rest).2) := rfl
      obtain ⟨_, _, st', running'⟩ := running.step growth taken
      obtain ⟨groups, alike⟩ := h.step running growth growth'
      show (Encoding.run growth steps (e.step growth g rest).1 (e.step growth g rest).2).Alike
        (Encoding.run growth' steps (e'.step growth' g rest).1 (e'.step growth' g rest).2)
      rw [← groups]
      exact ih alike running'

theorem ofDictionary_congr (growth growth' : Nat) (d : Dictionary) :
    (ofDictionary growth d).tree = (ofDictionary growth' d).tree ∧
      (ofDictionary growth d).table = (ofDictionary growth' d).table := by
  have start : Alike { tree := .ofDictionary d } { tree := .ofDictionary d } :=
    ⟨rfl, Layout.alike_empty⟩
  obtain ⟨offset, grown⟩ := start.grow growth growth' (PrefixTree.wellFormed_ofDictionary d)
    (read_root d) rfl
  have group : rootGroup growth d = rootGroup growth' d := by
    rw [rootGroup, rootGroup, offset]
  have alike := grown.run (running_start growth d) growth growth' (steps d)
  rw [ofDictionary_eq, ofDictionary_eq, ← group]
  exact ⟨congrArg (PrefixTree.settle · PrefixTree.rootId 0 _) alike.tree, alike.layout.finish⟩

end Encoding

namespace Automaton

theorem ofDictionary_congr (growth growth' : Nat) (rule : LinkRule) (d : Dictionary) :
    ofDictionary { growth, rule } d = ofDictionary { growth := growth', rule } d := by
  obtain ⟨tree, table⟩ := Encoding.ofDictionary_congr growth growth' d
  simp only [ofDictionary, FailureLinks.ofEncoding, tree, table]

theorem compile_of_same {ps qs : List String} {growth growth' : Nat} {rule : LinkRule}
    {a : Automaton} (same : ∀ p, p ∈ ps ↔ p ∈ qs) (h : compile { growth, rule } ps = .ok a) :
    compile { growth := growth', rule } qs = .ok a := by
  obtain ⟨d, hd, rfl⟩ := compile_eq_ok_iff.mp h
  exact compile_eq_ok_iff.mpr ⟨d, Dictionary.ofList_congr same hd, ofDictionary_congr _ _ _ _⟩

/-- The tables depend on the set of texts and on the link rule alone, and not on the growth of the
row; a set makes tables if it has a text and all are fit. The patterns are the texts in ascending
order. -/
theorem compile_depends_on_set {ps qs : List String} (same : ∀ p, p ∈ ps ↔ p ∈ qs)
    (growth growth' : Nat) (rule : LinkRule) :
    (∀ a, compile { growth, rule } ps = .ok a ↔ compile { growth := growth', rule } qs = .ok a) ∧
      ((∃ a, compile { growth, rule } ps = .ok a) ↔
        ps ≠ [] ∧ ∀ p ∈ ps, p ≠ "" ∧ '\x00' ∉ p.toList) ∧
      ∀ a, compile { growth, rule } ps = .ok a →
        (∀ p, p ∈ a.dictionary.patterns ↔ ∃ q ∈ ps, q.toList = p.toList) ∧
        (a.dictionary.patterns.toList.Pairwise fun p q => p.toList < q.toList) ∧
        ∀ (i j : Nat) (p q : Pattern), a.dictionary.patterns[i]? = some p →
          a.dictionary.patterns[j]? = some q → p.toList <+: q.toList → i ≤ j := by
  refine ⟨fun a => ⟨compile_of_same same, compile_of_same fun p => (same p).symm⟩, ?_, ?_⟩
  · rw [← Dictionary.exists_ofList_iff]
    simp only [compile_eq_ok_iff]
    exact ⟨fun ⟨_, d, hd, _⟩ => ⟨d, hd⟩, fun ⟨d, hd⟩ => ⟨_, d, hd, rfl⟩⟩
  · intro a h
    obtain ⟨d, hd, rfl⟩ := compile_eq_ok_iff.mp h
    exact ⟨fun _ => Dictionary.mem_patterns_iff hd, d.sorted,
      fun _ _ _ _ => Dictionary.le_of_prefix⟩

theorem compile_depends_on_set_repeated_pattern :
    (∀ p, p ∈ ["she", "he", "she"] ↔ p ∈ ["he", "she"]) ∧
      ∃ a, compile { growth := 0, rule := .chained } ["she", "he", "she"] = .ok a ∧
        compile { growth := 65536, rule := .chained } ["he", "she"] = .ok a ∧
        a.dictionary.patterns = #[#['h', 'e'], #['s', 'h', 'e']] := by
  have same : ∀ p, p ∈ ["she", "he", "she"] ↔ p ∈ ["he", "she"] := by
    intro p
    simp only [List.mem_cons, List.not_mem_nil, or_false]
    tauto
  have computed : (Dictionary.ofList ["she", "he", "she"]).map Dictionary.patterns =
      .ok #[#['h', 'e'], #['s', 'h', 'e']] := by cbv
  obtain ⟨d, hd, patterns⟩ := Dictionary.exists_of_map_ofList computed
  have compiled : compile { growth := 0, rule := .chained } ["she", "he", "she"] =
      .ok (ofDictionary { growth := 0, rule := .chained } d) :=
    compile_eq_ok_iff.mpr ⟨d, hd, rfl⟩
  have again := ((compile_depends_on_set same 0 65536 .chained).1 _).mp compiled
  exact ⟨same, _, compiled, again, patterns⟩

end Automaton

end KeywordTagger
