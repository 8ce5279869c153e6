import KeywordTagger.Encoding.Placing
import KeywordTagger.Proofs.CheckedEncoding
import KeywordTagger.Proofs.RecursiveEncoding
import Mathlib.Order.Bounds.Defs

/-!
The calls that place siblings in a run of the encoder. Between the calls the row stays sound, so the
slot search of each ends, at the least slot past the former one where the siblings fit; the slots of
these calls ascend, and each call claims the slots of its siblings and changes nothing else.
-/

namespace KeywordTagger

namespace Layout

section Search

variable {growth i : Nat} {codes : List Nat} {slots row row' : Array Slot}
  {used : Std.HashSet Nat} {position position' : Nat}

theorem searches_iff : Searches growth used codes i slots position row ↔
    if isFree (grow growth (i + 1) slots) i && !used.contains (i - codes.headD 0) then
      match probe growth (i - codes.headD 0) codes (grow growth (i + 1) slots) with
      | (true, found) => position = i ∧ row = found
      | (false, longer) => Searches growth used codes (i + 1) longer position row
    else Searches growth used codes (i + 1) (grow growth (i + 1) slots) position row := by
  constructor
  · intro h
    cases h with
    | fits free unused probed => simp only [free, unused, probed, Bool.not_false, Bool.and_self,
        if_true, and_self]
    | claimed claimed later =>
      simpa only [claimed, Bool.false_and, Bool.false_eq_true, if_false] using later
    | used _ used later =>
      simpa only [used, Bool.not_true, Bool.and_false, Bool.false_eq_true, if_false] using later
    | meets free unused probed later =>
      simpa only [free, unused, probed, Bool.not_false, Bool.and_self, if_true] using later
  · intro h
    cases free : isFree (grow growth (i + 1) slots) i with
    | false =>
      simp only [free, Bool.false_and, Bool.false_eq_true, if_false] at h
      exact .claimed free h
    | true =>
      cases new : used.contains (i - codes.headD 0) with
      | true =>
        simp only [new, Bool.not_true, Bool.and_false, Bool.false_eq_true, if_false] at h
        exact .used free new h
      | false =>
        simp only [free, new, Bool.not_false, Bool.and_self, if_true] at h
        split at h
        · rename_i found probed
          obtain ⟨rfl, rfl⟩ := h
          exact .fits free new probed
        · rename_i longer probed
          exact .meets free new probed h

theorem Searches.unique (h : Searches growth used codes i slots position row)
    (h' : Searches growth used codes i slots position' row') :
    position' = position ∧ row' = row := by
  induction h with
  | fits free unused probed =>
    rw [searches_iff] at h'
    simpa only [free, unused, probed, Bool.not_false, Bool.and_self, if_true] using h'
  | claimed claimed _ ih =>
    rw [searches_iff] at h'
    simp only [claimed, Bool.false_and, Bool.false_eq_true, if_false] at h'
    exact ih h'
  | used _ used _ ih =>
    rw [searches_iff] at h'
    simp only [used, Bool.not_true, Bool.and_false, Bool.false_eq_true, if_false] at h'
    exact ih h'
  | meets free unused probed _ ih =>
    rw [searches_iff] at h'
    simp only [free, unused, probed, Bool.not_false, Bool.and_self, if_true] at h'
    exact ih h'

/-- What is found before the bound of the search is found without it. -/
theorem searches_of_search? (hne : codes ≠ []) {tries : Nat} {found : Nat × Array Slot}
    (h : search? growth used codes tries i slots = some found) :
    Searches growth used codes i slots found.1 found.2 := by
  induction tries generalizing i slots with
  | zero => cases h
  | succ tries ih =>
    rw [search?_succ hne] at h
    rw [searches_iff]
    split
    · rename_i candidate
      rw [if_pos candidate] at h
      split
      · rename_i row probed
        rw [probed] at h
        cases h
        exact ⟨rfl, rfl⟩
      · rename_i longer probed
        rw [probed] at h
        exact ih h
    · rename_i candidate
      rw [if_neg candidate] at h
      exact ih h

end Search

/-- Some siblings got the offset `o`: their first has the least slot, past its code and the slot of
the last siblings' first, where they fit, and the extent is one past the highest claimed slot. -/
structure PlacedLeast (growth : Nat) (codes : List Nat) (l l' : Layout) (o : Nat) : Prop
    extends Placed l l' codes o where
  /-- The search ends there, with one row, and the siblings' slots are marked in it. -/
  search : ∃ row, l'.slots = mark o codes row ∧ ∀ position found,
    Searches growth l.used codes (searchStart l.last (codes.headD 0)) l.slots position found ↔
      position = l'.last ∧ found = row
  least : IsLeast {i | max (codes.headD 0) (l.last + 1) < i ∧
    l.used.contains (i - codes.headD 0) = false ∧
    ∀ c ∈ codes, (l.slot (i - codes.headD 0 + c)).check = 0} l'.last
  position : l'.last = o + codes.headD 0
  size_le : l.slots.size ≤ l'.slots.size
  room : ∀ c ∈ codes, o + c < l'.slots.size
  extent_iff : ∀ i, i < l'.extent ↔ ∃ j, i ≤ j ∧ (l'.slot j).check ≠ 0

section Place

variable {l : Layout} {codes : List Nat}

theorem Sound.lt_extent_iff (h : l.Sound) (i : Nat) :
    i < l.extent ↔ ∃ j, i ≤ j ∧ (l.slot j).check ≠ 0 := by
  constructor
  · intro hi
    have last : l.extent = (l.extent - 1) + 1 := by omega
    exact ⟨l.extent - 1, by omega, h.last_claimed _ last⟩
  · rintro ⟨j, hij, claimed⟩
    exact Nat.lt_of_le_of_lt hij (h.claimed_lt j claimed)

theorem Sound.searches_found (h : l.Sound) (growth : Nat) (hne : codes ≠ []) :
    Searches growth l.used codes (searchStart l.last (codes.headD 0)) l.slots
      (l.found growth codes).1 (l.found growth codes).2 :=
  searches_of_search? hne
    (search?_eq hne (Nat.le_of_lt (searchStart_gt _ _)) (h.fits_last codes))

theorem Sound.placedLeast (h : l.Sound) (growth : Nat) (hne : codes ≠ []) :
    PlacedLeast growth codes l (l.place growth codes).2 (l.place growth codes).1 := by
  have searches := h.searches_found growth hne
  obtain ⟨least, grows, room⟩ := h.found_spec growth hne
  have past := Nat.le_trans (Nat.le_of_lt (searchStart_gt l.last (codes.headD 0))) least.start_le
  have size : (l.place growth codes).2.slots.size = (l.found growth codes).2.size :=
    size_mark _ codes _
  refine ⟨h.placed growth hne, ?search, ?least, ?position, ?size_le, ?room,
    (h.place growth hne).lt_extent_iff⟩
  case search =>
    refine ⟨(l.found growth codes).2, rfl, fun position found => ⟨searches.unique, ?_⟩⟩
    rintro ⟨rfl, rfl⟩
    exact searches
  case least =>
    rw [last_place]
    refine ⟨⟨least.start_le, least.fits.2, least.fits.1⟩, ?_⟩
    rintro i ⟨start, unused, free⟩
    exact Nat.le_of_not_lt fun before => least.least i start before ⟨free, unused⟩
  case position =>
    rw [last_place, place_fst, Nat.sub_add_cancel past]
  case size_le =>
    rw [size]
    exact grows.size_le
  case room =>
    rw [size]
    exact room

end Place

end Layout

theorem Placing.placedLeast {p : Placing} (sound : p.before.layout.Sound) (hne : p.codes ≠ [])
    (growth : Nat) : Layout.PlacedLeast growth p.codes p.before.layout (p.after growth).layout
      (p.offset growth) := sound.placedLeast growth hne

namespace Encoding

section Step

variable {growth : Nat} {d : Dictionary} {placings : List Placing} {e e' : Encoding}
  {g : Group} {groups rest : List Group} {p : Placing}

theorem step_of_placing (growth : Nat) (rest : List Group) (h : e.placing? g = some p) :
    p.before.layout = e.layout ∧ p.codes ≠ [] ∧ (e.step growth g rest).1 = p.after growth := by
  rw [placing?] at h
  split at h
  · cases h
  · rename_i hw
    have hw := Bool.eq_false_iff.mpr hw
    obtain ⟨children, made, hex⟩ : ∃ children made, e.expand g.waiting.start = (children, made) :=
      ⟨_, _, rfl⟩
    simp only [hex] at h
    split at h
    · cases h
    · rename_i hc
      cases h
      have hc := Bool.eq_false_iff.mpr hc
      refine ⟨?_, PrefixTree.codes_ne_nil hc, ?_⟩
      · exact (congrArg (fun r => r.2.layout) hex).symm
      · rw [step_enter hw hex hc rfl]
        rfl

theorem last_step (rest : List Group) (h : e.placing? g = none) :
    (e.step growth g rest).1.layout.last = e.layout.last := by
  cases hw : g.waiting.isEmpty with
  | true =>
    cases hp : g.parent with
    | none => rw [step_done hw hp]
    | some parent =>
      rw [step_leave hw hp]
      rfl
  | false =>
    obtain ⟨children, made, hex⟩ : ∃ children made, e.expand g.waiting.start = (children, made) :=
      ⟨_, _, rfl⟩
    have layout : made.layout = e.layout := (congrArg (fun r => r.2.layout) hex).symm
    cases hc : children.isEmpty with
    | true =>
      rw [step_childless hw hex hc, ← layout]
      rfl
    | false => simp [placing?, hw, hex, hc] at h

structure Traced (growth : Nat) (d : Dictionary) (placings : List Placing) (e : Encoding)
    (groups : List Group) : Prop where
  running : ∃ st, e.Running groups st
  sound : ∀ p ∈ placings, p.before.layout.Sound ∧ p.codes ≠ []
  ascending : placings.Pairwise fun p q => p.position growth < q.position growth
  position_le : ∀ p ∈ placings, p.position growth ≤ e.layout.last
  first : ∃ later, placings = firstPlacing d :: later

theorem Traced.step (h : Traced growth d placings e (g :: rest)) :
    Traced growth d (placings ++ (e.placing? g).toList) (e.step growth g rest).1
      (e.step growth g rest).2 := by
  obtain ⟨st, running⟩ := h.running
  obtain ⟨_, _, next⟩ := running.step growth rfl
  cases placing : e.placing? g with
  | none =>
    rw [Option.toList_none, List.append_nil]
    refine ⟨next, h.sound, h.ascending, fun p hp => ?_, h.first⟩
    rw [last_step rest placing]
    exact h.position_le p hp
  | some p =>
    obtain ⟨layout, hne, after⟩ := step_of_placing growth rest placing
    have sound := running.coherent.layout
    rw [← layout] at sound
    have past : e.layout.last < p.position growth := by
      have least := (p.placedLeast sound hne growth).least.1.1
      rw [layout] at least
      show e.layout.last < (p.after growth).layout.last
      omega
    rw [Option.toList_some]
    refine ⟨next, ?sound, ?ascending, ?position_le, ?first⟩
    case sound =>
      exact List.forall_mem_append.mpr ⟨h.sound, List.forall_mem_singleton.mpr ⟨sound, hne⟩⟩
    case ascending =>
      refine List.pairwise_append.mpr ⟨h.ascending, List.pairwise_singleton _ p, ?_⟩
      intro q hq r hr
      cases List.mem_singleton.mp hr
      exact Nat.lt_of_le_of_lt (h.position_le q hq) past
    case position_le =>
      rw [after]
      refine List.forall_mem_append.mpr ⟨fun q hq => ?_, ?_⟩
      · exact Nat.le_of_lt (Nat.lt_of_le_of_lt (h.position_le q hq) past)
      · exact List.forall_mem_singleton.mpr (Nat.le_refl _)
    case first =>
      obtain ⟨later, rfl⟩ := h.first
      exact ⟨later ++ [p], rfl⟩

theorem firstPlacing_eq (d : Dictionary) : firstPlacing d =
    { before := { tree := (PrefixTree.ofDictionary d).grown PrefixTree.rootId (rootNode d) }
      siblings := (PrefixTree.withChildren d 1 (rootNode d)).children } := by
  rw [firstPlacing, expand_root]

theorem traced_start (growth : Nat) (d : Dictionary) :
    Traced growth d [firstPlacing d] ((firstPlacing d).after growth)
      [{ waiting := (firstPlacing d).siblings, offset := (firstPlacing d).offset growth,
         parent := none }] where
  running := by
    rw [firstPlacing_eq]
    exact ⟨_, running_start growth d⟩
  sound := by
    have some := PrefixTree.withChildren_not_isEmpty (PrefixTree.wellFormed_ofDictionary d)
      (read_root d) rfl
    rw [firstPlacing_eq]
    exact List.forall_mem_singleton.mpr ⟨Layout.sound_empty, PrefixTree.codes_ne_nil some⟩
  ascending := List.pairwise_singleton _ _
  position_le := List.forall_mem_singleton.mpr (Nat.le_refl _)
  first := ⟨[], rfl⟩

theorem Reaches.traced (h : Reaches growth d placings e groups) :
    Traced growth d placings e groups := by
  induction h with
  | start => exact traced_start growth d
  | step _ ih => exact ih.step

theorem Reaches.runsTo (h : Reaches growth d placings e groups) (runs : RunsTo growth e groups e') :
    ∃ later, Reaches growth d (placings ++ later) e' [] := by
  induction runs generalizing placings with
  | done => exact ⟨[], (List.append_nil placings).symm ▸ h⟩
  | step _ ih =>
    obtain ⟨later, ends⟩ := ih h.step
    rw [List.append_assoc] at ends
    exact ⟨_, ends⟩

theorem exists_reaches (growth : Nat) (d : Dictionary) : ∃ placings e,
    Reaches growth d placings e [] ∧ (ofDictionary growth d).layout = e.layout := by
  have runs : RunsTo growth _ _ _ := (running_start growth d).runsTo (potential_start growth d)
  have reached : Reaches growth d [firstPlacing d]
      (grow growth { tree := .ofDictionary d } PrefixTree.rootId (rootNode d)).2
      [rootGroup growth d] := by
    have begins : Reaches growth d _ _ _ := .start
    rw [firstPlacing_eq] at begins ⊢
    exact begins
  obtain ⟨later, ends⟩ := reached.runsTo runs
  refine ⟨_, _, ends, ?_⟩
  rw [ofDictionary_eq]

end Step

/-- Every call that places siblings while a dictionary is encoded finds the least slot, past the
code of the first sibling and the slot of the siblings placed before, where the siblings fit, and
claims their slots for a new offset. The slots ascend from call to call, and the first call gives
the state of the start. -/
theorem placings_are_least (growth : Nat) (d : Dictionary) :
    (∀ placings e groups, Reaches growth d placings e groups →
      (∀ p ∈ placings, Layout.PlacedLeast growth p.codes p.before.layout (p.after growth).layout
        (p.offset growth)) ∧
      (placings.Pairwise fun p q => p.position growth < q.position growth) ∧
      (∃ first later, placings = first :: later ∧ first.offset growth = 1) ∧
      ∀ g rest p, groups = g :: rest → e.placing? g = some p →
        p.before.layout = e.layout ∧ (e.step growth g rest).1 = p.after growth) ∧
    ∃ placings e, Reaches growth d placings e [] ∧ (ofDictionary growth d).layout = e.layout := by
  refine ⟨fun placings e groups reached => ?_, exists_reaches growth d⟩
  have traced := reached.traced
  refine ⟨fun p hp => ?_, traced.ascending, ?_, fun g rest p _ placing => ?_⟩
  · obtain ⟨sound, hne⟩ := traced.sound p hp
    exact p.placedLeast sound hne growth
  · obtain ⟨later, rfl⟩ := traced.first
    refine ⟨firstPlacing d, later, rfl, ?_⟩
    rw [firstPlacing_eq]
    exact offset_root growth d
  · obtain ⟨layout, _, after⟩ := step_of_placing growth rest placing
    exact ⟨layout, after⟩

end Encoding

end KeywordTagger
