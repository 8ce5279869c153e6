import KeywordTagger.Layout
import Mathlib.Tactic.ByContra

/-!
Placing siblings. A row is looked at through what it holds at each slot, slots past its end being
free. Under that view growing the row changes nothing, so the search finds the least place where the
siblings fit, however long the row is; and placing them turns their free slots into claimed ones for
an offset that is positive and new, and changes nothing else.
-/

namespace KeywordTagger

def slotAt (slots : Array Slot) (i : Nat) : Slot := slots[i]?.getD Slot.free

theorem slotAt_modify {slots : Array Slot} {i : Nat} (hi : i < slots.size) (f : Slot → Slot)
    (j : Nat) : slotAt (slots.modify i f) j =
      if j = i then f (slotAt slots j) else slotAt slots j := by
  simp only [slotAt, Array.getElem?_modify, eq_comm (a := i)]
  split
  · rename_i h
    subst h
    simp [hi]
  · rfl

namespace DoubleArray

def slot (a : DoubleArray) (i : Nat) : Slot := slotAt a.slots i

theorem next?_eq_some_iff {a : DoubleArray} {state code target : Nat} :
    a.next? state code = some target ↔ (a.slot (state + code)).check = state ∧
      0 < (a.slot (state + code)).base ∧ (a.slot (state + code)).base.toNat = target := by
  simp only [next?, slot, slotAt]
  cases a.slots[state + code]? with
  | none => simp [Slot.free]
  | some s => simp [and_assoc]

theorem output?_eq (a : DoubleArray) (state : Nat) : a.output? state = (a.slot state).output := by
  simp only [output?, slot, slotAt]
  cases a.slots[state]? with
  | none => rfl
  | some s => rfl

end DoubleArray

namespace Layout

def slot (l : Layout) (i : Nat) : Slot := slotAt l.slots i

theorem isFree_iff {slots : Array Slot} {i : Nat} :
    isFree slots i = true ↔ (slotAt slots i).check = 0 := by
  simp only [isFree, slotAt]
  cases slots[i]? with
  | none => simp [Slot.free]
  | some s => simp [Slot.isFree]

/-- One row is another with free slots behind it, as far as can be told from what the slots hold. -/
structure Extends (slots longer : Array Slot) : Prop where
  same : slotAt longer = slotAt slots
  size_le : slots.size ≤ longer.size

theorem Extends.trans {a b c : Array Slot} (h : Extends a b) (h' : Extends b c) : Extends a c :=
  ⟨h'.same.trans h.same, Nat.le_trans h.size_le h'.size_le⟩

theorem extends_grow (growth size : Nat) (slots : Array Slot) :
    Extends slots (grow growth size slots) := by
  unfold grow
  split
  · exact ⟨rfl, Nat.le_refl _⟩
  · refine ⟨?_, by simp⟩
    funext i
    simp only [slotAt, Array.getElem?_append, Array.getElem?_replicate]
    by_cases hi : i < slots.size
    · simp [hi]
    · have fresh : slots[i]? = none := Array.getElem?_eq_none (Nat.le_of_not_lt hi)
      rw [if_neg hi, fresh]
      split <;> rfl

theorem le_size_grow (growth size : Nat) (slots : Array Slot) :
    size ≤ (grow growth size slots).size := by
  unfold grow
  split
  · assumption
  · simp only [Array.size_append, Array.size_replicate]
    have unit : 0 < max growth 1 := by omega
    have := Nat.lt_div_mul_add (a := size - slots.size - 1) unit
    rw [Nat.add_mul, Nat.one_mul]
    omega

theorem size_mark (offset : Nat) (codes : List Nat) (slots : Array Slot) :
    (mark offset codes slots).size = slots.size := by
  induction codes generalizing slots with
  | nil => rfl
  | cons c codes ih => exact (ih _).trans Array.size_modify

theorem slotAt_mark_of_notMem {offset : Nat} {codes : List Nat} {slots : Array Slot} {i : Nat}
    (room : ∀ c ∈ codes, offset + c < slots.size) (hi : ∀ c ∈ codes, i ≠ offset + c) :
    slotAt (mark offset codes slots) i = slotAt slots i := by
  induction codes generalizing slots with
  | nil => rfl
  | cons c codes ih =>
    obtain ⟨hc, room⟩ := List.forall_mem_cons.mp room
    obtain ⟨hic, hi⟩ := List.forall_mem_cons.mp hi
    refine (ih ?_ hi).trans ?_
    · simpa using room
    · rw [slotAt_modify hc, if_neg hic]

theorem slotAt_mark_of_mem {offset : Nat} {codes : List Nat} {slots : Array Slot} {c : Nat}
    (room : ∀ c ∈ codes, offset + c < slots.size) (hc : c ∈ codes) :
    slotAt (mark offset codes slots) (offset + c) =
      { slotAt slots (offset + c) with check := offset } := by
  induction codes generalizing slots with
  | nil => simp at hc
  | cons b codes ih =>
    obtain ⟨hb, room⟩ := List.forall_mem_cons.mp room
    have room' : ∀ c ∈ codes, offset + c <
        (slots.modify (offset + b) fun s => { s with check := offset }).size := by simpa using room
    by_cases hmem : c ∈ codes
    · refine (ih room' hmem).trans ?_
      rw [slotAt_modify hb]
      split <;> rfl
    · have hcb : c = b := (List.mem_cons.mp hc).resolve_right hmem
      subst hcb
      refine (slotAt_mark_of_notMem room' ?_).trans ?_
      · rintro a ha heq
        exact hmem (Nat.add_left_cancel heq ▸ ha)
      · rw [slotAt_modify hb, if_pos rfl]

theorem le_reach (offset : Nat) (codes : List Nat) (extent : Nat) :
    extent ≤ reach offset codes extent := by
  induction codes generalizing extent with
  | nil => exact Nat.le_refl _
  | cons c codes ih => exact Nat.le_trans (Nat.le_max_left _ _) (ih _)

theorem lt_reach {offset c : Nat} {codes : List Nat} (hc : c ∈ codes) (extent : Nat) :
    offset + c < reach offset codes extent := by
  induction codes generalizing extent with
  | nil => simp at hc
  | cons b codes ih =>
    rcases List.mem_cons.mp hc with rfl | hc
    · exact Nat.lt_of_lt_of_le (Nat.lt_of_succ_le (Nat.le_max_right _ _)) (le_reach offset codes _)
    · exact ih hc _

theorem reach_le {offset extent size : Nat} {codes : List Nat} (room : extent ≤ size)
    (fits : ∀ c ∈ codes, offset + c < size) : reach offset codes extent ≤ size := by
  induction codes generalizing extent with
  | nil => exact room
  | cons c codes ih =>
    obtain ⟨hc, fits⟩ := List.forall_mem_cons.mp fits
    exact ih (Nat.max_le.mpr ⟨room, hc⟩) fits

theorem reach_cases (offset : Nat) (codes : List Nat) (extent : Nat) :
    reach offset codes extent = extent ∨
      ∃ c ∈ codes, reach offset codes extent = offset + c + 1 := by
  induction codes generalizing extent with
  | nil => exact .inl rfl
  | cons c codes ih =>
    rcases ih (max extent (offset + c + 1)) with kept | ⟨b, hb, moved⟩
    · rcases Nat.le_total (offset + c + 1) extent with hle | hle
      · exact .inl (kept.trans (Nat.max_eq_left hle))
      · exact .inr ⟨c, List.mem_cons_self, kept.trans (Nat.max_eq_right hle)⟩
    · exact .inr ⟨b, List.mem_cons_of_mem c hb, moved⟩

structure Sound (l : Layout) : Prop where
  extent_le : l.extent ≤ l.slots.size
  claimed_lt : ∀ i, (l.slot i).check ≠ 0 → i < l.extent
  last_claimed : ∀ i, l.extent = i + 1 → (l.slot i).check ≠ 0
  free_eq : ∀ i, (l.slot i).check = 0 → l.slot i = Slot.free
  used_lt : ∀ o, l.used.contains o = true → o < l.extent
  used_pos : ∀ o, l.used.contains o = true → 0 < o

theorem sound_empty : Layout.Sound {} := by
  constructor <;> simp [slot, slotAt, Slot.free]

/-- The row `l'` is `l` with free slots claimed for siblings at the new offset `o`. -/
structure Placed (l l' : Layout) (codes : List Nat) (o : Nat) : Prop where
  pos : 0 < o
  unused : l.used.contains o = false
  used_iff : ∀ i, l'.used.contains i = true ↔ i = o ∨ l.used.contains i = true
  was_free : ∀ c ∈ codes, l.slot (o + c) = Slot.free
  claimed : ∀ c ∈ codes, l'.slot (o + c) = { check := o }
  kept : ∀ i, (∀ c ∈ codes, i ≠ o + c) → l'.slot i = l.slot i

theorem Placed.slot_cases {l l' : Layout} {codes : List Nat} {o : Nat} (h : Placed l l' codes o)
    (i : Nat) : (∃ c ∈ codes, i = o + c ∧ l'.slot i = { check := o }) ∨
      ((∀ c ∈ codes, i ≠ o + c) ∧ l'.slot i = l.slot i) := by
  by_cases new : ∃ c ∈ codes, i = o + c
  · obtain ⟨c, hc, rfl⟩ := new
    exact .inl ⟨c, hc, rfl, h.claimed c hc⟩
  · have old : ∀ c ∈ codes, i ≠ o + c := fun c hc heq => new ⟨c, hc, heq⟩
    exact .inr ⟨old, h.kept i old⟩

/-! Searching. -/

def Fits (row : Nat → Slot) (used : Std.HashSet Nat) (codes : List Nat) (offset : Nat) : Prop :=
  (∀ c ∈ codes, (row (offset + c)).check = 0) ∧ used.contains offset = false

/-- The least slot from `start` on for the first of some siblings. -/
structure LeastFit (row : Nat → Slot) (used : Std.HashSet Nat) (codes : List Nat)
    (start position : Nat) : Prop where
  start_le : start ≤ position
  fits : Fits row used codes (position - codes.headD 0)
  least : ∀ i, start ≤ i → i < position → ¬ Fits row used codes (i - codes.headD 0)

section Search

variable {growth offset i : Nat} {codes : List Nat} {slots : Array Slot} {used : Std.HashSet Nat}

theorem LeastFit.unique {row : Nat → Slot} {start j : Nat} (hi : LeastFit row used codes start i)
    (hj : LeastFit row used codes start j) : i = j := by
  rcases Nat.lt_trichotomy i j with hlt | heq | hlt
  · exact absurd hi.fits (hj.least i hi.start_le hlt)
  · exact heq
  · exact absurd hj.fits (hi.least j hj.start_le hlt)

theorem LeastFit.here {row : Nat → Slot} (fits : Fits row used codes (i - codes.headD 0)) :
    LeastFit row used codes i i :=
  ⟨Nat.le_refl i, fits, fun _ hj hlt => absurd hlt (Nat.not_lt.mpr hj)⟩

theorem LeastFit.prior {row : Nat → Slot} {position : Nat}
    (h : LeastFit row used codes (i + 1) position)
    (misfit : ¬ Fits row used codes (i - codes.headD 0)) : LeastFit row used codes i position where
  start_le := Nat.le_of_succ_le h.start_le
  fits := h.fits
  least := by
    intro j hj hlt
    rcases Nat.eq_or_lt_of_le hj with rfl | hj
    · exact misfit
    · exact h.least j hj hlt

theorem extends_probe (growth offset : Nat) (codes : List Nat) (slots : Array Slot) :
    Extends slots (probe growth offset codes slots).2 := by
  fun_induction probe growth offset codes slots with
  | case1 => exact ⟨rfl, Nat.le_refl _⟩
  | case2 c codes slots _ _ ih => exact (extends_grow _ _ _).trans ih
  | case3 c codes slots => exact extends_grow _ _ _

/-- Going through all siblings, the search found their slots free and made the row long enough. -/
theorem free_of_probe (h : (probe growth offset codes slots).1 = true) : ∀ c ∈ codes,
    (slotAt slots (offset + c)).check = 0 ∧
      offset + c < (probe growth offset codes slots).2.size := by
  fun_induction probe growth offset codes slots with
  | case1 => simp
  | case2 c codes slots grown free ih =>
    have longer := extends_grow growth (offset + c + 1) slots
    rw [isFree_iff, longer.same] at free
    rw [longer.same] at ih
    have room : offset + c < grown.size := le_size_grow growth (offset + c + 1) slots
    exact List.forall_mem_cons.mpr
      ⟨⟨free, Nat.lt_of_lt_of_le room (extends_probe _ _ _ _).size_le⟩, ih h⟩
  | case3 => cases h

theorem claimed_of_probe (h : (probe growth offset codes slots).1 = false) :
    ∃ c ∈ codes, (slotAt slots (offset + c)).check ≠ 0 := by
  fun_induction probe growth offset codes slots with
  | case1 => cases h
  | case2 c codes slots _ _ ih =>
    obtain ⟨b, hb, claimed⟩ := ih h
    rw [(extends_grow _ _ _).same] at claimed
    exact ⟨b, List.mem_cons_of_mem c hb, claimed⟩
  | case3 c codes slots _ claimed =>
    rw [isFree_iff, (extends_grow _ _ _).same] at claimed
    exact ⟨c, List.mem_cons_self, claimed⟩

theorem fits_iff (hne : codes ≠ []) (growth : Nat) (used : Std.HashSet Nat)
    (past : codes.headD 0 ≤ i) (slots : Array Slot) :
    Fits (slotAt slots) used codes (i - codes.headD 0) ↔
      (isFree (grow growth (i + 1) slots) i && !used.contains (i - codes.headD 0)) = true ∧
        (probe growth (i - codes.headD 0) codes (grow growth (i + 1) slots)).1 = true := by
  have grows := extends_grow growth (i + 1) slots
  rw [Bool.and_eq_true, Bool.not_eq_true', isFree_iff, grows.same]
  constructor
  · intro fits
    have unused := fits.2
    obtain ⟨first, rest, rfl⟩ := List.exists_cons_of_ne_nil hne
    have free := fits.1 first List.mem_cons_self
    rw [List.headD_cons] at past free
    rw [Nat.sub_add_cancel past] at free
    refine ⟨⟨free, unused⟩, ?_⟩
    by_contra misfit
    obtain ⟨c, hc, claimed⟩ := claimed_of_probe (Bool.eq_false_iff.mpr misfit)
    rw [grows.same] at claimed
    exact claimed (fits.1 c hc)
  · rintro ⟨⟨_, unused⟩, probed⟩
    refine ⟨fun c hc => ?_, unused⟩
    rw [← grows.same]
    exact (free_of_probe probed c hc).1

theorem search_succ (hne : codes ≠ []) (growth : Nat) (used : Std.HashSet Nat) (tries : Nat)
    (past : codes.headD 0 ≤ i) (slots : Array Slot) : ∃ longer, Extends slots longer ∧
      ((Fits (slotAt slots) used codes (i - codes.headD 0) ∧
          (∀ c ∈ codes, i - codes.headD 0 + c < longer.size) ∧
          search growth used codes (tries + 1) i slots = (i, longer)) ∨
        (¬ Fits (slotAt slots) used codes (i - codes.headD 0) ∧
          search growth used codes (tries + 1) i slots =
            search growth used codes tries (i + 1) longer)) := by
  have grows := extends_grow growth (i + 1) slots
  have fits := fits_iff hne growth used past slots
  rw [search]
  generalize grow growth (i + 1) slots = grown at grows fits
  split
  · rename_i candidate
    have probed := grows.trans (extends_probe growth (i - codes.headD 0) codes grown)
    split
    · rename_i longer heq
      have success := congrArg Prod.fst heq
      have free := free_of_probe success
      rw [heq] at probed free
      exact ⟨longer, probed, .inl ⟨fits.mpr ⟨candidate, success⟩, fun c hc => (free c hc).2, rfl⟩⟩
    · rename_i longer heq
      rw [heq] at probed fits
      exact ⟨longer, probed, .inr ⟨fun h => Bool.false_ne_true (fits.mp h).2, rfl⟩⟩
  · rename_i candidate
    exact ⟨grown, grows, .inr ⟨fun h => candidate (fits.mp h).1, rfl⟩⟩

/-- If the siblings fit at the last try, the search finds the least place where they do, makes the
row long enough for them, and changes nothing in it. -/
theorem search_spec (hne : codes ≠ []) {tries : Nat} (past : codes.headD 0 ≤ i)
    (last : Fits (slotAt slots) used codes (i + tries - codes.headD 0)) :
    let found := search growth used codes (tries + 1) i slots
    LeastFit (slotAt slots) used codes i found.1 ∧ Extends slots found.2 ∧
      ∀ c ∈ codes, found.1 - codes.headD 0 + c < found.2.size := by
  induction tries generalizing i slots with
  | zero =>
    obtain ⟨longer, grows, ⟨fits, room, heq⟩ | ⟨misfit, _⟩⟩ :=
      search_succ hne growth used 0 past slots
    · rw [heq]
      exact ⟨.here fits, grows, room⟩
    · exact absurd last misfit
  | succ tries ih =>
    obtain ⟨longer, grows, ⟨fits, room, heq⟩ | ⟨misfit, heq⟩⟩ :=
      search_succ hne growth used (tries + 1) past slots
    · rw [heq]
      exact ⟨.here fits, grows, room⟩
    · rw [← grows.same] at last misfit
      rw [← Nat.add_assoc, Nat.add_right_comm] at last
      obtain ⟨least, grows', room⟩ := ih (Nat.le_succ_of_le past) last
      rw [heq, ← grows.same]
      exact ⟨least.prior misfit, grows.trans grows', room⟩

end Search

section Place

variable {l : Layout} {codes : List Nat}

theorem searchStart_gt (last first : Nat) : first < searchStart last first := by
  unfold searchStart
  omega

def found (growth : Nat) (codes : List Nat) (l : Layout) : Nat × Array Slot :=
  search growth l.used codes (searchLength l.extent l.last (codes.headD 0))
    (searchStart l.last (codes.headD 0)) l.slots

theorem place_fst (growth : Nat) :
    (l.place growth codes).1 = (l.found growth codes).1 - codes.headD 0 := rfl

theorem last_place (growth : Nat) :
    (l.place growth codes).2.last = (l.found growth codes).1 := rfl

theorem extent_place (growth : Nat) : (l.place growth codes).2.extent =
    reach (l.place growth codes).1 codes l.extent := rfl

theorem slot_place (growth : Nat) : (l.place growth codes).2.slot =
    slotAt (mark (l.place growth codes).1 codes (l.found growth codes).2) := rfl

/-- At the last try the siblings fit: past the extent every slot is free and every offset new. -/
theorem Sound.fits_last (h : l.Sound) (codes : List Nat) :
    Fits (slotAt l.slots) l.used codes (searchStart l.last (codes.headD 0) +
      (l.extent + codes.headD 0 - searchStart l.last (codes.headD 0)) - codes.headD 0) := by
  have start := searchStart_gt l.last (codes.headD 0)
  refine ⟨fun c _ => ?_, ?_⟩
  · by_contra hclaimed
    have := h.claimed_lt _ hclaimed
    omega
  · by_contra hused
    have := h.used_lt _ (by simpa using hused)
    omega

theorem Sound.found_spec (h : l.Sound) (growth : Nat) (hne : codes ≠ []) :
    LeastFit l.slot l.used codes (searchStart l.last (codes.headD 0)) (l.found growth codes).1 ∧
      Extends l.slots (l.found growth codes).2 ∧
      ∀ c ∈ codes, (l.place growth codes).1 + c < (l.found growth codes).2.size :=
  search_spec hne (Nat.le_of_lt (searchStart_gt _ _)) (h.fits_last codes)

theorem Sound.placed (h : l.Sound) (growth : Nat) (hne : codes ≠ []) :
    Placed l (l.place growth codes).2 codes (l.place growth codes).1 := by
  obtain ⟨least, grows, room⟩ := h.found_spec growth hne
  obtain ⟨free, unused⟩ := least.fits
  rw [← place_fst] at free unused
  have was_free : ∀ c ∈ codes, l.slot ((l.place growth codes).1 + c) = Slot.free :=
    fun c hc => h.free_eq _ (free c hc)
  refine ⟨?_, unused, ?_, was_free, ?_, ?_⟩
  · exact Nat.sub_pos_of_lt (Nat.lt_of_lt_of_le (searchStart_gt _ _) least.start_le)
  · intro i
    show (l.used.insert _).contains i = true ↔ _
    rw [Std.HashSet.contains_insert, Bool.or_eq_true, beq_iff_eq]
    exact or_congr_left eq_comm
  · intro c hc
    have free_slot : slotAt l.slots ((l.place growth codes).1 + c) = Slot.free := was_free c hc
    rw [slot_place, slotAt_mark_of_mem room hc, grows.same, free_slot]
    rfl
  · intro i hi
    rw [slot_place, slotAt_mark_of_notMem room hi, grows.same]
    rfl

theorem Sound.place (h : l.Sound) (growth : Nat) (hne : codes ≠ []) :
    (l.place growth codes).2.Sound := by
  have placed := h.placed growth hne
  have grows := le_reach (l.place growth codes).1 codes l.extent
  obtain ⟨_, longer, room⟩ := h.found_spec growth hne
  refine ⟨?extent_le, ?claimed_lt, ?last_claimed, ?free_eq, ?used_lt, ?used_pos⟩
  case extent_le =>
    rw [extent_place]
    refine Nat.le_trans (reach_le (Nat.le_trans h.extent_le longer.size_le) room) ?_
    exact Nat.le_of_eq (size_mark _ codes _).symm
  case claimed_lt =>
    intro i hi
    rw [extent_place]
    rcases placed.slot_cases i with ⟨c, hc, rfl, _⟩ | ⟨_, kept⟩
    · exact lt_reach hc _
    · rw [kept] at hi
      exact Nat.lt_of_lt_of_le (h.claimed_lt i hi) grows
  case last_claimed =>
    intro i hi
    rw [extent_place] at hi
    rcases placed.slot_cases i with ⟨c, hc, _, claimed⟩ | ⟨old, kept⟩
    · rw [claimed]
      exact Nat.ne_of_gt placed.pos
    · rcases reach_cases (l.place growth codes).1 codes l.extent with same | ⟨c, hc, moved⟩
      · rw [kept]
        exact h.last_claimed i (same.symm.trans hi)
      · exact absurd (Nat.succ.inj (hi.symm.trans moved)) (old c hc)
  case free_eq =>
    intro i hi
    rcases placed.slot_cases i with ⟨c, hc, _, claimed⟩ | ⟨_, kept⟩
    · rw [claimed] at hi
      exact absurd hi (Nat.ne_of_gt placed.pos)
    · rw [kept] at hi ⊢
      exact h.free_eq i hi
  case used_lt =>
    intro o ho
    rw [extent_place]
    rcases (placed.used_iff o).mp ho with rfl | ho
    · obtain ⟨c, hc⟩ := List.exists_mem_of_ne_nil codes hne
      exact Nat.lt_of_le_of_lt (Nat.le_add_right _ c) (lt_reach hc _)
    · exact Nat.lt_of_lt_of_le (h.used_lt o ho) grows
  case used_pos =>
    intro o ho
    rcases (placed.used_iff o).mp ho with rfl | ho
    · exact placed.pos
    · exact h.used_pos o ho

theorem place_empty (growth : Nat) {codes : List Nat} (h : 0 < codes.headD 0) :
    (place growth codes {}).1 = DoubleArray.startState := by
  have hne : codes ≠ [] := by
    rintro rfl
    cases h
  obtain ⟨least, _⟩ := sound_empty.found_spec growth hne
  have start : searchStart 0 (codes.headD 0) = codes.headD 0 + 1 := by
    unfold searchStart
    omega
  have first : LeastFit (slot {}) {} codes (searchStart 0 (codes.headD 0)) (codes.headD 0 + 1) := by
    refine ⟨Nat.le_of_eq start, ⟨?_, ?_⟩, ?_⟩
    · intro c _
      rfl
    · simp
    · intro i hi hlt
      omega
  rw [place_fst, least.unique first, Nat.add_sub_cancel_left]
  rfl

end Place

/-! Storing what a claimed slot holds. -/

section Store

variable {l : Layout} {i : Nat}

theorem Sound.lt_size (h : l.Sound) (hi : (l.slot i).check ≠ 0) : i < l.slots.size :=
  Nat.lt_of_lt_of_le (h.claimed_lt i hi) h.extent_le

theorem slot_setBase (hi : i < l.slots.size) (base : Int) (j : Nat) : (l.setBase i base).slot j =
    if j = i then { l.slot j with base } else l.slot j := slotAt_modify hi _ j

theorem slot_setOutput (hi : i < l.slots.size) (id : Nat) (j : Nat) : (l.setOutput i id).slot j =
    if j = i then { l.slot j with output := some id } else l.slot j := slotAt_modify hi _ j

/-- Whatever is written into a claimed slot, the row stays sound as long as the slot stays claimed
for the same offset. -/
theorem Sound.store (h : l.Sound) (hi : (l.slot i).check ≠ 0) {f : Slot → Slot}
    (keeps : ∀ s, (f s).check = s.check) : Sound { l with slots := l.slots.modify i f } := by
  have read (j : Nat) : slot { l with slots := l.slots.modify i f } j =
      if j = i then f (l.slot j) else l.slot j := slotAt_modify (h.lt_size hi) f j
  have check (j : Nat) :
      (slot { l with slots := l.slots.modify i f } j).check = (l.slot j).check := by
    rw [read]
    split
    · exact keeps _
    · rfl
  refine ⟨?extent_le, ?claimed_lt, ?last_claimed, ?free_eq, h.used_lt, h.used_pos⟩
  case extent_le => simpa using h.extent_le
  case claimed_lt => exact fun j hj => h.claimed_lt j (check j ▸ hj)
  case last_claimed => exact fun j hj => (check j).symm ▸ h.last_claimed j hj
  case free_eq =>
    intro j hj
    rw [check] at hj
    have other : j ≠ i := by
      rintro rfl
      exact hi hj
    rw [read, if_neg other]
    exact h.free_eq j hj

theorem Sound.setBase (h : l.Sound) (hi : (l.slot i).check ≠ 0) (base : Int) :
    (l.setBase i base).Sound := h.store hi fun _ => rfl

theorem Sound.setOutput (h : l.Sound) (hi : (l.slot i).check ≠ 0) (id : Nat) :
    (l.setOutput i id).Sound := h.store hi fun _ => rfl

theorem Sound.size_finish (h : l.Sound) : l.finish.size = l.extent := by
  simp [DoubleArray.size, finish, h.extent_le]

/-- Cutting the row behind its highest claimed slot loses nothing. -/
theorem Sound.slot_finish (h : l.Sound) (i : Nat) : l.finish.slot i = l.slot i := by
  simp only [DoubleArray.slot, finish, slotAt, Array.take_eq_extract, Array.getElem?_extract,
    Nat.sub_zero, Nat.zero_add, Nat.min_eq_left h.extent_le]
  split
  · rfl
  · rename_i hi
    have hfree : l.slot i = Slot.free := by
      apply h.free_eq
      by_contra hclaimed
      exact hi (h.claimed_lt i hclaimed)
    exact hfree.symm

end Store

end Layout

end KeywordTagger
