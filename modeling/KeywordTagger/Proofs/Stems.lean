import KeywordTagger.WordMachine

/-!
Stems: the words that begin some pattern. The longest end of a word that is a stem can be kept
while the word is read code point by code point, and that is what falling back along the chained
rule does.
-/

namespace KeywordTagger.Dictionary

variable {d : Dictionary}

theorem isStem_iff {w : List Char} :
    d.isStem w = true ↔ ∃ (i : Nat) (p : Pattern), d.patterns[i]? = some p ∧ w <+: p.toList := by
  simp only [isStem, Array.any_eq_true, List.isPrefixOf_iff_prefix]
  constructor
  · rintro ⟨i, hi, hw⟩
    exact ⟨i, d.patterns[i], Array.getElem?_eq_getElem hi, hw⟩
  · rintro ⟨i, p, hp, hw⟩
    obtain ⟨hi, rfl⟩ := Array.getElem?_eq_some_iff.mp hp
    exact ⟨i, hi, hw⟩

theorem isStem_pattern {i : Nat} {p : Pattern} (hp : d.patterns[i]? = some p) :
    d.isStem p.toList = true :=
  isStem_iff.mpr ⟨i, p, hp, List.prefix_refl _⟩

@[simp] theorem isStem_nil : d.isStem [] = true := by
  have h := d.size_pos
  exact isStem_iff.mpr ⟨0, d.patterns[0], Array.getElem?_eq_getElem h, List.nil_prefix⟩

theorem isStem_of_prefix {v w : List Char} (hv : v <+: w) (hw : d.isStem w = true) :
    d.isStem v = true := by
  obtain ⟨i, p, hp, h⟩ := isStem_iff.mp hw
  exact isStem_iff.mpr ⟨i, p, hp, hv.trans h⟩

theorem isStem_of_append {v w : List Char} (h : d.isStem (v ++ w) = true) : d.isStem v = true :=
  isStem_of_prefix (List.prefix_append v w) h

theorem pattern_ne_nil {i : Nat} {p : Pattern} (hp : d.patterns[i]? = some p) : p.toList ≠ [] := by
  have h := (d.valid p (Array.mem_of_getElem? hp)).1
  simpa using h

theorem nul_notMem_pattern {i : Nat} {p : Pattern} (hp : d.patterns[i]? = some p) :
    '\x00' ∉ p.toList := by
  have h := (d.valid p (Array.mem_of_getElem? hp)).2
  simpa using h

/-- No stem holds U+0000, so no code point of a stem has the code of an end. -/
theorem toNat_ne_endCode {w : List Char} {c : Char} (hw : d.isStem (w ++ [c]) = true) :
    c.toNat ≠ endCode := by
  obtain ⟨i, p, hp, h⟩ := isStem_iff.mp hw
  intro hc
  have hc : c = '\x00' := by
    apply Char.ext
    apply UInt32.toNat_inj.mp
    exact hc
  subst hc
  exact nul_notMem_pattern hp (h.subset (by simp))

theorem lt_of_lt_index {i j : Nat} {p q : Pattern} (hp : d.patterns[i]? = some p)
    (hq : d.patterns[j]? = some q) (hij : i < j) : p.toList < q.toList := by
  obtain ⟨hi, rfl⟩ := Array.getElem?_eq_some_iff.mp hp
  obtain ⟨hj, rfl⟩ := Array.getElem?_eq_some_iff.mp hq
  exact List.pairwise_iff_getElem.mp d.sorted i j (by simpa using hi) (by simpa using hj) hij

/-- Patterns differ, so a text has at most one id. -/
theorem index_unique {i j : Nat} {p : Pattern} (hi : d.patterns[i]? = some p)
    (hj : d.patterns[j]? = some p) : i = j := by
  rcases Nat.lt_trichotomy i j with h | h | h
  · exact absurd (lt_of_lt_index hi hj h) (List.lt_irrefl _)
  · exact h
  · exact absurd (lt_of_lt_index hj hi h) (List.lt_irrefl _)

theorem idOf?_eq_some_iff {w : List Char} {i : Nat} :
    d.idOf? w = some i ↔ ∃ p, d.patterns[i]? = some p ∧ p.toList = w := by
  simp only [idOf?, Array.findIdx?_eq_some_iff_getElem, decide_eq_true_eq]
  constructor
  · rintro ⟨hi, hw, _⟩
    exact ⟨d.patterns[i], Array.getElem?_eq_getElem hi, hw⟩
  · rintro ⟨p, hp, hw⟩
    obtain ⟨hi, rfl⟩ := Array.getElem?_eq_some_iff.mp hp
    refine ⟨hi, hw, ?_⟩
    intro j hj hjw
    have hlt := lt_of_lt_index (Array.getElem?_eq_getElem (by omega)) hp hj
    rw [hjw, hw] at hlt
    exact List.lt_irrefl _ hlt

theorem idOf?_nil : d.idOf? [] = none := by
  cases h : d.idOf? [] with
  | none => rfl
  | some i =>
    obtain ⟨p, hp, hw⟩ := idOf?_eq_some_iff.mp h
    exact absurd hw (pattern_ne_nil hp)

/-! The longest end that is a stem. -/

theorem longestStem_suffix (d : Dictionary) (w : List Char) : d.longestStem w <:+ w := by
  induction w with
  | nil => exact List.suffix_refl _
  | cons c w ih =>
    unfold longestStem
    split
    · exact List.suffix_refl _
    · exact ih.trans (List.suffix_cons c w)

theorem isStem_longestStem (d : Dictionary) (w : List Char) :
    d.isStem (d.longestStem w) = true := by
  induction w with
  | nil => exact isStem_nil
  | cons c w ih =>
    unfold longestStem
    split
    · assumption
    · exact ih

/-- Every other end that is a stem is an end of the longest one. -/
theorem suffix_longestStem {u w : List Char} (hu : u <:+ w) (stem : d.isStem u = true) :
    u <:+ d.longestStem w := by
  induction w with
  | nil => exact hu
  | cons c w ih =>
    unfold longestStem
    split
    · exact hu
    · rename_i h
      rcases List.suffix_cons_iff.mp hu with rfl | hu
      · exact absurd stem h
      · exact ih hu

theorem length_le_longestStem {u w : List Char} (hu : u <:+ w) (stem : d.isStem u = true) :
    u.length ≤ (d.longestStem w).length :=
  (suffix_longestStem hu stem).length_le

theorem longestStem_eq {u w : List Char} (hu : u <:+ w) (stem : d.isStem u = true)
    (longest : ∀ v, v <:+ w → d.isStem v = true → v.length ≤ u.length) : d.longestStem w = u := by
  have h := longest _ (longestStem_suffix d w) (isStem_longestStem d w)
  exact ((suffix_longestStem hu stem).eq_of_length_le h).symm

theorem longestStem_of_isStem {w : List Char} (hw : d.isStem w = true) : d.longestStem w = w :=
  longestStem_eq (List.suffix_refl w) hw fun _ hv _ => hv.length_le

theorem longestStem_cons_of_not {c : Char} {w : List Char} (h : ¬ d.isStem (c :: w) = true) :
    d.longestStem (c :: w) = d.longestStem w := by
  rw [longestStem, if_neg h]

/-- What lies before the longest stem of a text is of no use for the stems of longer texts. -/
theorem longestStem_append_singleton (w : List Char) (c : Char) :
    d.longestStem (w ++ [c]) = d.longestStem (d.longestStem w ++ [c]) := by
  apply longestStem_eq
  · exact (longestStem_suffix d _).trans
      (List.suffix_append_self_iff.mpr (longestStem_suffix d w))
  · exact isStem_longestStem d _
  · intro v hv stem
    apply length_le_longestStem _ stem
    rcases List.suffix_concat_iff.mp hv with rfl | ⟨u, rfl, hu⟩
    · exact List.nil_suffix
    · exact List.suffix_append_self_iff.mpr (suffix_longestStem hu (isStem_of_append stem))

end KeywordTagger.Dictionary
