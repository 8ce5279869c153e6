import KeywordTagger.Error

/-!
Dictionaries. A dictionary holds its patterns once each, in the order of their code points, a
pattern before its extensions; a pattern is named by its place in that order. `ofList` builds one
from any list: it refuses a list with an empty pattern or one with U+0000, whose code marks the end
of a pattern in the prefix tree, and forgets order and repetition otherwise.
-/

namespace KeywordTagger

abbrev Pattern := Array Char

namespace Pattern

def fault? (p : String) : Option String :=
  if p = "" then some "pattern is empty"
  else if '\x00' ∈ p.toList then some "pattern contains U+0000"
  else none

theorem fault?_eq_none_iff {p : String} :
    fault? p = none ↔ p.toList ≠ [] ∧ '\x00' ∉ p.toList := by
  unfold fault?
  split
  · simp_all
  · split <;> simp_all

end Pattern

structure Dictionary where
  patterns : Array Pattern
  size_pos : 0 < patterns.size
  sorted : patterns.toList.Pairwise fun p q => p.toList < q.toList
  valid : ∀ p ∈ patterns, p ≠ #[] ∧ '\x00' ∉ p

namespace Dictionary

/-- The first unfit pattern of a list whose first place is `index`. -/
def firstFault? (index : Nat) : List String → Option TaggerError
  | [] => none
  | p :: ps =>
    match Pattern.fault? p with
    | some reason => some (.invalidPattern index reason)
    | none => firstFault? (index + 1) ps

theorem firstFault?_eq_none_iff {index : Nat} {ps : List String} :
    firstFault? index ps = none ↔ ∀ p ∈ ps, Pattern.fault? p = none := by
  induction ps generalizing index with
  | nil => simp [firstFault?]
  | cons p ps ih =>
    cases h : Pattern.fault? p with
    | some reason => simp [firstFault?, h]
    | none => simp [firstFault?, h, ih]

/-- Drops each text that equals the one after it. -/
def dropRepeats (ps : List String) : List String :=
  ps.foldr (fun p qs => if qs.head? = some p then qs else p :: qs) []

@[simp] theorem mem_dropRepeats {ps : List String} {p : String} :
    p ∈ dropRepeats ps ↔ p ∈ ps := by
  induction ps generalizing p with
  | nil => simp [dropRepeats]
  | cons q ps ih =>
    unfold dropRepeats at ih ⊢
    rw [List.foldr_cons]
    split
    · rename_i h
      have hq := List.mem_of_head? h
      rw [ih] at hq
      rw [ih, List.mem_cons]
      exact ⟨Or.inr, fun h => h.elim (fun e => e ▸ hq) id⟩
    · simp [ih]

theorem pairwise_dropRepeats {ps : List String} (h : ps.Pairwise (· ≤ ·)) :
    (dropRepeats ps).Pairwise (· < ·) := by
  induction ps with
  | nil => simp [dropRepeats]
  | cons p ps ih =>
    obtain ⟨hp, h⟩ := List.pairwise_cons.mp h
    have hs := ih h
    have hm (q : String) (hq : q ∈ dropRepeats ps) : p ≤ q := hp q (mem_dropRepeats.mp hq)
    unfold dropRepeats at hs hm ⊢
    rw [List.foldr_cons]
    split
    · exact hs
    · rename_i hne
      refine List.pairwise_cons.mpr ⟨fun q hq => ?_, hs⟩
      generalize ps.foldr (fun p qs => if qs.head? = some p then qs else p :: qs) [] = qs at *
      cases qs with
      | nil => simp at hq
      | cons r qs =>
        have hr : p < r := by
          refine Std.lt_of_le_of_ne (hm r (by simp)) ?_
          intro e
          simp [e] at hne
        rcases List.mem_cons.mp hq with rfl | hq
        · exact hr
        · exact Std.lt_trans hr ((List.pairwise_cons.mp hs).1 q hq)

def arrange (ps : List String) : List String :=
  dropRepeats (ps.mergeSort fun p q => decide (p ≤ q))

@[simp] theorem mem_arrange {ps : List String} {p : String} : p ∈ arrange ps ↔ p ∈ ps := by
  simp [arrange]

theorem pairwise_arrange (ps : List String) : (arrange ps).Pairwise (· < ·) := by
  apply pairwise_dropRepeats
  have h := @List.pairwise_mergeSort String (fun p q => decide (p ≤ q))
    (fun a b c hab hbc => by simp only [decide_eq_true_eq] at *; exact Std.le_trans hab hbc)
    (fun a b => by simpa using Std.le_total) ps
  simpa using h

def ofFit (ps : List String) (hne : ps ≠ []) (hfit : ∀ p ∈ ps, Pattern.fault? p = none) :
    Dictionary where
  patterns := ((arrange ps).map fun p => p.toList.toArray).toArray
  size_pos := by
    obtain ⟨p, hp⟩ := List.exists_mem_of_ne_nil ps hne
    have : arrange ps ≠ [] := List.ne_nil_of_mem (mem_arrange.mpr hp)
    simpa [List.length_pos_iff] using this
  sorted := by
    simp only [List.pairwise_map]
    exact pairwise_arrange ps
  valid := by
    intro q hq
    simp only [List.mem_toArray, List.mem_map, mem_arrange] at hq
    obtain ⟨p, hp, rfl⟩ := hq
    simpa using Pattern.fault?_eq_none_iff.mp (hfit p hp)

/-- The dictionary of the patterns of a list. The first unfit pattern is reported; a list without
patterns makes no dictionary. -/
def ofList (ps : List String) : Except TaggerError Dictionary :=
  match h : firstFault? 0 ps with
  | some e => .error e
  | none =>
    if hne : ps = [] then .error .emptyDictionary
    else .ok (ofFit ps hne (firstFault?_eq_none_iff.mp h))

theorem exists_of_map_ofList {β : Type} {ps : List String} {f : Dictionary → β} {b : β}
    (h : (ofList ps).map f = .ok b) : ∃ d, ofList ps = .ok d ∧ f d = b := by
  cases hps : ofList ps with
  | error e =>
    rw [hps] at h
    cases h
  | ok d =>
    rw [hps] at h
    exact ⟨d, rfl, Except.ok.inj h⟩

def size (d : Dictionary) : Nat := d.patterns.size

def text? (d : Dictionary) (id : Nat) : Option String :=
  d.patterns[id]?.map fun p => String.ofList p.toList

/-- The code of a pattern's end. It is below every code of a code point, since no pattern holds
U+0000. -/
def endCode : Nat := 0

def code (d : Dictionary) (id depth : Nat) : Nat :=
  match d.patterns[id]? with
  | some p =>
    match p[depth]? with
    | some c => c.toNat
    | none => endCode
  | none => endCode

/-- One for each code point and each end of a pattern: at least the number of nodes below the root
of a prefix tree. -/
def weight (d : Dictionary) : Nat := d.patterns.foldl (fun n p => n + (p.size + 1)) 0

end Dictionary

end KeywordTagger
