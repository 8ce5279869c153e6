import KeywordTagger.Automaton
import Mathlib.Data.List.Sort

/-!
Dictionaries of a list. What the patterns of a dictionary are depends only on the texts that the
list holds, and so does whether there is a dictionary: there must be a text, and all must be fit. If
not, the first unfit text is named. A pattern stands before its extensions.
-/

namespace KeywordTagger
namespace Dictionary

variable {ps qs : List String} {d : Dictionary}

theorem ofList_eq_ok_iff : ofList ps = .ok d ↔
    ∃ (hne : ps ≠ []) (hfit : ∀ p ∈ ps, Pattern.fault? p = none), ofFit ps hne hfit = d := by
  unfold ofList
  split
  · rename_i e he
    have faulty : ¬ ∀ p ∈ ps, Pattern.fault? p = none := by
      intro fit
      rw [firstFault?_eq_none_iff.mpr fit] at he
      cases he
    simp [faulty]
  · rename_i hnone
    have fit := firstFault?_eq_none_iff.mp hnone
    split
    · rename_i hnil
      simp [hnil]
    · rename_i hne
      rw [Except.ok.injEq]
      exact ⟨fun h => ⟨hne, fit, h⟩, fun ⟨_, _, h⟩ => h⟩

theorem exists_ofList_iff : (∃ d, ofList ps = .ok d) ↔
    ps ≠ [] ∧ ∀ p ∈ ps, p ≠ "" ∧ '\x00' ∉ p.toList := by
  simp only [ofList_eq_ok_iff, Pattern.fault?_eq_none_iff]
  constructor
  · rintro ⟨d, hne, fit, _⟩
    simpa [hne] using fit
  · rintro ⟨hne, fit⟩
    exact ⟨_, hne, by simpa using fit, rfl⟩

theorem firstFault?_eq_some_iff {index : Nat} {e : TaggerError} : firstFault? index ps = some e ↔
    ∃ i p reason, ps[i]? = some p ∧ Pattern.fault? p = some reason ∧
      (∀ q ∈ ps.take i, Pattern.fault? q = none) ∧ e = .invalidPattern (index + i) reason := by
  induction ps generalizing index with
  | nil => simp [firstFault?]
  | cons p ps ih =>
    cases hp : Pattern.fault? p with
    | some reason =>
      simp only [firstFault?, hp, Option.some.injEq]
      constructor
      · rintro rfl
        exact ⟨0, p, reason, rfl, hp, by simp, rfl⟩
      · rintro ⟨i, q, reason', hq, fault, before, rfl⟩
        cases i with
        | zero =>
          cases hq
          cases hp.symm.trans fault
          rfl
        | succ i => cases hp.symm.trans (before p List.mem_cons_self)
    | none =>
      simp only [firstFault?, hp, ih]
      constructor
      · rintro ⟨i, q, reason, hq, fault, before, rfl⟩
        refine ⟨i + 1, q, reason, hq, fault, List.forall_mem_cons.mpr ⟨hp, before⟩, ?_⟩
        rw [Nat.add_assoc, Nat.add_comm 1 i]
      · rintro ⟨i, q, reason, hq, fault, before, rfl⟩
        cases i with
        | zero =>
          cases hq
          cases hp.symm.trans fault
        | succ i =>
          refine ⟨i, q, reason, hq, fault, (List.forall_mem_cons.mp before).2, ?_⟩
          rw [Nat.add_assoc, Nat.add_comm 1 i]

theorem ofList_eq_error_iff {e : TaggerError} : ofList ps = .error e ↔
    firstFault? 0 ps = some e ∨ ps = [] ∧ e = .emptyDictionary := by
  unfold ofList
  split
  · rename_i fault hfault
    rw [hfault, Except.error.injEq, Option.some.injEq]
    constructor
    · exact .inl
    · rintro (same | ⟨rfl, _⟩)
      · exact same
      · cases hfault
  · rename_i hnone
    split
    · rename_i hnil
      simp [hnil, firstFault?, eq_comm]
    · rename_i hne
      simp [hne, hnone]

theorem mem_patterns_iff (h : ofList ps = .ok d) {p : Pattern} :
    p ∈ d.patterns ↔ ∃ q ∈ ps, q.toList = p.toList := by
  obtain ⟨_, _, rfl⟩ := ofList_eq_ok_iff.mp h
  simp only [ofFit, List.mem_toArray, List.mem_map, mem_arrange]
  constructor
  · rintro ⟨q, hq, rfl⟩
    exact ⟨q, hq, rfl⟩
  · rintro ⟨q, hq, heq⟩
    exact ⟨q, hq, by rw [heq]⟩

theorem arrange_congr (same : ∀ p, p ∈ ps ↔ p ∈ qs) : arrange ps = arrange qs :=
  (pairwise_arrange ps).eq_of_mem_iff (pairwise_arrange qs) fun p => by
    rw [mem_arrange, mem_arrange, same]

theorem ofFit_congr (same : ∀ p, p ∈ ps ↔ p ∈ qs) (hps hfps hqs hfqs) :
    ofFit ps hps hfps = ofFit qs hqs hfqs := by
  simp only [ofFit, arrange_congr same]

theorem ofList_congr (same : ∀ p, p ∈ ps ↔ p ∈ qs) (h : ofList ps = .ok d) :
    ofList qs = .ok d := by
  obtain ⟨hne, fit, rfl⟩ := ofList_eq_ok_iff.mp h
  obtain ⟨p, hp⟩ := List.exists_mem_of_ne_nil ps hne
  have hne' : qs ≠ [] := List.ne_nil_of_mem ((same p).mp hp)
  have fit' : ∀ p ∈ qs, Pattern.fault? p = none := fun p hp => fit p ((same p).mpr hp)
  exact ofList_eq_ok_iff.mpr ⟨hne', fit', ofFit_congr (fun p => (same p).symm) _ _ _ _⟩

theorem not_lt_of_prefix {u w : List Char} (h : u <+: w) : ¬ w < u := by
  induction u generalizing w with
  | nil => exact List.not_lt_nil w
  | cons c u ih =>
    obtain ⟨rest, rfl⟩ := h
    rw [List.cons_append, List.cons_lt_cons_iff]
    rintro (before | ⟨_, before⟩)
    · exact Std.lt_irrefl before
    · exact ih (List.prefix_append u rest) before

theorem le_of_prefix {i j : Nat} {p q : Pattern} (hp : d.patterns[i]? = some p)
    (hq : d.patterns[j]? = some q) (h : p.toList <+: q.toList) : i ≤ j := by
  obtain ⟨hi, rfl⟩ := Array.getElem?_eq_some_iff.mp hp
  obtain ⟨hj, rfl⟩ := Array.getElem?_eq_some_iff.mp hq
  by_contra after
  exact not_lt_of_prefix h
    (List.pairwise_iff_getElem.mp d.sorted j i hj hi (Nat.lt_of_not_le after))

end Dictionary

theorem Automaton.compile_eq_ok_iff {s : Settings} {ps : List String} {a : Automaton} :
    compile s ps = .ok a ↔ ∃ d, Dictionary.ofList ps = .ok d ∧ ofDictionary s d = a := by
  constructor
  · exact Dictionary.exists_of_map_ofList
  · rintro ⟨d, hd, rfl⟩
    rw [compile, hd]
    rfl

end KeywordTagger
