import KeywordTagger.Scan
import Mathlib.Data.List.Induction

/-!
Recording matches. When matches come in ascending order of their starts, recording one after the
other keeps of those that start at one position the last.
-/

namespace KeywordTagger.Match

/-- The matches that no later match with the same start follows. -/
def keepLast : List Match → List Match
  | [] => []
  | m :: ms => if ms.any fun n => n.start = m.start then keepLast ms else m :: keepLast ms

theorem any_start_iff {m : Match} {ms : List Match} :
    (ms.any fun n => n.start = m.start) = true ↔ ∃ n ∈ ms, n.start = m.start := by
  simp [List.any_eq_true]

theorem keepLast_sublist (ms : List Match) : (keepLast ms).Sublist ms := by
  induction ms with
  | nil => exact .slnil
  | cons m ms ih =>
    rw [keepLast]
    split
    · exact ih.cons m
    · exact ih.cons_cons m

theorem mem_of_mem_keepLast {m : Match} {ms : List Match} (h : m ∈ keepLast ms) : m ∈ ms :=
  (keepLast_sublist ms).subset h

theorem keepLast_append_singleton (ms : List Match) (m : Match) :
    keepLast (ms ++ [m]) = (keepLast ms).filter (fun n => n.start ≠ m.start) ++ [m] := by
  induction ms with
  | nil => rfl
  | cons n ms ih =>
    rw [List.cons_append, keepLast, keepLast, ih, List.any_append]
    by_cases later : (ms.any fun k => k.start = n.start) = true
    · rw [later, Bool.true_or, if_pos rfl, if_pos rfl]
    · rw [Bool.eq_false_iff.mpr later, Bool.false_or, if_neg Bool.false_ne_true]
      by_cases heq : n.start = m.start
      · simp [heq]
      · simp [heq, Ne.symm heq]

theorem pairwise_keepLast {ms : List Match} (h : ms.Pairwise fun m n => m.start ≤ n.start) :
    (keepLast ms).Pairwise fun m n => m.start < n.start := by
  induction ms with
  | nil => exact .nil
  | cons m ms ih =>
    obtain ⟨first, rest⟩ := List.pairwise_cons.mp h
    rw [keepLast]
    split
    · exact ih rest
    · rename_i none
      refine List.pairwise_cons.mpr ⟨fun n hn => ?_, ih rest⟩
      have hn := mem_of_mem_keepLast hn
      refine Nat.lt_of_le_of_ne (first n hn) fun heq => ?_
      exact none (any_start_iff.mpr ⟨n, hn, heq.symm⟩)

theorem record_toArray {ms : List Match} {m : Match}
    (ascending : ms.Pairwise fun k n => k.start < n.start) (le : ∀ n ∈ ms, n.start ≤ m.start) :
    record ms.toArray m = (ms.filter (fun n => n.start ≠ m.start) ++ [m]).toArray := by
  induction ms using List.reverseRecOn with
  | nil => rfl
  | append_singleton ms n _ =>
    obtain ⟨_, _, below⟩ := List.pairwise_append.mp ascending
    have hn : n.start ≤ m.start := le n (by simp)
    have keep : ms.filter (fun k => k.start ≠ m.start) = ms := by
      refine List.filter_eq_self.mpr fun k hk => ?_
      have := below k hk n (List.mem_singleton_self n)
      simp
      omega
    rw [List.filter_append, keep, record]
    by_cases heq : n.start = m.start
    · simp [heq]
    · simp [heq]

theorem foldl_record {ms : List Match} (h : ms.Pairwise fun m n => m.start ≤ n.start) :
    ms.foldl record #[] = (keepLast ms).toArray := by
  induction ms using List.reverseRecOn with
  | nil => rfl
  | append_singleton ms m ih =>
    obtain ⟨before, _, le⟩ := List.pairwise_append.mp h
    rw [List.foldl_append, ih before, keepLast_append_singleton]
    refine record_toArray (pairwise_keepLast before) fun n hn => ?_
    exact le n (mem_of_mem_keepLast hn) m (List.mem_singleton_self m)

/-! Matches that are found position by position. -/

theorem mem_keepLast_append_iff {m : Match} {ms : List Match} {o : Option Match} :
    m ∈ keepLast (ms ++ o.toList) ↔
      (m ∈ keepLast ms ∧ ∀ later, o = some later → later.start ≠ m.start) ∨ o = some m := by
  cases o with
  | none => simp
  | some b =>
    simp only [Option.toList_some, keepLast_append_singleton, List.mem_append, List.mem_filter,
      List.mem_singleton, decide_eq_true_eq, Option.some.injEq, forall_eq']
    rw [ne_comm, eq_comm (a := m)]

theorem filterMap_range_succ (found : Nat → Option Match) (n : Nat) :
    (List.range (n + 1)).filterMap found =
      (List.range n).filterMap found ++ (found n).toList := by
  rw [List.range_succ, List.filterMap_append]
  cases hn : found n <;> simp [hn]

theorem mem_keepLast_range_iff (found : Nat → Option Match) {m : Match} (n : Nat) :
    m ∈ keepLast ((List.range n).filterMap found) ↔ ∃ k, k < n ∧ found k = some m ∧
      ∀ j later, k < j → j < n → found j = some later → later.start ≠ m.start := by
  induction n with
  | zero => simp [keepLast]
  | succ n ih =>
    rw [filterMap_range_succ, mem_keepLast_append_iff, ih]
    constructor
    · rintro (⟨⟨k, hk, hm, last⟩, newest⟩ | hm)
      · refine ⟨k, Nat.lt_succ_of_lt hk, hm, fun j later hkj hj hfound => ?_⟩
        rcases Nat.lt_succ_iff_lt_or_eq.mp hj with hj | rfl
        · exact last j later hkj hj hfound
        · exact newest later hfound
      · exact ⟨n, Nat.lt_succ_self n, hm, fun j _ hnj hj => by omega⟩
    · rintro ⟨k, hk, hm, last⟩
      rcases Nat.lt_succ_iff_lt_or_eq.mp hk with hk | rfl
      · have before : ∀ j later, k < j → j < n → found j = some later → later.start ≠ m.start :=
          fun j later hkj hj => last j later hkj (Nat.lt_succ_of_lt hj)
        exact .inl ⟨⟨k, hk, hm, before⟩, fun later => last n later hk (Nat.lt_succ_self n)⟩
      · exact .inr hm

end KeywordTagger.Match
