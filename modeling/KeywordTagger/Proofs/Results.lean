import KeywordTagger.FileError
import Mathlib.Data.List.Basic

/-!
Results of steps that may fail. Steps in a row succeed when each of them does, and a list of steps
gives what its members give.
-/

namespace KeywordTagger

variable {ε δ α β : Type} {x : Except ε α} {a : α} {b : β}

theorem bind_eq_ok {f : α → Except ε β} : x >>= f = .ok b ↔ ∃ a, x = .ok a ∧ f a = .ok b := by
  cases x with
  | error e => simp [bind, Except.bind]
  | ok a =>
    refine ⟨fun h => ⟨a, rfl, h⟩, ?_⟩
    rintro ⟨_, ⟨⟩, h⟩
    exact h

theorem map_eq_ok {f : α → β} : x.map f = .ok b ↔ ∃ a, x = .ok a ∧ f a = b := by
  cases x with
  | error e => simp [Except.map]
  | ok a =>
    refine ⟨fun h => ⟨a, rfl, Except.ok.inj h⟩, ?_⟩
    rintro ⟨_, ⟨⟩, h⟩
    exact congrArg Except.ok h

theorem mapError_eq_ok {wrap : ε → δ} : x.mapError wrap = .ok a ↔ x = .ok a := by
  cases x with
  | error e => simp [Except.mapError]
  | ok b => exact ⟨fun h => congrArg Except.ok (Except.ok.inj h), congrArg (Except.mapError wrap)⟩

section MapM

variable {f : α → Except ε β} {xs : List α} {ys : List β}

theorem mapM_cons_eq_ok :
    (a :: xs).mapM f = .ok ys ↔ ∃ b bs, f a = .ok b ∧ xs.mapM f = .ok bs ∧ b :: bs = ys := by
  rw [List.mapM_cons, bind_eq_ok]
  refine exists_congr fun b => ?_
  rw [bind_eq_ok]
  constructor
  · rintro ⟨first, bs, rest, ⟨⟩⟩
    exact ⟨bs, first, rest, rfl⟩
  · rintro ⟨bs, first, rest, rfl⟩
    exact ⟨first, bs, rest, rfl⟩

theorem exists_of_mem_mapM (h : xs.mapM f = .ok ys) (hb : b ∈ ys) : ∃ a ∈ xs, f a = .ok b := by
  induction xs generalizing ys with
  | nil =>
    cases h
    cases hb
  | cons a xs ih =>
    obtain ⟨b', bs, first, rest, rfl⟩ := mapM_cons_eq_ok.mp h
    rcases List.mem_cons.mp hb with rfl | hb
    · exact ⟨a, List.mem_cons_self, first⟩
    · obtain ⟨later, mem, heq⟩ := ih rest hb
      exact ⟨later, List.mem_cons_of_mem a mem, heq⟩

theorem exists_of_mapM_error {e : ε} (h : xs.mapM f = .error e) : ∃ a ∈ xs, f a = .error e := by
  induction xs with
  | nil => cases h
  | cons a xs ih =>
    rw [List.mapM_cons] at h
    cases first : f a with
    | error e' =>
      rw [first] at h
      cases h
      exact ⟨a, List.mem_cons_self, first⟩
    | ok b =>
      cases rest : xs.mapM f with
      | error e' =>
        rw [first, rest] at h
        cases h
        obtain ⟨later, mem, heq⟩ := ih rest
        exact ⟨later, List.mem_cons_of_mem a mem, heq⟩
      | ok bs =>
        rw [first, rest] at h
        cases h

end MapM

end KeywordTagger
