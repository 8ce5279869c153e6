import KeywordTagger.Proofs.Placement
import KeywordTagger.Proofs.Stems

/-!
Double arrays that represent a dictionary. Each stem has a state of its own, an edge leads from the
state of a stem to the state of the stem that is one code point longer, and the state of a pattern
gives its id. There is no other edge and no other id, whatever numbers the array is asked for, so a
walk from the start recognises the stems.
-/

namespace KeywordTagger

open Dictionary

namespace DoubleArray

/-- The edges and outputs of the array are those of the dictionary, when `st` gives the state of
each stem. -/
structure Represents (a : DoubleArray) (d : Dictionary) (st : List Char → Nat) : Prop where
  start : st [] = startState
  pos : ∀ {w : List Char}, d.isStem w = true → 0 < st w
  inj : ∀ {v w : List Char}, d.isStem v = true → d.isStem w = true → st v = st w → v = w
  next_iff : ∀ {state code target : Nat}, a.next? state code = some target ↔
    ∃ (w : List Char) (c : Char), d.isStem (w ++ [c]) = true ∧ state = st w ∧ code = c.toNat ∧
      target = st (w ++ [c])
  output_iff : ∀ {state id : Nat}, a.output? state = some id ↔
    ∃ p, d.patterns[id]? = some p ∧ state = st p.toList

def stateOf? (a : DoubleArray) (word : List Char) : Option Nat :=
  if (a.walk word).2 then (a.walk word).1.back? else none

namespace Represents

variable {a : DoubleArray} {d : Dictionary} {st : List Char → Nat}

theorem next_eq (h : a.Represents d st) {w : List Char} (hw : d.isStem w = true) (c : Char) :
    a.next? (st w) c.toNat = if d.isStem (w ++ [c]) then some (st (w ++ [c])) else none := by
  split
  · rename_i stem
    exact h.next_iff.mpr ⟨w, c, stem, rfl, rfl, rfl⟩
  · rename_i hstem
    rw [Option.eq_none_iff_forall_ne_some]
    intro target hnext
    obtain ⟨v, b, stem, hst, hcode, _⟩ := h.next_iff.mp hnext
    have hv : v = w := h.inj (isStem_of_append stem) hw hst.symm
    have hb : b = c := Char.ext (UInt32.toNat_inj.mp hcode.symm)
    exact hstem (hv ▸ hb ▸ stem)

/-- No stem holds U+0000, so nothing is read with the code of an end. -/
theorem next_endCode (h : a.Represents d st) (state : Nat) : a.next? state endCode = none := by
  rw [Option.eq_none_iff_forall_ne_some]
  intro target hnext
  obtain ⟨w, c, stem, _, hcode, _⟩ := h.next_iff.mp hnext
  exact toNat_ne_endCode stem hcode.symm

theorem output_eq (h : a.Represents d st) {w : List Char} (hw : d.isStem w = true) :
    a.output? (st w) = d.idOf? w := by
  apply Option.ext
  intro i
  rw [h.output_iff, idOf?_eq_some_iff]
  constructor
  · rintro ⟨p, hp, hst⟩
    exact ⟨p, hp, (h.inj hw (isStem_pattern hp) hst).symm⟩
  · rintro ⟨p, hp, rfl⟩
    exact ⟨p, hp, rfl⟩

theorem state_eq_start_iff (h : a.Represents d st) {w : List Char} (hw : d.isStem w = true) :
    st w = startState ↔ w = [] := by
  constructor
  · intro heq
    exact h.inj hw isStem_nil (heq.trans h.start.symm)
  · rintro rfl
    exact h.start

/-- A stem is a pattern or can be extended, so its state lies in the array. -/
theorem state_lt_size (h : a.Represents d st) {w : List Char} (hw : d.isStem w = true) :
    st w < a.size := by
  obtain ⟨i, p, hp, rest, hrest⟩ := isStem_iff.mp hw
  cases rest with
  | nil =>
    rw [List.append_nil] at hrest
    have hout := h.output_iff.mpr ⟨p, hp, rfl⟩
    rw [← hrest, output?] at hout
    split at hout
    · rename_i hslot
      exact (Array.getElem?_eq_some_iff.mp hslot).1
    · cases hout
  | cons c rest =>
    have stem : d.isStem (w ++ [c]) = true :=
      isStem_iff.mpr ⟨i, p, hp, rest, by rw [← hrest, List.append_assoc]; rfl⟩
    have hnext := h.next_iff.mpr ⟨w, c, stem, rfl, rfl, rfl⟩
    rw [next?] at hnext
    split at hnext
    · rename_i hslot
      have hlt := (Array.getElem?_eq_some_iff.mp hslot).1
      exact Nat.lt_of_le_of_lt (Nat.le_add_right _ _) hlt
    · cases hnext

theorem exists_slot (h : a.Represents d st) {w : List Char} (hw : d.isStem w = true)
    (hne : w ≠ []) : ∃ s ∈ a.slots, s.base = (st w : Int) := by
  rcases List.eq_nil_or_concat w with rfl | ⟨v, c, rfl⟩
  · exact absurd rfl hne
  · rw [List.concat_eq_append] at hw ⊢
    have hnext := h.next_iff.mpr ⟨v, c, hw, rfl, rfl, rfl⟩
    rw [next?] at hnext
    split at hnext
    · rename_i s hs
      obtain ⟨⟨_, hpos⟩, hbase⟩ := Option.ite_none_right_eq_some.mp hnext
      refine ⟨s, Array.mem_of_getElem? hs, ?_⟩
      have := Option.some.inj hbase
      omega
    · cases hnext

theorem walkFrom_eq (h : a.Represents d st) (v w : List Char) (passed : Array Nat)
    (hv : d.isStem v = true) : (a.walkFrom passed (st v) w).2 = d.isStem (v ++ w) ∧
      (d.isStem (v ++ w) = true → (a.walkFrom passed (st v) w).1.back? = some (st (v ++ w))) := by
  induction w generalizing v passed with
  | nil =>
    rw [List.append_nil, walkFrom, hv]
    exact ⟨rfl, fun _ => Array.back?_push⟩
  | cons c w ih =>
    rw [walkFrom, h.next_eq hv, List.append_cons v c w]
    by_cases stem : d.isStem (v ++ [c]) = true
    · rw [if_pos stem]
      exact ih (v ++ [c]) (passed.push (st v)) stem
    · have hlong : d.isStem (v ++ [c] ++ w) = false :=
        Bool.eq_false_iff.mpr fun hl => stem (isStem_of_append hl)
      rw [if_neg stem, hlong]
      exact ⟨rfl, fun hl => by cases hl⟩

theorem walk_eq (h : a.Represents d st) (w : List Char) : (a.walk w).2 = d.isStem w ∧
    (d.isStem w = true → (a.walk w).1.back? = some (st w)) := by
  have hwalk := h.walkFrom_eq [] w #[] isStem_nil
  rw [h.start] at hwalk
  exact hwalk

theorem stateOf_eq (h : a.Represents d st) (w : List Char) :
    a.stateOf? w = if d.isStem w then some (st w) else none := by
  obtain ⟨hread, hback⟩ := h.walk_eq w
  rw [stateOf?, hread]
  split
  · exact hback ‹_›
  · rfl

end Represents

end DoubleArray

end KeywordTagger
