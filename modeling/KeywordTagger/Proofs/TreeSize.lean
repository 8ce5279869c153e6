import KeywordTagger.Encoding
import KeywordTagger.Proofs.TreeShape
import Mathlib.Algebra.GroupWithZero.Nat

/-!
How many nodes can lie below a node. Each pattern of its span has one code point or end for every
depth below; the children of a node share this room out among them and lose one place for each
pattern, so counting room bounds the encoding of a tree that grows while it is visited.
-/

namespace KeywordTagger

namespace Dictionary

variable {d : Dictionary}

def lengthOf (d : Dictionary) (id : Nat) : Nat := (d.patterns[id]?.map Array.size).getD 0

def room (d : Dictionary) (depth left right : Nat) : Nat :=
  ((List.range' left (right - left)).map fun i => d.lengthOf i + 2 - depth).sum

theorem room_self (depth left : Nat) : d.room depth left left = 0 := by
  simp [room]

theorem room_split (depth : Nat) {left mid right : Nat} (hl : left ≤ mid) (hr : mid ≤ right) :
    d.room depth left right = d.room depth left mid + d.room depth mid right := by
  have hspan : List.range' left (right - left) =
      List.range' left (mid - left) ++ List.range' mid (right - mid) := by
    obtain ⟨k, rfl⟩ := Nat.exists_eq_add_of_le hl
    rw [show left + k - left = k by omega, show left + k = left + 1 * k by omega,
      List.range'_append]
    congr 1
    omega
  simp only [room, hspan, List.map_append, List.sum_append]

theorem lengthOf_of_pattern {id : Nat} {p : Pattern} (hp : d.patterns[id]? = some p) :
    d.lengthOf id = p.toList.length := by
  simp [lengthOf, hp]

theorem room_succ (depth left : Nat) (n : Nat)
    (long : ∀ i, left ≤ i → i < left + n → depth ≤ d.lengthOf i) :
    d.room (depth + 1) left (left + n) + n = d.room depth left (left + n) := by
  induction n with
  | zero => simp [room]
  | succ n ih =>
    have hlen := long (left + n) (Nat.le_add_right _ _) (by omega)
    have ih := ih fun i hl hr => long i hl (by omega)
    have last (depth : Nat) : d.room depth (left + n) (left + (n + 1)) =
        d.lengthOf (left + n) + 2 - depth := by
      simp [room, show left + (n + 1) - (left + n) = 1 by omega]
    rw [room_split (depth + 1) (Nat.le_add_right left n) (by omega),
      room_split depth (Nat.le_add_right left n) (by omega), last, last]
    omega

end Dictionary

namespace Node

def room (d : Dictionary) (n : Node) : Nat := d.room n.depth n.left n.right

end Node

namespace Dictionary

variable {d : Dictionary}

theorem sum_room_of_runs {depth left right : Nat} {ns : List Node}
    (h : Runs d depth left ns right) :
    (ns.map (Node.room d)).sum = d.room (depth + 1) left right := by
  induction ns generalizing left with
  | nil =>
    cases (h : left = right)
    exact (room_self _ _).symm
  | cons n ns ih =>
    obtain ⟨run, _, rest⟩ := h
    rw [List.map_cons, List.sum_cons, ih rest,
      room_split (depth + 1) (Nat.le_of_lt run.nonempty) rest.le]
    simp only [Node.room, run.depth_eq, run.left_eq]

theorem room_below_lt {n : Node} {w : List Char} (h : n.Covers d w) :
    d.room (n.depth + 1) n.left n.right < n.room d := by
  obtain ⟨k, hk⟩ := Nat.exists_eq_add_of_lt h.nonempty
  have long : ∀ i, n.left ≤ i → i < n.left + (k + 1) → n.depth ≤ d.lengthOf i := by
    intro i hl hr
    obtain ⟨p, hp, hw⟩ := (h.mem_iff i).mp ⟨hl, by omega⟩
    rw [lengthOf_of_pattern hp, h.depth]
    exact hw.length_le
  have := room_succ n.depth n.left (k + 1) long
  rw [Node.room, hk, Nat.add_assoc]
  omega

theorem room_pos {n : Node} {w : List Char} (h : n.Closes d w) : 0 < n.room d := by
  obtain ⟨p, hp, hw⟩ := h.pattern
  rw [Node.room, Dictionary.room, h.single, h.depth]
  simp only [Nat.add_sub_cancel_left, List.range'_one, List.map_singleton, List.sum_singleton,
    lengthOf_of_pattern hp, hw]
  omega

theorem room_root (d : Dictionary) : d.room 1 0 d.size = d.weight := by
  have lengths : (List.range' 0 (d.size - 0)).map (fun i => d.lengthOf i + 2 - 1) =
      d.patterns.toList.map fun p => p.size + 1 := by
    apply List.ext_getElem
    · simp [Dictionary.size]
    · intro i hi hi'
      have hlt : i < d.patterns.size := by simpa using hi'
      simp [lengthOf, Array.getElem?_eq_getElem hlt]
  have total (ps : List Pattern) (n : Nat) :
      ps.foldl (fun n p => n + (p.size + 1)) n = n + (ps.map fun p => p.size + 1).sum := by
    induction ps generalizing n with
    | nil => rfl
    | cons p ps ih =>
      rw [List.foldl_cons, ih, List.map_cons, List.sum_cons, Nat.add_assoc]
  rw [room, lengths, weight, ← Array.foldl_toList, total, Nat.zero_add]

end Dictionary

end KeywordTagger
