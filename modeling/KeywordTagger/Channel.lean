/-!
Channels: first in, first out, without a bound and without loss. What waits in a channel is the list
`toList`, oldest first; every operation is told by what it does to that list.
-/

namespace KeywordTagger

structure Channel (α : Type) where
  /-- The oldest messages, oldest first. -/
  front : List α := []
  /-- The messages after them, newest first. -/
  back : List α := []

namespace Channel

variable {α : Type}

def toList (c : Channel α) : List α := c.front ++ c.back.reverse

def send (c : Channel α) (a : α) : Channel α := { c with back := a :: c.back }

def receive? (c : Channel α) : Option (α × Channel α) :=
  match c.front with
  | a :: front => some (a, { c with front })
  | [] =>
    match c.back.reverse with
    | a :: front => some (a, { front })
    | [] => none

@[simp] theorem toList_send (c : Channel α) (a : α) : (c.send a).toList = c.toList ++ [a] := by
  simp [toList, send]

theorem receive?_eq_none_iff {c : Channel α} : c.receive? = none ↔ c.toList = [] := by
  rcases c with ⟨_ | ⟨a, front⟩, back⟩
  · cases h : back.reverse <;> simp [receive?, toList, h]
  · simp [receive?, toList]

theorem receive?_eq_some {c d : Channel α} {a : α} (h : c.receive? = some (a, d)) :
    c.toList = a :: d.toList := by
  rcases c with ⟨_ | ⟨b, front⟩, back⟩
  · cases hb : back.reverse with
    | nil => simp [receive?, hb] at h
    | cons b front =>
      simp only [receive?, hb, Option.some.injEq, Prod.mk.injEq] at h
      obtain ⟨rfl, rfl⟩ := h
      simp [toList, hb]
  · simp only [receive?, Option.some.injEq, Prod.mk.injEq] at h
    obtain ⟨rfl, rfl⟩ := h
    simp [toList]

end Channel

end KeywordTagger
