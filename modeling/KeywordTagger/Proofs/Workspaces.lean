import KeywordTagger.Command.Workspace
import KeywordTagger.Proofs.Results

/-!
Trees of files. Putting a file at a place changes what stands there and nothing else. What is created
is an empty file where its path leads, and what is opened holds bytes unless it is a directory.
-/

namespace KeywordTagger.Command.Workspace

variable {w after : Workspace} {path : String} {place q : Place}

theorem find?_replaced (entries : List (Place × Entry)) (contents : ByteArray) (q : Place) :
    ((entries.map fun e => if e.1 = place then (place, .file contents) else e).find?
        fun e => e.1 = q) =
      (entries.find? fun e => e.1 = q).map fun e =>
        if q = place then (place, .file contents) else e := by
  induction entries with
  | nil => rfl
  | cons e entries ih =>
    rw [List.map_cons]
    by_cases here : e.1 = q
    · by_cases there : q = place
      · simp [here, there]
      · simp [here, there]
    · have kept : ¬ (if e.1 = place then (place, Entry.file contents) else e).1 = q := by
        split
        · rename_i same
          exact fun heq => here (same.trans heq)
        · exact here
      rw [List.find?_cons_of_neg (by simpa using kept),
        List.find?_cons_of_neg (by simpa using here), ih]

theorem entry?_putFile (contents : ByteArray) (hplace : place ≠ []) :
    entry? (w.putFile place contents) q =
      if q = place then some (.file contents) else w.entry? q := by
  unfold entry?
  by_cases top : q = []
  · have other : ¬ q = place := fun same => hplace (same ▸ top)
    rw [if_neg other, if_pos top, if_pos top]
  · rw [if_neg top, if_neg top, putFile]
    split
    · rename_i listed
      rw [find?_replaced]
      by_cases same : q = place
      · rw [same, if_pos rfl]
        cases found : w.entries.find? fun e => e.1 = place with
        | none =>
          rw [List.find?_eq_none] at found
          obtain ⟨e, he, heq⟩ := List.any_eq_true.mp listed
          exact absurd heq (found e he)
        | some e => simp only [if_true, Option.map_some]
      · simp only [if_neg same, Option.map_id']
    · rename_i unlisted
      rw [List.find?_append]
      by_cases same : q = place
      · have absent : (w.entries.find? fun e => e.1 = place) = none := by
          rw [List.find?_eq_none]
          exact fun e he heq => unlisted (List.any_eq_true.mpr ⟨e, he, heq⟩)
        rw [same, absent]
        simp
      · simp [same, Ne.symm same]

theorem stdin_putFile (contents : ByteArray) : (w.putFile place contents).stdin = w.stdin := by
  unfold putFile
  split <;> rfl

theorem stdout_putFile (contents : ByteArray) : (w.putFile place contents).stdout = w.stdout := by
  unfold putFile
  split <;> rfl

theorem faults_putFile (contents : ByteArray) : (w.putFile place contents).faults = w.faults := by
  unfold putFile
  split <;> rfl

/-- A tree after the file at a place has been made or has got other contents, and nothing else. -/
structure Writes (w : Workspace) (place : Place) (contents : ByteArray) (after : Workspace) :
    Prop where
  file : after.entry? place = some (.file contents)
  others : ∀ q, q ≠ place → after.entry? q = w.entry? q
  stdin : after.stdin = w.stdin
  stdout : after.stdout = w.stdout
  faults : after.faults = w.faults

theorem writes_putFile (contents : ByteArray) (hplace : place ≠ []) :
    w.Writes place contents (w.putFile place contents) where
  file := by rw [entry?_putFile contents hplace, if_pos rfl]
  others q other := by rw [entry?_putFile contents hplace, if_neg other]
  stdin := stdin_putFile contents
  stdout := stdout_putFile contents
  faults := faults_putFile contents

namespace Writes

variable {contents later : ByteArray} {last : Workspace}

theorem trans (h : w.Writes place contents after) (next : after.Writes place later last) :
    w.Writes place later last where
  file := next.file
  others q other := (next.others q other).trans (h.others q other)
  stdin := next.stdin.trans h.stdin
  stdout := next.stdout.trans h.stdout
  faults := next.faults.trans h.faults

theorem read (h : w.Writes place contents after) : after.read place = .ok contents := by
  rw [Workspace.read, h.file]

theorem read_other (h : w.Writes place contents after) (other : q ≠ place) :
    after.read q = w.read q := by
  rw [Workspace.read, Workspace.read, h.others q other]

end Writes

/-! Opening and creating. -/

theorem permit_eq_ok {α : Type} {fault : Option FileError} {a b : α} (h : permit fault a = .ok b) :
    fault = none ∧ a = b := by
  cases fault with
  | some e => cases h
  | none => exact ⟨rfl, Except.ok.inj h⟩

theorem entry?_of_openSource (h : w.openSource path = .ok place) : w.entry? place ≠ none := by
  obtain ⟨p, -, h⟩ := bind_eq_ok.mp h
  split at h
  · cases h
  · rename_i contents file
    split at h
    · cases h
    · rw [← (permit_eq_ok h).2, file]
      exact Option.some_ne_none _
  · rename_i directory
    rw [← (permit_eq_ok h).2, directory]
    exact Option.some_ne_none _

/-- Only a directory can be opened and hold no bytes. -/
theorem directory_of_openSource {e : FileError} (opened : w.openSource path = .ok place)
    (unread : w.read place = .error e) : w.entry? place = some .directory := by
  cases found : w.entry? place with
  | none => exact absurd found (entry?_of_openSource opened)
  | some entry =>
    cases entry with
    | directory => rfl
    | file contents =>
      rw [read, found] at unread
      cases unread

/-- What is created is an empty file where the path leads, unless a directory is there. -/
theorem createSink_eq_ok (h : w.createSink path = .ok (place, after)) :
    w.walk path (parts path).2 = .ok place ∧ w.entry? place ≠ some .directory ∧
      after = w.putFile place .empty := by
  unfold createSink at h
  split at h
  · obtain ⟨_, -, refused⟩ := bind_eq_ok.mp h
    cases refused
  · obtain ⟨p, reached, h⟩ := bind_eq_ok.mp h
    split at h
    · cases h
    · rename_i other
      obtain ⟨-, made⟩ := permit_eq_ok h
      cases made
      exact ⟨reached, other, rfl⟩

theorem ne_nil_of_createSink (h : w.createSink path = .ok (place, after)) : place ≠ [] := by
  rintro rfl
  exact (createSink_eq_ok h).2.1 rfl

theorem writes_createSink (h : w.createSink path = .ok (place, after)) :
    w.Writes place .empty after := by
  rw [(createSink_eq_ok h).2.2]
  exact writes_putFile .empty (ne_nil_of_createSink h)

end KeywordTagger.Command.Workspace
