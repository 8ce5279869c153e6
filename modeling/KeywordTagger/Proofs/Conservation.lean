import KeywordTagger.Proofs.PoolSteps
import Mathlib.Data.List.Basic

/-!
Conservation of the lines of a call. In every state that a call can reach each of its lines is unsent,
queued, held by one worker, in the channel of results or received, and exactly once. So what is
received when nothing is missing is every line, tagged and in order, and nothing is left for the next
call.
-/

namespace KeywordTagger

open scoped List

namespace Call

theorem index_ofLines (a : Automaton) (lines : List ByteArray) :
    ((ofLines lines).unsent.map a.tagged).map Job.index = List.range lines.length := by
  rw [List.range_eq_range', ← List.zipIdx_map_snd 0 lines, ofLines, List.map_map, List.map_map]
  rfl

theorem mem_ofLines (a : Automaton) {lines : List ByteArray} {i : Nat} {line : ByteArray}
    (h : lines[i]? = some line) :
    { index := i, bytes := a.tagLine line } ∈ (ofLines lines).unsent.map a.tagged := by
  refine List.mem_map.mpr ⟨{ index := i, bytes := line }, List.mem_map.mpr ⟨(line, i), ?_, rfl⟩, rfl⟩
  exact List.mk_mem_zipIdx_iff_getElem?.mpr h

end Call

namespace Pool

/-- The lines that are not received yet, wherever they are, each as it will be received. -/
def outstanding (p : Pool) (c : Call) : List Job :=
  (c.unsent ++ p.tasks.toList ++ p.held).map p.automaton.tagged ++ p.results.toList

structure Quiet (p : Pool) : Prop where
  tasks : p.tasks.toList = []
  held : p.held = []

structure Idle (a : Automaton) (p : Pool) : Prop extends Quiet p where
  automaton : p.automaton = a
  results : p.results.toList = []

/-- Each line of the call is outstanding or among those received, once, and those received stand at
their numbers. -/
structure Accounts (a : Automaton) (lines : List ByteArray) (p : Pool) (c : Call)
    (received : List Job) : Prop where
  automaton : p.automaton = a
  conserved : (p.outstanding c ++ received).Perm ((Call.ofLines lines).unsent.map a.tagged)
  placed : ∀ job ∈ received, c.received[job.index]? = some job.bytes
  size : c.received.size = lines.length
  missing : c.missing + received.length = lines.length

section Accounts

variable {a : Automaton} {lines : List ByteArray} {p : Pool} {c : Call} {received : List Job}

theorem Accounts.nodup (h : Accounts a lines p c received) :
    ((p.outstanding c ++ received).map Job.index).Nodup := by
  rw [(h.conserved.map Job.index).nodup_iff, Call.index_ofLines]
  exact List.nodup_range

theorem Accounts.index_lt (h : Accounts a lines p c received) {job : Job}
    (hjob : job ∈ p.outstanding c) : job.index < lines.length := by
  have mem := (h.conserved.map Job.index).mem_iff.mp
    (List.mem_map_of_mem (List.mem_append_left received hjob))
  rw [Call.index_ofLines] at mem
  exact List.mem_range.mp mem

/-- A step that only moves lines keeps the account. -/
theorem Accounts.moved (h : Accounts a lines p c received) {q : Pool} {c' : Call}
    (same : q.automaton = p.automaton) (moves : (q.outstanding c').Perm (p.outstanding c))
    (kept : c'.received = c.received) (missing : c'.missing = c.missing) :
    Accounts a lines q c' received where
  automaton := same.trans h.automaton
  conserved := (moves.append_right received).trans h.conserved
  placed := kept ▸ h.placed
  size := kept ▸ h.size
  missing := missing ▸ h.missing

theorem Accounts.send (h : Accounts a lines p c received) :
    Accounts a lines (p.send c).1 (p.send c).2 received := by
  rcases p.send_cases c with ⟨_, heq⟩ | ⟨job, unsent, hunsent, heq⟩
  · rw [heq]
    exact h
  · rw [heq]
    refine h.moved rfl ?_ rfl rfl
    have moves : unsent ++ p.tasks.toList ++ job :: p.held ~
        job :: (unsent ++ p.tasks.toList ++ p.held) := List.perm_middle
    simpa [outstanding, hunsent, held] using
      (moves.map p.automaton.tagged).append_right p.results.toList

theorem Accounts.take (h : Accounts a lines p c received) (i : Nat) :
    Accounts a lines (p.take i) c received := by
  rcases p.take_cases i with ⟨_, heq⟩ | ⟨w, job, tasks, hw, idle, ht, heq⟩
  · rw [heq]
    exact h
  · rw [heq]
    refine h.moved rfl ?_ rfl rfl
    have takes := held_setWorker (p := { p with tasks }) { w with task := some job } hw
    rw [idle] at takes
    let q := { p with tasks }.setWorker i { w with task := some job }
    have moves : c.unsent ++ tasks.toList ++ q.held ~ c.unsent ++ p.tasks.toList ++ p.held := by
      rw [Channel.receive?_eq_some ht]
      calc
        c.unsent ++ tasks.toList ++ q.held
        _ ~ c.unsent ++ tasks.toList ++ job :: p.held := takes.append_left _
        _ ~ job :: (c.unsent ++ tasks.toList ++ p.held) := List.perm_middle
        _ ~ c.unsent ++ job :: tasks.toList ++ p.held :=
          (List.perm_middle.append_right p.held).symm
    exact (moves.map p.automaton.tagged).append_right p.results.toList

theorem Accounts.deliver (h : Accounts a lines p c received) (i : Nat) :
    Accounts a lines (p.deliver i) c received := by
  rcases p.deliver_cases i with ⟨_, heq⟩ | ⟨w, job, hw, busy, scratch, heq⟩
  · rw [heq]
    exact h
  · rw [heq]
    refine h.moved rfl ?_ rfl rfl
    let results := p.results.send (p.automaton.tagged job)
    have delivers := held_setWorker (p := { p with results }) { scratch } hw
    rw [busy] at delivers
    let q := { p with results }.setWorker i { scratch }
    have plain : c.unsent ++ p.tasks.toList ++ p.held ~
        job :: (c.unsent ++ p.tasks.toList ++ q.held) :=
      (delivers.symm.append_left _).trans List.perm_middle
    have moves := (plain.map p.automaton.tagged).append_right p.results.toList
    refine List.Perm.trans ?_ moves.symm
    rw [outstanding, results_setWorker, Channel.toList_send, ← List.append_assoc]
    exact List.perm_append_singleton _ _

theorem Accounts.receive (h : Accounts a lines p c received) :
    ∃ received, Accounts a lines (p.receive c).1 (p.receive c).2 received := by
  rcases p.receive_cases c with ⟨_, heq⟩ | ⟨missing, job, results, hunsent, hmissing, hr, heq⟩
  · rw [heq]
    exact ⟨received, h⟩
  · rw [heq]
    have arrived := Channel.receive?_eq_some hr
    have hout : job ∈ p.outstanding c := List.mem_append_right _ (by rw [arrived]; simp)
    have fits := h.index_lt hout
    refine ⟨job :: received, h.automaton, ?_, ?_, ?_, ?_⟩
    · refine List.Perm.trans ?_ h.conserved
      rw [outstanding, outstanding, hunsent, arrived]
      exact List.perm_middle.trans (List.perm_middle.append_right received).symm
    · intro other hother
      rcases List.mem_cons.mp hother with rfl | hother
      · simp [h.size, fits]
      · have apart : job.index ≠ other.index := by
          have nodup := h.nodup
          rw [List.map_append] at nodup
          exact (List.nodup_append.mp nodup).2.2 _ (List.mem_map_of_mem hout) _
            (List.mem_map_of_mem hother)
        rw [Array.getElem?_setIfInBounds_ne apart]
        exact h.placed other hother
    · rw [Array.size_setIfInBounds, h.size]
    · have hlen := h.missing
      rw [hmissing] at hlen
      rw [List.length_cons, ← Nat.add_assoc, Nat.add_right_comm]
      exact hlen

theorem Accounts.step (h : Accounts a lines p c received) (e : PoolEvent) :
    ∃ received, Accounts a lines (p.step c e).1 (p.step c e).2 received := by
  cases e with
  | send => exact ⟨received, h.send⟩
  | take i => exact ⟨received, h.take i⟩
  | deliver i => exact ⟨received, h.deliver i⟩
  | receive => exact h.receive

theorem Accounts.run (h : Accounts a lines p c received) (events : List PoolEvent) :
    ∃ received, Accounts a lines (p.run c events).1 (p.run c events).2 received := by
  induction events generalizing p c received with
  | nil => exact ⟨received, h⟩
  | cons e events ih =>
    obtain ⟨_, next⟩ := h.step e
    exact ih next

/-! What the account says when a call starts, while it waits and when it is done. -/

theorem Idle.accounts (h : Idle a p) (lines : List ByteArray) :
    Accounts a lines p (.ofLines lines) [] where
  automaton := h.automaton
  conserved := by simp [outstanding, h.tasks, h.held, h.results, h.automaton]
  placed := by simp
  size := Array.size_replicate
  missing := rfl

theorem Accounts.length_outstanding (h : Accounts a lines p c received) :
    (p.outstanding c).length = c.missing := by
  have hlen := h.conserved.length_eq
  have hall := congrArg List.length (Call.index_ofLines a lines)
  rw [List.length_map, List.length_range] at hall
  rw [List.length_append, hall] at hlen
  have hmissing := h.missing
  omega

/-- A missing line, when all are sent, is queued, held by a worker or in the channel of results. -/
theorem Accounts.waiting (h : Accounts a lines p c received) (sent : c.unsent = [])
    (missing : c.missing ≠ 0) :
    p.tasks.toList ≠ [] ∨ p.held ≠ [] ∨ p.results.toList ≠ [] := by
  by_contra none
  simp only [not_or, not_not] at none
  obtain ⟨tasks, held, results⟩ := none
  have hlen := h.length_outstanding
  rw [outstanding, sent, tasks, held, results] at hlen
  exact missing hlen.symm

theorem Accounts.outstanding_eq_nil (h : Accounts a lines p c received) (done : c.isDone = true) :
    p.outstanding c = [] := by
  simp only [Call.isDone, Bool.and_eq_true, decide_eq_true_eq] at done
  exact List.eq_nil_of_length_eq_zero (h.length_outstanding.trans done.2)

theorem Accounts.idle (h : Accounts a lines p c received) (done : c.isDone = true) : Idle a p := by
  have empty := h.outstanding_eq_nil done
  simp only [outstanding, List.append_eq_nil_iff, List.map_eq_nil_iff] at empty
  exact ⟨⟨empty.1.1.2, empty.1.2⟩, h.automaton, empty.2⟩

theorem Accounts.received_eq (h : Accounts a lines p c received) (done : c.isDone = true) :
    c.received.toList = lines.map a.tagLine := by
  apply List.ext_getElem?
  intro i
  rw [Array.getElem?_toList, List.getElem?_map]
  cases hline : lines[i]? with
  | none =>
    rw [Array.getElem?_eq_none (h.size ▸ List.getElem?_eq_none_iff.mp hline)]
    rfl
  | some line =>
    have mem := h.conserved.mem_iff.mpr (Call.mem_ofLines a hline)
    rw [h.outstanding_eq_nil done, List.nil_append] at mem
    exact h.placed _ mem

end Accounts

end Pool

end KeywordTagger
