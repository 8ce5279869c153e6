import KeywordTagger.Pool
import KeywordTagger.Proofs.Weaving

/-!
Steps of a pool. What each of the four steps does, when it does anything at all, to the tasks that
wait, the tasks that workers hold and the results.
-/

namespace KeywordTagger

def Automaton.tagged (a : Automaton) (job : Job) : Job := { job with bytes := a.tagLine job.bytes }

namespace Pool

def held (p : Pool) : List Job := p.workers.toList.filterMap Worker.task

section Held

variable {p : Pool} {i : Nat} {w : Worker}

open scoped List in
theorem held_setWorker (w' : Worker) (h : p.workers[i]? = some w) :
    (w.task.toList ++ (p.setWorker i w').held).Perm (w'.task.toList ++ p.held) := by
  obtain ⟨hi, rfl⟩ := Array.getElem?_eq_some_iff.mp h
  have hlen : i < p.workers.toList.length := hi
  have single (w : Worker) : [w].filterMap Worker.task = w.task.toList := by
    cases hw : w.task <;> simp [hw]
  let before := (p.workers.toList.take i).filterMap Worker.task
  let after := (p.workers.toList.drop (i + 1)).filterMap Worker.task
  have now : p.held = before ++ (p.workers[i].task.toList ++ after) := by
    conv => lhs; rw [held, ← List.take_append_drop i p.workers.toList, List.drop_eq_getElem_cons hlen]
    rw [← List.singleton_append, List.filterMap_append, List.filterMap_append, single]
    rfl
  have next : (p.setWorker i w').held = before ++ (w'.task.toList ++ after) := by
    rw [held, setWorker, Array.toList_setIfInBounds, List.set_eq_take_append_cons_drop,
      if_pos hlen, ← List.singleton_append, List.filterMap_append, List.filterMap_append, single]
  rw [now, next]
  calc
    p.workers[i].task.toList ++ (before ++ (w'.task.toList ++ after))
    _ ~ p.workers[i].task.toList ++ (w'.task.toList ++ (before ++ after)) :=
      (List.perm_append_comm_assoc before _ after).append_left _
    _ ~ w'.task.toList ++ (p.workers[i].task.toList ++ (before ++ after)) :=
      List.perm_append_comm_assoc _ _ _
    _ ~ w'.task.toList ++ (before ++ (p.workers[i].task.toList ++ after)) :=
      (List.perm_append_comm_assoc _ before after).append_left _

theorem mem_held {job : Job} (h : p.workers[i]? = some w) (hw : w.task = some job) :
    job ∈ p.held :=
  List.mem_filterMap.mpr ⟨w, Array.mem_toList_iff.mpr (Array.mem_of_getElem? h), hw⟩

@[simp] theorem results_setWorker : (p.setWorker i w).results = p.results := rfl

end Held

/-! Each step does nothing, where it is not possible, or what is said here. -/

section Cases

variable (p : Pool) (c : Call) (i : Nat)

theorem send_cases : (c.unsent = [] ∧ p.send c = (p, c)) ∨ ∃ job unsent, c.unsent = job :: unsent ∧
    p.send c = ({ p with tasks := p.tasks.send job }, { c with unsent }) := by
  cases h : c.unsent with
  | nil => exact .inl ⟨rfl, by simp [send, h]⟩
  | cons job unsent => exact .inr ⟨job, unsent, rfl, by simp [send, h]⟩

theorem take_cases :
    (((∀ w, p.workers[i]? = some w → w.task ≠ none) ∨ p.tasks.toList = []) ∧ p.take i = p) ∨
      ∃ w job tasks, p.workers[i]? = some w ∧ w.task = none ∧ p.tasks.receive? = some (job, tasks) ∧
        p.take i = { p with tasks }.setWorker i { w with task := some job } := by
  rw [take]
  split
  · rename_i scratch job tasks hw ht
    exact .inr ⟨{ scratch, task := none }, job, tasks, hw, rfl, ht, rfl⟩
  · rename_i blocked
    refine .inl ⟨?_, rfl⟩
    cases ht : p.tasks.receive? with
    | none => exact .inr (Channel.receive?_eq_none_iff.mp ht)
    | some next =>
      refine .inl fun w hw idle => ?_
      obtain ⟨scratch, task⟩ := w
      cases idle
      exact blocked scratch next.1 next.2 hw ht

/-- The result does not depend on what the worker's buffers held. -/
theorem deliver_cases :
    ((∀ w, p.workers[i]? = some w → w.task = none) ∧ p.deliver i = p) ∨
      ∃ w job, p.workers[i]? = some w ∧ w.task = some job ∧ ∃ scratch, p.deliver i =
        { p with results := p.results.send (p.automaton.tagged job) }.setWorker i { scratch } := by
  rw [deliver]
  split
  · rename_i scratch index bytes hw
    refine .inr ⟨{ scratch, task := some { index, bytes } }, { index, bytes }, hw, rfl,
      (p.automaton.tagWith bytes scratch .empty).1, ?_⟩
    have same := p.automaton.tagWith_snd bytes scratch .empty
    rw [ByteArray.empty_append] at same
    rw [Automaton.tagged, ← same]
  · rename_i blocked
    refine .inl ⟨fun w hw => ?_, rfl⟩
    obtain ⟨scratch, _ | job⟩ := w
    · rfl
    · exact absurd hw (blocked scratch job.index job.bytes)

theorem receive_cases :
    ((c.unsent ≠ [] ∨ c.missing = 0 ∨ p.results.toList = []) ∧ p.receive c = (p, c)) ∨
      ∃ missing job results, c.unsent = [] ∧ c.missing = missing + 1 ∧
        p.results.receive? = some (job, results) ∧
          p.receive c = ({ p with results },
            { unsent := [], missing,
              received := c.received.setIfInBounds job.index job.bytes }) := by
  rcases c with ⟨_ | ⟨job, unsent⟩, _ | missing, received⟩
  · exact .inl ⟨.inr (.inl rfl), rfl⟩
  · cases hr : p.results.receive? with
    | none =>
      have empty := Channel.receive?_eq_none_iff.mp hr
      exact .inl ⟨.inr (.inr empty), by simp [receive, hr]⟩
    | some next =>
      obtain ⟨job, results⟩ := next
      exact .inr ⟨missing, job, results, rfl, rfl, rfl, by simp [receive, hr]⟩
  · exact .inl ⟨.inl (List.cons_ne_nil job unsent), rfl⟩
  · exact .inl ⟨.inl (List.cons_ne_nil job unsent), rfl⟩

end Cases

end Pool

end KeywordTagger
