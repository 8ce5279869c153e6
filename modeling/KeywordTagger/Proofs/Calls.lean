import KeywordTagger.Proofs.Conservation
import Mathlib.Data.List.Permutation

/-!
Calls of a pool. Whatever the order of the steps, a call that is done has every line tagged and in
order and leaves the pool as idle as it found it, and a call that waits has something to wait for.
Played in turns, every call is done at the end.
-/

namespace KeywordTagger.Pool

section Size

variable (p : Pool) (c : Call)

theorem size_step (e : PoolEvent) : (p.step c e).1.workers.size = p.workers.size := by
  cases e with
  | send =>
    rcases p.send_cases c with ⟨_, heq⟩ | ⟨_, _, _, heq⟩
    · simp [step, heq]
    · simp [step, heq]
  | take i =>
    rcases p.take_cases i with ⟨_, heq⟩ | ⟨_, _, _, _, _, _, heq⟩
    · simp [step, heq]
    · simp [step, heq, setWorker]
  | deliver i =>
    rcases p.deliver_cases i with ⟨_, heq⟩ | ⟨_, _, _, _, _, heq⟩
    · simp [step, heq]
    · simp [step, heq, setWorker]
  | receive =>
    rcases p.receive_cases c with ⟨_, heq⟩ | ⟨_, _, _, _, _, _, heq⟩
    · simp [step, heq]
    · simp [step, heq]

theorem size_run (events : List PoolEvent) : (p.run c events).1.workers.size = p.workers.size := by
  induction events generalizing p c with
  | nil => rfl
  | cons e events ih => exact (ih _ _).trans (p.size_step c e)

theorem run_append (first second : List PoolEvent) :
    p.run c (first ++ second) = (p.run c first).1.run (p.run c first).2 second := by
  induction first generalizing p c with
  | nil => rfl
  | cons e first ih => exact ih _ _

end Size

section Turns

variable {a : Automaton} {lines : List ByteArray} {p : Pool} {c : Call} {received : List Job}
  {job : Job} {i : Nat}

theorem take_only (tasks : p.tasks.toList = [job]) (held : p.held = []) (hi : i < p.workers.size) :
    (p.take i).tasks.toList = [] ∧ (p.take i).held = [job] ∧
      ∃ w, (p.take i).workers[i]? = some w ∧ w.task = some job := by
  rcases p.take_cases i with ⟨blocked, _⟩ | ⟨w, next, rest, hw, idle, ht, heq⟩
  · rcases blocked with busy | empty
    · have hw : p.workers[i]? = some p.workers[i] := Array.getElem?_eq_getElem hi
      cases task : p.workers[i].task with
      | none => exact absurd task (busy _ hw)
      | some held' =>
        have mem := mem_held hw task
        rw [held] at mem
        cases mem
    · rw [tasks] at empty
      cases empty
  · have queued := Channel.receive?_eq_some ht
    rw [tasks] at queued
    obtain ⟨rfl, hrest⟩ := List.cons.inj queued
    have takes := held_setWorker (p := { p with tasks := rest }) { w with task := some job } hw
    have none : ({ p with tasks := rest } : Pool).held = [] := held
    rw [idle, none] at takes
    rw [heq]
    refine ⟨hrest.symm, List.perm_singleton.mp takes, { w with task := some job }, ?_, rfl⟩
    exact Array.getElem?_setIfInBounds_self_of_lt hi

theorem deliver_only (held : p.held = [job]) {w : Worker} (hw : p.workers[i]? = some w)
    (busy : w.task = some job) :
    (p.deliver i).tasks.toList = p.tasks.toList ∧ (p.deliver i).held = [] := by
  rcases p.deliver_cases i with ⟨idle, _⟩ | ⟨w', done, hw', busy', scratch, heq⟩
  · rw [idle w hw] at busy
    cases busy
  · have delivers := held_setWorker
      (p := { p with results := p.results.send (p.automaton.tagged done) }) { scratch } hw'
    have one : ({ p with results := p.results.send (p.automaton.tagged done) } : Pool).held =
      [job] := held
    rw [busy', one] at delivers
    rw [heq]
    have hlen := delivers.length_eq
    refine ⟨rfl, List.eq_nil_of_length_eq_zero ?_⟩
    simpa using hlen

theorem Quiet.turn (h : Quiet p) {unsent : List Job} (hc : c.unsent = job :: unsent)
    (hi : i < p.workers.size) :
    Quiet (p.run c [.send, .take i, .deliver i]).1 ∧
      (p.run c [.send, .take i, .deliver i]).2 = { c with unsent } := by
  rcases p.send_cases c with ⟨none, _⟩ | ⟨job', unsent', hunsent, heq⟩
  · rw [hc] at none
    cases none
  · rw [hc] at hunsent
    cases hunsent
    have sent : ({ p with tasks := p.tasks.send job } : Pool).tasks.toList = [job] := by
      rw [Channel.toList_send, h.tasks]
      rfl
    obtain ⟨taken, holds, w, hw, busy⟩ := take_only sent h.held hi
    obtain ⟨left, none⟩ := deliver_only holds hw busy
    have ran : p.run c [.send, .take i, .deliver i] =
        ((({ p with tasks := p.tasks.send job } : Pool).take i).deliver i, { c with unsent }) := by
      simp only [run, step, heq]
    rw [ran]
    exact ⟨⟨left.trans taken, none⟩, rfl⟩

theorem Quiet.turns (h : Quiet p) (hsize : 0 < p.workers.size) {n : Nat}
    (hn : n ≤ c.unsent.length) :
    let events := (List.range n).flatMap fun i =>
      [.send, .take (i % p.workers.size), .deliver (i % p.workers.size)]
    Quiet (p.run c events).1 ∧ (p.run c events).2 = { c with unsent := c.unsent.drop n } := by
  induction n with
  | zero => exact ⟨h, rfl⟩
  | succ n ih =>
    intro events
    obtain ⟨quiet, sent⟩ := ih (Nat.le_of_succ_le hn)
    have hevents : events = ((List.range n).flatMap fun i =>
        [.send, .take (i % p.workers.size), .deliver (i % p.workers.size)]) ++
          [.send, .take (n % p.workers.size), .deliver (n % p.workers.size)] := by
      simp [events, List.range_succ]
    rw [hevents, run_append, sent]
    have next := quiet.turn (c := { c with unsent := c.unsent.drop n })
      (List.drop_eq_getElem_cons hn) (i := n % p.workers.size)
      ((size_run p c _).symm ▸ Nat.mod_lt n hsize)
    exact next

theorem Accounts.receives (h : Accounts a lines p c received) (quiet : Quiet p)
    (sent : c.unsent = []) {n : Nat} (hn : c.missing = n) :
    (p.run c (List.replicate n .receive)).2.isDone = true := by
  induction n generalizing p c received with
  | zero => simp [Pool.run, Call.isDone, sent, hn]
  | succ n ih =>
    obtain ⟨received', next⟩ := h.receive
    rcases p.receive_cases c with ⟨blocked, _⟩ | ⟨missing, job, results, _, hmissing, _, heq⟩
    · have waiting := h.waiting sent (by omega)
      simp [sent, hn, quiet.tasks, quiet.held] at blocked waiting
      exact absurd blocked waiting
    · rw [List.replicate_succ, Pool.run, Pool.step, heq]
      rw [heq] at next
      exact ih next ⟨quiet.tasks, quiet.held⟩ rfl (Nat.succ.inj (hmissing.symm.trans hn))

theorem Idle.isDone_turns (h : Idle a p) (hsize : 0 < p.workers.size) (lines : List ByteArray) :
    (p.run (.ofLines lines) (turns lines.length p.workers.size)).2.isDone = true := by
  let events := (List.range lines.length).flatMap fun i =>
    [PoolEvent.send, .take (i % p.workers.size), .deliver (i % p.workers.size)]
  have hunsent : (Call.ofLines lines).unsent.length = lines.length := by simp [Call.ofLines]
  obtain ⟨quiet, sent⟩ := h.toQuiet.turns (c := .ofLines lines) hsize (Nat.le_of_eq hunsent.symm)
  obtain ⟨received, accounts⟩ := (h.accounts lines).run events
  rw [turns, run_append]
  refine accounts.receives quiet ?_ ?_
  · rw [sent, ← hunsent, List.drop_length]
  · rw [sent]
    rfl

theorem Idle.tagLines_eq (h : Idle a p) (hsize : 0 < p.workers.size) (lines : List ByteArray) :
    ∃ q, p.tagLines lines = .ok ((lines.map a.tagLine).toArray, q) ∧ Idle a q := by
  have done := h.isDone_turns hsize lines
  obtain ⟨_, final⟩ := (h.accounts lines).run (turns lines.length p.workers.size)
  have workers : p.workers.isEmpty = false := decide_eq_false (Nat.ne_of_gt hsize)
  refine ⟨_, ?_, final.idle done⟩
  rw [tagLines, workers, ← final.received_eq done]
  rfl

end Turns

/-- The pools that `n` workers sharing an automaton are between calls, after any calls that came to
their end. -/
inductive Rests (a : Automaton) (n : Nat) : Pool → Prop where
  | start : Rests a n (ofAutomaton a n)
  | call {p : Pool} (lines : List ByteArray) (events : List PoolEvent) :
      Rests a n p → (p.run (.ofLines lines) events).2.isDone = true →
        Rests a n (p.run (.ofLines lines) events).1

theorem Rests.idle {a : Automaton} {n : Nat} {p : Pool} (h : Rests a n p) :
    Idle a p ∧ p.workers.size = max n 1 := by
  induction h with
  | start =>
    refine ⟨⟨⟨rfl, ?_⟩, rfl, rfl⟩, Array.size_replicate⟩
    simp [held, ofAutomaton]
  | call lines events _ done ih =>
    obtain ⟨received, accounts⟩ := (ih.1.accounts lines).run events
    exact ⟨accounts.idle done, (size_run _ _ events).trans ih.2⟩

/-- In every state of every call, after whatever calls before it, each line of the call is accounted
for; a call that is done has every line tagged, in order, and leaves nothing behind; one that waits
for a result can still get one; and in turns every call comes to its end. -/
theorem calls_conserve_lines (a : Automaton) (n : Nat) {p : Pool} (rests : Rests a n p)
    (lines : List ByteArray) (events : List PoolEvent) :
    let q := (p.run (.ofLines lines) events).1
    let c := (p.run (.ofLines lines) events).2
    q.workers.size = max n 1 ∧ (∃ received, Accounts a lines q c received) ∧
      (c.isDone = true → c.received.toList = lines.map a.tagLine ∧
        q.tasks.toList = [] ∧ q.held = [] ∧ q.results.toList = []) ∧
      (c.unsent = [] → c.missing ≠ 0 →
        q.tasks.toList ≠ [] ∨ q.held ≠ [] ∨ q.results.toList ≠ []) ∧
      ∃ r, p.tagLines lines = .ok ((lines.map a.tagLine).toArray, r) ∧ Idle a r := by
  intro q c
  obtain ⟨idle, hsize⟩ := rests.idle
  obtain ⟨received, accounts⟩ := (idle.accounts lines).run events
  refine ⟨(size_run p _ events).trans hsize, ⟨received, accounts⟩, fun done => ?_,
    accounts.waiting, idle.tagLines_eq (by omega) lines⟩
  have left := accounts.idle done
  exact ⟨accounts.received_eq done, left.tasks, left.held, left.results⟩

/-- Two workers hand the lines of a first call back in the wrong order; a second call follows. -/
theorem second_call_conserves_lines :
    ∃ d, Dictionary.ofList ["he", "hers"] = .ok d ∧
      let a := Automaton.ofDictionary {} d
      let lines := ["hers".toUTF8, "x he".toUTF8]
      let events : List PoolEvent :=
        [.send, .take 1, .send, .take 0, .deliver 0, .deliver 1, .receive, .receive]
      let next := ["her".toUTF8]
      let first := (ofAutomaton a 2).run (.ofLines lines) events
      first.2.isDone = true ∧ first.2.received.toList = lines.map a.tagLine ∧ Rests a 2 first.1 ∧
        ∃ r, first.1.tagLines next = .ok ((next.map a.tagLine).toArray, r) ∧ Idle a r := by
  have accepted : (Dictionary.ofList ["he", "hers"]).map (fun d => d.patterns) =
      .ok #[#['h', 'e'], #['h', 'e', 'r', 's']] := by cbv
  obtain ⟨d, hd, _⟩ := Dictionary.exists_of_map_ofList accepted
  refine ⟨d, hd, ?_⟩
  intro a lines events next
  have done : ((ofAutomaton a 2).run (.ofLines lines) events).2.isDone = true := by
    simp [lines, events, run, step, send, take, deliver, receive, setWorker, ofAutomaton,
      Channel.send, Channel.receive?, Call.ofLines, Call.isDone]
  have rests := Rests.call lines events .start done
  have received := (calls_conserve_lines a 2 .start lines events).2.2.1 done
  have second := (calls_conserve_lines a 2 rests next []).2.2.2.2
  exact ⟨done, received.1, rests, second⟩

end KeywordTagger.Pool
