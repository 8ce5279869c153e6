import KeywordTagger.Channel
import KeywordTagger.Tagging

/-!
Pools of workers that share one automaton. The caller sends the numbered lines of a call into a
channel of tasks; an idle worker takes the oldest task, tags it with buffers of its own and sends
the outcome into a channel of results; the caller puts every result at its number. These four steps
may come in any order in which each is possible; `tagLines` plays one such order to its end.
-/

namespace KeywordTagger

/-- A line, plain or tagged, and its number in the call. -/
structure Job where
  index : Nat
  bytes : ByteArray

structure Worker where
  scratch : Scratch := {}
  task : Option Job := none

structure Pool where
  automaton : Automaton
  workers : Array Worker
  tasks : Channel Job := {}
  results : Channel Job := {}

structure Call where
  unsent : List Job
  /-- How many results are still to come. -/
  missing : Nat
  received : Array ByteArray

inductive PoolEvent where
  | send
  | take (worker : Nat)
  | deliver (worker : Nat)
  | receive
deriving DecidableEq

namespace Call

def ofLines (lines : List ByteArray) : Call where
  unsent := lines.zipIdx.map fun (bytes, index) => { index, bytes }
  missing := lines.length
  received := Array.replicate lines.length .empty

def isDone (c : Call) : Bool := c.unsent.isEmpty && c.missing = 0

end Call

namespace Pool

/-- A pool of `n` workers, or of one worker for `n = 0`. -/
def ofAutomaton (a : Automaton) (n : Nat) : Pool where
  automaton := a
  workers := Array.replicate (max n 1) {}

def setWorker (p : Pool) (i : Nat) (w : Worker) : Pool :=
  { p with workers := p.workers.setIfInBounds i w }

def send (p : Pool) (c : Call) : Pool × Call :=
  match c.unsent with
  | job :: unsent => ({ p with tasks := p.tasks.send job }, { c with unsent })
  | [] => (p, c)

/-- A worker, if it is idle, takes the oldest task, if there is one. -/
def take (p : Pool) (i : Nat) : Pool :=
  match p.workers[i]?, p.tasks.receive? with
  | some { scratch, task := none }, some (job, tasks) =>
    { p with tasks }.setWorker i { scratch, task := some job }
  | _, _ => p

/-- A worker, if it holds a task, tags the line and sends the result. -/
def deliver (p : Pool) (i : Nat) : Pool :=
  match p.workers[i]? with
  | some { scratch, task := some { index, bytes } } =>
    let (scratch, bytes) := p.automaton.tagWith bytes scratch .empty
    { p with results := p.results.send { index, bytes } }.setWorker i { scratch }
  | _ => p

/-- The caller, if all lines are sent, puts the oldest result, if there is one, at its number. -/
def receive (p : Pool) (c : Call) : Pool × Call :=
  match c with
  | { unsent := [], missing := missing + 1, received } =>
    match p.results.receive? with
    | some ({ index, bytes }, results) =>
      ({ p with results },
        { unsent := [], missing, received := received.setIfInBounds index bytes })
    | none => (p, { unsent := [], missing := missing + 1, received })
  | c => (p, c)

/-- One step. A step that is not possible changes nothing. -/
def step (p : Pool) (c : Call) : PoolEvent → Pool × Call
  | .send => p.send c
  | .take i => (p.take i, c)
  | .deliver i => (p.deliver i, c)
  | .receive => p.receive c

def run (p : Pool) (c : Call) : List PoolEvent → Pool × Call
  | [] => (p, c)
  | e :: es =>
    let (p, c) := p.step c e
    p.run c es

/-- An order of steps that finishes a call of `lines` lines with `workers` workers: every line is
sent, taken and tagged in turn, by one worker after the other, and then all results are received. -/
def turns (lines workers : Nat) : List PoolEvent :=
  ((List.range lines).flatMap fun i =>
    [.send, .take (i % workers), .deliver (i % workers)]) ++ List.replicate lines .receive

def tagLines (p : Pool) (lines : List ByteArray) : Except TaggerError (Array ByteArray × Pool) :=
  if p.workers.isEmpty then .error .workersGone
  else
    let (p, c) := p.run (.ofLines lines) (turns lines.length p.workers.size)
    .ok (c.received, p)

end Pool

end KeywordTagger
