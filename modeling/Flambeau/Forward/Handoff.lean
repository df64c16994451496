import Mathlib.Logic.Function.Basic
import Flambeau.Systems.Runs

namespace Flambeau.Forward.Handoff
open Systems
open Function (update)

inductive Kind where
  | pp
  | hybrid
deriving DecidableEq

/-- A pipelined topology: the workers in handle order, stage by stage, `ranks` of
them a stage. Worker `w` produces for worker `w + ranks`, on the edge that is
named after the consumer. -/
structure Topology where
  kind : Kind
  stages : Nat
  ranks : Nat
  stages_pos : 0 < stages
  ranks_pos : 0 < ranks
  pp_ranks : kind = .pp → ranks = 1

namespace Topology

def workers (T : Topology) : Nat := T.stages * T.ranks

def isFirst (T : Topology) (w : Nat) : Bool := decide (w < T.ranks)

def isLast (T : Topology) (w : Nat) : Bool := decide (T.workers ≤ w + T.ranks)

end Topology

/-- One forward: the rows that `embed` asks the edge for and the rows that
`output_head` hands over (`tokens.len()` and `slot_ids.len()`). -/
structure Batch where
  tokens : Nat
  emitted : Nat

/-- A launched pipeline and the forwards it is given, the first one's number 1. -/
structure Pipeline where
  topology : Topology
  hidden : Nat
  /-- The bytes that `new_peer_edge_prealloc` allocates. -/
  prealloc : Nat
  batch : Nat → Batch

/-- Work in a worker's stream. `use` is the stage's kernels over `dst`. -/
inductive Op where
  | wait (edge f : Nat)
  | use (edge f : Nat)
  | copy (edge f rows : Nat)
  | record (edge f : Nat)
deriving DecidableEq

def Op.forward : Op → Nat
  | .wait _ f | .use _ f | .copy _ f _ | .record _ f => f

/-- Where a worker is in a forward. -/
inductive Phase where
  | idle
  | start (f : Nat)
  /-- In `peer_recv`, the event taken. -/
  | took (f : Nat)
  /-- In the layers. -/
  | body (f : Nat)
  /-- In `peer_send`, the copy enqueued. -/
  | copied (f : Nat)
  | sent (f : Nat)
deriving DecidableEq

structure Worker where
  inbox : List Nat
  phase : Phase
  /-- What was enqueued, and how much of it has run. -/
  stream : List Op
  done : Nat

/-- A worker with nothing to do. -/
def Worker.Resting (worker : Worker) : Prop :=
  worker.phase = .idle ∧ worker.inbox = [] ∧ worker.done = worker.stream.length

instance (worker : Worker) : Decidable worker.Resting := by
  unfold Worker.Resting
  infer_instance

/-- `PeerSlot`: the event's forward, the bytes of `dst`, and the forward and the
number of the rows that it holds. -/
structure PeerSlot where
  sendDone : Option Nat
  dst : Option Nat
  rows : Option (Nat × Nat)

/-- `dst` once it is long enough: new memory where it was not. -/
def PeerSlot.grow (slot : PeerSlot) (need : Nat) : PeerSlot :=
  match slot.dst with
  | some bytes => if bytes < need then { slot with dst := some need, rows := none } else slot
  | none => { slot with dst := some need, rows := none }

theorem PeerSlot.grow_sendDone (slot : PeerSlot) (need : Nat) :
    (slot.grow need).sendDone = slot.sendDone := by
  unfold grow
  split
  · split <;> rfl
  · rfl

/-- The rows that a stage finds in `dst`. -/
structure Read where
  worker : Nat
  forward : Nat
  rows : Option (Nat × Nat)
deriving DecidableEq

structure State where
  /-- The forwards that `run_forward` was called for. -/
  started : Nat
  /-- The forward and the handle that `run_forward` waits for. -/
  waiting : Option (Nat × Nat)
  /-- Whether the last forward returned an error. -/
  failed : Bool
  workers : Nat → Worker
  edges : Nat → PeerSlot
  replies : Nat → Nat → Option Bool
  reads : List Read

/-- What is enqueued and has not run. -/
def State.pending (s : State) (w : Nat) : List Op := (s.workers w).stream.drop (s.workers w).done

inductive Action where
  /-- A call of `run_forward`. -/
  | dispatch
  /-- Its next reply. -/
  | collect
  /-- A worker takes its next command. -/
  | take (w : Nat)
  /-- A worker's forward returns an error. -/
  | fail (w : Nat)
  | embed (w : Nat)
  /-- `peer_recv`: `send_done`, then `dst`. -/
  | recvTake (w : Nat)
  | recvView (w : Nat)
  /-- `peer_send`: the copy, then the event. -/
  | sendCopy (w : Nat)
  | sendDone (w : Nat)
  /-- A worker's forward returns its logits. -/
  | reply (w : Nat)
  /-- A stream gets on. -/
  | device (w : Nat)
deriving DecidableEq

namespace Pipeline

variable (P : Pipeline)

def init : State where
  started := 0
  waiting := none
  failed := false
  workers _ := ⟨[], .idle, [], 0⟩
  edges _ := ⟨none, if P.topology.kind = .hybrid then some P.prealloc else none, none⟩
  replies _ _ := none
  reads := []

/-- The event of a forward has been recorded on the device. -/
def fired (s : State) (edge f : Nat) : Bool :=
  let producer := s.workers (edge - P.topology.ranks)
  (producer.stream.take producer.done).contains (.record edge f)

/-- `send_forward`: of all handles at once, or only of the first. -/
def command (workers : Nat → Worker) (f : Nat) : Nat → Worker :=
  match P.topology.kind with
  | .pp => update workers 0 { workers 0 with inbox := (workers 0).inbox ++ [f] }
  | .hybrid => fun w =>
    if w < P.topology.workers then { workers w with inbox := (workers w).inbox ++ [f] } else workers w

/-- The command to the next handle, which only `Topology::Pp` sends late. -/
def commandNext (workers : Nat → Worker) (f w : Nat) : Nat → Worker :=
  match P.topology.kind with
  | .pp => update workers w { workers w with inbox := (workers w).inbox ++ [f] }
  | .hybrid => workers

/-- One operation at the head of a stream. -/
def execute (s : State) (w : Nat) (op : Op) : Option State :=
  let s' := { s with workers := update s.workers w { s.workers w with done := (s.workers w).done + 1 } }
  match op with
  | .wait edge f => if P.fired s edge f then some s' else none
  | .use edge f =>
    let slot := s.edges edge
    -- The ranks of a TP stage add to the residual in place.
    let rows := if P.topology.kind = .hybrid then slot.rows.filter (·.1 == f) else slot.rows
    some { s' with
      reads := s.reads ++ [⟨w, f, slot.rows⟩]
      edges := update s.edges edge { slot with rows := rows } }
  | .copy edge f rows =>
    some { s' with edges := update s.edges edge { s.edges edge with rows := some (f, rows) } }
  | .record _ _ => some s'

def step (s : State) : Action → Option State
  | .dispatch =>
    if s.waiting.isSome then none
    else
      let f := s.started + 1
      some { s with started := f, waiting := some (f, 0), workers := P.command s.workers f }
  | .collect =>
    match s.waiting with
    | none => none
    | some (f, w) =>
      match s.replies w f with
      | none => none
      | some false => some { s with waiting := none, failed := true }
      | some true =>
        if w + 1 < P.topology.workers then
          some { s with waiting := some (f, w + 1), workers := P.commandNext s.workers f (w + 1) }
        else some { s with waiting := none, failed := false }
  | .take w =>
    match (s.workers w).phase, (s.workers w).inbox with
    | .idle, f :: inbox =>
      some { s with workers := update s.workers w { s.workers w with inbox := inbox, phase := .start f } }
    | _, _ => none
  | .fail w =>
    match (s.workers w).phase with
    | .idle => none
    | .start f | .took f | .body f | .copied f | .sent f =>
      some { s with
        workers := update s.workers w { s.workers w with phase := .idle }
        replies := update s.replies w (update (s.replies w) f (some false)) }
  | .embed w =>
    match (s.workers w).phase with
    | .start f =>
      if P.topology.isFirst w then
        some { s with workers := update s.workers w { s.workers w with phase := .body f } }
      else none
    | _ => none
  | .recvTake w =>
    match (s.workers w).phase with
    | .start f =>
      if P.topology.isFirst w then none
      else
        let slot := s.edges w
        let take (ops : List Op) : State :=
          { s with
            workers := update s.workers w
              { s.workers w with phase := .took f, stream := (s.workers w).stream ++ ops }
            edges := update s.edges w { slot with sendDone := none } }
        match slot.sendDone, P.topology.kind with
        | some g, _ => some (take [.wait w g])
        -- PP goes on without an event; hybrid spins.
        | none, .pp => some (take [])
        | none, .hybrid => none
    | _ => none
  | .recvView w =>
    match (s.workers w).phase with
    | .took f =>
      match (s.edges w).dst with
      | none => none
      | some bytes =>
        if bytes < (P.batch f).tokens * P.hidden * 2 then none
        else
          some { s with
            workers := update s.workers w
              { s.workers w with phase := .body f, stream := (s.workers w).stream ++ [.use w f] } }
    | _ => none
  | .sendCopy w =>
    match (s.workers w).phase with
    | .body f =>
      if P.topology.isLast w then none
      else
        let edge := w + P.topology.ranks
        some { s with
          workers := update s.workers w
            { s.workers w with
              phase := .copied f
              stream := (s.workers w).stream ++ [.copy edge f (P.batch f).emitted] }
          edges := update s.edges edge
            ((s.edges edge).grow ((P.batch f).emitted * P.hidden * 2)) }
    | _ => none
  | .sendDone w =>
    match (s.workers w).phase with
    | .copied f =>
      let edge := w + P.topology.ranks
      some { s with
        workers := update s.workers w
          { s.workers w with phase := .sent f, stream := (s.workers w).stream ++ [.record edge f] }
        edges := update s.edges edge { s.edges edge with sendDone := some f } }
    | _ => none
  | .reply w =>
    match (s.workers w).phase with
    | .sent f =>
      some { s with
        workers := update s.workers w { s.workers w with phase := .idle }
        replies := update s.replies w (update (s.replies w) f (some true)) }
    | .body f =>
      -- The last stage synchronises its stream for the logits.
      if P.topology.isLast w && (s.workers w).done == (s.workers w).stream.length then
        some { s with
          workers := update s.workers w { s.workers w with phase := .idle }
          replies := update s.replies w (update (s.replies w) f (some true)) }
      else none
    | _ => none
  | .device w =>
    match (s.workers w).stream[(s.workers w).done]? with
    | none => none
    | some op => P.execute s w op

def system : System State Action where
  init s := s = P.init
  step := P.step

/-- Every stage finds in `dst` the rows that its producer sent in the same forward,
as many as it asks for. -/
def RowsOwn (s : State) : Prop :=
  ∀ r ∈ s.reads, r.rows = some (r.forward, (P.batch r.forward).tokens)

/-- A copy to an edge waits with no kernels of another forward over that edge, and
before `peer_send` touches `dst` no kernels over it wait at all. -/
def NoOverwrite (s : State) : Prop :=
  ∀ p edge, p < P.topology.workers → edge = p + P.topology.ranks → edge < P.topology.workers →
    (∀ f rows, Op.copy edge f rows ∈ s.pending p → ∀ g, Op.use edge g ∈ s.pending edge → g = f) ∧
    (∀ f, (s.workers p).phase = .body f → ∀ g, Op.use edge g ∉ s.pending edge)

/-- Every worker rests, and no hybrid edge holds an event. -/
structure Settled (s : State) : Prop where
  workers : ∀ w, w < P.topology.workers → (s.workers w).Resting
  edges : P.topology.kind = .hybrid → ∀ p, p + P.topology.ranks < P.topology.workers →
    (s.edges (p + P.topology.ranks)).sendDone = none

/-- After a failed forward the next one waits until the pipeline has settled. -/
def Orderly (s : State) : Action → Prop
  | .dispatch => s.failed = true → P.Settled s
  | _ => True

end Pipeline
end Flambeau.Forward.Handoff
