import Flambeau.Runtime.Collective
import Flambeau.Systems.Barrier
import Flambeau.Systems.Runs

/-! The ranks of a reference mesh as threads. A step is an acquisition of the lock, what is done under
it, its release, an arrival at the barrier or a departure from it. -/

namespace Flambeau.Runtime.Collective
open Flambeau.Systems

inductive Collective where
  | allReduce
  | allGather
  | allToAll
  | broadcast (root : Nat)
deriving DecidableEq

/-- A call as all the ranks issue it. -/
structure Call where
  op : Collective
  cfg : CollectiveCfg

/-- The buffers of one rank; the ones that work in place have `send` only. -/
structure Buffers where
  send : Bytes
  recv : Bytes

/-- `check_buf`. -/
def checkBuf (buf : Bytes) (cfg : CollectiveCfg) (expectedElems : Nat) (expected : Nat) : Except CollectiveError Unit :=
  if buf.length = expected then .ok () else .error (.bufferLen expectedElems cfg.dtype buf.length)

/-- What each collective checks first. -/
def check (size : Nat) (c : Call) (b : Buffers) : Except CollectiveError Unit :=
  match c.op with
  | .allReduce => checkBuf b.send c.cfg c.cfg.elemCount c.cfg.bufferBytes
  | .allGather =>
    (checkBuf b.send c.cfg c.cfg.elemCount c.cfg.bufferBytes).bind fun _ =>
      checkBuf b.recv c.cfg (c.cfg.elemCount * size) (c.cfg.bufferBytes * size)
  | .allToAll =>
    (checkBuf b.send c.cfg (c.cfg.elemCount * size) (c.cfg.bufferBytes * size)).bind fun _ =>
      checkBuf b.recv c.cfg (c.cfg.elemCount * size) (c.cfg.bufferBytes * size)
  | .broadcast root =>
    if size ≤ root then .error (.rankOutOfRange root size)
    else checkBuf b.send c.cfg c.cfg.elemCount c.cfg.bufferBytes

/-- Whether the rank deposits. -/
def Collective.deposits (op : Collective) (rank : Nat) : Bool :=
  match op with
  | .broadcast root => decide (rank = root)
  | _ => true

/-- Whether the rank takes the lock between the two barriers. -/
def Collective.works (op : Collective) (rank : Nat) : Bool :=
  match op with
  | .allReduce => decide (rank = 0)
  | _ => true

/-- What is done under the lock between the barriers: the slots and the rank's buffer behind it. -/
def middle (F : Floats) (size : Nat) (c : Call) (me : Nat) (slots : List Bytes) (buf : Bytes) :
    Option (List Bytes × Bytes) :=
  match c.op with
  | .allReduce => (reduceSlots F c.cfg slots).map fun slots => (slots, buf)
  | .allGather => (copyShards c.cfg.bufferBytes size (fun r => slots[r]?) buf).map fun buf => (slots, buf)
  | .allToAll =>
    (copyShards c.cfg.bufferBytes size
      (fun s => slots[s]?.bind fun b => sliceBytes b (me * c.cfg.bufferBytes) ((me + 1) * c.cfg.bufferBytes)) buf).map
        fun buf => (slots, buf)
  | .broadcast root => (slots[root]?.bind fun b => copyFromSlice buf b).map fun buf => (slots, buf)

/-- The buffer that the call is to fill. -/
def output (c : Call) (b : Buffers) : Bytes :=
  match c.op with
  | .allReduce | .broadcast _ => b.send
  | .allGather | .allToAll => b.recv

/-- How far a rank is with the lock. -/
inductive Guard where
  | wanted
  | held
  | done

/-- Where a rank is in a call. -/
inductive Pc where
  | entry
  | deposit (g : Guard)
  | arrive (second : Bool)
  | wait (second : Bool) (generation : Nat)
  | middle (g : Guard)
  /-- The copy of `all_reduce` behind its last barrier. -/
  | last (g : Guard)
  | panicked

structure Rank where
  pc : Pc
  buf : Bytes
  /-- What the calls so far came to. -/
  results : List (Except CollectiveError Bytes)

structure State (n : Nat) where
  slots : Fin n → Bytes
  /-- Who holds the lock on the slots. -/
  lock : Option (Fin n)
  poisoned : Bool
  barrier : Barrier
  ranks : Fin n → Rank

def start (n : Nat) : State n := ⟨fun _ => [], none, false, ⟨0, 0⟩, fun _ => ⟨.entry, [], []⟩⟩

/-- The call returns. -/
def Rank.finish (rank : Rank) (result : Except CollectiveError Bytes) : Rank :=
  { rank with pc := .entry, results := rank.results ++ [result] }

/-- Behind the first barrier or the second. -/
def Rank.pass (rank : Rank) (c : Call) (me : Nat) (second : Bool) : Rank :=
  if second then
    match c.op with
    | .allReduce => { rank with pc := .last .wanted }
    | _ => rank.finish (.ok rank.buf)
  else if c.op.works me then { rank with pc := .middle .wanted }
  else { rank with pc := .arrive true }

section
variable {n : Nat}

def State.at (s : State n) (r : Fin n) (rank : Rank) : State n := { s with ranks := set s.ranks r rank }

/-- The rank goes on at `pc`. -/
def State.go (s : State n) (r : Fin n) (pc : Pc) : State n := s.at r { s.ranks r with pc }

/-- `lock().unwrap()`. -/
def State.acquire (s : State n) (r : Fin n) (pc : Pc) : Option (State n) :=
  match s.lock with
  | some _ => none
  | none => if s.poisoned then some (s.go r .panicked) else some { s.go r pc with lock := some r }

/-- A panic with the lock held. -/
def State.panic (s : State n) (r : Fin n) : State n := { s.go r .panicked with lock := none, poisoned := true }

/-- `wait`, up to where the rank sleeps, or through if it is the last one. -/
def State.arrive (s : State n) (r : Fin n) (c : Call) (second : Bool) : State n :=
  match s.barrier.arrive n with
  | (barrier, some generation) => { s.go r (.wait second generation) with barrier }
  | (barrier, none) => { s.at r ((s.ranks r).pass c r second) with barrier }

/-- One step of a rank; `none` where it has to wait or has no call left. -/
def step (F : Floats) (calls : List Call) (inputs : Fin n → Nat → Buffers) (s : State n) (r : Fin n) :
    Option (State n) :=
  calls[(s.ranks r).results.length]?.bind fun c =>
    let mine := inputs r (s.ranks r).results.length
    match (s.ranks r).pc with
    | .entry =>
      match check n c mine with
      | .error e => some (s.at r ((s.ranks r).finish (.error e)))
      | .ok _ =>
        some (s.at r { s.ranks r with
          pc := if c.op.deposits r then .deposit .wanted else .arrive false
          buf := output c mine })
    | .deposit .wanted => s.acquire r (.deposit .held)
    | .deposit .held => some { s.go r (.deposit .done) with slots := set s.slots r mine.send }
    | .deposit .done => some { s.go r (.arrive false) with lock := none }
    | .arrive second => some (s.arrive r c second)
    | .wait second generation =>
      if s.barrier.generation = generation then none else some (s.at r ((s.ranks r).pass c r second))
    | .middle .wanted => s.acquire r (.middle .held)
    | .middle .held =>
      match middle F n c r (List.ofFn s.slots) (s.ranks r).buf with
      | none => some (s.panic r)
      | some (slots, buf) =>
        some { s.at r { s.ranks r with pc := .middle .done, buf } with slots := fun q => slots[q.val]?.getD [] }
    | .middle .done => some { s.go r (.arrive true) with lock := none }
    | .last .wanted => s.acquire r (.last .held)
    | .last .held =>
      match copyFromSlice (s.ranks r).buf (s.slots r) with
      | none => some (s.panic r)
      | some buf => some (s.at r { s.ranks r with pc := .last .done, buf })
    | .last .done => some { s.at r ((s.ranks r).finish (.ok (s.ranks r).buf)) with lock := none }
    | .panicked => none

def mesh (F : Floats) (calls : List Call) (inputs : Fin n → Nat → Buffers) : System (State n) (Fin n) where
  init s := s = start n
  step := step F calls inputs

end

/-- What the `k`-th call is to give rank `me`, from what all the ranks call it with. -/
def defined (F : Floats) (c : Call) (inputs : Fin n → Buffers) (me : Fin n) : Except CollectiveError Bytes :=
  (check n c (inputs me)).map fun _ =>
    match c.op with
    | .allReduce => reduced F c.cfg (List.ofFn fun r => (inputs r).send)
    | .allGather => (List.ofFn fun r => (inputs r).send).flatten
    | .allToAll => shardsFor c.cfg.bufferBytes me (List.ofFn fun r => (inputs r).send)
    | .broadcast root => (List.ofFn fun r => (inputs r).send)[root]?.getD []

end Flambeau.Runtime.Collective
