import GraphStack.Heap.Build

/-!
# Workers that share a budget

Workers take slots of one budget and give them back, their steps interleaved in any order. To take a
slot a worker reads the number of live nodes, gives up if that number has reached the limit, and
otherwise tries to put the next number in its place, which fails if another worker came first, or
for no reason at all; it then goes on with the number it found. A worker that succeeded publishes
its number to the peak in a step of its own. A slot may also pass from one worker to another.
`Arena.run` follows a schedule of such steps.

The two numbers are words of 64 bits, so counting beyond either end wraps around.
-/

namespace GraphStack

inductive Phase
  | idle
  | read (live : Nat)
  /-- A slot has been taken, and the peak does not know yet. -/
  | taken (live : Nat)
  deriving DecidableEq, Repr

structure Worker where
  phase : Phase
  attempts : Nat
  held : Nat
  refusals : List Refusal
  deriving Repr

structure Arena where
  limit : Option Nat
  live : Nat
  peak : Nat
  workers : List Worker
  deriving Repr

inductive Action
  /-- The next step of a worker's attempt; its exchange may fail for no reason. -/
  | advance (worker : Nat) (spurious : Bool)
  | giveBack (worker : Nat)
  /-- A worker between attempts hands a slot to another worker. -/
  | handOver (worker receiver : Nat)
  deriving DecidableEq, Repr

def countUp (n : Nat) : Nat := if n + 1 = twoTo 64 then 0 else n + 1

def countDown (n : Nat) : Nat := if n = 0 then twoTo 64 - 1 else n - 1

namespace Worker

def starting (attempts : Nat) : Worker := ⟨.idle, attempts, 0, []⟩

def gain (w : Worker) : Worker := { w with held := w.held + 1 }

def lose (w : Worker) : Worker := { w with held := w.held - 1 }

end Worker

namespace Arena

def starting (limit : Option Nat) (attempts : List Nat) : Arena :=
  ⟨limit, 0, 0, attempts.map Worker.starting⟩

def setWorker (a : Arena) (i : Nat) (w : Worker) : Arena := { a with workers := a.workers.set i w }

def attempt (a : Arena) (i : Nat) (w : Worker) (current : Nat) (spurious : Bool) : Arena :=
  match a.limit.filter (· ≤ current) with
  | some limit =>
    a.setWorker i { w with phase := .idle, refusals := ⟨current, limit⟩ :: w.refusals }
  | none =>
    if a.live = current ∧ spurious = false then
      { a with live := countUp current }.setWorker i { w with phase := .taken (countUp current) }
    else a.setWorker i { w with phase := .read a.live }

def advance (a : Arena) (i : Nat) (w : Worker) (spurious : Bool) : Arena :=
  match w.phase with
  | .idle =>
    if w.attempts = 0 then a
    else a.setWorker i { w with phase := .read a.live, attempts := w.attempts - 1 }
  | .read current => a.attempt i w current spurious
  | .taken live =>
    { a with peak := max a.peak live }.setWorker i { w.gain with phase := .idle }

def giveBack (a : Arena) (i : Nat) (w : Worker) : Arena :=
  if w.phase = .idle ∧ w.held ≠ 0 then
    { a with live := countDown a.live }.setWorker i w.lose
  else a

def handOver (a : Arena) (i : Nat) (w : Worker) (receiver : Nat) : Arena :=
  match a.workers[receiver]? with
  | some other =>
    if w.phase = .idle ∧ w.held ≠ 0 ∧ i ≠ receiver then
      (a.setWorker i w.lose).setWorker receiver other.gain
    else a
  | none => a

/-- One step; a step of a worker that cannot do it, or that is not there, changes nothing. -/
def step (a : Arena) : Action → Arena
  | .advance i spurious =>
    match a.workers[i]? with
    | some w => a.advance i w spurious
    | none => a
  | .giveBack i =>
    match a.workers[i]? with
    | some w => a.giveBack i w
    | none => a
  | .handOver i receiver =>
    match a.workers[i]? with
    | some w => a.handOver i w receiver
    | none => a

def run (a : Arena) (schedule : List Action) : Arena := schedule.foldl step a

def held (a : Arena) : Nat := total Worker.held a.workers

def refusals (a : Arena) : List Refusal := a.workers.flatMap (·.refusals)

/-- Every worker makes all its attempts before the next one starts. -/
def oneByOne (workers attempts : Nat) : List Action :=
  (List.range workers).flatMap fun i => List.replicate (3 * attempts) (.advance i false)

def handBack (workers attempts : Nat) : List Action :=
  (List.range workers).flatMap fun i => List.replicate attempts (.giveBack i)

end Arena
end GraphStack
