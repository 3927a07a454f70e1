/-!
# Threads that share a payload

Threads read and write one payload behind a lock, their steps interleaved in any order. A read takes
hold of the lock together with other readers and lets go of it by return or by panic; within a read
a party may read again. A write is one swap while nobody reads, so no panic can happen in the middle
of one; `set` lets go of the old payload in a later step, outside the lock, while `replace` and
`take` hand it to their caller. Letting go of a payload may run any of these operations again.
-/

namespace GraphStack

inductive Call (α : Type)
  | read (v : α)
  /-- A `set` between its swap and the release of the old payload. -/
  | set (old : α)
  deriving DecidableEq, Repr

/-- The lists have the latest first. A read that panicked has seen nothing. -/
structure Party (α : Type) where
  calls : List (Call α)
  seen : List (Option α)
  received : List α
  dropped : List α
  deriving Repr

structure Exchange (α : Type) where
  payload : α
  readers : Nat
  parties : List (Party α)
  deriving Repr

inductive Deed (α : Type)
  | beginRead
  | endRead (panics : Bool)
  | set (v : α)
  | replace (v : α)
  | take
  | letGo
  deriving DecidableEq, Repr

namespace Exchange

variable {α : Type}

def starting (v : α) (parties : Nat) : Exchange α :=
  ⟨v, 0, List.replicate parties ⟨[], [], [], []⟩⟩

def setParty (e : Exchange α) (i : Nat) (p : Party α) : Exchange α :=
  { e with parties := e.parties.set i p }

def swap (e : Exchange α) (v : α) : Exchange α := { e with payload := v }

def handOut (e : Exchange α) (i : Nat) (p : Party α) (v : α) : Exchange α :=
  if e.readers = 0 then (e.swap v).setParty i { p with received := e.payload :: p.received } else e

/-- A step of a party; one that it cannot do now changes nothing. -/
def deed (empty : α) (e : Exchange α) (i : Nat) (p : Party α) (d : Deed α) : Exchange α :=
  match d, p.calls with
  | .beginRead, calls =>
    { e with readers := e.readers + 1 }.setParty i { p with calls := .read e.payload :: calls }
  | .endRead panics, .read v :: calls =>
    { e with readers := e.readers - 1 }.setParty i
      { p with calls, seen := (if panics then none else some v) :: p.seen }
  | .set v, calls =>
    if e.readers = 0 then (e.swap v).setParty i { p with calls := .set e.payload :: calls } else e
  | .replace v, _ => e.handOut i p v
  | .take, _ => e.handOut i p empty
  | .letGo, .set old :: calls => e.setParty i { p with calls, dropped := old :: p.dropped }
  | _, _ => e

def step (empty : α) (e : Exchange α) (turn : Nat × Deed α) : Exchange α :=
  match e.parties[turn.1]? with
  | some p => e.deed empty turn.1 p turn.2
  | none => e

def run (empty : α) (e : Exchange α) (schedule : List (Nat × Deed α)) : Exchange α :=
  schedule.foldl (step empty) e

/-- Each of the first parties reads once, one of them perhaps with a panic, and then the next party
replaces the payload. -/
def readersThenWriter (readers : Nat) (panicking : Option Nat) (next : α) :
    List (Nat × Deed α) :=
  (List.range readers).flatMap (fun i => [(i, .beginRead), (i, .endRead (panicking == some i))])
    ++ [(readers, .replace next)]

end Exchange
end GraphStack
