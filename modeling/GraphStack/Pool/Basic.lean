import GraphStack.Heap.Build
import GraphStack.Pool.Storage

/-!
# Pools of nodes with payloads of one type

A pool holds nodes whose payloads are of any one type and are never looked into. It is the heap's
little sister: strong and weak handles are counted, budgets are charged, and a node without strong
handles gives up its payload and then its lease. The kind of storage is a parameter.

What a payload type does when a payload is copied, made empty or let go of is its own affair, a
`Payload`; it may charge or refund budgets and change anything else outside the pool.
-/

namespace GraphStack

structure Setting (ω : Type) where
  budgets : Array Budget
  rest : ω

/-- A type of payloads with what its own code does to the setting of a pool. -/
class Payload (α : Type) where
  /-- What payloads can reach besides budgets. -/
  Rest : Type
  empty : Setting Rest → α × Setting Rest
  copy : α → Setting Rest → α × Setting Rest
  drop : α → Setting Rest → Setting Rest

/-- Payloads that are plain data reach nothing. -/
instance (priority := low) {α : Type} [Inhabited α] : Payload α where
  Rest := Unit
  empty s := (default, s)
  copy v s := (v, s)
  drop _ s := s

/-- A node of a pool; its storage is gone once it is destroyed. -/
structure PoolCell (σ : Type → Type) (α : Type) where
  strong : Nat
  weak : Nat
  storage : Option (σ α)
  lease : Option BudgetId

structure Pool (σ : Type → Type) (α : Type) [Payload α] where
  cells : Array (PoolCell σ α)
  setting : Setting (Payload.Rest α)

namespace Setting

variable {ω : Type}

def budget (s : Setting ω) (id : BudgetId) : Budget := s.budgets.getD id.index default

def modifyBudget (s : Setting ω) (id : BudgetId) (f : Budget → Budget) : Setting ω :=
  { s with budgets := s.budgets.modify id.index f }

def charge (s : Setting ω) (id : BudgetId) : Setting ω :=
  s.modifyBudget id fun b => { b with live := b.live + 1, peak := max b.peak (b.live + 1) }

def refund (s : Setting ω) (id : BudgetId) : Setting ω :=
  s.modifyBudget id fun b => { b with live := b.live - 1 }

end Setting

namespace Pool

variable {σ : Type → Type} [Storage σ] {α : Type} [Payload α]

def empty (setting : Setting (Payload.Rest α)) : Pool σ α := ⟨#[], setting⟩

/-! ## The code of the payload type -/

def drop (p : Pool σ α) (v : α) : Pool σ α := { p with setting := Payload.drop v p.setting }

def dropAll (p : Pool σ α) (vs : List α) : Pool σ α := vs.foldl drop p

def copy (p : Pool σ α) (v : α) : α × Pool σ α :=
  match Payload.copy v p.setting with
  | (w, setting) => (w, { p with setting })

/-- A payload that may be missing; the empty one is made then. -/
def orEmpty (p : Pool σ α) : Option α → α × Pool σ α
  | some v => (v, p)
  | none =>
    match Payload.empty p.setting with
    | (v, setting) => (v, { p with setting })

/-! ## Cells -/

def cell? (p : Pool σ α) (id : NodeId) : Option (PoolCell σ α) := p.cells[id.number]?

def storage? (p : Pool σ α) (id : NodeId) : Option (σ α) := (p.cell? id).bind (·.storage)

def modify (p : Pool σ α) (id : NodeId) (f : PoolCell σ α → PoolCell σ α) : Pool σ α :=
  { p with cells := p.cells.modify id.number f }

def setStorage (p : Pool σ α) (id : NodeId) (s : σ α) : Pool σ α :=
  p.modify id fun c => { c with storage := some s }

def payload? (p : Pool σ α) (id : NodeId) : Option α := (p.storage? id).map Storage.payload

def strong (p : Pool σ α) (id : NodeId) : Nat := (p.cell? id).elim 0 (·.strong)

def weak (p : Pool σ α) (id : NodeId) : Nat := (p.cell? id).elim 0 (·.weak)

def isAlive (p : Pool σ α) (id : NodeId) : Bool := p.strong id ≠ 0

/-! ## Constructions -/

def build (p : Pool σ α) (v : α) (lease : Option BudgetId) : NodeId × Pool σ α :=
  (⟨p.cells.size⟩, { p with cells := p.cells.push ⟨1, 0, some (Storage.keep v), lease⟩ })

/-- A payload that a budget has no room for is let go of after the report has been made. -/
def construct (p : Pool σ α) (v : α) (through : Option BudgetId) :
    Except Fault NodeId × Pool σ α :=
  match through with
  | none =>
    match p.build v none with
    | (id, p) => (.ok id, p)
  | some b =>
    match Heap.reachedLimit? (p.setting.budget b) with
    | some limit => (.error (Refusal.fault ⟨(p.setting.budget b).live, limit⟩), p.drop v)
    | none =>
      match ({ p with setting := p.setting.charge b }).build v (some b) with
      | (id, p) => (.ok id, p)

/-- Arguments of a bad shape are let go of, and no budget is asked. -/
def constructFrom (p : Pool σ α) (args : Arguments α) (through : Option BudgetId) :
    Except Fault NodeId × Pool σ α :=
  match args.payload? with
  | .error e => (.error e.fault, p.dropAll args.values)
  | .ok given =>
    match p.orEmpty given with
    | (v, p) => p.construct v through

/-! ## Payloads -/

def enter? (p : Pool σ α) (id : NodeId) : Option (Pool σ α) :=
  match (p.storage? id).bind Storage.enter? with
  | some s => some (p.setStorage id s)
  | none => none

def leave (p : Pool σ α) (id : NodeId) : Pool σ α :=
  match p.storage? id with
  | some s => p.setStorage id (Storage.leave s)
  | none => p

/-- Copies the payload within a scope of its own. -/
def read? (p : Pool σ α) (id : NodeId) : Option (α × Pool σ α) :=
  match p.enter? id with
  | some p =>
    match p.payload? id with
    | some v =>
      match p.copy v with
      | (w, p) => some (w, p.leave id)
    | none => none
  | none => none

def replace? (p : Pool σ α) (id : NodeId) (v : α) : Option (α × Pool σ α) :=
  match (p.storage? id).bind (Storage.replace? · v) with
  | some (old, s) => some (old, p.setStorage id s)
  | none => none

def take? (p : Pool σ α) (id : NodeId) (empty : α) : Option (α × Pool σ α) :=
  match (p.storage? id).bind (Storage.take? · empty) with
  | some (old, s) => some (old, p.setStorage id s)
  | none => none

/-! ## Handles -/

def addStrong (p : Pool σ α) (id : NodeId) : Pool σ α :=
  p.modify id fun c => { c with strong := c.strong + 1 }

def dropStrong (p : Pool σ α) (id : NodeId) : Pool σ α :=
  p.modify id fun c => { c with strong := c.strong - 1 }

def addWeak (p : Pool σ α) (id : NodeId) : Pool σ α :=
  p.modify id fun c => { c with weak := c.weak + 1 }

def dropWeak (p : Pool σ α) (id : NodeId) : Pool σ α :=
  p.modify id fun c => { c with weak := c.weak - 1 }

/-- A node without strong handles keeps its weak count only. -/
def bury (p : Pool σ α) (id : NodeId) : Pool σ α :=
  p.modify id fun c => ⟨0, c.weak, none, none⟩

def destroy (p : Pool σ α) (id : NodeId) (c : PoolCell σ α) : Pool σ α :=
  let p := p.bury id
  let p := match c.storage with
    | some s => p.drop (Storage.payload s)
    | none => p
  match c.lease with
  | some b => { p with setting := p.setting.refund b }
  | none => p

def release (p : Pool σ α) (id : NodeId) : Pool σ α :=
  match p.cell? id with
  | some c =>
    if c.strong = 1 then p.destroy id c else p.dropStrong id
  | none => p

end Pool
end GraphStack
