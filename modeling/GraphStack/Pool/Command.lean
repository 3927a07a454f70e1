import GraphStack.Pool.Basic

/-!
# Commands on a pool

A caller works on a pool through named strong and weak handles. `PoolSession.perform` runs one
command and gives its reply; a command on a handle that is not there does nothing and says so.

A scope that reads a payload is opened and closed by commands of their own, with any commands
between them. It borrows the handle that it was opened on: until it ends, that handle can be used
but neither dropped nor overwritten.
-/

namespace GraphStack

inductive PoolCommand (α : Type)
  | make (payload : Option α) (through : Option BudgetId) (into : String)
  | makeFrom (given : List (Option String × α)) (through : Option BudgetId) (into : String)
  | get (handle : String)
  | read (handle : String)
  | enter (handle : String)
  | leave
  | set (handle : String) (v : α)
  | replace (handle : String) (v : α)
  | take (handle : String)
  | discard (v : α)
  | clone (handle into : String)
  | drop (handle : String)
  | downgrade (handle into : String)
  | cloneWeak (handle into : String)
  | dropWeak (handle : String)
  | upgrade (handle into : String)
  | counts (handle : String)
  | same (a b : String)
  | alive (handle : String)

namespace PoolCommand

variable {α : Type}

/-- The strong handle that goes or is overwritten. -/
def overwrites : PoolCommand α → Option String
  | .make _ _ into => some into
  | .makeFrom _ _ into => some into
  | .clone _ into => some into
  | .upgrade _ into => some into
  | .drop handle => some handle
  | _ => none

def writes : PoolCommand α → Option String
  | .set handle _ => some handle
  | .replace handle _ => some handle
  | .take handle => some handle
  | _ => none

end PoolCommand

inductive PoolReply (α : Type)
  | none
  | built
  | fault (f : Fault)
  | payload (v : α)
  | counts (strong weak : Nat)
  | bool (b : Bool)
  | refused
  | noHandle
  | noScope
  | inUse

/-- A pool with the handles that its caller holds and the scopes that are open. -/
structure PoolSession (σ : Type → Type) (α : Type) [Payload α] where
  pool : Pool σ α
  strong : List (String × NodeId)
  weak : List (String × NodeId)
  /-- The handle that each scope borrows and the node that it reads, the innermost scope first. -/
  scopes : List (String × NodeId)

namespace PoolSession

variable {σ : Type → Type} [Storage σ] {α : Type}

section

variable [Payload α]

def startIn (setting : Setting (Payload.Rest α)) : PoolSession σ α := ⟨.empty setting, [], [], []⟩

def without (name : String) (xs : List (String × NodeId)) : List (String × NodeId) :=
  xs.filter (·.1 ≠ name)

def put (name : String) (id : NodeId) (xs : List (String × NodeId)) : List (String × NodeId) :=
  (name, id) :: without name xs

/-- Stores a strong handle and then lets go of the one it replaces. -/
def storeStrong (s : PoolSession σ α) (name : String) (id : NodeId) : PoolSession σ α :=
  let pool := match s.strong.lookup name with
    | some old => s.pool.release old
    | none => s.pool
  { s with pool, strong := put name id s.strong }

def storeWeak (s : PoolSession σ α) (name : String) (id : NodeId) : PoolSession σ α :=
  let pool := match s.weak.lookup name with
    | some old => s.pool.dropWeak old
    | none => s.pool
  { s with pool, weak := put name id s.weak }

def share (s : PoolSession σ α) (name : String) (id : NodeId) : PoolSession σ α :=
  ({ s with pool := s.pool.addStrong id }).storeStrong name id

def shareWeak (s : PoolSession σ α) (name : String) (id : NodeId) : PoolSession σ α :=
  ({ s with pool := s.pool.addWeak id }).storeWeak name id

def keepNode (s : PoolSession σ α) (into : String) (r : Except Fault NodeId × Pool σ α) :
    PoolReply α × PoolSession σ α :=
  match r with
  | (.ok id, pool) => (.built, ({ s with pool }).storeStrong into id)
  | (.error f, pool) => (.fault f, { s with pool })

def shown (s : PoolSession σ α) (r : Option (α × Pool σ α)) : PoolReply α × PoolSession σ α :=
  match r with
  | some (v, pool) => (.payload v, { s with pool })
  | none => (.refused, s)

/-- What a write hands out. The payload that a refused write was to put in place is let go of. -/
def handOut (s : PoolSession σ α) (pool : Pool σ α) (v : α) (r : Option (α × Pool σ α)) :
    PoolReply α × PoolSession σ α :=
  match r with
  | some (old, pool) => (.payload old, { s with pool })
  | none => (.refused, { s with pool := pool.drop v })

def takeOut (s : PoolSession σ α) (id : NodeId) : PoolReply α × PoolSession σ α :=
  match s.pool.orEmpty none with
  | (v, pool) => s.handOut pool v (pool.take? id v)

def letGo (r : PoolReply α × PoolSession σ α) : PoolReply α × PoolSession σ α :=
  match r with
  | (.payload old, s) => (.none, { s with pool := s.pool.drop old })
  | (reply, s) => (reply, s)

def onStrong (s : PoolSession σ α) (handle : String)
    (f : NodeId → PoolReply α × PoolSession σ α) : PoolReply α × PoolSession σ α :=
  match s.strong.lookup handle with
  | some id => f id
  | none => (.noHandle, s)

def onWeak (s : PoolSession σ α) (handle : String)
    (f : NodeId → PoolReply α × PoolSession σ α) : PoolReply α × PoolSession σ α :=
  match s.weak.lookup handle with
  | some id => f id
  | none => (.noHandle, s)

def openScope (s : PoolSession σ α) (handle : String) (id : NodeId) :
    PoolReply α × PoolSession σ α :=
  match s.pool.enter? id with
  | some pool =>
    match pool.payload? id with
    | some v => (.payload v, { s with pool, scopes := (handle, id) :: s.scopes })
    | none => (.refused, s)
  | none => (.refused, s)

def closeScope (s : PoolSession σ α) : PoolReply α × PoolSession σ α :=
  match s.scopes with
  | [] => (.noScope, s)
  | (_, id) :: rest => (.none, { s with pool := s.pool.leave id, scopes := rest })

/-- Runs a command that leaves borrowed handles in place. -/
def act (s : PoolSession σ α) : PoolCommand α → PoolReply α × PoolSession σ α
  | .make payload through into =>
    match s.pool.orEmpty payload with
    | (v, pool) => s.keepNode into (pool.construct v through)
  | .makeFrom given through into => s.keepNode into (s.pool.constructFrom (.ofCall given) through)
  | .get handle => s.onStrong handle fun id => s.shown (s.pool.read? id)
  | .read handle => s.onStrong handle fun id => s.shown (s.pool.read? id)
  | .enter handle => s.onStrong handle (s.openScope handle)
  | .leave => s.closeScope
  | .set handle v =>
    s.onStrong handle fun id => letGo (s.handOut s.pool v (s.pool.replace? id v))
  | .replace handle v => s.onStrong handle fun id => s.handOut s.pool v (s.pool.replace? id v)
  | .take handle => s.onStrong handle s.takeOut
  | .discard v => (.none, { s with pool := s.pool.drop v })
  | .clone handle into => s.onStrong handle fun id => (.none, s.share into id)
  | .drop handle =>
    s.onStrong handle fun id =>
      (.none, { s with pool := s.pool.release id, strong := without handle s.strong })
  | .downgrade handle into => s.onStrong handle fun id => (.none, s.shareWeak into id)
  | .cloneWeak handle into => s.onWeak handle fun id => (.none, s.shareWeak into id)
  | .dropWeak handle =>
    s.onWeak handle fun id =>
      (.none, { s with pool := s.pool.dropWeak id, weak := without handle s.weak })
  | .upgrade handle into =>
    s.onWeak handle fun id =>
      if s.pool.isAlive id then (.bool true, s.share into id) else (.bool false, s)
  | .counts handle => s.onStrong handle fun id => (.counts (s.pool.strong id) (s.pool.weak id), s)
  | .same a b => s.onStrong a fun a => s.onStrong b fun b => (.bool (a == b), s)
  | .alive handle => s.onWeak handle fun id => (.bool (s.pool.isAlive id), s)

def isBorrowed (s : PoolSession σ α) (name : String) : Bool := s.scopes.any (·.1 = name)

/-- Runs a command, unless it would overwrite a handle that a scope borrows. -/
def perform (s : PoolSession σ α) (c : PoolCommand α) : PoolReply α × PoolSession σ α :=
  if c.overwrites.any s.isBorrowed then (.inUse, s) else s.act c

def performAll (s : PoolSession σ α) : List (PoolCommand α) → List (PoolReply α) × PoolSession σ α
  | [] => ([], s)
  | c :: cs =>
    let (reply, s) := s.perform c
    let (replies, s) := s.performAll cs
    (reply :: replies, s)

end

def start [Inhabited α] (budgets : Array Budget) : PoolSession σ α := startIn ⟨budgets, ()⟩

end PoolSession
end GraphStack
