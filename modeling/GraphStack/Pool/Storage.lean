/-!
# Storages of a payload

A node keeps its payload in a storage. `Guarded` is for one thread: scopes that read are counted,
and a write is refused while there is one. `Locked` is for many: a reader shares the lock, and a
write takes the lock for itself, swaps the payload and gives the lock back. `Storage` is what both
have in common.
-/

namespace GraphStack

structure Guarded (α : Type) where
  payload : α
  readers : Nat

/-- A payload behind a lock that is open, shared by readers, or held by a writer. -/
structure Locked (α : Type) where
  payload : α
  readers : Nat
  writing : Bool

class Storage (σ : Type → Type) where
  keep {α : Type} : α → σ α
  payload {α : Type} : σ α → α
  /-- A scope begins to read, unless it cannot do so now. -/
  enter? {α : Type} : σ α → Option (σ α)
  leave {α : Type} : σ α → σ α
  /-- Puts a payload in place and gives the old one, unless the write cannot happen now. -/
  replace? {α : Type} : σ α → α → Option (α × σ α)
  /-- Gives the payload away and keeps the empty one, unless the write cannot happen now. -/
  take? {α : Type} : σ α → α → Option (α × σ α)

namespace Guarded

variable {α : Type}

def keep (v : α) : Guarded α := ⟨v, 0⟩

def enter? (s : Guarded α) : Option (Guarded α) := some { s with readers := s.readers + 1 }

def leave (s : Guarded α) : Guarded α := { s with readers := s.readers - 1 }

def replace? (s : Guarded α) (v : α) : Option (α × Guarded α) :=
  if s.readers = 0 then some (s.payload, { s with payload := v }) else none

def take? (s : Guarded α) (empty : α) : Option (α × Guarded α) :=
  match s.readers with
  | 0 => some (s.payload, keep empty)
  | _ + 1 => none

end Guarded

namespace Locked

variable {α : Type}

def keep (v : α) : Locked α := ⟨v, 0, false⟩

def enter? (s : Locked α) : Option (Locked α) :=
  if s.writing then none else some { s with readers := s.readers + 1 }

def leave (s : Locked α) : Locked α := { s with readers := s.readers - 1 }

def lock? (s : Locked α) : Option (Locked α) :=
  if s.readers = 0 ∧ s.writing = false then some { s with writing := true } else none

def unlock (s : Locked α) : Locked α := { s with writing := false }

def swap (s : Locked α) (v : α) : α × Locked α := (s.payload, { s with payload := v })

def replace? (s : Locked α) (v : α) : Option (α × Locked α) :=
  match s.lock? with
  | none => none
  | some s =>
    match s.swap v with
    | (old, s) => some (old, s.unlock)

/-- Taking is replacing by the empty payload. -/
def take? (s : Locked α) (empty : α) : Option (α × Locked α) := s.replace? empty

end Locked

instance : Storage Guarded where
  keep := Guarded.keep
  payload := Guarded.payload
  enter? := Guarded.enter?
  leave := Guarded.leave
  replace? := Guarded.replace?
  take? := Guarded.take?

instance : Storage Locked where
  keep := Locked.keep
  payload := Locked.payload
  enter? := Locked.enter?
  leave := Locked.leave
  replace? := Locked.replace?
  take? := Locked.take?

end GraphStack
