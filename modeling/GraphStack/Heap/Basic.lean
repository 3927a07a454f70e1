import GraphStack.Value.Basic

/-!
# The heap of nodes

A heap holds a cell for every node ever built, the shared trees of maps, the budgets and the
journal of what happened to the budgets. A cell counts its strong and its weak handles and the
scopes that read its payload at the moment; a node is alive while it has a strong handle. Cells of
destroyed nodes stay in place with the payload nil, so a number never names two nodes.

The operations here change one cell, tree or budget each. Number 0 names no node: the heap starts
with one cell that nobody has a handle to.
-/

namespace GraphStack

inductive Model
  | single
  | shared
  deriving DecidableEq, Repr

structure BudgetId where
  index : Nat
  deriving DecidableEq, Repr, Inhabited

structure Cell where
  model : Model
  strong : Nat
  weak : Nat
  readers : Nat
  payload : Value
  lease : Option BudgetId

/-- The entries that all copies of a map share, and the number of copies. -/
structure Tree where
  copies : Nat
  entries : List (String × Value)

structure Budget where
  label : String
  limit : Option Nat
  live : Nat
  peak : Nat
  deriving DecidableEq, Repr

inductive Event
  | allocated (label : String) (live : Nat) (limit : Option Nat)
  | released (label : String) (live : Nat)
  | exhausted (label : String) (live limit : Nat)
  deriving DecidableEq, Repr

structure Heap where
  cells : Array Cell
  trees : Array Tree
  budgets : Array Budget
  journal : Array Event
  /-- Writes that a release was refused because a scope was reading the cell. -/
  refusals : Nat

namespace Cell

/-- The cell that nobody has a handle to. -/
def vacant : Cell := ⟨.single, 0, 0, 0, .nil, none⟩

instance : Inhabited Cell := ⟨vacant⟩

def isAlive (c : Cell) : Bool := c.strong ≠ 0

end Cell

instance : Inhabited Tree := ⟨⟨0, []⟩⟩

instance : Inhabited Budget := ⟨⟨"", none, 0, 0⟩⟩

namespace Heap

def empty : Heap := ⟨#[.vacant], #[], #[], #[], 0⟩

instance : Inhabited Heap := ⟨empty⟩

def cell (h : Heap) (id : NodeId) : Cell := h.cells.getD id.number .vacant

def tree (h : Heap) (id : MapId) : Tree := h.trees.getD id.index ⟨0, []⟩

def budget (h : Heap) (id : BudgetId) : Budget := h.budgets.getD id.index default

def modifyCell (h : Heap) (id : NodeId) (f : Cell → Cell) : Heap :=
  { h with cells := h.cells.modify id.number f }

def modifyTree (h : Heap) (id : MapId) (f : Tree → Tree) : Heap :=
  { h with trees := h.trees.modify id.index f }

def modifyBudget (h : Heap) (id : BudgetId) (f : Budget → Budget) : Heap :=
  { h with budgets := h.budgets.modify id.index f }

def log (h : Heap) (e : Event) : Heap := { h with journal := h.journal.push e }

/-! ## Nodes -/

def nextNode (h : Heap) : NodeId := ⟨h.cells.size⟩

def build (h : Heap) (model : Model) (payload : Value) (lease : Option BudgetId) : Heap :=
  { h with cells := h.cells.push ⟨model, 1, 0, 0, payload, lease⟩ }

def addStrong (h : Heap) (id : NodeId) : Heap :=
  h.modifyCell id fun c => { c with strong := c.strong + 1 }

def dropStrong (h : Heap) (id : NodeId) : Heap :=
  h.modifyCell id fun c => { c with strong := c.strong - 1 }

def addWeak (h : Heap) (id : NodeId) : Heap :=
  h.modifyCell id fun c => { c with weak := c.weak + 1 }

def dropWeak (h : Heap) (id : NodeId) : Heap :=
  h.modifyCell id fun c => { c with weak := c.weak - 1 }

def setPayload (h : Heap) (id : NodeId) (v : Value) : Heap :=
  h.modifyCell id fun c => { c with payload := v }

def enter (h : Heap) (id : NodeId) : Heap :=
  h.modifyCell id fun c => { c with readers := c.readers + 1 }

def leave (h : Heap) (id : NodeId) : Heap :=
  h.modifyCell id fun c => { c with readers := c.readers - 1 }

/-! ## Trees of maps -/

def nextTree (h : Heap) : MapId := ⟨h.trees.size⟩

def plant (h : Heap) (entries : List (String × Value)) : Heap :=
  { h with trees := h.trees.push ⟨1, entries⟩ }

def addCopy (h : Heap) (id : MapId) : Heap :=
  h.modifyTree id fun t => { t with copies := t.copies + 1 }

def dropCopy (h : Heap) (id : MapId) : Heap :=
  h.modifyTree id fun t => { t with copies := t.copies - 1 }

def fell (h : Heap) (id : MapId) : Heap := h.modifyTree id fun t => { t with entries := [] }

/-! ## Copies of values -/

mutual
/-- The handles of a copy: one more to each node in it and one more copy of each map. -/
def retain (h : Heap) : Value → Heap
  | .list items => h.retainAll items
  | .map tree _ => h.addCopy tree
  | .node id => h.addStrong id
  | _ => h

def retainAll (h : Heap) : List Value → Heap
  | [] => h
  | v :: vs => (h.retain v).retainAll vs
end

/-! ## Budgets -/

def nextBudget (h : Heap) : BudgetId := ⟨h.budgets.size⟩

def openBudget (h : Heap) (label : String) (limit : Option Nat) : Heap :=
  { h with budgets := h.budgets.push ⟨label, limit, 0, 0⟩ }

/-- The limit that the live nodes of a budget have reached, if they have. -/
def reachedLimit? (b : Budget) : Option Nat := b.limit.filter (· ≤ b.live)

def lend (h : Heap) (id : BudgetId) : Heap :=
  let b := h.budget id
  let live := b.live + 1
  (h.modifyBudget id fun b => { b with live, peak := max b.peak live }).log
    (.allocated b.label live b.limit)

def giveBack (h : Heap) (id : BudgetId) : Heap :=
  let b := h.budget id
  let live := b.live - 1
  (h.modifyBudget id fun b => { b with live }).log (.released b.label live)

def endLease (h : Heap) (id : NodeId) : Heap :=
  match (h.cell id).lease with
  | none => h
  | some b => (h.modifyCell id fun c => { c with lease := none }).giveBack b

end Heap
end GraphStack
