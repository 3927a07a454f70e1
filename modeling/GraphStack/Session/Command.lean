import GraphStack.Config.Basic
import GraphStack.Heap.Outline
import GraphStack.Session.Recipe

/-!
# Commands of a session

`Session.perform` runs one command and gives its reply. A command that fails to build something
leaves its slot as it was.
-/

namespace GraphStack

inductive Making
  | empty
  | payload (r : Recipe)
  | call (given : List (Option String × Recipe))

inductive Act
  | set
  | replace
  | take
  | get
  deriving DecidableEq, Repr

/-- A stack of frames, each linked to the one before it. -/
structure Chain where
  frames : Nat
  bottom : Recipe
  /-- The budgets that the frames are built through, in turn; none for frames without a budget. -/
  through : List String
  /-- Slots that get a handle of their own to a frame. -/
  keep : List (Nat × String)
  watch : List (Nat × String)
  /-- Every so many frames the link is inside a list; 0 for never. -/
  wrap : Nat

def Chain.link (c : Chain) (frame : Nat) (below : NodeId) : Value :=
  if c.wrap ≠ 0 ∧ frame % c.wrap = 0 then .list [.node below] else .node below

inductive Command
  | make (model : Model) (making : Making) (through : Option String) (into : String)
  | openBudget (label : String) (limit : Option UInt64) (into : String)
  | openBudgetFrom (config : Except Fault Config) (into : String)
  | shareBudget (budget into : String)
  | closeBudget (budget : String)
  | lookAtBudget (budget : String)
  | inspectBudget (budget : String)
  | clone (slot into : String)
  | drop (slot : String)
  | keep (r : Recipe) (into : String)
  | present (r : Recipe)
  | compare (a b : Recipe)
  | get (slot : String) (into : Option String)
  | peek (slot : String)
  | set (slot : String) (r : Recipe)
  | replace (slot : String) (r : Recipe) (into : Option String)
  | take (slot : String) (into : Option String)
  | within (reading slot : String) (act : Act) (r : Recipe)
  | info (slot : String)
  | inspect (slot : String)
  | identify (a b : String)
  | downgrade (slot into : String)
  | upgrade (slot into : String)
  | follow (slot : String) (links : Nat) (into : Option String)
  | grow (c : Chain) (into : String)

inductive Reply
  | nothing
  | built (id : NodeId)
  | alive (b : Bool)
  | value (v : Value)
  | budget (b : Budget)
  | budgetOutline (o : Outline)
  | fault (f : Fault)
  | presented (v : Value)
  | compared (forward backward : Bool)
  | peeked (v : Value)
  | refused
  | counts (id : NodeId) (strong weak : Nat)
  | typeOf (v : Value)
  | outline (o : Outline) (orderFree : Bool)
  | identical (b : Bool)
  | followed (links : Nat) (id : NodeId) (payload : Value)
  | grown (frames : Nat)
  | stunted (frames : Nat) (f : Fault)

namespace Session

abbrev Outcome := Except Misuse (Reply × Session)

/-! ## Nodes and budgets -/

def budget? (s : Session) : Option String → Except Misuse (Option BudgetId)
  | none => .ok none
  | some name =>
    match s.budgetId name with
    | .error e => .error e
    | .ok id => .ok (some id)

def keepNode (s : Session) (into : String) (r : Except Fault NodeId) : Reply × Session :=
  match r with
  | .ok id => (.built id, s.store into (.strong id))
  | .error f => (.fault f, s)

def construct (s : Session) (model : Model) (payload : Value) (through : Option BudgetId)
    (into : String) : Reply × Session :=
  match s with
  | ⟨heap, slots, budgets⟩ =>
    match heap.constructOrFault model payload through with
    | (r, heap) => keepNode ⟨heap, slots, budgets⟩ into r

def make (s : Session) (model : Model) (making : Making) (through : Option String)
    (into : String) : Outcome :=
  match s.budget? through with
  | .error e => .error e
  | .ok through =>
    match making with
    | .empty => .ok (s.construct model .nil through into)
    | .payload r =>
      match s.build r with
      | .error e => .error e
      | .ok (v, s) => .ok (s.construct model v through into)
    | .call given =>
      match s.buildCall given with
      | .error e => .error e
      | .ok (given, ⟨heap, slots, budgets⟩) =>
        match heap.constructFrom model (.ofCall given) through with
        | (r, heap) => .ok (keepNode ⟨heap, slots, budgets⟩ into r)

def shareBudget (s : Session) (id : BudgetId) (into : String) : Reply × Session :=
  (.budget (s.heap.budget id), { s with budgets := putNamed into id s.budgets })

def openBudget (s : Session) (label : String) (limit : Option UInt64) (into : String) :
    Reply × Session :=
  if limit = some 0 then (.fault (.plain .config Config.zeroLimitMessage), s)
  else
    let id := s.heap.nextBudget
    (s.onHeap (·.openBudget label (limit.map (·.toNat)))).shareBudget id into

/-! ## Slots -/

def storing (s : Session) (x : Holding) : Reply :=
  match x with
  | .strong id => .built id
  | .weak id => .alive (s.heap.cell id).isAlive
  | .value v => .value v

def clone (s : Session) (x : Holding) (into : String) : Reply × Session :=
  (s.storing x, (s.onHeap (·.retainHolding x)).store into x)

/-- Replies with a value and stores it, or releases it where no slot is named. -/
def handOver (s : Session) (v : Value) : Option String → Reply × Session
  | some into => (.value v, s.store into (.value v))
  | none => (.value v, s.onHeap (·.release v))

def info (s : Session) : Holding → Reply
  | .strong id => .counts id (s.heap.cell id).strong (s.heap.cell id).weak
  | .weak id => .alive (s.heap.cell id).isAlive
  | .value v => .typeOf v

def inspect (s : Session) : Holding → Reply
  | .strong id => .outline (s.heap.outlineStrong id) (s.heap.payload id).orderFree
  | .weak id => .outline (s.heap.outlineWeak id) true
  | .value v => .outline v.outline v.orderFree

/-! ## Payloads -/

def get (s : Session) (id : NodeId) (into : Option String) : Reply × Session :=
  let v := s.heap.payload id
  (s.onHeap (·.retain v)).handOver v into

/-- A write by the caller; one that is refused releases the new payload. -/
def replace (s : Session) (id : NodeId) (v : Value) (into : Option String) : Reply × Session :=
  match s with
  | ⟨heap, slots, budgets⟩ =>
    match heap.replace? id v with
    | some (old, heap) => handOver ⟨heap, slots, budgets⟩ old into
    | none => (.refused, ⟨heap.release v, slots, budgets⟩)

def set (s : Session) (id : NodeId) (v : Value) : Reply × Session :=
  match s.replace id v none with
  | (.refused, s) => (.refused, s)
  | (_, s) => (.nothing, s)

/-- An act on a node; the value at hand is released by the acts that have no use for it. -/
def act (s : Session) (id : NodeId) (v : Value) : Act → Reply × Session
  | .set => s.set id v
  | .replace => s.replace id v none
  | .take => (s.onHeap (·.release v)).replace id .nil none
  | .get => (s.onHeap (·.release v)).get id none

def within (s : Session) (reading id : NodeId) (v : Value) (a : Act) : Reply × Session :=
  let (r, s) := (s.onHeap (·.enter reading)).act id v a
  (r, s.onHeap (·.leave reading))

/-! ## Chains -/

def handOut (s : Session) (extra : List (Nat × String)) (frame : Nat) (x : Holding) : Session :=
  extra.foldl (fun s (place, name) =>
    if place = frame then (s.onHeap (·.retainHolding x)).store name x else s) s

/-- Builds a frame with the payload at hand and so many more frames upon it. -/
def growFrom (c : Chain) (through : Array BudgetId) (into : String) (s : Session) (frame : Nat)
    (payload : Value) (more : Nat) : Reply × Session :=
  match s with
  | ⟨heap, slots, budgets⟩ =>
    match heap.constructOrFault .single payload through[frame % through.size]? with
    | (.error f, heap) => (.stunted frame f, ⟨heap, slots, budgets⟩)
    | (.ok id, heap) =>
      let s := handOut ⟨heap, slots, budgets⟩ c.keep frame (.strong id)
      let s := handOut s c.watch frame (.weak id)
      match more with
      | 0 => (.grown (frame + 1), s.store into (.strong id))
      | more + 1 => growFrom c through into s (frame + 1) (c.link (frame + 1) id) more

def budgetIds (s : Session) : List String → Except Misuse (Array BudgetId)
  | [] => .ok #[]
  | name :: names =>
    match s.budgetId name with
    | .error e => .error e
    | .ok id =>
      match s.budgetIds names with
      | .error e => .error e
      | .ok ids => .ok (#[id] ++ ids)

def grow (s : Session) (c : Chain) (into : String) : Outcome :=
  match s.budgetIds c.through with
  | .error e => .error e
  | .ok through =>
    match s.build c.bottom with
    | .error e => .error e
    | .ok (v, s) =>
      match c.frames with
      | 0 => .ok (.grown 0, s.onHeap (·.release v))
      | more + 1 => .ok (growFrom c through into s 0 v more)

/-! ## One command -/

def withNode (s : Session) (name : String) (f : NodeId → Outcome) : Outcome :=
  match s.node name with
  | .error e => .error e
  | .ok id => f id

def withValue (s : Session) (r : Recipe) (f : Session → Value → Outcome) : Outcome :=
  match s.build r with
  | .error e => .error e
  | .ok (v, s) => f s v

def perform (s : Session) : Command → Outcome
  | .make model making through into => s.make model making through into
  | .openBudget label limit into => .ok (s.openBudget label limit into)
  | .openBudgetFrom config into =>
    match config with
    | .error f => .ok (.fault f, s)
    | .ok c => .ok (s.openBudget c.label c.maxLiveNodes into)
  | .shareBudget budget into =>
    match s.budgetId budget with
    | .error e => .error e
    | .ok id => .ok (s.shareBudget id into)
  | .closeBudget budget =>
    match s.budgetId budget with
    | .error e => .error e
    | .ok _ => .ok (.nothing, { s with budgets := eraseNamed budget s.budgets })
  | .lookAtBudget budget =>
    match s.budgetId budget with
    | .error e => .error e
    | .ok id => .ok (.budget (s.heap.budget id), s)
  | .inspectBudget budget =>
    match s.budgetId budget with
    | .error e => .error e
    | .ok id => .ok (.budgetOutline (s.heap.budget id).outline, s)
  | .clone slot into =>
    match s.slot slot with
    | .error e => .error e
    | .ok x => .ok (s.clone x into)
  | .drop slot =>
    match s.slot slot with
    | .error e => .error e
    | .ok x => .ok (.nothing, (s.vacate slot).onHeap (·.releaseHolding x))
  | .keep r into => s.withValue r fun s v => .ok (.value v, s.store into (.value v))
  | .present r => s.withValue r fun s v => .ok (.presented v, s.onHeap (·.release v))
  | .compare a b =>
    s.withValue a fun s v =>
      s.withValue b fun s w =>
        .ok (.compared (v.same w) (w.same v), s.onHeap (·.releaseAll [w, v]))
  | .get slot into => s.withNode slot fun id => .ok (s.get id into)
  | .peek slot => s.withNode slot fun id => .ok (.peeked (s.heap.payload id), s)
  | .set slot r => s.withValue r fun s v => s.withNode slot fun id => .ok (s.set id v)
  | .replace slot r into =>
    s.withValue r fun s v => s.withNode slot fun id => .ok (s.replace id v into)
  | .take slot into => s.withNode slot fun id => .ok (s.replace id .nil into)
  | .within reading slot a r =>
    s.withValue r fun s v =>
      s.withNode reading fun reading =>
        s.withNode slot fun id => .ok (s.within reading id v a)
  | .info slot =>
    match s.slot slot with
    | .error e => .error e
    | .ok x => .ok (s.info x, s)
  | .inspect slot =>
    match s.slot slot with
    | .error e => .error e
    | .ok x => .ok (s.inspect x, s)
  | .identify a b =>
    s.withNode a fun a => s.withNode b fun b => .ok (.identical (a == b), s)
  | .downgrade slot into =>
    s.withNode slot fun id =>
      .ok (.alive true, (s.onHeap (·.addWeak id)).store into (.weak id))
  | .upgrade slot into =>
    match s.weakNode slot with
    | .error e => .error e
    | .ok id =>
      match s.heap.upgrade? id with
      | some heap => .ok (.built id, ({ s with heap }).store into (.strong id))
      | none => .ok (.nothing, s)
  | .follow slot links into =>
    s.withNode slot fun id =>
      let (steps, last) := s.heap.follow id links
      let reply := .followed steps last (s.heap.payload last)
      match into with
      | some into => .ok (reply, (s.onHeap (·.addStrong last)).store into (.strong last))
      | none => .ok (reply, s)
  | .grow c into => s.grow c into

end Session
end GraphStack
