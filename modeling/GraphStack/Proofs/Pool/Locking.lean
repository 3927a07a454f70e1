import GraphStack.Pool.Command
import Mathlib

/-!
# From one thread to many

A guarded payload becomes a locked one when its readers share the lock and nobody writes. Carried
over to cells, pools and sessions, this leaves counts, leases and the setting alone, and every
command does the same before and after it and gives the same reply. A write in the middle of a
scope is refused on both sides.
-/

namespace GraphStack

variable {α : Type}

namespace Guarded

/-- The same payload behind a lock. -/
def locked (s : Guarded α) : Locked α := ⟨s.payload, s.readers, false⟩

/-- What a write gives, behind a lock. -/
def lockedPair (r : α × Guarded α) : α × Locked α := (r.1, r.2.locked)

@[simp] theorem enter?_locked (s : Guarded α) :
    Storage.enter? s.locked = (Storage.enter? s).map locked := rfl

@[simp] theorem leave_locked (s : Guarded α) :
    Storage.leave s.locked = (Storage.leave s).locked := rfl

@[simp] theorem replace?_locked (s : Guarded α) (v : α) :
    Storage.replace? s.locked v = (Storage.replace? s v).map lockedPair := by
  obtain ⟨w, readers⟩ := s
  cases readers <;> rfl

@[simp] theorem take?_locked (s : Guarded α) (empty : α) :
    Storage.take? s.locked empty = (Storage.take? s empty).map lockedPair := by
  obtain ⟨w, readers⟩ := s
  cases readers <;> rfl

end Guarded

def PoolCell.locked (c : PoolCell Guarded α) : PoolCell Locked α :=
  ⟨c.strong, c.weak, c.storage.map Guarded.locked, c.lease⟩

variable [Payload α]

namespace Pool

def locked (p : Pool Guarded α) : Pool Locked α := ⟨p.cells.map PoolCell.locked, p.setting⟩

/-- What an operation gives, with the pool locked. -/
def lockedPair {β : Type} (r : β × Pool Guarded α) : β × Pool Locked α := (r.1, r.2.locked)

variable (p : Pool Guarded α) (id : NodeId) (v : α)

@[simp] theorem setting_locked : p.locked.setting = p.setting := rfl

/-! ## Cells -/

@[simp] theorem cell?_locked : p.locked.cell? id = (p.cell? id).map PoolCell.locked :=
  Array.getElem?_map

@[simp] theorem storage?_locked : p.locked.storage? id = (p.storage? id).map Guarded.locked := by
  unfold storage?
  rw [cell?_locked]
  cases p.cell? id <;> rfl

@[simp] theorem payload?_locked : p.locked.payload? id = p.payload? id := by
  unfold payload?
  rw [storage?_locked]
  cases p.storage? id <;> rfl

@[simp] theorem strong_locked : p.locked.strong id = p.strong id := by
  unfold strong
  rw [cell?_locked]
  cases p.cell? id <;> rfl

@[simp] theorem weak_locked : p.locked.weak id = p.weak id := by
  unfold weak
  rw [cell?_locked]
  cases p.cell? id <;> rfl

@[simp] theorem isAlive_locked : p.locked.isAlive id = p.isAlive id := by
  unfold isAlive
  rw [strong_locked]

/-- Changes of a cell that agree behind the lock. -/
theorem modify_locked {f : PoolCell Guarded α → PoolCell Guarded α}
    {g : PoolCell Locked α → PoolCell Locked α} (hfg : ∀ c, g c.locked = (f c).locked) :
    p.locked.modify id g = (p.modify id f).locked := by
  unfold modify locked
  congr 1
  apply Array.ext_getElem?
  intro i
  simp only [Array.getElem?_modify, Array.getElem?_map]
  split
  · cases p.cells[i]? with
    | none => rfl
    | some c => exact congrArg some (hfg c)
  · rfl

@[simp] theorem setStorage_locked (s : Guarded α) :
    p.locked.setStorage id s.locked = (p.setStorage id s).locked :=
  p.modify_locked id fun _ => rfl

@[simp] theorem addStrong_locked : p.locked.addStrong id = (p.addStrong id).locked :=
  p.modify_locked id fun _ => rfl

@[simp] theorem dropStrong_locked : p.locked.dropStrong id = (p.dropStrong id).locked :=
  p.modify_locked id fun _ => rfl

@[simp] theorem bury_locked : p.locked.bury id = (p.bury id).locked :=
  p.modify_locked id fun _ => rfl

@[simp] theorem addWeak_locked : p.locked.addWeak id = (p.addWeak id).locked :=
  p.modify_locked id fun _ => rfl

@[simp] theorem dropWeak_locked : p.locked.dropWeak id = (p.dropWeak id).locked :=
  p.modify_locked id fun _ => rfl

/-! ## The code of the payload type -/

@[simp] theorem drop_locked : p.locked.drop v = (p.drop v).locked := rfl

@[simp] theorem dropAll_locked (vs : List α) : p.locked.dropAll vs = (p.dropAll vs).locked := by
  unfold dropAll
  induction vs generalizing p with
  | nil => rfl
  | cons v vs ih =>
    rw [List.foldl_cons, List.foldl_cons, drop_locked]
    exact ih (p.drop v)

@[simp] theorem copy_locked : p.locked.copy v = lockedPair (p.copy v) := rfl

@[simp] theorem orEmpty_locked (given : Option α) :
    p.locked.orEmpty given = lockedPair (p.orEmpty given) := by
  cases given <;> rfl

/-! ## Constructions -/

@[simp] theorem build_locked (lease : Option BudgetId) :
    p.locked.build v lease = lockedPair (p.build v lease) := by
  have hcells : (p.cells.push ⟨1, 0, some (Storage.keep v), lease⟩).map PoolCell.locked =
      (p.cells.map PoolCell.locked).push ⟨1, 0, some (Storage.keep v), lease⟩ := Array.map_push
  simp only [build, lockedPair, locked, Array.size_map, hcells]

@[simp] theorem construct_locked (through : Option BudgetId) :
    p.locked.construct v through = lockedPair (p.construct v through) := by
  cases through with
  | none =>
    simp only [construct, build_locked]
    rfl
  | some b =>
    have hb := ({ p with setting := p.setting.charge b }).build_locked v (some b)
    simp only [construct, setting_locked]
    cases Heap.reachedLimit? (p.setting.budget b) with
    | some limit => rfl
    | none => exact congrArg (fun r => (Except.ok r.1, r.2)) hb

@[simp] theorem constructFrom_locked (args : Arguments α) (through : Option BudgetId) :
    p.locked.constructFrom args through = lockedPair (p.constructFrom args through) := by
  simp only [constructFrom, dropAll_locked, orEmpty_locked]
  cases args.payload? with
  | error e => rfl
  | ok given => exact (p.orEmpty given).2.construct_locked (p.orEmpty given).1 through

/-! ## Payloads -/

@[simp] theorem enter?_locked : p.locked.enter? id = (p.enter? id).map locked := by
  unfold enter?
  rw [storage?_locked]
  cases p.storage? id with
  | none => rfl
  | some s =>
    simp only [Option.map_some, Option.bind_some, Guarded.enter?_locked]
    cases Storage.enter? s with
    | none => rfl
    | some t => exact congrArg some (p.setStorage_locked id t)

@[simp] theorem leave_locked : p.locked.leave id = (p.leave id).locked := by
  unfold leave
  rw [storage?_locked]
  cases p.storage? id with
  | none => rfl
  | some s => exact p.setStorage_locked id (Storage.leave s)

@[simp] theorem read?_locked : p.locked.read? id = (p.read? id).map lockedPair := by
  unfold read?
  rw [enter?_locked]
  cases p.enter? id with
  | none => rfl
  | some p =>
    simp only [Option.map_some, payload?_locked]
    cases p.payload? id with
    | none => rfl
    | some v =>
      simp only [copy_locked, lockedPair, leave_locked]
      rfl

@[simp] theorem replace?_locked : p.locked.replace? id v = (p.replace? id v).map lockedPair := by
  unfold replace?
  rw [storage?_locked]
  cases p.storage? id with
  | none => rfl
  | some s =>
    simp only [Option.map_some, Option.bind_some, Guarded.replace?_locked]
    cases Storage.replace? s v with
    | none => rfl
    | some r => exact congrArg (fun q => some (r.1, q)) (p.setStorage_locked id r.2)

@[simp] theorem take?_locked : p.locked.take? id v = (p.take? id v).map lockedPair := by
  unfold take?
  rw [storage?_locked]
  cases p.storage? id with
  | none => rfl
  | some s =>
    simp only [Option.map_some, Option.bind_some, Guarded.take?_locked]
    cases Storage.take? s v with
    | none => rfl
    | some r => exact congrArg (fun q => some (r.1, q)) (p.setStorage_locked id r.2)

/-! ## The end of a node -/

theorem destroy_locked (c : PoolCell Guarded α) :
    p.locked.destroy id c.locked = (p.destroy id c).locked := by
  obtain ⟨strong, weak, storage, lease⟩ := c
  simp only [destroy, PoolCell.locked, bury_locked]
  cases storage <;> cases lease <;> rfl

@[simp] theorem release_locked : p.locked.release id = (p.release id).locked := by
  unfold release
  rw [cell?_locked]
  cases p.cell? id with
  | none => rfl
  | some c =>
    by_cases h1 : c.strong = 1
    · simp only [Option.map_some, PoolCell.locked, h1, if_true]
      exact p.destroy_locked id c
    · simp only [Option.map_some, PoolCell.locked, h1, if_false]
      exact p.dropStrong_locked id

end Pool

/-! ## Sessions -/

namespace PoolSession

def locked (s : PoolSession Guarded α) : PoolSession Locked α :=
  ⟨s.pool.locked, s.strong, s.weak, s.scopes⟩

/-- A reply with the session that it leaves, locked. -/
def lockedPair (r : PoolReply α × PoolSession Guarded α) : PoolReply α × PoolSession Locked α :=
  (r.1, r.2.locked)

variable (s : PoolSession Guarded α) (name : String) (id : NodeId) (v : α)

theorem locked_startIn (setting : Setting (Payload.Rest α)) :
    (startIn setting : PoolSession Guarded α).locked = startIn setting := by
  simp [startIn, locked, Pool.empty, Pool.locked]

theorem storeStrong_locked : s.locked.storeStrong name id = (s.storeStrong name id).locked := by
  simp only [storeStrong, locked]
  cases s.strong.lookup name with
  | none => rfl
  | some old => simp only [Pool.release_locked]

theorem storeWeak_locked : s.locked.storeWeak name id = (s.storeWeak name id).locked := by
  simp only [storeWeak, locked]
  cases s.weak.lookup name with
  | none => rfl
  | some old => simp only [Pool.dropWeak_locked]

theorem share_locked : s.locked.share name id = (s.share name id).locked := by
  have ha : s.locked.pool.addStrong id = (s.pool.addStrong id).locked := s.pool.addStrong_locked id
  simp only [share, ha]
  exact ({ s with pool := s.pool.addStrong id }).storeStrong_locked name id

theorem shareWeak_locked : s.locked.shareWeak name id = (s.shareWeak name id).locked := by
  have ha : s.locked.pool.addWeak id = (s.pool.addWeak id).locked := s.pool.addWeak_locked id
  simp only [shareWeak, ha]
  exact ({ s with pool := s.pool.addWeak id }).storeWeak_locked name id

theorem keepNode_locked (r : Except Fault NodeId × Pool Guarded α) :
    s.locked.keepNode name (Pool.lockedPair r) = lockedPair (s.keepNode name r) := by
  obtain ⟨_ | id, pool⟩ := r
  · rfl
  · exact congrArg (PoolReply.built, ·) (({ s with pool }).storeStrong_locked name id)

theorem shown_locked (r : Option (α × Pool Guarded α)) :
    s.locked.shown (r.map Pool.lockedPair) = lockedPair (s.shown r) := by
  cases r <;> rfl

theorem handOut_locked (pool : Pool Guarded α) (r : Option (α × Pool Guarded α)) :
    s.locked.handOut pool.locked v (r.map Pool.lockedPair) = lockedPair (s.handOut pool v r) := by
  cases r <;> rfl

theorem takeOut_locked : s.locked.takeOut id = lockedPair (s.takeOut id) := by
  have ho : s.locked.pool.orEmpty none = Pool.lockedPair (s.pool.orEmpty none) :=
    s.pool.orEmpty_locked none
  simp only [takeOut, ho]
  obtain ⟨v, pool⟩ := s.pool.orEmpty none
  simp only [Pool.lockedPair, Pool.take?_locked]
  exact s.handOut_locked v pool _

theorem letGo_locked (r : PoolReply α × PoolSession Guarded α) :
    letGo (lockedPair r) = lockedPair (letGo r) := by
  obtain ⟨reply, s⟩ := r
  cases reply <;> rfl

/-- A command on a handle, when what it does to the node is the same behind the lock. -/
theorem onStrong_locked {f : NodeId → PoolReply α × PoolSession Guarded α}
    {g : NodeId → PoolReply α × PoolSession Locked α} (hfg : ∀ id, g id = lockedPair (f id)) :
    s.locked.onStrong name g = lockedPair (s.onStrong name f) := by
  simp only [onStrong, locked]
  cases s.strong.lookup name with
  | none => rfl
  | some id => exact hfg id

theorem onWeak_locked {f : NodeId → PoolReply α × PoolSession Guarded α}
    {g : NodeId → PoolReply α × PoolSession Locked α} (hfg : ∀ id, g id = lockedPair (f id)) :
    s.locked.onWeak name g = lockedPair (s.onWeak name f) := by
  simp only [onWeak, locked]
  cases s.weak.lookup name with
  | none => rfl
  | some id => exact hfg id

theorem openScope_locked : s.locked.openScope name id = lockedPair (s.openScope name id) := by
  simp only [openScope, locked, Pool.enter?_locked]
  cases s.pool.enter? id with
  | none => rfl
  | some pool =>
    simp only [Option.map_some, Pool.payload?_locked]
    cases pool.payload? id <;> rfl

theorem closeScope_locked : s.locked.closeScope = lockedPair s.closeScope := by
  obtain ⟨pool, strong, weak, scopes⟩ := s
  cases scopes with
  | nil => rfl
  | cons x rest => simp only [closeScope, locked, lockedPair, Pool.leave_locked]

/-- A command does behind the lock what it does before it. -/
theorem act_locked (c : PoolCommand α) : s.locked.act c = lockedPair (s.act c) := by
  have hread (id : NodeId) : s.locked.shown (s.locked.pool.read? id) =
      lockedPair (s.shown (s.pool.read? id)) := by
    rw [← shown_locked]
    exact congrArg s.locked.shown (s.pool.read?_locked id)
  have hwrite (v : α) (id : NodeId) :
      s.locked.handOut s.locked.pool v (s.locked.pool.replace? id v) =
        lockedPair (s.handOut s.pool v (s.pool.replace? id v)) := by
    rw [← handOut_locked]
    exact congrArg (s.locked.handOut s.pool.locked v) (s.pool.replace?_locked id v)
  cases c with
  | make payload through into =>
    have ho : s.locked.pool.orEmpty payload = Pool.lockedPair (s.pool.orEmpty payload) :=
      s.pool.orEmpty_locked payload
    simp only [act, ho]
    obtain ⟨v, pool⟩ := s.pool.orEmpty payload
    simp only [Pool.lockedPair, Pool.construct_locked]
    exact s.keepNode_locked into _
  | makeFrom given through into =>
    have hc := s.pool.constructFrom_locked (.ofCall given) through
    exact (congrArg (s.locked.keepNode into) hc).trans (s.keepNode_locked into _)
  | get handle => exact s.onStrong_locked handle hread
  | read handle => exact s.onStrong_locked handle hread
  | enter handle => exact s.onStrong_locked handle (s.openScope_locked handle)
  | leave => exact s.closeScope_locked
  | set handle v =>
    refine s.onStrong_locked handle fun id => ?_
    rw [hwrite]
    exact letGo_locked _
  | replace handle v => exact s.onStrong_locked handle (hwrite v)
  | take handle => exact s.onStrong_locked handle s.takeOut_locked
  | discard v => rfl
  | clone handle into =>
    exact s.onStrong_locked handle fun id => congrArg (PoolReply.none, ·) (s.share_locked into id)
  | drop handle =>
    refine s.onStrong_locked handle fun id => ?_
    simp only [locked, lockedPair, Pool.release_locked]
  | downgrade handle into =>
    refine s.onStrong_locked handle fun id => ?_
    exact congrArg (PoolReply.none, ·) (s.shareWeak_locked into id)
  | cloneWeak handle into =>
    refine s.onWeak_locked handle fun id => ?_
    exact congrArg (PoolReply.none, ·) (s.shareWeak_locked into id)
  | dropWeak handle =>
    refine s.onWeak_locked handle fun id => ?_
    simp only [locked, lockedPair, Pool.dropWeak_locked]
  | upgrade handle into =>
    refine s.onWeak_locked handle fun id => ?_
    have ha : s.locked.pool.isAlive id = s.pool.isAlive id := s.pool.isAlive_locked id
    rw [ha]
    split
    · exact congrArg (PoolReply.bool true, ·) (s.share_locked into id)
    · rfl
  | counts handle =>
    refine s.onStrong_locked handle fun id => ?_
    simp only [locked, lockedPair, Pool.strong_locked, Pool.weak_locked]
  | same a b =>
    refine s.onStrong_locked a fun id => ?_
    exact s.onStrong_locked b fun _ => rfl
  | alive handle =>
    refine s.onWeak_locked handle fun id => ?_
    simp only [locked, lockedPair, Pool.isAlive_locked]

theorem perform_locked (c : PoolCommand α) : s.locked.perform c = lockedPair (s.perform c) := by
  have hb : s.locked.isBorrowed = s.isBorrowed := rfl
  unfold perform
  rw [hb]
  split
  · rfl
  · exact s.act_locked c

theorem performAll_locked (cs : List (PoolCommand α)) :
    s.locked.performAll cs = ((s.performAll cs).1, (s.performAll cs).2.locked) := by
  induction cs generalizing s with
  | nil => rfl
  | cons c cs ih =>
    simp only [performAll, perform_locked, lockedPair]
    rw [ih]

end PoolSession
end GraphStack
