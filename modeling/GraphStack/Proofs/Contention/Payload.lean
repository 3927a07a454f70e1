import GraphStack.Contention.Payload
import GraphStack.Total
import Mathlib

/-!
# One payload and many threads

The swaps and the reads of a run, in their order, are those of a register that a single party uses
(`Legal`): each finds the value of the latest swap before it. So a value leaves the payload in one
swap, which gives it to one party, and what has ever been installed is either the payload now or in
one place with one party. A read that panics lets go of the lock like one that returns.
-/

namespace GraphStack

variable {α : Type}

namespace Call

def seen? : Call α → Option α
  | read v => some v
  | set _ => none

def old? : Call α → Option α
  | read _ => none
  | set old => some old

def ending (panics : Bool) : Call α → Deed α
  | read _ => .endRead panics
  | set _ => .letGo

end Call

namespace Party

/-- What the open reads see. -/
def reading (p : Party α) : List α := p.calls.filterMap Call.seen?

/-- Old payloads on their way from a swap to their release. -/
def holding (p : Party α) : List α := p.calls.filterMap Call.old?

/-- The payloads that came to a party. -/
def owned (p : Party α) : List α := p.holding ++ p.received ++ p.dropped

section

variable {p : Party α} {call : Call α} {calls : List (Call α)}

theorem reading_of_calls (hc : p.calls = call :: calls) :
    p.reading = call.seen?.toList ++ calls.filterMap Call.seen? := by
  rw [reading, hc]
  cases call <;> rfl

theorem holding_of_calls (hc : p.calls = call :: calls) :
    p.holding = call.old?.toList ++ calls.filterMap Call.old? := by
  rw [holding, hc]
  cases call <;> rfl

end

end Party

/-- What a step does to the payload, or learns of it. -/
inductive Access (α : Type)
  /-- The old payload goes to the party's caller, or else is the party's own to release. -/
  | swap (party : Nat) (handsOut : Bool) (new old : α)
  /-- The end of a read; nothing is seen if it panicked. -/
  | read (party : Nat) (seen : Option α)
  deriving DecidableEq, Repr

namespace Access

def party : Access α → Nat
  | swap i .. => i
  | read i _ => i

def new? : Access α → Option α
  | swap _ _ new _ => some new
  | read .. => none

/-- The old payload of a swap by a party. -/
def old? (i : Nat) (handsOut : Bool) : Access α → Option α
  | swap j out _ old => if j = i ∧ out = handsOut then some old else none
  | read .. => none

def seen? (i : Nat) : Access α → Option (Option α)
  | swap .. => none
  | read j seen => if j = i then some seen else none

variable {access : Access α} {i : Nat}

theorem seen?_of_ne (hn : access.party ≠ i) : access.seen? i = none := by
  cases access with
  | swap => rfl
  | read j seen => exact if_neg hn

theorem old?_of_ne (hn : access.party ≠ i) (handsOut : Bool) : access.old? i handsOut = none := by
  cases access with
  | swap j out new old => exact if_neg fun h => hn h.1
  | read => rfl

end Access

def latest : α → List (Access α) → α
  | v, [] => v
  | _, .swap _ _ new _ :: accesses => latest new accesses
  | v, .read .. :: accesses => latest v accesses

/-- A history of a register that holds a value at first: every swap takes out, and every read sees,
the value of the latest swap before it. -/
def Legal : α → List (Access α) → Prop
  | _, [] => True
  | v, .swap _ _ new old :: accesses => old = v ∧ Legal new accesses
  | v, .read _ seen :: accesses => (∀ w ∈ seen, w = v) ∧ Legal v accesses

theorem latest_append (v : α) (past accesses : List (Access α)) :
    latest v (past ++ accesses) = latest (latest v past) accesses := by
  induction past generalizing v with
  | nil => rfl
  | cons access past ih =>
    cases access with
    | swap i out new old => exact ih new
    | read i seen => exact ih v

theorem legal_append {v : α} {past accesses : List (Access α)} :
    Legal v (past ++ accesses) ↔ Legal v past ∧ Legal (latest v past) accesses := by
  induction past generalizing v with
  | nil => exact iff_of_eq (true_and _).symm
  | cons access past ih =>
    cases access with
    | swap i out new old => exact (and_congr_right fun _ => ih).trans and_assoc.symm
    | read i seen => exact (and_congr_right fun _ => ih).trans and_assoc.symm

/-- What is put in place by a swap, for the deeds that are swaps. -/
def Deed.new? (empty : α) : Deed α → Option α
  | set v => some v
  | replace v => some v
  | take => some empty
  | _ => none

def Deed.handsOut : Deed α → Bool
  | set _ => false
  | _ => true

namespace Exchange

variable (empty : α) (e : Exchange α)

def access? (turn : Nat × Deed α) : Option (Access α) :=
  (e.parties[turn.1]?).bind fun p =>
    match turn.2, p.calls with
    | .endRead panics, .read v :: _ => some (.read turn.1 (if panics then none else some v))
    | d, _ =>
      if e.readers = 0 then (d.new? empty).map (.swap turn.1 d.handsOut · e.payload) else none

def accesses : Exchange α → List (Nat × Deed α) → List (Access α)
  | _, [] => []
  | e, turn :: schedule => (e.access? empty turn).toList ++ accesses (e.step empty turn) schedule

inductive Move : Nat × Deed α → Option (Access α) → Exchange α → Prop
  | stay (turn : Nat × Deed α) : Move turn none e
  | beginRead {i : Nat} {p : Party α} (hp : e.parties[i]? = some p) :
      Move (i, .beginRead) none
        ({ e with readers := e.readers + 1 }.setParty i
          { p with calls := .read e.payload :: p.calls })
  | endRead {i : Nat} {p : Party α} {v : α} {calls : List (Call α)} (panics : Bool)
      (hp : e.parties[i]? = some p) (hc : p.calls = .read v :: calls) :
      Move (i, .endRead panics) (some (.read i (if panics then none else some v)))
        ({ e with readers := e.readers - 1 }.setParty i
          { p with calls, seen := (if panics then none else some v) :: p.seen })
  | set {i : Nat} {p : Party α} (v : α) (hp : e.parties[i]? = some p) (hz : e.readers = 0) :
      Move (i, .set v) (some (.swap i false v e.payload))
        ((e.swap v).setParty i { p with calls := .set e.payload :: p.calls })
  | handOut {i : Nat} {p : Party α} {d : Deed α} {v : α} (hp : e.parties[i]? = some p)
      (hz : e.readers = 0) (hd : d.new? empty = some v) (ho : d.handsOut = true) :
      Move (i, d) (some (.swap i true v e.payload))
        ((e.swap v).setParty i { p with received := e.payload :: p.received })
  | letGo {i : Nat} {p : Party α} {old : α} {calls : List (Call α)}
      (hp : e.parties[i]? = some p) (hc : p.calls = .set old :: calls) :
      Move (i, .letGo) none (e.setParty i { p with calls, dropped := old :: p.dropped })

variable {empty e}

theorem move_handOut {i : Nat} {p : Party α} {d : Deed α} {v : α} (hp : e.parties[i]? = some p)
    (hd : d.new? empty = some v) (ho : d.handsOut = true) :
    e.Move empty (i, d) (if e.readers = 0 then some (.swap i true v e.payload) else none)
      (e.handOut i p v) := by
  by_cases hz : e.readers = 0
  · rw [if_pos hz, Exchange.handOut, if_pos hz]
    exact .handOut hp hz hd ho
  · rw [if_neg hz, Exchange.handOut, if_neg hz]
    exact .stay _

theorem move_step (empty : α) (e : Exchange α) (turn : Nat × Deed α) :
    e.Move empty turn (e.access? empty turn) (e.step empty turn) := by
  obtain ⟨i, d⟩ := turn
  cases hp : e.parties[i]? with
  | none =>
    simp only [access?, step, hp, Option.bind_none]
    exact .stay _
  | some p =>
    simp only [access?, step, hp, Option.bind_some]
    cases d with
    | beginRead => simpa [deed, Deed.new?] using Move.beginRead hp
    | endRead panics =>
      cases hc : p.calls with
      | nil => simpa [deed, hc, Deed.new?] using Move.stay _
      | cons call calls =>
        cases call with
        | read v => simpa [deed, hc] using Move.endRead panics hp hc
        | set old => simpa [deed, hc, Deed.new?] using Move.stay _
    | set v =>
      by_cases hz : e.readers = 0
      · simpa [deed, hz, Deed.new?, Deed.handsOut] using Move.set v hp hz
      · simpa [deed, hz] using Move.stay _
    | replace v => exact move_handOut hp rfl rfl
    | take => exact move_handOut hp rfl rfl
    | letGo =>
      cases hc : p.calls with
      | nil => simpa [deed, hc, Deed.new?] using Move.stay _
      | cons call calls =>
        cases call with
        | read v => simpa [deed, hc, Deed.new?] using Move.stay _
        | set old => simpa [deed, hc, Deed.new?] using Move.letGo hp hc

/-! ## What every step keeps -/

/-- What a party has of the payloads is what a history says. -/
structure Told (past : List (Access α)) (i : Nat) (p : Party α) : Prop where
  seen : p.seen = (past.filterMap (Access.seen? i)).reverse
  received : p.received = (past.filterMap (Access.old? i true)).reverse
  released : (p.holding ++ p.dropped).Perm (past.filterMap (Access.old? i false))

/-- What is so at every moment of a run that began with the value `v`. -/
structure Sound (v : α) (past : List (Access α)) (e : Exchange α) : Prop where
  legal : Legal v past
  payload : e.payload = latest v past
  placed : (v :: past.filterMap Access.new?).Perm (e.payload :: e.parties.flatMap Party.owned)
  told : ∀ i p, e.parties[i]? = some p → Told past i p
  views : ∀ p ∈ e.parties, ∀ w ∈ p.reading, w = e.payload
  readers : e.readers = total (·.reading.length) e.parties

variable {e' : Exchange α} {v : α} {past : List (Access α)} {turn : Nat × Deed α}
  {access : Option (Access α)} {i : Nat} {p p' : Party α}

theorem flatMap_set {ps : List (Party α)} (xs : List α) (hp : ps[i]? = some p)
    (ho : p'.owned.Perm (xs ++ p.owned)) :
    ((ps.set i p').flatMap Party.owned).Perm (xs ++ ps.flatMap Party.owned) := by
  induction ps generalizing i with
  | nil => cases hp
  | cons q ps ih =>
    cases i with
    | zero =>
      cases hp
      calc p'.owned ++ ps.flatMap Party.owned
        _ |>.Perm ((xs ++ p.owned) ++ ps.flatMap Party.owned) := ho.append_right _
        _ = xs ++ (p.owned ++ ps.flatMap Party.owned) := List.append_assoc ..
    | succ i =>
      calc q.owned ++ (ps.set i p').flatMap Party.owned
        _ |>.Perm (q.owned ++ (xs ++ ps.flatMap Party.owned)) := (ih hp).append_left _
        _ |>.Perm (xs ++ (q.owned ++ ps.flatMap Party.owned)) := List.perm_append_comm_assoc ..

/-- A swap takes the old payload to the party, and what it installs is the payload. -/
theorem placed_swap (new : α) (hp : e.parties[i]? = some p)
    (hv : (v :: past.filterMap Access.new?).Perm (e.payload :: e.parties.flatMap Party.owned))
    (ho : p'.owned.Perm (e.payload :: p.owned)) :
    (v :: (past.filterMap Access.new? ++ [new])).Perm
      (new :: (e.parties.set i p').flatMap Party.owned) := by
  calc (v :: past.filterMap Access.new?) ++ [new]
    _ |>.Perm (new :: (v :: past.filterMap Access.new?)) := List.perm_append_singleton _ _
    _ |>.Perm (new :: ([e.payload] ++ e.parties.flatMap Party.owned)) := hv.cons _
    _ |>.Perm (new :: (e.parties.set i p').flatMap Party.owned) :=
      (flatMap_set [e.payload] hp ho).symm.cons _

namespace Told

theorem append (ht : Told past i p) (access : Option (Access α))
    (hs : p'.seen = (access.bind (Access.seen? i)).toList ++ p.seen)
    (hr : p'.received = (access.bind (Access.old? i true)).toList ++ p.received)
    (ho : (p'.holding ++ p'.dropped).Perm
      ((access.bind (Access.old? i false)).toList ++ (p.holding ++ p.dropped))) :
    Told (past ++ access.toList) i p' := by
  have hf {β : Type} (f : Access α → Option β) :
      access.toList.filterMap f = (access.bind f).toList := by
    cases access with
    | none => rfl
    | some access => cases h : f access <;> simp [h]
  refine ⟨?_, ?_, ?_⟩
  · rw [hs, ht.seen, List.filterMap_append, hf]
    cases access.bind (Access.seen? i) <;> simp
  · rw [hr, ht.received, List.filterMap_append, hf]
    cases access.bind (Access.old? i true) <;> simp
  · rw [List.filterMap_append, hf]
    exact ho.trans ((ht.released.append_left _).trans List.perm_append_comm)

/-- What another party does is not told of this one. -/
theorem other (ht : Told past i p) (hn : ∀ x ∈ access, x.party ≠ i) :
    Told (past ++ access.toList) i p := by
  have hs : access.bind (Access.seen? i) = none :=
    Option.bind_eq_none_iff.2 fun x hx => Access.seen?_of_ne (hn x hx)
  have ho (out : Bool) : access.bind (Access.old? i out) = none :=
    Option.bind_eq_none_iff.2 fun x hx => Access.old?_of_ne (hn x hx) out
  apply ht.append access
  · rw [hs]
    rfl
  · rw [ho]
    rfl
  · rw [ho]
    exact .refl _

end Told

namespace Sound

variable {readers : Nat} {new : α} {out : Bool}

theorem start (v : α) (parties : Nat) : Sound v [] (starting v parties) where
  legal := trivial
  payload := rfl
  placed := by
    have ho : (List.replicate parties (⟨[], [], [], []⟩ : Party α)).flatMap Party.owned = [] := by
      refine List.flatMap_eq_nil_iff.2 fun p hp => ?_
      rw [List.eq_of_mem_replicate hp]
      rfl
    rw [starting, ho]
    exact .refl _
  told := by
    intro i p hp
    rw [List.eq_of_mem_replicate (List.mem_of_getElem? hp)]
    exact ⟨rfl, rfl, .refl _⟩
  views := by
    intro p hp w hw
    rw [List.eq_of_mem_replicate hp] at hw
    cases hw
  readers := by
    refine (total_eq_zero _ fun p hp => ?_).symm
    rw [List.eq_of_mem_replicate hp]
    rfl

theorem told_setParty (hs : Sound v past e) (hp : e.parties[i]? = some p)
    (access : Option (Access α)) (hn : ∀ x ∈ access, x.party = i)
    (ht : Told (past ++ access.toList) i p') (j : Nat) (q : Party α)
    (hq : (e.parties.set i p')[j]? = some q) : Told (past ++ access.toList) j q := by
  by_cases hj : j = i
  · subst hj
    rw [List.getElem?_set_self (List.getElem?_eq_some_iff.1 hp).1] at hq
    cases hq
    exact ht
  · rw [List.getElem?_set_ne (Ne.symm hj)] at hq
    refine (hs.told j q hq).other fun x hx he => hj ?_
    exact he.symm.trans (hn x hx)

theorem readers_setParty (hs : Sound v past e) (hp : e.parties[i]? = some p)
    (hr : readers + p.reading.length = e.readers + p'.reading.length) :
    readers = total (·.reading.length) (e.parties.set i p') := by
  have ht := total_set (fun q : Party α => q.reading.length) hp p'
  have := hs.readers
  omega

/-- Nobody is in a read when the lock counts none. -/
theorem reading_eq_nil (hs : Sound v past e) (hz : e.readers = 0) (hp : p ∈ e.parties) :
    p.reading = [] := by
  have hle := le_total (fun q : Party α => q.reading.length) hp
  have := hs.readers
  refine List.length_eq_zero_iff.1 ?_
  omega

theorem keep (hs : Sound v past e) (hp : e.parties[i]? = some p)
    (hn : ∀ x ∈ access, ∃ seen, x = .read i seen ∧ ∀ w ∈ seen, w = e.payload)
    (ht : Told (past ++ access.toList) i p') (ho : p'.owned.Perm p.owned)
    (hv : ∀ w ∈ p'.reading, w = e.payload)
    (hr : readers + p.reading.length = e.readers + p'.reading.length) :
    Sound v (past ++ access.toList) ({ e with readers }.setParty i p') := by
  have hlegal : Legal (latest v past) access.toList := by
    cases access with
    | none => trivial
    | some x =>
      obtain ⟨seen, rfl, hw⟩ := hn x rfl
      exact ⟨fun w hm => (hw w hm).trans hs.payload, trivial⟩
  have hlatest : latest (latest v past) access.toList = latest v past := by
    cases access with
    | none => rfl
    | some x =>
      obtain ⟨seen, rfl, -⟩ := hn x rfl
      rfl
  have hnew : access.toList.filterMap Access.new? = [] := by
    cases access with
    | none => rfl
    | some x =>
      obtain ⟨seen, rfl, -⟩ := hn x rfl
      rfl
  refine ⟨legal_append.2 ⟨hs.legal, hlegal⟩, ?_, ?_, ?_, ?_, hs.readers_setParty hp hr⟩
  · rw [latest_append, hlatest]
    exact hs.payload
  · rw [List.filterMap_append, hnew, List.append_nil]
    exact hs.placed.trans ((flatMap_set [] hp ho).symm.cons _)
  · refine hs.told_setParty hp access (fun x hx => ?_) ht
    obtain ⟨seen, rfl, -⟩ := hn x hx
    rfl
  · intro q hq
    rcases List.mem_or_eq_of_mem_set hq with hq | rfl
    · exact hs.views q hq
    · exact hv

theorem swap (hs : Sound v past e) (hp : e.parties[i]? = some p) (hz : e.readers = 0)
    (ht : Told (past ++ [.swap i out new e.payload]) i p')
    (ho : p'.owned.Perm (e.payload :: p.owned)) (hr : p'.reading = p.reading) :
    Sound v (past ++ [.swap i out new e.payload]) ((e.swap new).setParty i p') := by
  refine ⟨legal_append.2 ⟨hs.legal, hs.payload, trivial⟩, ?_, ?_, ?_, ?_, ?_⟩
  · rw [latest_append]
    rfl
  · rw [List.filterMap_append]
    have hplaced := placed_swap new hp hs.placed ho
    exact hplaced
  · refine hs.told_setParty hp (some _) (fun x hx => ?_) ht
    cases hx
    rfl
  · intro q hq w hw
    have hnil : q.reading = [] := by
      rcases List.mem_or_eq_of_mem_set hq with hq | rfl
      · exact hs.reading_eq_nil hz hq
      · exact hr.trans (hs.reading_eq_nil hz (List.mem_of_getElem? hp))
    rw [hnil] at hw
    cases hw
  · exact hs.readers_setParty hp (congrArg (e.readers + ·.length) hr.symm)

theorem move (hs : Sound v past e) (hm : e.Move empty turn access e') :
    Sound v (past ++ access.toList) e' := by
  cases hm with
  | stay => exact (List.append_nil past).symm ▸ hs
  | @beginRead i p hp =>
    refine hs.keep hp (by simp) ?_ (.refl _) ?_ ?_
    · exact (hs.told i p hp).append none rfl rfl (.refl _)
    · exact List.forall_mem_cons.2 ⟨rfl, hs.views p (List.mem_of_getElem? hp)⟩
    · exact Nat.add_right_comm ..
  | @endRead i p v calls panics hp hc =>
    have hreading : p.reading = v :: calls.filterMap Call.seen? := Party.reading_of_calls hc
    have hholding : p.holding = calls.filterMap Call.old? := Party.holding_of_calls hc
    have hviews := hs.views p (List.mem_of_getElem? hp)
    rw [hreading] at hviews
    refine hs.keep hp ?_ ?_ ?_ ?_ ?_
    · rintro x ⟨⟩
      refine ⟨_, rfl, fun w hw => hviews w ?_⟩
      cases panics with
      | true => cases hw
      | false =>
        cases hw
        exact List.mem_cons_self
    · refine (hs.told i p hp).append (some _) (by simp [Access.seen?]) rfl ?_
      rw [hholding]
      exact .refl _
    · rw [Party.owned, Party.owned, hholding]
      exact .refl _
    · exact fun w hw => hviews w (List.mem_cons_of_mem _ hw)
    · have hle := le_total (fun q : Party α => q.reading.length) (List.mem_of_getElem? hp)
      have hl : p.reading.length = (calls.filterMap Call.seen?).length + 1 := by
        rw [hreading, List.length_cons]
      have := hs.readers
      show e.readers - 1 + p.reading.length = e.readers + (calls.filterMap Call.seen?).length
      omega
  | @set i p new hp hz =>
    refine hs.swap hp hz ?_ (.refl _) rfl
    exact (hs.told i p hp).append (some (.swap i false new e.payload)) rfl
      (by simp [Access.old?]) (by simp [Access.old?, Party.holding, Call.old?])
  | @handOut i p d new hp hz hd ho =>
    refine hs.swap hp hz ?_ ?_ rfl
    · exact (hs.told i p hp).append (some (.swap i true new e.payload)) rfl
        (by simp [Access.old?]) (by simp [Access.old?, Party.holding])
    · exact List.perm_middle.append_right _
  | @letGo i p old calls hp hc =>
    have hholding : p.holding = old :: calls.filterMap Call.old? := Party.holding_of_calls hc
    have hreading : p.reading = calls.filterMap Call.seen? := Party.reading_of_calls hc
    refine hs.keep hp (by simp) ?_ ?_ ?_ ?_
    · refine (hs.told i p hp).append none rfl rfl ?_
      rw [hholding]
      exact List.perm_middle
    · rw [Party.owned, Party.owned, hholding]
      exact List.perm_middle
    · have hviews := hs.views p (List.mem_of_getElem? hp)
      rwa [hreading] at hviews
    · rw [hreading]
      rfl

theorem run (hs : Sound v past e) (schedule : List (Nat × Deed α)) :
    Sound v (past ++ e.accesses empty schedule) (e.run empty schedule) := by
  induction schedule generalizing e past with
  | nil => exact (List.append_nil past).symm ▸ hs
  | cons turn schedule ih =>
    have hstep := ih (hs.move (e.move_step empty turn))
    rw [List.append_assoc] at hstep
    exact hstep

end Sound

/-! ## The lock is never lost -/

theorem length_move (hm : e.Move empty turn access e') : e'.parties.length = e.parties.length := by
  cases hm with
  | stay => rfl
  | _ => exact List.length_set

theorem length_run (empty : α) (e : Exchange α) (schedule : List (Nat × Deed α)) :
    (e.run empty schedule).parties.length = e.parties.length := by
  induction schedule generalizing e with
  | nil => rfl
  | cons turn schedule ih => exact (ih _).trans (length_move (e.move_step empty turn))

theorem payload_step_of_free {d : Deed α} {new : α} (hz : e.readers = 0)
    (hi : i < e.parties.length) (hd : d.new? empty = some new) :
    (e.step empty (i, d)).payload = new := by
  have hp := List.getElem?_eq_getElem hi
  cases d with
  | set | replace | take =>
    cases hd
    simp [step, hp, deed, handOut, hz, setParty, Exchange.swap]
  | beginRead | endRead | letGo => cases hd

theorem step_ending (empty : α) (panics : Bool) {call : Call α} {calls : List (Call α)}
    (hp : e.parties[i]? = some p) (hc : p.calls = call :: calls) :
    ∃ p', p'.calls = calls ∧ (e.step empty (i, call.ending panics)).parties = e.parties.set i p' ∧
      (e.step empty (i, call.ending panics)).payload = e.payload := by
  cases call with
  | read v =>
    simp only [step, hp, Call.ending, deed, hc]
    exact ⟨_, rfl, rfl, rfl⟩
  | set old =>
    simp only [step, hp, Call.ending, deed, hc]
    exact ⟨_, rfl, rfl, rfl⟩

/-- When all that is open has ended, nobody reads; what is open can end at any time. -/
theorem Sound.exists_free (hs : Sound v past e) (empty : α) (panics : Bool) :
    ∃ rest : List (Nat × Deed α),
      (∀ turn ∈ rest, turn.2 = .letGo ∨ turn.2 = .endRead panics) ∧
      (e.run empty rest).payload = e.payload ∧ (e.run empty rest).readers = 0 := by
  induction hn : total (·.calls.length) e.parties using Nat.strong_induction_on
    generalizing e past with
  | _ n ih =>
    by_cases hopen : ∃ p ∈ e.parties, p.calls ≠ []
    · obtain ⟨p, hm, hne⟩ := hopen
      obtain ⟨i, hp⟩ := List.mem_iff_getElem?.1 hm
      obtain ⟨call, calls, hc⟩ := List.exists_cons_of_ne_nil hne
      obtain ⟨p', hc', hparties, hpayload⟩ := step_ending empty panics hp hc
      have ht := total_set (fun q : Party α => q.calls.length) hp p'
      have hl : p.calls.length = p'.calls.length + 1 := by rw [hc, hc', List.length_cons]
      obtain ⟨rest, hrest, hsame, hfree⟩ :=
        ih _ (by rw [hparties]; omega) (hs.move (e.move_step empty (i, call.ending panics))) rfl
      refine ⟨(i, call.ending panics) :: rest, ?_, hsame.trans hpayload, hfree⟩
      refine List.forall_mem_cons.2 ⟨?_, hrest⟩
      cases call with
      | read => exact .inr rfl
      | set => exact .inl rfl
    · refine ⟨[], by simp, rfl, ?_⟩
      push Not at hopen
      refine hs.readers.trans (total_eq_zero _ fun p hp => ?_)
      rw [Party.reading, hopen p hp]
      rfl

/-- However the threads interleave: the swaps and reads are those of one register, every value that
was ever installed is the payload or in one place with one party, the lock counts the reads that are
open, and when these have ended, all of them by a panic or none, any write goes through. -/
theorem each_in_one_place (empty v : α) (parties : Nat) (schedule : List (Nat × Deed α)) :
    let start := starting v parties
    let now := start.run empty schedule
    let past := start.accesses empty schedule
    Legal v past ∧ now.payload = latest v past ∧
    (v :: past.filterMap Access.new?).Perm (now.payload :: now.parties.flatMap Party.owned) ∧
    (∀ i p, now.parties[i]? = some p →
      p.seen = (past.filterMap (Access.seen? i)).reverse ∧
      p.received = (past.filterMap (Access.old? i true)).reverse ∧
      (p.holding ++ p.dropped).Perm (past.filterMap (Access.old? i false)) ∧
      ∀ w ∈ p.reading, w = now.payload) ∧
    now.readers = total (·.reading.length) now.parties ∧
    (∀ i p w calls, now.parties[i]? = some p → p.calls = .read w :: calls →
      let after := now.step empty (i, .endRead true)
      after.payload = now.payload ∧ after.readers + 1 = now.readers) ∧
    ∀ panics, ∃ rest, (∀ turn ∈ rest, turn.2 = .letGo ∨ turn.2 = .endRead panics) ∧
      let later := now.run empty rest
      later.payload = now.payload ∧
      ∀ i < parties, ∀ d new, d.new? empty = some new →
        (later.step empty (i, d)).payload = new := by
  intro start now past
  have hs : Sound v past now := (Sound.start v parties).run schedule
  refine ⟨hs.legal, hs.payload, hs.placed, ?_, hs.readers, ?_, ?_⟩
  · intro i p hp
    have ht := hs.told i p hp
    exact ⟨ht.seen, ht.received, ht.released, hs.views p (List.mem_of_getElem? hp)⟩
  · intro i p w calls hp hc
    have hpos : now.readers ≠ 0 := by
      intro hz
      have hnil := hs.reading_eq_nil hz (List.mem_of_getElem? hp)
      rw [Party.reading_of_calls hc] at hnil
      cases hnil
    simp only [step, hp, deed, hc]
    exact ⟨rfl, Nat.sub_add_cancel (Nat.pos_of_ne_zero hpos)⟩
  · intro panics
    obtain ⟨rest, hrest, hsame, hfree⟩ := hs.exists_free empty panics
    refine ⟨rest, hrest, hsame, fun i hi d new hd => payload_step_of_free hfree ?_ hd⟩
    rw [length_run, length_run]
    exact hi.trans_eq List.length_replicate.symm

/-- A reader panics while two writers wait for it; both then write, and the first lets go of what it
took out only after the second. -/
theorem each_in_one_place_contended :
    let start := starting 1 3
    let schedule := [(0, .beginRead), (1, .set 5), (0, .endRead true), (1, .set 5),
      (2, .replace 6), (0, .beginRead), (1, .letGo), (0, .endRead false), (2, .take)]
    let now := start.run 0 schedule
    now.payload = 0 ∧ [1, 5, 6, 0].Perm (now.payload :: now.parties.flatMap Party.owned) ∧
    now.parties.map (·.dropped) = [[], [1], []] ∧
    now.parties.map (·.received) = [[], [], [6, 5]] ∧
    now.parties.map (·.seen) = [[some 6, none], [], []] := by
  intro start schedule now
  obtain ⟨-, -, hplaced, -⟩ := each_in_one_place 0 1 3 schedule
  have hpast : (start.accesses 0 schedule).filterMap Access.new? = [5, 6, 0] := by decide
  rw [hpast] at hplaced
  exact ⟨by decide, hplaced, by decide, by decide, by decide⟩

end Exchange
end GraphStack
