import GraphStack.Proofs.Execution.Refusals
import GraphStack.Session.Command

/-!
# Scopes that read payloads

A scope looks at a payload in place. The handle that leads to its node need not be a copy: it may be
in something that the caller has lent to the scope, or in a payload that a scope around it reads.
`Nesting` is a heap with the open scopes, and `Nesting.Step` what a caller can do there, including
to leave scopes by a panic. While scopes are open, whatever leads to the nodes that they read stays
where it is; so a frame that a release takes a link out of is never one of them, and only writes by
the caller are refused.
-/

namespace GraphStack

/-- A scope that reads a node, with what is lent to it until it ends. -/
structure Scope where
  node : NodeId
  lent : List Holding

namespace Scope

def lentAll (scopes : List Scope) : List Holding := scopes.flatMap lent

def nodes (scopes : List Scope) : List NodeId := scopes.map node

theorem lentAll_cons (s : Scope) (scopes : List Scope) :
    lentAll (s :: scopes) = s.lent ++ lentAll scopes := rfl

end Scope

namespace Heap

/-- What can be looked at without a handle of one's own: lent values, payloads that are read at the
moment, and parts of them. -/
inductive InPlace (h : Heap) (lent : List Holding) (reading : List NodeId) : Value → Prop
  | value {v : Value} (hv : .value v ∈ lent) : InPlace h lent reading v
  | handle {id : NodeId} (hv : .strong id ∈ lent) : InPlace h lent reading (.node id)
  | payload {id : NodeId} (hr : id ∈ reading) : InPlace h lent reading (h.payload id)
  | item {vs : List Value} {v : Value} (hv : InPlace h lent reading (.list vs)) (hm : v ∈ vs) :
      InPlace h lent reading v
  | entry {tree : MapId} {es : List (String × Value)} {e : String × Value}
      (hv : InPlace h lent reading (.map tree es)) (hm : e ∈ es) : InPlace h lent reading e.2

/-- What leads to the node of each scope is lent to it or to a scope around it, or is in a payload
that a scope around it reads. -/
def Anchored (h : Heap) : List Scope → Prop
  | [] => True
  | s :: scopes =>
    h.InPlace (s.lent ++ Scope.lentAll scopes) (Scope.nodes scopes) (.node s.node) ∧
      h.Anchored scopes

variable {h h' : Heap} {o kept lent : List Holding} {reading : List NodeId} {v : Value}
  {id : NodeId} {scopes : List Scope}

namespace InPlace

theorem present (hv : h.InPlace lent reading v) (hs : h.Sound o) (ho : ∀ x ∈ lent, x ∈ o) :
    h.Present v := by
  induction hv with
  | value hv => exact hs.present (.inl (ho _ hv))
  | handle hv => exact (Visible.handle hv).present hs ho
  | payload => exact hs.present (.inr (.inl ⟨_, rfl⟩))
  | item _ hm ih => exact ih.item hm
  | entry _ hm ih => exact hs.present_entry ih hm

/-- A release does not reach what is looked at in place while what is lent is kept. -/
theorem not_doomed (hv : h.InPlace lent reading v) (hs : h.Sound o) (ho : ∀ x ∈ lent, x ∈ o)
    (hk : ∀ x ∈ lent, x ∈ kept)
    (hr : ∀ id ∈ reading, ¬ h.Doomed (Holding.handlesAll kept) (.strong id)) :
    ∀ x ∈ v.handles, ¬ h.Doomed (Holding.handlesAll kept) x := by
  induction hv with
  | value hv =>
    intro x hx hd
    exact hd.notMem (mem_handlesAll_of_value (hk _ hv) hx)
  | handle hv =>
    intro x hx hd
    exact hd.notMem (List.mem_flatMap.2 ⟨_, hk _ hv, hx⟩)
  | @payload id hm =>
    rintro x hx ⟨-, hp, -⟩
    exact hr id hm (hp id hx)
  | item _ hm ih =>
    intro x hx
    exact ih x (Value.mem_handlesAll.2 ⟨_, hm, hx⟩)
  | @entry tree es e hv hm ih =>
    -- The entries of the map are those of its tree, so the tree would be doomed as well.
    have hentries : (h.tree tree).entries = es :=
      (hv.present hs ho).agrees (tree, es) List.mem_cons_self
    rintro x hx ⟨-, -, ht⟩
    refine ih (.tree tree) List.mem_cons_self (ht tree ?_)
    rw [Tree.handles, hentries]
    exact Value.mem_handlesAll.2 ⟨e.2, List.mem_map_of_mem hm, hx⟩

theorem congr (hp : ∀ id ∈ reading, h'.payload id = h.payload id)
    (hv : h.InPlace lent reading v) : h'.InPlace lent reading v := by
  induction hv with
  | value hv => exact .value hv
  | handle hv => exact .handle hv
  | @payload id hm =>
    rw [← hp id hm]
    exact .payload hm
  | item _ hm ih => exact .item ih hm
  | entry _ hm ih => exact .entry ih hm

end InPlace

namespace Anchored

theorem alive (ha : h.Anchored scopes) (hs : h.Sound o)
    (ho : ∀ x ∈ Scope.lentAll scopes, x ∈ o) (hm : id ∈ Scope.nodes scopes) :
    (h.cell id).strong ≠ 0 := by
  induction scopes with
  | nil => cases hm
  | cons s scopes ih =>
    rcases List.mem_cons.1 hm with rfl | hm
    · exact (ha.1.present hs ho).counted (.strong s.node) List.mem_cons_self
    · exact ih ha.2 (fun x hx => ho x (List.mem_append_right _ hx)) hm

/-- No release reaches a node that a scope reads. The induction goes from the outermost scope
inwards, since a scope may find its node in a payload that the scopes around it read. -/
theorem not_doomed (ha : h.Anchored scopes) (hs : h.Sound o)
    (ho : ∀ x ∈ Scope.lentAll scopes, x ∈ o) (hk : ∀ x ∈ Scope.lentAll scopes, x ∈ kept)
    (hm : id ∈ Scope.nodes scopes) : ¬ h.Doomed (Holding.handlesAll kept) (.strong id) := by
  induction scopes generalizing id with
  | nil => cases hm
  | cons s scopes ih =>
    have hrest (id : NodeId) (hm : id ∈ Scope.nodes scopes) :
        ¬ h.Doomed (Holding.handlesAll kept) (.strong id) :=
      ih ha.2 (fun x hx => ho x (List.mem_append_right _ hx))
        (fun x hx => hk x (List.mem_append_right _ hx)) hm
    rcases List.mem_cons.1 hm with rfl | hm
    · exact ha.1.not_doomed hs ho hk hrest _ List.mem_cons_self
    · exact hrest id hm

theorem congr (hp : ∀ id ∈ Scope.nodes scopes, h'.payload id = h.payload id)
    (ha : h.Anchored scopes) : h'.Anchored scopes := by
  induction scopes with
  | nil => trivial
  | cons s scopes ih =>
    have hrest (id : NodeId) (hm : id ∈ Scope.nodes scopes) : h'.payload id = h.payload id :=
      hp id (List.mem_cons_of_mem _ hm)
    exact ⟨ha.1.congr hrest, ih hrest ha.2⟩

end Anchored

theorem replace?_eq_none : h.replace? id v = none ↔ (h.cell id).readers ≠ 0 := by
  unfold replace?
  split
  · next hr => exact ⟨nofun, fun hn => absurd hr hn⟩
  · next hr => exact ⟨fun _ => hr, fun _ => rfl⟩

end Heap

namespace Session

variable {s : Session} {id : NodeId} {v : Value} {into : Option String}

/-- A write that is refused lets go of what it was offered, and that is all. -/
theorem replace_of_read (hr : (s.heap.cell id).readers ≠ 0) :
    s.replace id v into = (.refused, s.onHeap (·.release v)) := by
  obtain ⟨heap, slots, budgets⟩ := s
  simp only [Session.replace, Heap.replace?_eq_none.2 hr]
  rfl

theorem set_of_read (hr : (s.heap.cell id).readers ≠ 0) :
    s.set id v = (.refused, s.onHeap (·.release v)) := by
  rw [Session.set, replace_of_read hr]

theorem replace_of_unread (hr : (s.heap.cell id).readers = 0) :
    (s.replace id v into).1 = .value (s.heap.payload id) := by
  obtain ⟨heap, slots, budgets⟩ := s
  have hw : heap.replace? id v = some (heap.payload id, heap.setPayload id v) := if_pos hr
  simp only [Session.replace, hw]
  cases into <;> rfl

theorem replace_refused_iff :
    (s.replace id v into).1 = .refused ↔ (s.heap.cell id).readers ≠ 0 := by
  by_cases hr : (s.heap.cell id).readers = 0
  · rw [replace_of_unread hr]
    exact ⟨nofun, fun hn => absurd hr hn⟩
  · rw [replace_of_read hr]
    exact ⟨fun _ => hr, fun _ => rfl⟩

theorem set_refused_iff : (s.set id v).1 = .refused ↔ (s.heap.cell id).readers ≠ 0 := by
  by_cases hr : (s.heap.cell id).readers = 0
  · have hw : (s.replace id v none).1 = .value (s.heap.payload id) := replace_of_unread hr
    rw [Session.set]
    generalize s.replace id v none = written at hw
    obtain ⟨reply, t⟩ := written
    obtain rfl : reply = .value (s.heap.payload id) := hw
    exact ⟨nofun, fun hn => absurd hr hn⟩
  · rw [set_of_read hr]
    exact ⟨fun _ => hr, fun _ => rfl⟩

end Session

/-- A heap with what its caller holds and the open scopes, the innermost first. A panic ends scopes
until it is caught. -/
structure Nesting where
  heap : Heap
  held : List Holding
  scopes : List Scope
  panicking : Bool

namespace Nesting

open Heap Scope

def start : Nesting := ⟨.empty, [], [], false⟩

/-- Everything that is held outside the heap. -/
def outside (m : Nesting) : List Holding := m.held ++ lentAll m.scopes

/-- The nodes that scopes read. -/
def reading (m : Nesting) : List NodeId := nodes m.scopes

/-- What a caller can do inside scopes. A value that a refused write was offered is let go of while
the panic begins; during a panic things are let go of and scopes end, and nothing else happens. -/
inductive Step : Nesting → Nesting → Prop
  | deal {h h' : Heap} {xs xs' : List Holding} {ss : List Scope}
      (hd : Dealing [] h (xs ++ lentAll ss) h' (xs' ++ lentAll ss)) :
      Step ⟨h, xs, ss, false⟩ ⟨h', xs', ss, false⟩
  | drop {h h' : Heap} {xs ys : List Holding} {ss : List Scope} {p : Bool} {x : Holding}
      (hp : xs.Perm (x :: ys)) (hl : h.LetsGo x h') : Step ⟨h, xs, ss, p⟩ ⟨h', ys, ss, p⟩
  | write {h h' : Heap} {xs ys : List Holding} {ss : List Scope} {id : NodeId} {v old : Value}
      (hp : xs.Perm (.value v :: ys)) (hv : h.Visible (xs ++ lentAll ss) (.node id))
      (hw : h.replace? id v = some (old, h')) :
      Step ⟨h, xs, ss, false⟩ ⟨h', .value old :: ys, ss, false⟩
  | refuse {h h' : Heap} {xs ys : List Holding} {ss : List Scope} {id : NodeId} {v : Value}
      (hp : xs.Perm (.value v :: ys)) (hv : h.Visible (xs ++ lentAll ss) (.node id))
      (hm : (h.cell id).model = .single) (hw : h.replace? id v = none)
      (hl : h.LetsGo (.value v) h') : Step ⟨h, xs, ss, false⟩ ⟨h', ys, ss, true⟩
  | build {h h' : Heap} {xs ys : List Holding} {ss : List Scope} {id : NodeId} {v : Value}
      {model : Model} {through : Option BudgetId} (hp : xs.Perm (.value v :: ys))
      (hb : ∀ b ∈ through, b.index < h.budgets.size)
      (hc : h.construct model v through = (.ok id, h')) :
      Step ⟨h, xs, ss, false⟩ ⟨h', .strong id :: ys, ss, false⟩
  | full {h h' : Heap} {xs ys : List Holding} {ss : List Scope} {v : Value} {model : Model}
      {through : Option BudgetId} {r : Refusal} (hp : xs.Perm (.value v :: ys))
      (hc : h.construct model v through = (.error r, h')) :
      Step ⟨h, xs, ss, false⟩ ⟨h', ys, ss, false⟩
  | openBudget {h : Heap} {xs : List Holding} {ss : List Scope} {label : String}
      {limit : Option Nat} (hl : limit ≠ some 0) :
      Step ⟨h, xs, ss, false⟩ ⟨h.openBudget label limit, xs, ss, false⟩
  | enter {h : Heap} {xs ys lent : List Holding} {ss : List Scope} {id : NodeId}
      (hp : xs.Perm (lent ++ ys)) (hi : h.InPlace (lent ++ lentAll ss) (nodes ss) (.node id)) :
      Step ⟨h, xs, ss, false⟩ ⟨h.enter id, ys, ⟨id, lent⟩ :: ss, false⟩
  | leave {h : Heap} {xs : List Holding} {s : Scope} {ss : List Scope} {p : Bool} :
      Step ⟨h, xs, s :: ss, p⟩ ⟨h.leave s.node, s.lent ++ xs, ss, p⟩
  | panic {h : Heap} {xs : List Holding} {ss : List Scope} :
      Step ⟨h, xs, ss, false⟩ ⟨h, xs, ss, true⟩
  | recover {h : Heap} {xs : List Holding} {ss : List Scope} :
      Step ⟨h, xs, ss, true⟩ ⟨h, xs, ss, false⟩

/-- Some steps from the empty heap lead there. -/
inductive Reached : Nesting → Prop
  | start : Reached start
  | step {m m' : Nesting} (hr : Reached m) (hs : Step m m') : Reached m'

structure Sound (m : Nesting) : Prop where
  heap : m.heap.Sound m.outside
  solvent : m.heap.Solvent
  closing : m.heap.Closing []
  readers : ∀ id, (m.heap.cell id).readers = m.reading.count id
  anchored : m.heap.Anchored m.scopes
  refusals : m.heap.refusals = 0

namespace Sound

variable {h h' : Heap} {xs ys lent o : List Holding} {ss : List Scope} {s : Scope} {p q : Bool}
  {v old : Value} {id : NodeId} {x : Holding}

theorem of_start : Sound start where
  heap := Heap.sound_empty
  solvent := Execution.sound_empty.solvent
  closing := Execution.sound_empty.closing
  readers := Execution.sound_empty.readers
  anchored := trivial
  refusals := rfl

theorem mem_reading (hs : Sound ⟨h, xs, ss, p⟩) : id ∈ nodes ss ↔ (h.cell id).readers ≠ 0 := by
  rw [hs.readers id]
  exact List.count_pos_iff.symm.trans Nat.pos_iff_ne_zero

theorem split (hs : Sound ⟨h, xs, ss, p⟩) (hp : xs.Perm (o ++ ys)) :
    h.Sound (o ++ (ys ++ lentAll ss)) := by
  rw [← List.append_assoc]
  exact hs.heap.perm (hp.append_right _)

/-- Something that is held can be let go of while the rest and all that is lent is kept. -/
theorem unwinding (hs : Sound ⟨h, xs, ss, p⟩) (hp : xs.Perm (o ++ ys)) :
    Unwinding h (ys ++ lentAll ss) h o [] where
  sound := hs.split hp
  solvent := hs.solvent
  closing := hs.closing
  settling := .refl _ _
  guarded id hr := by
    have hlent (x : Holding) (hx : x ∈ lentAll ss) : x ∈ xs ++ lentAll ss :=
      List.mem_append_right _ hx
    exact hs.anchored.not_doomed hs.heap hlent (fun x hx => List.mem_append_right _ hx)
      (hs.mem_reading.2 hr)

/-- A release leaves the payloads that scopes read in place. -/
theorem payload_released (hs : Sound ⟨h, xs, ss, p⟩) (hp : xs.Perm (o ++ ys))
    (hu : Unwinding h (ys ++ lentAll ss) h' [] []) (hm : id ∈ nodes ss) :
    h'.payload id = h.payload id := by
  rcases hu.settling.payload id with he | ⟨-, hd⟩
  · exact he
  · exact absurd hd ((hs.unwinding hp).guarded id (hs.mem_reading.1 hm))

theorem released (hs : Sound ⟨h, xs, ss, p⟩) (hp : xs.Perm (o ++ ys))
    (hu : Unwinding h (ys ++ lentAll ss) h' [] []) : Sound ⟨h', ys, ss, q⟩ where
  heap := hu.sound
  solvent := hu.solvent
  closing := hu.closing
  readers id := by
    have hf := congrArg Cell.readers (hu.settling.frame id)
    have he : (h'.cell id).readers = (h.cell id).readers := hf
    exact he.trans (hs.readers id)
  anchored := hs.anchored.congr fun id hm => hs.payload_released hp hu hm
  refusals := hu.settling.refusals.trans hs.refusals

theorem drop (hs : Sound ⟨h, xs, ss, p⟩) (hp : xs.Perm (x :: ys)) (hl : h.LetsGo x h') :
    Sound ⟨h', ys, ss, q⟩ := by
  have hp : xs.Perm ([x] ++ ys) := hp
  exact hs.released hp (hl.unwinding (hs.unwinding hp))

theorem deal {xs' : List Holding} (hs : Sound ⟨h, xs, ss, p⟩)
    (hd : Dealing [] h (xs ++ lentAll ss) h' (xs' ++ lentAll ss)) : Sound ⟨h', xs', ss, p⟩ := by
  have hheap : h.Sound ((xs ++ lentAll ss) ++ [].map .strong) := by
    rw [List.map_nil, List.append_nil]
    exact hs.heap
  have hr := hd.recounts hheap
  refine ⟨?_, hs.solvent.congr hr.size hr.lease hr.budgets, hs.closing.congr hr.dead hr.lease,
    ?_, hs.anchored.congr fun id _ => hr.payload id, hd.records.refusals.trans hs.refusals⟩
  · have hafter := hd.sound hheap
    rw [List.map_nil, List.append_nil] at hafter
    exact hafter
  · intro id
    exact (hr.readers id).trans (hs.readers id)

theorem write (hs : Sound ⟨h, xs, ss, p⟩) (hp : xs.Perm (.value v :: ys))
    (hv : h.Visible (xs ++ lentAll ss) (.node id)) (hw : h.replace? id v = some (old, h')) :
    Sound ⟨h', .value old :: ys, ss, p⟩ := by
  obtain ⟨hr, rfl, rfl⟩ := replace?_eq_some hw
  have ha : (h.cell id).strong ≠ 0 := hv.alive hs.heap fun _ hx => hx
  have hb := (sameBooks_setPayload h id v).solvent hs.solvent
  refine ⟨(hs.split (o := [_]) hp).setPayload ha, hb, hs.closing.setPayload id v, ?_, ?_,
    hs.refusals⟩
  · intro id'
    exact (readers_setPayload h id v id').trans (hs.readers id')
  · refine hs.anchored.congr fun id' hm => payload_setPayload_of_ne ?_
    rintro rfl
    exact hs.mem_reading.1 hm hr

theorem build {model : Model} {through : Option BudgetId} (hs : Sound ⟨h, xs, ss, p⟩)
    (hp : xs.Perm (.value v :: ys)) (hb : ∀ b ∈ through, b.index < h.budgets.size)
    (hc : h.construct model v through = (.ok id, h')) : Sound ⟨h', .strong id :: ys, ss, p⟩ := by
  have hbuilds := builds_of_construct hc
  refine ⟨(hs.split (o := [_]) hp).construct hc, hs.solvent.construct hb hc,
    hbuilds.closing hs.closing, ?_, ?_, hbuilds.refusals.trans hs.refusals⟩
  · intro id'
    exact (hbuilds.readers id').trans (hs.readers id')
  · refine hs.anchored.congr fun id' hm => congrArg Cell.payload (hbuilds.others id' ?_)
    rintro rfl
    have hvacant : h.cell h.nextNode = .vacant := cell_eq_vacant (Nat.lt_irrefl _)
    have hr := hs.mem_reading.1 hm
    rw [hvacant] at hr
    exact hr rfl

theorem full {model : Model} {through : Option BudgetId} {r : Refusal}
    (hs : Sound ⟨h, xs, ss, p⟩) (hp : xs.Perm (.value v :: ys))
    (hc : h.construct model v through = (.error r, h')) : Sound ⟨h', ys, ss, p⟩ := by
  obtain ⟨b, limit, -, -, -, rfl⟩ := construct_eq_error hc
  have hp : xs.Perm ([.value v] ++ ys) := hp
  exact hs.released hp (hs.unwinding hp).refuse

/-- Steps that leave counts and payloads alone. -/
theorem sameStore {ss' : List Scope} (hs : Sound ⟨h, xs, ss, p⟩) (hh : SameStore h h')
    (hb : h'.Solvent) (hl : ∀ id, (h'.cell id).lease = (h.cell id).lease)
    (ho : (xs ++ lentAll ss).Perm (ys ++ lentAll ss'))
    (hr : ∀ id, (h'.cell id).readers = (nodes ss').count id) (ha : h.Anchored ss')
    (hn : h'.refusals = h.refusals) : Sound ⟨h', ys, ss', q⟩ where
  heap := (hs.heap.sameStore hh).perm ho
  solvent := hb
  closing := hs.closing.congr (fun id => by rw [hh.strong]) hl
  readers := hr
  anchored := ha.congr fun id _ => hh.payload id
  refusals := hn.trans hs.refusals

theorem enter (hs : Sound ⟨h, xs, ss, p⟩) (hp : xs.Perm (lent ++ ys))
    (hi : h.InPlace (lent ++ lentAll ss) (nodes ss) (.node id)) :
    Sound ⟨h.enter id, ys, ⟨id, lent⟩ :: ss, p⟩ := by
  have ho : (xs ++ lentAll ss).Perm (ys ++ lentAll (⟨id, lent⟩ :: ss)) := by
    rw [lentAll_cons, ← List.append_assoc]
    exact (hp.trans List.perm_append_comm).append_right _
  have hlent (x : Holding) (hx : x ∈ lent ++ lentAll ss) : x ∈ xs ++ lentAll ss :=
    ho.mem_iff.2 (List.mem_append_right _ hx)
  have ha : (h.cell id).strong ≠ 0 :=
    (hi.present hs.heap hlent).counted (.strong id) List.mem_cons_self
  have hbooks := sameBooks_enter h id
  exact hs.sameStore (sameStore_enter h id) (hbooks.solvent hs.solvent) hbooks.lease ho
    (readers_enter (built_of_strong ha) hs.readers) ⟨hi, hs.anchored⟩ rfl

theorem leave (hs : Sound ⟨h, xs, s :: ss, p⟩) :
    Sound ⟨h.leave s.node, s.lent ++ xs, ss, p⟩ := by
  have ho : (xs ++ lentAll (s :: ss)).Perm ((s.lent ++ xs) ++ lentAll ss) := by
    rw [lentAll_cons, ← List.append_assoc]
    exact List.perm_append_comm.append_right _
  have hbooks := sameBooks_leave h s.node
  exact hs.sameStore (sameStore_leave h s.node) (hbooks.solvent hs.solvent) hbooks.lease ho
    (readers_leave hs.readers) hs.anchored.2 rfl

end Sound

theorem Step.sound {m m' : Nesting} (hs : m.Sound) (hd : Step m m') : m'.Sound := by
  cases hd with
  | deal hd => exact hs.deal hd
  | drop hp hl => exact hs.drop hp hl
  | write hp hv hw => exact hs.write hp hv hw
  | refuse hp _ _ _ hl => exact hs.drop hp hl
  | build hp hb hc => exact hs.build hp hb hc
  | full hp hc => exact hs.full hp hc
  | openBudget =>
    exact hs.sameStore ⟨rfl, fun _ => rfl, fun _ => rfl, fun _ => rfl, rfl⟩
      (hs.solvent.openBudget _ _) (fun _ => rfl) (.refl _) hs.readers hs.anchored rfl
  | enter hp hi => exact hs.enter hp hi
  | leave => exact hs.leave
  | panic => exact ⟨hs.heap, hs.solvent, hs.closing, hs.readers, hs.anchored, hs.refusals⟩
  | recover => exact ⟨hs.heap, hs.solvent, hs.closing, hs.readers, hs.anchored, hs.refusals⟩

theorem Reached.sound {m : Nesting} (hr : Reached m) : m.Sound := by
  induction hr with
  | start => exact .of_start
  | step _ hd ih => exact hd.sound ih

/-- What is left of a heap after something held has been let go of inside scopes. -/
structure LetGo (m : Nesting) (kept : List Holding) (h : Heap) : Prop where
  /-- Every counter is the number of handles that are left, those let go of being gone once. -/
  counted : h.Counted (Holding.handlesAll (kept ++ lentAll m.scopes))
  payload : ∀ id, (h.cell id).isAlive → h.payload id = m.heap.payload id
  read : ∀ id ∈ m.reading, (h.cell id).isAlive ∧ h.payload id = m.heap.payload id
  readers : ∀ id, (h.cell id).readers = (m.heap.cell id).readers
  refusals : h.refusals = 0

variable {m : Nesting} {kept : List Holding} {h : Heap} {x : Holding} {id : NodeId} {v : Value}

theorem Sound.letGo (hs : m.Sound) (hp : m.held.Perm (x :: kept)) (hl : m.heap.LetsGo x h) :
    LetGo m kept h := by
  obtain ⟨h₀, xs, ss, p⟩ := m
  have hp : xs.Perm ([x] ++ kept) := hp
  have hu : Unwinding h₀ (kept ++ lentAll ss) h [] [] := hl.unwinding (hs.unwinding hp)
  have hafter : Sound ⟨h, kept, ss, p⟩ := hs.released hp hu
  refine ⟨hu.sound.counted, ?_, ?_, ?_, hafter.refusals⟩
  · intro id ha
    rcases hu.settling.payload id with he | ⟨-, hd⟩
    · exact he
    · exact absurd (hu.counter_eq_zero hd) (isAlive_iff.1 ha)
  · intro id hm
    have ha : (h.cell id).strong ≠ 0 :=
      hafter.anchored.alive hafter.heap (fun x hx => List.mem_append_right _ hx) hm
    exact ⟨isAlive_iff.2 ha, hs.payload_released hp hu hm⟩
  · intro id
    exact (hafter.readers id).trans (hs.readers id).symm

theorem Sound.replace?_eq_none_iff (hs : m.Sound) :
    m.heap.replace? id v = none ↔ id ∈ m.reading := by
  obtain ⟨h, xs, ss, p⟩ := m
  exact replace?_eq_none.trans hs.mem_reading.symm

theorem Sound.release_alike (hs : m.Sound) (hp : m.held.Perm (.value v :: kept))
    (hl : m.heap.LetsGo (.value v) h) : Alike h (m.heap.discard v) := by
  obtain ⟨h₀, xs, ss, p⟩ := m
  have hp : xs.Perm ([.value v] ++ kept) := hp
  have hu := hs.unwinding hp
  have hend : Unwinding h₀ (kept ++ lentAll ss) h [] [] := hl.unwinding hu
  exact hend.alike (Unwinding.discards.1 h₀ v [] [] hu)

/-- A node can be written to when no scope that is open reads it, and only then. A write that is
refused lets go of what it was offered, as the plain recursion would, and changes nothing else. No
release inside scopes meets a refusal, though it writes to frames that nobody named; and when a
scope ends, in whichever way, its node can be written to unless another scope reads it. -/
theorem Reached.write_refused_iff_read (hr : Reached m) :
    (∀ id v, m.heap.replace? id v = none ↔ id ∈ m.reading) ∧
    (∀ (s : Session) id v into, s.heap = m.heap →
      ((s.replace id v into).1 = .refused ↔ id ∈ m.reading) ∧
      ((s.set id v).1 = .refused ↔ id ∈ m.reading) ∧
      (id ∈ m.reading → s.replace id v into = (.refused, s.onHeap (·.release v)) ∧
        s.set id v = (.refused, s.onHeap (·.release v)))) ∧
    (∀ x kept h, m.held.Perm (x :: kept) → m.heap.LetsGo x h → LetGo m kept h) ∧
    (∀ v kept h, m.held.Perm (.value v :: kept) → m.heap.LetsGo (.value v) h →
      Alike h (m.heap.discard v)) ∧
    m.heap.refusals = 0 ∧
    ∀ s ss v, m.scopes = s :: ss →
      ((m.heap.leave s.node).replace? s.node v = none ↔ s.node ∈ nodes ss) := by
  have hs := hr.sound
  refine ⟨fun id v => hs.replace?_eq_none_iff, ?_, fun x kept h => hs.letGo,
    fun v kept h => hs.release_alike, hs.refusals, ?_⟩
  · intro s id v into he
    have hread : id ∈ m.reading ↔ (s.heap.cell id).readers ≠ 0 := by
      rw [he]
      exact hs.mem_reading
    rw [hread]
    exact ⟨Session.replace_refused_iff, Session.set_refused_iff,
      fun hn => ⟨Session.replace_of_read hn, Session.set_of_read hn⟩⟩
  · intro s ss v hss
    obtain ⟨h, xs, scopes, p⟩ := m
    obtain rfl : scopes = s :: ss := hss
    exact hs.leave.replace?_eq_none_iff

/-! ## A node that is read twice

The node links to itself. A scope reads it by a lent handle, and a scope within that one by the link
in the payload that is being read. -/

namespace SelfRead

open Execution (SelfLink.opened SelfLink.built SelfLink.linked)

def shared : Heap := SelfLink.linked.addStrong ⟨1⟩

def once : Nesting :=
  ⟨shared.enter ⟨1⟩, [.value (.node ⟨1⟩)], [⟨⟨1⟩, [.strong ⟨1⟩]⟩], false⟩

def twice : Nesting :=
  ⟨(shared.enter ⟨1⟩).enter ⟨1⟩, [.value (.node ⟨1⟩)], [⟨⟨1⟩, []⟩, ⟨⟨1⟩, [.strong ⟨1⟩]⟩], false⟩

theorem reached_once : Reached once := by
  have h1 : Reached ⟨SelfLink.opened, [], [], false⟩ := .step .start (.openBudget (by decide))
  have h2 : Reached ⟨SelfLink.opened, [.value .nil], [], false⟩ := h1.step (.deal (.scalar rfl))
  have hopen : ∀ b ∈ some (BudgetId.mk 0), b.index < SelfLink.opened.budgets.size := by
    rintro b ⟨⟩
    decide
  have hbuild : SelfLink.opened.construct .single .nil (some ⟨0⟩) = (.ok ⟨1⟩, SelfLink.built) := rfl
  have h3 : Reached ⟨SelfLink.built, [.strong ⟨1⟩], [], false⟩ :=
    h2.step (.build (.refl _) hopen hbuild)
  have h4 : Reached ⟨SelfLink.built.addStrong ⟨1⟩, [.strong ⟨1⟩, .strong ⟨1⟩], [], false⟩ :=
    h3.step (.deal (.clone List.mem_cons_self))
  have h5 : Reached ⟨SelfLink.built.addStrong ⟨1⟩, [.value (.node ⟨1⟩), .strong ⟨1⟩], [], false⟩ :=
    h4.step (.deal .link)
  have h6 : Reached ⟨SelfLink.linked, [.value .nil, .strong ⟨1⟩], [], false⟩ :=
    h5.step (.write (.refl _) (.handle (List.mem_cons_of_mem _ List.mem_cons_self)) rfl)
  have h7 : Reached ⟨SelfLink.linked, [.strong ⟨1⟩], [], false⟩ :=
    h6.step (.drop (.refl _) (.value (.task .done)))
  have h8 : Reached ⟨shared, [.strong ⟨1⟩, .strong ⟨1⟩], [], false⟩ :=
    h7.step (.deal (.clone List.mem_cons_self))
  have h9 : Reached ⟨shared, [.value (.node ⟨1⟩), .strong ⟨1⟩], [], false⟩ :=
    h8.step (.deal .link)
  have hlent : [.value (.node ⟨1⟩), .strong ⟨1⟩].Perm
      ([Holding.strong ⟨1⟩] ++ [.value (.node ⟨1⟩)]) := .swap _ _ _
  exact h9.step (.enter hlent (.handle List.mem_cons_self))

theorem reached_twice : Reached twice := by
  have hi : (shared.enter ⟨1⟩).InPlace ([] ++ [.strong ⟨1⟩]) [⟨1⟩] (.node ⟨1⟩) :=
    InPlace.payload (h := shared.enter ⟨1⟩) List.mem_cons_self
  have hlent : [Holding.value (.node ⟨1⟩)].Perm ([] ++ [.value (.node ⟨1⟩)]) := .refl _
  exact reached_once.step (.enter hlent hi)

end SelfRead

/-- A write to the node that is read twice lets go of the link that it was offered; it is refused
until both scopes have ended. -/
theorem write_refused_iff_read_twice : ∃ m h, Reached m ∧ m.reading = [⟨1⟩, ⟨1⟩] ∧
    m.held.Perm [.value (.node ⟨1⟩)] ∧
    ((Session.mk m.heap [] []).set ⟨1⟩ (.node ⟨1⟩)).1 = .refused ∧
    m.heap.LetsGo (.value (.node ⟨1⟩)) h ∧ LetGo m [] h ∧ (h.cell ⟨1⟩).isAlive ∧
    (m.heap.leave ⟨1⟩).replace? ⟨1⟩ .nil = none ∧
    ∃ m', Step m m' ∧ m'.reading = [⟨1⟩] ∧ (m'.heap.leave ⟨1⟩).replace? ⟨1⟩ .nil ≠ none := by
  have hm := SelfRead.reached_twice
  obtain ⟨-, hsession, hrelease, -, -, hleave⟩ := Reached.write_refused_iff_read hm
  have hread : NodeId.mk 1 ∈ SelfRead.twice.reading := List.mem_cons_self
  have hl := LetsGo.releaseHolding SelfRead.twice.heap (.value (.node ⟨1⟩))
  have hgo := hrelease _ [] _ (.refl _) hl
  have hnext := (Reached.write_refused_iff_read (hm.step .leave)).2.2.2.2.2 _ _ .nil rfl
  refine ⟨_, _, hm, rfl, .refl _, (hsession ⟨SelfRead.twice.heap, [], []⟩ _ _ none rfl).2.1.2 hread,
    hl, hgo, (hgo.read _ hread).1, (hleave _ _ .nil rfl).2 List.mem_cons_self,
    _, .leave, rfl, fun hn => ?_⟩
  exact List.not_mem_nil (hnext.1 hn)

end Nesting
end GraphStack
