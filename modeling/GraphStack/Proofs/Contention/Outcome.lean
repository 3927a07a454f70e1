import GraphStack.Proofs.Contention.Budget

/-!
# How a contest for slots ends

While no slot is given back, the number of live nodes only grows, so a number that a worker has
read is never too high, and a worker that gives up has met the limit. Every attempt of a worker is
still to come, under way, a slot or a refusal. When all workers are done, the slots are therefore as
many as the attempts or, if that is less, as the limit, whatever the schedule was.
-/

namespace GraphStack

namespace Worker

/-- The attempts that are still to come or under way, the slots and the refusals. -/
def tries (w : Worker) : Nat :=
  w.attempts + w.phase.read?.toList.length + w.slots + w.refusals.length

def IsDone (w : Worker) : Prop := w.phase = .idle ∧ w.attempts = 0

instance : DecidablePred IsDone := fun _ => inferInstanceAs (Decidable (_ ∧ _))

/-- While no slot is given back, what the worker has read is not too high, and where it gave up it
met the limit. -/
structure Informed (limit : Option Nat) (live : Nat) (w : Worker) : Prop where
  read : limit ≠ none → ∀ n ∈ w.phase.read?, n ≤ live
  refused : ∀ r ∈ w.refusals, limit = some live ∧ r = ⟨live, live⟩

section Phases

variable {w : Worker} {n : Nat}

theorem tries_of_idle (hp : w.phase = .idle) :
    w.tries = w.attempts + w.held + w.refusals.length := by
  rw [tries, slots, hp]
  rfl

theorem tries_of_read (hp : w.phase = .read n) :
    w.tries = w.attempts + 1 + w.held + w.refusals.length := by
  rw [tries, slots, hp]
  rfl

theorem tries_of_taken (hp : w.phase = .taken n) :
    w.tries = w.attempts + (w.held + 1) + w.refusals.length := by
  rw [tries, slots, hp]
  rfl

theorem tries_lose (hh : w.held ≠ 0) : w.lose.tries + 1 = w.tries := by
  have hs := slots_lose hh
  have hl : w.lose.tries =
      w.attempts + w.phase.read?.toList.length + w.lose.slots + w.refusals.length := rfl
  rw [hl, tries]
  omega

theorem tries_gain (w : Worker) : w.gain.tries = w.tries + 1 := by
  have hs := w.slots_gain
  have hl : w.gain.tries =
      w.attempts + w.phase.read?.toList.length + w.gain.slots + w.refusals.length := rfl
  rw [hl, tries]
  omega

theorem tries_of_isDone (hd : w.IsDone) : w.tries = w.held + w.refusals.length := by
  rw [tries_of_idle hd.1, hd.2, Nat.zero_add]

end Phases

/-- A bound on the steps to come, apart from those that read a number which has changed since. -/
def toDo (w : Worker) : Nat :=
  3 * w.attempts + match w.phase with
    | .idle => 0
    | .taken _ => 1
    | .read _ => 2

theorem isDone_of_toDo (w : Worker) (hz : w.toDo = 0) : w.IsDone := by
  rw [toDo] at hz
  cases hp : w.phase with
  | idle =>
    rw [hp] at hz
    exact ⟨hp, by omega⟩
  | read | taken =>
    rw [hp] at hz
    cases hz

end Worker

namespace Arena

def Done (a : Arena) : Prop := ∀ w ∈ a.workers, w.IsDone

instance (a : Arena) : Decidable a.Done := inferInstanceAs (Decidable (∀ w ∈ a.workers, _))

inductive Forward (a : Arena) : Arena → Prop
  | stay : Forward a a
  | look {i : Nat} {w : Worker} (hw : a.workers[i]? = some w) (hp : w.phase = .idle)
      (ha : w.attempts ≠ 0) :
      Forward a (a.setWorker i { w with phase := .read a.live, attempts := w.attempts - 1 })
  | refuse {i current limit : Nat} {w : Worker} (hw : a.workers[i]? = some w)
      (hp : w.phase = .read current) (hl : a.limit = some limit) (hle : limit ≤ current) :
      Forward a
        (a.setWorker i { w with phase := .idle, refusals := ⟨current, limit⟩ :: w.refusals })
  | retry {i current : Nat} {w : Worker} (hw : a.workers[i]? = some w)
      (hp : w.phase = .read current) :
      Forward a (a.setWorker i { w with phase := .read a.live })
  | take {i : Nat} {w : Worker} (hw : a.workers[i]? = some w) (hp : w.phase = .read a.live)
      (hl : ∀ limit ∈ a.limit, a.live < limit) :
      Forward a
        ({ a with live := countUp a.live }.setWorker i { w with phase := .taken (countUp a.live) })
  | publish {i live : Nat} {w : Worker} (hw : a.workers[i]? = some w)
      (hp : w.phase = .taken live) :
      Forward a ({ a with peak := max a.peak live }.setWorker i { w.gain with phase := .idle })
  | handOver {i j : Nat} {w other : Worker} (hw : a.workers[i]? = some w)
      (ho : a.workers[j]? = some other) (hn : i ≠ j) (hh : w.held ≠ 0) :
      Forward a ((a.setWorker i w.lose).setWorker j other.gain)

variable {a b : Arena} {x : Action} {i n : Nat} {w w' : Worker}

theorem forward_advance (hw : a.workers[i]? = some w) (spurious : Bool) :
    a.Forward (a.advance i w spurious) := by
  unfold advance
  cases hp : w.phase with
  | idle =>
    dsimp only
    split
    · exact .stay
    · next ha => exact .look hw hp ha
  | read current =>
    dsimp only [attempt]
    cases hl : a.limit.filter (· ≤ current) with
    | some limit =>
      obtain ⟨hl, hle⟩ := Option.filter_eq_some_iff.1 hl
      exact .refuse hw hp hl (by simpa using hle)
    | none =>
      dsimp only
      split
      · next hc =>
        obtain ⟨rfl, -⟩ := hc
        exact .take hw hp fun limit hm => by simpa using Option.filter_eq_none_iff.1 hl limit hm
      · exact .retry hw hp
  | taken live => exact .publish hw hp

theorem forward_step (hx : ∀ i, x ≠ .giveBack i) : a.Forward (a.step x) := by
  match x with
  | .advance i spurious =>
    cases hw : a.workers[i]? with
    | none =>
      simp only [step, hw]
      exact .stay
    | some w =>
      simp only [step, hw]
      exact forward_advance hw spurious
  | .giveBack i => exact absurd rfl (hx i)
  | .handOver i j =>
    cases hw : a.workers[i]? with
    | none =>
      simp only [step, hw]
      exact .stay
    | some w =>
      cases ho : a.workers[j]? with
      | none =>
        simp only [step, hw, handOver, ho]
        exact .stay
      | some other =>
        simp only [step, hw, handOver, ho]
        split
        · next h => exact .handOver hw ho h.2.2 h.2.1
        · exact .stay

theorem mem_setWorker {v : Worker} (hv : v ∈ (a.setWorker i w').workers) :
    v ∈ a.workers ∨ v = w' := List.mem_or_eq_of_mem_set hv

/-- What every step keeps that gives no slot back, a run without such steps keeps. -/
theorem run_induction {P : Arena → Prop} (hP : ∀ {a b : Arena}, P a → a.Forward b → P b)
    (ha : P a) {xs : List Action} (hxs : ∀ i, .giveBack i ∉ xs) : P (a.run xs) := by
  induction xs generalizing a with
  | nil => exact ha
  | cons x xs ih =>
    have hx : ∀ i, x ≠ .giveBack i := fun i he => hxs i (he ▸ List.mem_cons_self)
    exact ih (hP ha (forward_step hx)) fun i hi => hxs i (List.mem_cons_of_mem _ hi)

/-! ## Attempts are neither lost nor doubled -/

theorem tries_setWorker (hw : a.workers[i]? = some w) (hsame : w'.tries = w.tries) :
    total Worker.tries (a.setWorker i w').workers = total Worker.tries a.workers := by
  have hset : total Worker.tries (a.setWorker i w').workers + w.tries =
      total Worker.tries a.workers + w'.tries := total_set Worker.tries hw w'
  omega

theorem tries_forward (hf : a.Forward b) :
    total Worker.tries b.workers = total Worker.tries a.workers := by
  cases hf with
  | stay => rfl
  | look hw hp ha =>
    refine tries_setWorker hw ?_
    rw [Worker.tries_of_idle hp, Worker.tries_of_read rfl]
    dsimp only
    omega
  | refuse hw hp hl hle =>
    refine tries_setWorker hw ?_
    rw [Worker.tries_of_read hp, Worker.tries_of_idle rfl, List.length_cons]
    dsimp only
    omega
  | retry hw hp =>
    refine tries_setWorker hw ?_
    rw [Worker.tries_of_read hp, Worker.tries_of_read rfl]
  | take hw hp hl =>
    refine tries_setWorker hw ?_
    rw [Worker.tries_of_read hp, Worker.tries_of_taken rfl]
    dsimp only
    omega
  | publish hw hp =>
    refine tries_setWorker hw ?_
    rw [Worker.tries_of_taken hp, Worker.tries_of_idle rfl]
    rfl
  | @handOver i j w other hw ho hn hh =>
    have ho' : (a.setWorker i w.lose).workers[j]? = some other :=
      (List.getElem?_set_ne hn).trans ho
    have hlose : total Worker.tries (a.setWorker i w.lose).workers + w.tries =
      total Worker.tries a.workers + w.lose.tries := total_set Worker.tries hw w.lose
    have hgain : total Worker.tries ((a.setWorker i w.lose).setWorker j other.gain).workers +
      other.tries = total Worker.tries (a.setWorker i w.lose).workers + other.gain.tries :=
        total_set Worker.tries ho' other.gain
    have hl := Worker.tries_lose hh
    have hg := other.tries_gain
    omega

theorem tries_start (limit : Option Nat) (workers attempts : Nat) :
    total Worker.tries (starting limit (List.replicate workers attempts)).workers =
      workers * attempts := by
  show total Worker.tries ((List.replicate workers attempts).map Worker.starting) = _
  rw [List.map_replicate]
  induction workers with
  | zero => exact (Nat.zero_mul _).symm
  | succ n ih =>
    rw [List.replicate_succ, total_cons, ih, Nat.succ_mul, Nat.add_comm]
    rfl

theorem tries_of_done (hd : a.Done) :
    total Worker.tries a.workers = a.held + a.refusals.length := by
  unfold Done at hd
  unfold held refusals
  generalize a.workers = ws at hd
  induction ws with
  | nil => rfl
  | cons w ws ih =>
    have hw := Worker.tries_of_isDone (hd w List.mem_cons_self)
    have hws := ih fun v hv => hd v (List.mem_cons_of_mem _ hv)
    rw [total_cons, total_cons, List.flatMap_cons, List.length_append]
    omega

theorem slots_of_done (hd : a.Done) : total Worker.slots a.workers = a.held := by
  refine total_congr _ fun w hw => ?_
  rw [Worker.slots, (hd w hw).1]
  rfl

/-! ## Who gives up has met the limit -/

/-- What is so while no slot is given back. -/
structure Filling (limit : Option UInt64) (a : Arena) : Prop where
  limited : a.limit = limit.map UInt64.toNat
  within : ∀ l ∈ a.limit, a.live ≤ l
  informed : ∀ w ∈ a.workers, w.Informed a.limit a.live

namespace Filling

variable {limit : Option UInt64}

theorem start (limit : Option UInt64) (attempts : List Nat) :
    Filling limit (starting (limit.map UInt64.toNat) attempts) where
  limited := rfl
  within _ _ := Nat.zero_le _
  informed := by
    intro w hw
    obtain ⟨n, -, rfl⟩ := List.mem_map.1 hw
    exact ⟨fun _ _ hn => (nomatch hn), fun _ hr => (nomatch hr)⟩

theorem setWorker (hf : Filling limit a) (hw : w'.Informed a.limit a.live) :
    Filling limit (a.setWorker i w') where
  limited := hf.limited
  within := hf.within
  informed v hv := by
    rcases mem_setWorker hv with hv | rfl
    · exact hf.informed v hv
    · exact hw

/-- A slot is only taken below the limit. -/
theorem raise (hf : Filling limit a) (hl : ∀ l ∈ a.limit, a.live < l) :
    Filling limit { a with live := countUp a.live } := by
  have hup : ∀ l ∈ a.limit, countUp a.live = a.live + 1 := by
    intro l hm
    have hlimited := hm
    rw [hf.limited] at hlimited
    obtain ⟨word, -, rfl⟩ := Option.mem_map.1 hlimited
    exact countUp_of_lt (hl _ hm)
  refine ⟨hf.limited, ?_, ?_⟩
  · intro l hm
    show countUp a.live ≤ l
    rw [hup l hm]
    exact hl l hm
  · intro v hv
    have hi := hf.informed v hv
    refine ⟨?_, fun r hr => ?_⟩
    · intro hlim n hn
      obtain ⟨l, hm⟩ := Option.ne_none_iff_exists'.1 hlim
      show n ≤ countUp a.live
      rw [hup l hm]
      exact (hi.read hlim n hn).trans (Nat.le_succ _)
    · -- Who was refused saw no slot free, and none has become free since.
      exact absurd (hl _ (hi.refused r hr).1) (Nat.lt_irrefl _)

theorem forward (hf : Filling limit a) (hstep : a.Forward b) : Filling limit b := by
  cases hstep with
  | stay => exact hf
  | @look i w hw hp ha =>
    have hi := hf.informed w (List.mem_of_getElem? hw)
    refine hf.setWorker ⟨?_, hi.refused⟩
    rintro - n ⟨⟩
    exact le_refl _
  | @refuse i current l w hw hp hl hle =>
    have hi := hf.informed w (List.mem_of_getElem? hw)
    have hread : current ≤ a.live := by
      refine hi.read (by rw [hl]; exact Option.some_ne_none l) current ?_
      rw [hp]
      rfl
    have hwithin := hf.within l hl
    -- The limit was reached when the worker read, and the number has not fallen since.
    obtain rfl : current = l := by omega
    have hmet : a.live = current := by omega
    refine hf.setWorker ⟨fun _ n hn => (nomatch hn), ?_⟩
    intro r hr
    rcases List.mem_cons.1 hr with rfl | hr
    · exact ⟨hmet ▸ hl, by rw [hmet]⟩
    · exact hi.refused r hr
  | @retry i current w hw hp =>
    have hi := hf.informed w (List.mem_of_getElem? hw)
    refine hf.setWorker ⟨?_, hi.refused⟩
    rintro - n ⟨⟩
    exact le_refl _
  | @take i w hw hp hl =>
    have hraised := hf.raise hl
    refine hraised.setWorker ⟨fun _ n hn => (nomatch hn), ?_⟩
    exact (hraised.informed w (List.mem_of_getElem? hw)).refused
  | @publish i live w hw hp =>
    have hi := hf.informed w (List.mem_of_getElem? hw)
    have hpeak : Filling limit { a with peak := max a.peak live } :=
      ⟨hf.limited, hf.within, hf.informed⟩
    exact hpeak.setWorker ⟨fun _ n hn => (nomatch hn), hi.refused⟩
  | @handOver i j w other hw ho hn hh =>
    have hi := hf.informed w (List.mem_of_getElem? hw)
    have hj := hf.informed other (List.mem_of_getElem? ho)
    have hlose : Filling limit (a.setWorker i w.lose) := hf.setWorker ⟨hi.read, hi.refused⟩
    exact hlose.setWorker ⟨hj.read, hj.refused⟩

end Filling

/-! ## Slots and the words that count them -/

theorem slots_run (a : Arena) (xs : List Action) :
    total Worker.slots (a.run xs).workers + a.returnCount xs =
      total Worker.slots a.workers + a.exchangeCount xs := by
  induction xs generalizing a with
  | nil => rfl
  | cons x xs ih =>
    have hstep := slots_move (a.move_step x)
    have hrest := ih (a.step x)
    have hrun : a.run (x :: xs) = (a.step x).run xs := rfl
    rw [hrun, returnCount_cons, exchangeCount_cons]
    omega

theorem returns_eq_false (hx : ∀ i, x ≠ .giveBack i) : a.returns x = false := by
  cases x with
  | giveBack i => exact absurd rfl (hx i)
  | advance => rfl
  | handOver => rfl

theorem returnCount_eq_zero {xs : List Action} (hxs : ∀ i, .giveBack i ∉ xs) :
    a.returnCount xs = 0 := by
  induction xs generalizing a with
  | nil => rfl
  | cons x xs ih =>
    have hx : ∀ i, x ≠ .giveBack i := fun i he => hxs i (he ▸ List.mem_cons_self)
    rw [returnCount_cons, returns_eq_false hx, ih fun i hi => hxs i (List.mem_cons_of_mem _ hi)]
    rfl

/-- The number of live nodes is the number of slots, as far as a word can count. -/
def Tallied (a : Arena) : Prop := a.live = total Worker.slots a.workers % 2 ^ 64

theorem countUp_mod (n : Nat) : countUp (n % 2 ^ 64) = (n + 1) % 2 ^ 64 := by
  have hw : twoTo 64 = 2 ^ 64 := rfl
  unfold countUp
  split <;> omega

theorem countDown_mod (n : Nat) : countDown ((n + 1) % 2 ^ 64) = n % 2 ^ 64 := by
  have hw : twoTo 64 = 2 ^ 64 := rfl
  unfold countDown
  split <;> omega

theorem Tallied.move (ht : a.Tallied) (hm : a.Move x b) : b.Tallied := by
  have hslots := slots_move hm
  rw [Tallied, live_of_move hm, ht]
  cases hx : a.exchanges x with
  | true =>
    rw [hx, returns_of_exchanges hx] at hslots
    rw [if_pos rfl, countUp_mod]
    exact congrArg (· % 2 ^ 64) hslots.symm
  | false =>
    rw [hx] at hslots
    rw [if_neg Bool.false_ne_true]
    cases hr : a.returns x with
    | true =>
      rw [hr] at hslots
      have hslots : total Worker.slots b.workers + 1 = total Worker.slots a.workers := hslots
      rw [if_pos rfl, ← hslots]
      exact countDown_mod _
    | false =>
      rw [hr] at hslots
      exact congrArg (· % 2 ^ 64) hslots.symm

theorem Tallied.run (ht : a.Tallied) (xs : List Action) : (a.run xs).Tallied := by
  induction xs generalizing a with
  | nil => exact ht
  | cons x xs ih => exact ih (ht.move (a.move_step x))

/-- The summit is the number of slots, as far as a word can count. -/
def Crowned (a : Arena) : Prop := a.summit = min (total Worker.slots a.workers) (2 ^ 64 - 1)

theorem Crowned.move (hc : a.Crowned) (ht : a.Tallied) (hr : a.returns x = false)
    (hm : a.Move x b) : b.Crowned := by
  have hslots := slots_move hm
  rw [hr] at hslots
  rw [Crowned, summit_of_move hm, hc, ht]
  cases hx : a.exchanges x with
  | true =>
    have hslots : total Worker.slots b.workers = total Worker.slots a.workers + 1 := by
      rw [hx] at hslots
      exact hslots
    rw [if_pos rfl, countUp_mod, hslots]
    omega
  | false =>
    rw [hx] at hslots
    rw [if_neg Bool.false_ne_true]
    exact congrArg (min · (2 ^ 64 - 1)) hslots.symm

theorem Crowned.run (hc : a.Crowned) (ht : a.Tallied) {xs : List Action}
    (hxs : ∀ i, .giveBack i ∉ xs) : (a.run xs).Crowned := by
  induction xs generalizing a with
  | nil => exact hc
  | cons x xs ih =>
    have hx : ∀ i, x ≠ .giveBack i := fun i he => hxs i (he ▸ List.mem_cons_self)
    have hm := a.move_step x
    exact ih (hc.move ht (returns_eq_false hx) hm) (ht.move hm) fun i hi =>
      hxs i (List.mem_cons_of_mem _ hi)

/-! ## The end of a contest -/

/-- How many of so many attempts a budget allows. -/
def allowed (limit : Option UInt64) (attempts : Nat) : Nat :=
  match limit with
  | none => attempts
  | some l => min attempts l.toNat

theorem allowed_lt {limit : Option UInt64} {attempts : Nat}
    (hw : limit = none → attempts < 2 ^ 64) : allowed limit attempts < 2 ^ 64 := by
  cases limit with
  | none => exact hw rfl
  | some l => exact (min_le_right _ _).trans_lt l.toNat_lt

theorem Filling.met {limit : Option UInt64} (hf : Filling limit a) {r : Refusal}
    (hr : r ∈ a.refusals) : ∃ l ∈ limit, a.live = l.toNat ∧ r = ⟨l.toNat, l.toNat⟩ := by
  obtain ⟨w, hw, hr⟩ := List.mem_flatMap.1 hr
  obtain ⟨hmet, hr⟩ := (hf.informed w hw).refused r hr
  rw [hf.limited] at hmet
  obtain ⟨l, hl, hlive⟩ := Option.map_eq_some_iff.1 hmet
  exact ⟨l, hl, hlive.symm, by rw [hr, hlive]⟩

/-- An attempt that found no slot found the limit reached, so the slots are as many as they can
be. -/
theorem Filling.held_of_done {limit : Option UInt64} {attempts : Nat} (hf : Filling limit a)
    (hd : a.Done) (htries : total Worker.tries a.workers = attempts)
    (hlive : limit ≠ none → a.live = a.held) :
    a.held = allowed limit attempts ∧ a.refusals.length = attempts - allowed limit attempts := by
  have hsum := tries_of_done hd
  rw [htries] at hsum
  cases hr : a.refusals with
  | nil =>
    rw [hr, List.length_nil] at hsum
    cases limit with
    | none =>
      refine ⟨hsum.symm, ?_⟩
      exact (Nat.sub_self attempts).symm
    | some l =>
      have hle : a.live ≤ l.toNat := hf.within _ hf.limited
      have hheld := hlive (Option.some_ne_none l)
      have hmin : allowed (some l) attempts = min attempts l.toNat := rfl
      rw [hmin, List.length_nil]
      omega
  | cons r rs =>
    obtain ⟨l, rfl, hl, -⟩ := hf.met (hr ▸ List.mem_cons_self : r ∈ a.refusals)
    have hheld := hlive (Option.some_ne_none l)
    have hmin : allowed (some l) attempts = min attempts l.toNat := rfl
    rw [hmin, ← hr]
    omega

theorem done_setWorker (hd : a.Done) (hw : w'.IsDone) : (a.setWorker i w').Done := by
  intro v hv
  rcases mem_setWorker hv with hv | rfl
  · exact hd v hv
  · exact hw

/-- When all workers are done, slots only change hands or are given back. -/
theorem step_of_done (hd : a.Done) (x : Action) : (a.step x).Done ∧ (a.step x).peak = a.peak := by
  match x with
  | .advance i spurious =>
    cases hw : a.workers[i]? with
    | none =>
      simp only [step, hw]
      exact ⟨hd, trivial⟩
    | some w =>
      obtain ⟨hp, ha⟩ := hd w (List.mem_of_getElem? hw)
      simp only [step, hw, advance, hp, ha]
      exact ⟨hd, rfl⟩
  | .giveBack i =>
    cases hw : a.workers[i]? with
    | none =>
      simp only [step, hw]
      exact ⟨hd, trivial⟩
    | some w =>
      have hdone : w.lose.IsDone := hd w (List.mem_of_getElem? hw)
      have hdown : Done { a with live := countDown a.live } := hd
      simp only [step, hw, giveBack]
      split
      · exact ⟨done_setWorker hdown hdone, rfl⟩
      · exact ⟨hd, rfl⟩
  | .handOver i j =>
    cases hw : a.workers[i]? with
    | none =>
      simp only [step, hw]
      exact ⟨hd, trivial⟩
    | some w =>
      have hdone : w.lose.IsDone := hd w (List.mem_of_getElem? hw)
      cases ho : a.workers[j]? with
      | none =>
        simp only [step, hw, handOver, ho]
        exact ⟨hd, trivial⟩
      | some other =>
        have hother : other.gain.IsDone := hd other (List.mem_of_getElem? ho)
        simp only [step, hw, handOver, ho]
        split
        · exact ⟨done_setWorker (done_setWorker hd hdone) hother, rfl⟩
        · exact ⟨hd, rfl⟩

theorem run_of_done (hd : a.Done) (xs : List Action) :
    (a.run xs).Done ∧ (a.run xs).peak = a.peak := by
  induction xs generalizing a with
  | nil => exact ⟨hd, rfl⟩
  | cons x xs ih =>
    obtain ⟨hdone, hpeak⟩ := step_of_done hd x
    obtain ⟨hrun, hrest⟩ := ih hdone
    exact ⟨hrun, hrest.trans hpeak⟩

/-! ## Every contest can end -/

theorem run_append (a : Arena) (xs ys : List Action) : a.run (xs ++ ys) = (a.run xs).run ys :=
  List.foldl_append

theorem toDo_setWorker (hw : a.workers[i]? = some w) (w' : Worker) :
    total Worker.toDo (a.setWorker i w').workers + w.toDo =
      total Worker.toDo a.workers + w'.toDo := total_set Worker.toDo hw w'

/-- The step has changed one worker only, which has come closer to its end without losing an
attempt, and has read no number but that of the live nodes. -/
def GetsOn (a : Arena) (i : Nat) (w : Worker) (b : Arena) : Prop :=
  ∃ w', b.workers = a.workers.set i w' ∧ (∀ n ∈ w'.phase.read?, n = b.live) ∧
    w'.toDo ≤ w.toDo - 1 ∧ w'.tries = w.tries

theorem getsOn_attempt {current : Nat} (hp : w.phase = .read current)
    (hc : current = a.live ∨ ∃ l ∈ a.limit, l ≤ current) :
    a.GetsOn i w (a.attempt i w current false) := by
  have htoDo : w.toDo = 3 * w.attempts + 2 := by rw [Worker.toDo, hp]
  rw [attempt]
  cases hl : a.limit.filter (· ≤ current) with
  | some limit =>
    refine ⟨_, rfl, ?_, ?_, ?_⟩
    · rintro n ⟨⟩
    · show 3 * w.attempts + 0 ≤ w.toDo - 1
      omega
    · rw [Worker.tries_of_read hp, Worker.tries_of_idle rfl, List.length_cons]
      dsimp only
      omega
  | none =>
    have hroom : a.live = current := by
      rcases hc with hc | ⟨l, hm, hle⟩
      · exact hc.symm
      · exact absurd hle (by simpa using Option.filter_eq_none_iff.1 hl l hm)
    dsimp only
    rw [if_pos ⟨hroom, rfl⟩]
    refine ⟨_, rfl, ?_, ?_, ?_⟩
    · rintro n ⟨⟩
    · show 3 * w.attempts + 1 ≤ w.toDo - 1
      omega
    · rw [Worker.tries_of_read hp, Worker.tries_of_taken rfl]
      dsimp only
      omega

/-- A worker that meets the limit, or has read the number of live nodes as it is now, gets on. -/
theorem getsOn_step (hw : a.workers[i]? = some w)
    (hr : ∀ n ∈ w.phase.read?, n = a.live ∨ ∃ l ∈ a.limit, l ≤ n) :
    a.GetsOn i w (a.step (.advance i false)) := by
  have hstep : a.step (.advance i false) = a.advance i w false := by simp only [step, hw]
  rw [hstep, advance]
  cases hp : w.phase with
  | idle =>
    have htoDo : w.toDo = 3 * w.attempts + 0 := by rw [Worker.toDo, hp]
    dsimp only
    split
    · next ha =>
      refine ⟨w, (set_workers_self hw).symm, ?_, ?_, rfl⟩
      · rw [hp]
        rintro n ⟨⟩
      · omega
    · next ha =>
      refine ⟨_, rfl, ?_, ?_, ?_⟩
      · rintro n ⟨⟩
        rfl
      · show 3 * (w.attempts - 1) + 2 ≤ w.toDo - 1
        omega
      · rw [Worker.tries_of_idle hp, Worker.tries_of_read rfl]
        dsimp only
        omega
  | read current => exact getsOn_attempt hp (hr current (by rw [hp]; rfl))
  | taken live =>
    have htoDo : w.toDo = 3 * w.attempts + 1 := by rw [Worker.toDo, hp]
    refine ⟨_, rfl, ?_, ?_, ?_⟩
    · rintro n ⟨⟩
    · show 3 * w.attempts + 0 ≤ w.toDo - 1
      omega
    · rw [Worker.tries_of_taken hp, Worker.tries_of_idle rfl]
      rfl

theorem toDo_step (hw : a.workers[i]? = some w) (hd : ¬ w.IsDone)
    (hr : ∀ n ∈ w.phase.read?, n = a.live ∨ ∃ l ∈ a.limit, l ≤ n) :
    total Worker.toDo (a.step (.advance i false)).workers < total Worker.toDo a.workers := by
  obtain ⟨w', hset, -, hle, -⟩ := getsOn_step hw hr
  have htotal := toDo_setWorker hw w'
  have hpos := mt w.isDone_of_toDo hd
  rw [hset]
  show total Worker.toDo (a.setWorker i w').workers < _
  omega

/-- A worker that is not done gets on after at most two steps of its own. -/
theorem exists_toDo_lt (hw : a.workers[i]? = some w) (hd : ¬ w.IsDone) :
    ∃ n, total Worker.toDo (a.run (List.replicate n (.advance i false))).workers <
      total Worker.toDo a.workers := by
  by_cases hr : ∀ n ∈ w.phase.read?, n = a.live ∨ ∃ l ∈ a.limit, l ≤ n
  · exact ⟨1, toDo_step hw hd hr⟩
  · -- Another worker was faster: this step reads the number again, the next one succeeds.
    push Not at hr
    obtain ⟨current, hread, hc, hl⟩ := hr
    have hp : w.phase = .read current := by
      cases hp : w.phase <;> rw [hp] at hread <;> cases hread
      rfl
    have hnone : a.limit.filter (· ≤ current) = none :=
      Option.filter_eq_none_iff.2 fun l hm => by simpa using hl l hm
    have hstep : a.step (.advance i false) = a.setWorker i { w with phase := .read a.live } := by
      simp only [step, hw, advance, hp, attempt, hnone, hc.symm, false_and, if_false]
    have hset := toDo_setWorker hw { w with phase := .read a.live }
    have hsame : Worker.toDo { w with phase := .read a.live } = w.toDo := by
      rw [Worker.toDo, Worker.toDo, hp]
    have hbusy : ¬ Worker.IsDone { w with phase := .read a.live } := by
      rintro ⟨⟨⟩, -⟩
    have hcurrent : ∀ n ∈ (Phase.read a.live).read?, n = a.live ∨ ∃ l ∈ a.limit, l ≤ n := by
      rintro n ⟨⟩
      exact .inl rfl
    have hnext := toDo_step (getElem?_setWorker hw { w with phase := .read a.live }) hbusy hcurrent
    refine ⟨2, ?_⟩
    show total Worker.toDo ((a.step (.advance i false)).step (.advance i false)).workers < _
    rw [hstep]
    omega

/-- Whatever has happened so far, the workers can finish their attempts without giving a slot
back. -/
theorem exists_done (a : Arena) : ∃ more : List Action, (∀ i, .giveBack i ∉ more) ∧
    (a.run more).Done := by
  induction hn : total Worker.toDo a.workers using Nat.strong_induction_on generalizing a with
  | _ n ih =>
    by_cases hd : a.Done
    · exact ⟨[], fun _ => List.not_mem_nil, hd⟩
    · obtain ⟨w, hw, hnot⟩ : ∃ w ∈ a.workers, ¬ w.IsDone := by
        simpa only [Done, not_forall, exists_prop] using hd
      obtain ⟨i, hi⟩ := List.mem_iff_getElem?.1 hw
      obtain ⟨k, hlt⟩ := exists_toDo_lt hi hnot
      obtain ⟨more, hmore, hdone⟩ := ih _ (hn ▸ hlt) _ rfl
      refine ⟨List.replicate k (.advance i false) ++ more, fun j hj => ?_, ?_⟩
      · rcases List.mem_append.1 hj with hj | hj
        · cases List.eq_of_mem_replicate hj
        · exact hmore j hj
      · rw [run_append]
        exact hdone

/-- Whatever the schedule, as long as no slot is given back: the workers can always finish, and when
they have, as many attempts have succeeded as the budget allows, the others met the limit, and the
number of live nodes and the peak are that of the successes, as far as a word can count. When the
slots are then given back, the number of live nodes is that of the slots still held, and the peak
stays. -/
theorem outcome (limit : Option UInt64) (workers attempts : Nat) (building : List Action)
    (hb : ∀ i, .giveBack i ∉ building) :
    let start := starting (limit.map UInt64.toNat) (List.replicate workers attempts)
    let full := start.run building
    let built := allowed limit (workers * attempts)
    (∃ more : List Action, (∀ i, .giveBack i ∉ more) ∧ (full.run more).Done) ∧
    (full.Done →
      start.exchangeCount building = built ∧
      full.held = built ∧
      full.refusals.length = workers * attempts - built ∧
      (∀ r ∈ full.refusals, ∃ l ∈ limit, r.message =
        "cannot allocate node: " ++ toString l ++ " of " ++ toString l ++ " live nodes in use") ∧
      full.live = built % 2 ^ 64 ∧
      full.peak = min built (2 ^ 64 - 1) ∧
      ((limit = none → workers * attempts < 2 ^ 64) → full.live = built ∧ full.peak = built) ∧
      ∀ releasing,
        (full.run releasing).live = (full.run releasing).held % 2 ^ 64 ∧
        ((full.run releasing).held = 0 → (full.run releasing).live = 0) ∧
        (full.run releasing).peak = full.peak) := by
  intro start full built
  refine ⟨full.exists_done, fun hd => ?_⟩
  have hzero : total Worker.slots start.workers = 0 := start_slots _ _
  have htallied : start.Tallied := by rw [Tallied, hzero]; rfl
  have hcrowned : start.Crowned := by rw [Crowned, hzero, start_summit]; rfl
  have hslots : total Worker.slots full.workers = start.exchangeCount building := by
    have hrun := start.slots_run building
    rw [returnCount_eq_zero hb, hzero] at hrun
    exact hrun.trans (Nat.zero_add _)
  have hfilling : Filling limit full :=
    run_induction (fun hf hstep => hf.forward hstep) (.start limit _) hb
  have htries : total Worker.tries full.workers = workers * attempts := by
    refine run_induction (P := fun a => total Worker.tries a.workers = workers * attempts)
      (fun hf hstep => ?_) ?_ hb
    · exact (tries_forward hstep).trans hf
    · exact tries_start _ _ _
  have hlive : full.live = full.held % 2 ^ 64 := by
    rw [← slots_of_done hd]
    exact htallied.run building
  have hpeak : full.peak = min full.held (2 ^ 64 - 1) := by
    rw [← summit_eq_peak fun w hw => (hd w hw).1, ← slots_of_done hd]
    exact hcrowned.run htallied hb
  have hheld : full.live = full.held ∨ limit = none := by
    cases limit with
    | none => exact .inr rfl
    | some l => exact .inl (((Sound.start l _).run building).lent.trans (slots_of_done hd))
  obtain ⟨hbuilt, hrefused⟩ : full.held = built ∧
      full.refusals.length = workers * attempts - built :=
    hfilling.held_of_done hd htries hheld.resolve_right
  rw [hbuilt] at hlive hpeak
  refine ⟨?_, hbuilt, hrefused, ?_, hlive, hpeak, fun hw => ?_, fun xs => ?_⟩
  · rw [← hslots, slots_of_done hd]
    exact hbuilt
  · intro r hr
    obtain ⟨l, hl, -, rfl⟩ := hfilling.met hr
    exact ⟨l, hl, rfl⟩
  · have hlt : built < 2 ^ 64 := allowed_lt hw
    exact ⟨hlive.trans (Nat.mod_eq_of_lt hlt), hpeak.trans (min_eq_left (Nat.le_sub_one_of_lt hlt))⟩
  · obtain ⟨hdone, hsame⟩ := run_of_done hd xs
    have hlive : (full.run xs).live = (full.run xs).held % 2 ^ 64 := by
      rw [← slots_of_done hdone]
      exact (htallied.run building).run xs
    refine ⟨hlive, fun hz => ?_, hsame⟩
    rw [hlive, hz]
    exact Nat.zero_mod _

/-- Two workers compete for the only slot. One reads the number of live nodes, the other takes the
slot and publishes it after the first has given up; then the slot changes hands and is given
back. -/
theorem outcome_contended :
    let start := starting (some 1) [1, 1]
    let building := [.advance 0 false, .advance 1 false, .advance 1 true, .advance 1 false,
      .advance 0 false, .advance 0 false, .advance 1 false, .handOver 1 0]
    let full := start.run building
    let releasing := [.giveBack 0]
    start.exchangeCount building = 1 ∧ full.refusals = [⟨1, 1⟩] ∧ full.live = 1 ∧ full.peak = 1 ∧
    (full.run releasing).live = 0 ∧ (full.run releasing).peak = 1 := by
  intro start building full releasing
  have hb : ∀ i, .giveBack i ∉ building := by simp [building]
  have hd : full.Done := by decide
  obtain ⟨-, hend⟩ := outcome (some 1) 2 1 building hb
  obtain ⟨hx, -, -, -, -, -, hlive, hrest⟩ := hend hd
  obtain ⟨hlive, hpeak⟩ := hlive (fun hn => nomatch hn)
  obtain ⟨-, hzero, hsame⟩ := hrest releasing
  exact ⟨hx, by decide, hlive, hpeak, hzero (by decide), hsame.trans hpeak⟩

end Arena
end GraphStack
