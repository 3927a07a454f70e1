import GraphStack.Proofs.Pool.Locking
import GraphStack.Proofs.Pool.Sound

/-!
# One thread and many agree

The same commands are run on nodes for one thread and on nodes for many. As long as no command
writes to a node while a scope reads it, every command is answered, the replies are the same, and
after each command so are payloads, counts, the nodes alive and all budgets.
-/

namespace GraphStack.PoolSession

variable {α : Type} [Payload α]

/-! ## Handles under names -/

section Named

variable {name : String} {id : NodeId} {xs : List (String × NodeId)}

theorem without_of_lookup_eq_none (hl : xs.lookup name = none) : without name xs = xs := by
  refine List.filter_eq_self.2 fun x hx => ?_
  have hne := List.lookup_eq_none_iff.1 hl x hx
  simp only [bne_iff_ne, ne_eq] at hne
  simp [Ne.symm hne]

/-- A name that stands once stands for one handle. -/
theorem perm_of_lookup (hn : (xs.map Prod.fst).Nodup) (hl : xs.lookup name = some id) :
    xs.Perm ((name, id) :: without name xs) := by
  obtain ⟨before, later, rfl, hb⟩ := List.lookup_eq_some_iff.1 hl
  have hrest : (before ++ later).lookup name = none := by
    refine List.lookup_eq_none_iff.2 fun x hx => ?_
    rcases List.mem_append.1 hx with hx | hx
    · exact hb x hx
    · rw [List.map_append, List.map_cons] at hn
      have hnot := (List.nodup_cons.1 (List.nodup_append.1 hn).2.1).1
      rw [bne_iff_ne]
      rintro rfl
      exact hnot (List.mem_map.2 ⟨x, hx, rfl⟩)
  have hw : without name (before ++ (name, id) :: later) = before ++ later := by
    rw [← without_of_lookup_eq_none hrest]
    simp [without, List.filter_append]
  rw [hw]
  exact List.perm_middle

theorem nodup_without (hn : (xs.map Prod.fst).Nodup) :
    ((without name xs).map Prod.fst).Nodup := hn.sublist (List.filter_sublist.map _)

theorem nodup_put (hn : (xs.map Prod.fst).Nodup) : ((put name id xs).map Prod.fst).Nodup := by
  refine List.nodup_cons.2 ⟨fun hm => ?_, nodup_without hn⟩
  obtain ⟨x, hx, he⟩ := List.mem_map.1 hm
  simp [without, he] at hx

end Named

/-! ## Sound sessions -/

/-- Each name stands for one handle, scopes borrow handles that are there, and the pool is sound for
handles and scopes. -/
structure Sound (s : PoolSession Guarded α) : Prop where
  named : (s.strong.map Prod.fst).Nodup
  borrowed : ∀ x ∈ s.scopes, x ∈ s.strong
  pool : s.pool.Sound (s.strong.map Prod.snd) (s.scopes.map Prod.snd)

/-- The command was answered, and the session that it left is sound. -/
def Answered (r : PoolReply α × PoolSession Guarded α) : Prop := r.1 ≠ .refused ∧ r.2.Sound

variable {s : PoolSession Guarded α} {name : String} {id : NodeId} {v : α}

theorem sound_startIn (setting : Setting (Payload.Rest α)) :
    (startIn setting : PoolSession Guarded α).Sound :=
  ⟨.nil, fun _ hx => (List.not_mem_nil hx).elim, .empty setting⟩

namespace Sound

theorem withPool (hs : s.Sound) {pool : Pool Guarded α}
    (hp : pool.Sound (s.strong.map Prod.snd) (s.scopes.map Prod.snd)) :
    ({ s with pool } : PoolSession Guarded α).Sound := ⟨hs.named, hs.borrowed, hp⟩

theorem mem_of_lookup (hl : s.strong.lookup name = some id) : id ∈ s.strong.map Prod.snd := by
  obtain ⟨before, later, he, -⟩ := List.lookup_eq_some_iff.1 hl
  rw [he]
  exact List.mem_map.2 ⟨(name, id), List.mem_append_right _ List.mem_cons_self, rfl⟩

/-- A handle that no scope borrows leaves those of all scopes behind. -/
theorem scopes_without (hs : s.Sound) (hf : s.isBorrowed name = false) :
    ∀ x ∈ s.scopes, x ∈ without name s.strong := by
  intro x hx
  refine List.mem_filter.2 ⟨hs.borrowed x hx, ?_⟩
  have hne := List.any_eq_false.1 hf x hx
  simpa using hne

theorem reads_without (hs : s.Sound) (hf : s.isBorrowed name = false) :
    ∀ r ∈ s.scopes.map Prod.snd, r ∈ (without name s.strong).map Prod.snd := by
  intro r hr
  obtain ⟨x, hx, rfl⟩ := List.mem_map.1 hr
  exact List.mem_map_of_mem (hs.scopes_without hf x hx)

/-- A new handle is stored, and the one that it replaces is let go of. -/
theorem storeStrong {pool : Pool Guarded α} (hs : s.Sound) (hf : s.isBorrowed name = false)
    (hp : pool.Sound (id :: s.strong.map Prod.snd) (s.scopes.map Prod.snd)) :
    (({ s with pool } : PoolSession Guarded α).storeStrong name id).Sound := by
  refine ⟨nodup_put hs.named, ?_, ?_⟩
  · exact fun x hx => List.mem_cons_of_mem _ (hs.scopes_without hf x hx)
  · simp only [PoolSession.storeStrong]
    cases hl : s.strong.lookup name with
    | none =>
      rw [put, without_of_lookup_eq_none hl]
      exact hp
    | some old =>
      have hperm := ((perm_of_lookup hs.named hl).map Prod.snd).cons id
      refine (hp.perm (hperm.trans (.swap _ _ _))).release ?_
      exact fun r hr => List.mem_cons_of_mem _ (hs.reads_without hf r hr)

theorem share (hs : s.Sound) (hf : s.isBorrowed name = false)
    (hm : id ∈ s.strong.map Prod.snd) : (s.share name id).Sound :=
  hs.storeStrong hf (hs.pool.addStrong hm)

theorem storeWeak (hs : s.Sound) (name : String) (id : NodeId) : (s.storeWeak name id).Sound := by
  refine ⟨hs.named, hs.borrowed, ?_⟩
  simp only [PoolSession.storeWeak]
  cases s.weak.lookup name with
  | none => exact hs.pool
  | some old => exact hs.pool.dropWeak old

theorem shareWeak (hs : s.Sound) (name : String) (id : NodeId) : (s.shareWeak name id).Sound :=
  (hs.withPool (hs.pool.addWeak id)).storeWeak name id

theorem keepNode {r : Except Fault NodeId × Pool Guarded α} (hs : s.Sound)
    (hf : s.isBorrowed name = false)
    (hr : r.2.Sound (r.1.toOption.toList ++ s.strong.map Prod.snd) (s.scopes.map Prod.snd)) :
    Answered (s.keepNode name r) := by
  obtain ⟨_ | id, pool⟩ := r
  · exact ⟨nofun, hs.withPool hr⟩
  · exact ⟨nofun, hs.storeStrong hf hr⟩

theorem drop (hs : s.Sound) (hf : s.isBorrowed name = false)
    (hl : s.strong.lookup name = some id) :
    ({ s with pool := s.pool.release id, strong := without name s.strong } :
      PoolSession Guarded α).Sound := by
  refine ⟨nodup_without hs.named, hs.scopes_without hf, ?_⟩
  have hperm := (perm_of_lookup hs.named hl).map Prod.snd
  exact (hs.pool.perm hperm).release (hs.reads_without hf)

/-! ## Answers -/

theorem onStrong {f : NodeId → PoolReply α × PoolSession Guarded α} (hs : s.Sound)
    (hf : ∀ id, s.strong.lookup name = some id → Answered (f id)) :
    Answered (s.onStrong name f) := by
  unfold PoolSession.onStrong
  cases hl : s.strong.lookup name with
  | none => exact ⟨nofun, hs⟩
  | some id => exact hf id hl

theorem onWeak {f : NodeId → PoolReply α × PoolSession Guarded α} (hs : s.Sound)
    (hf : ∀ id, Answered (f id)) : Answered (s.onWeak name f) := by
  unfold PoolSession.onWeak
  cases s.weak.lookup name with
  | none => exact ⟨nofun, hs⟩
  | some id => exact hf id

theorem read (hs : s.Sound) (hl : s.strong.lookup name = some id) :
    Answered (s.shown (s.pool.read? id)) := by
  obtain ⟨v, q, hr, hq⟩ := hs.pool.read? (mem_of_lookup hl)
  rw [hr]
  exact ⟨nofun, hs.withPool hq⟩

theorem openScope (hs : s.Sound) (hl : s.strong.lookup name = some id) :
    Answered (s.openScope name id) := by
  obtain ⟨q, v, hq, hv, hs'⟩ := hs.pool.enter? (mem_of_lookup hl)
  simp only [PoolSession.openScope, hq, hv]
  refine ⟨?_, hs.named, ?_, hs'⟩
  · intro he
    cases he
  · intro x hx
    rcases List.mem_cons.1 hx with rfl | hx
    · exact (perm_of_lookup hs.named hl).mem_iff.2 List.mem_cons_self
    · exact hs.borrowed x hx

theorem closeScope (hs : s.Sound) : Answered s.closeScope := by
  obtain ⟨pool, strong, weak, _ | ⟨⟨name, id⟩, rest⟩⟩ := s
  · exact ⟨nofun, hs⟩
  · exact ⟨nofun, hs.named, fun x hx => hs.borrowed x (List.mem_cons_of_mem _ hx), hs.pool.leave⟩

/-- A write that goes through hands out the payload from before. -/
theorem handOut {r : Option (α × Pool Guarded α)} (hs : s.Sound) (pool : Pool Guarded α) (v : α)
    (hr : ∃ old q, r = some (old, q) ∧ q.Sound (s.strong.map Prod.snd) (s.scopes.map Prod.snd)) :
    Answered (s.handOut pool v r) := by
  obtain ⟨old, q, rfl, hq⟩ := hr
  exact ⟨nofun, hs.withPool hq⟩

theorem takeOut (hs : s.Sound) (hl : s.strong.lookup name = some id)
    (hr : id ∉ s.scopes.map Prod.snd) : Answered (s.takeOut id) :=
  hs.handOut _ _ ((hs.pool.orEmpty none).take? (mem_of_lookup hl) hr _)

end Sound

theorem Answered.letGo {r : PoolReply α × PoolSession Guarded α} (hr : Answered r) :
    Answered (letGo r) := by
  obtain ⟨reply, s⟩ := r
  cases reply with
  | payload old => exact ⟨nofun, hr.2.withPool (hr.2.pool.drop old)⟩
  | _ => exact hr

/-! ## Commands -/

/-- The command writes to a node that a scope reads. -/
def Disturbs {σ : Type → Type} (s : PoolSession σ α) (c : PoolCommand α) : Prop :=
  ∃ handle ∈ c.writes, ∃ id ∈ s.strong.lookup handle, id ∈ s.scopes.map Prod.snd

instance {σ : Type → Type} (s : PoolSession σ α) : DecidablePred s.Disturbs :=
  fun _ => inferInstanceAs (Decidable (∃ handle ∈ _, ∃ id ∈ _, id ∈ _))

/-- None of the commands writes to a node while a scope reads it. -/
def Undisturbed {σ : Type → Type} [Storage σ] : PoolSession σ α → List (PoolCommand α) → Prop
  | _, [] => True
  | s, c :: cs => ¬ s.Disturbs c ∧ (s.perform c).2.Undisturbed cs

instance decidableUndisturbed {σ : Type → Type} [Storage σ] :
    (s : PoolSession σ α) → (cs : List (PoolCommand α)) → Decidable (s.Undisturbed cs)
  | _, [] => inferInstanceAs (Decidable True)
  | s, c :: cs => @instDecidableAnd _ _ _ (decidableUndisturbed (s.perform c).2 cs)

theorem Sound.act (hs : s.Sound) {c : PoolCommand α} (hd : ¬ s.Disturbs c)
    (hf : ∀ name, c.overwrites = some name → s.isBorrowed name = false) : Answered (s.act c) := by
  have hfree {handle : String} {id : NodeId} (hw : c.writes = some handle)
      (hl : s.strong.lookup handle = some id) : id ∉ s.scopes.map Prod.snd :=
    fun hm => hd ⟨handle, hw, id, hl, hm⟩
  cases c with
  | make payload through into =>
    exact hs.keepNode (hf into rfl) ((hs.pool.orEmpty payload).construct _ through)
  | makeFrom given through into =>
    exact hs.keepNode (hf into rfl) (hs.pool.constructFrom _ through)
  | get handle => exact hs.onStrong fun id hl => hs.read hl
  | read handle => exact hs.onStrong fun id hl => hs.read hl
  | enter handle => exact hs.onStrong fun id hl => hs.openScope hl
  | leave => exact hs.closeScope
  | set handle v =>
    refine hs.onStrong fun id hl => Answered.letGo ?_
    exact hs.handOut _ _ (hs.pool.replace? (mem_of_lookup hl) (hfree rfl hl) v)
  | replace handle v =>
    refine hs.onStrong fun id hl => ?_
    exact hs.handOut _ _ (hs.pool.replace? (mem_of_lookup hl) (hfree rfl hl) v)
  | take handle => exact hs.onStrong fun id hl => hs.takeOut hl (hfree rfl hl)
  | discard v => exact ⟨nofun, hs.withPool (hs.pool.drop v)⟩
  | clone handle into =>
    exact hs.onStrong fun id hl => ⟨nofun, hs.share (hf into rfl) (mem_of_lookup hl)⟩
  | drop handle => exact hs.onStrong fun id hl => ⟨nofun, hs.drop (hf handle rfl) hl⟩
  | downgrade handle into => exact hs.onStrong fun id _ => ⟨nofun, hs.shareWeak into id⟩
  | cloneWeak handle into => exact hs.onWeak fun id => ⟨nofun, hs.shareWeak into id⟩
  | dropWeak handle =>
    exact hs.onWeak fun id => ⟨nofun, hs.named, hs.borrowed, hs.pool.dropWeak id⟩
  | upgrade handle into =>
    refine hs.onWeak fun id => ?_
    split
    · next ha =>
      have hne : s.pool.strong id ≠ 0 := by simpa [Pool.isAlive] using ha
      exact ⟨nofun, hs.share (hf into rfl) (hs.pool.mem_of_strong hne)⟩
    · exact ⟨nofun, hs⟩
  | counts handle => exact hs.onStrong fun id _ => ⟨nofun, hs⟩
  | same a b => exact hs.onStrong fun id _ => hs.onStrong fun id _ => ⟨nofun, hs⟩
  | alive handle => exact hs.onWeak fun id => ⟨nofun, hs⟩

theorem Sound.perform (hs : s.Sound) {c : PoolCommand α} (hd : ¬ s.Disturbs c) :
    Answered (s.perform c) := by
  unfold PoolSession.perform
  split
  · exact ⟨nofun, hs⟩
  · next hb =>
    refine hs.act hd fun name hn => ?_
    rw [hn] at hb
    simpa using hb

/-- Commands that disturb no scope are all answered. -/
theorem Sound.performAll {cs : List (PoolCommand α)} (hs : s.Sound) (hu : s.Undisturbed cs) :
    .refused ∉ (s.performAll cs).1 ∧ (s.performAll cs).2.Sound := by
  induction cs generalizing s with
  | nil => exact ⟨List.not_mem_nil, hs⟩
  | cons c cs ih =>
    obtain ⟨hreply, hs'⟩ := hs.perform hu.1
    obtain ⟨hreplies, hs''⟩ := ih hs' hu.2
    refine ⟨fun hm => ?_, hs''⟩
    rcases List.mem_cons.1 hm with he | hm
    · exact hreply he.symm
    · exact hreplies hm

theorem Undisturbed.take {cs : List (PoolCommand α)} (hu : s.Undisturbed cs) (n : Nat) :
    s.Undisturbed (cs.take n) := by
  induction cs generalizing s n with
  | nil =>
    rw [List.take_nil]
    exact trivial
  | cons c cs ih =>
    cases n with
    | zero => exact trivial
    | succ n => exact ⟨hu.1, ih hu.2 n⟩

/-! ## Agreement -/

/-- What a caller can find out about two sessions is the same. -/
structure Agrees (s : PoolSession Guarded α) (t : PoolSession Locked α) : Prop where
  /-- The budgets, and all else that payloads reach. -/
  setting : s.pool.setting = t.pool.setting
  handles : s.strong = t.strong ∧ s.weak = t.weak ∧ s.scopes = t.scopes
  payload : ∀ id, s.pool.payload? id = t.pool.payload? id
  counts : ∀ id, s.pool.strong id = t.pool.strong id ∧ s.pool.weak id = t.pool.weak id
  alive : ∀ id, s.pool.isAlive id = t.pool.isAlive id

theorem agrees_locked (s : PoolSession Guarded α) : s.Agrees s.locked where
  setting := rfl
  handles := ⟨rfl, rfl, rfl⟩
  payload id := (s.pool.payload?_locked id).symm
  counts id := ⟨(s.pool.strong_locked id).symm, (s.pool.weak_locked id).symm⟩
  alive id := (s.pool.isAlive_locked id).symm

/-- Commands that disturb no scope are answered in the same way for one thread and for many, and
after each of them the two sessions agree. -/
theorem models_agree (setting : Setting (Payload.Rest α)) (cs : List (PoolCommand α))
    (hu : (startIn setting : PoolSession Guarded α).Undisturbed cs) (n : Nat) :
    ((startIn setting : PoolSession Guarded α).performAll (cs.take n)).1 =
        ((startIn setting : PoolSession Locked α).performAll (cs.take n)).1 ∧
      .refused ∉ ((startIn setting : PoolSession Guarded α).performAll (cs.take n)).1 ∧
      Agrees ((startIn setting : PoolSession Guarded α).performAll (cs.take n)).2
        ((startIn setting : PoolSession Locked α).performAll (cs.take n)).2 := by
  have hanswered := (sound_startIn setting).performAll (hu.take n)
  rw [← locked_startIn, performAll_locked]
  exact ⟨rfl, hanswered.1, agrees_locked _⟩

/-- The only node of a budget of one gets a second handle while a scope reads it, is written when
the scope has ended, and goes with its last handle. -/
def exchange : List (PoolCommand Nat) :=
  [.make (some 1) (some ⟨0⟩) "a", .make none (some ⟨0⟩) "b", .enter "a", .clone "a" "c", .get "c",
    .drop "a", .leave, .set "c" 2, .downgrade "a" "w", .take "a", .counts "c", .drop "a", .drop "c",
    .upgrade "w" "a"]

def oneSlot : Setting (Payload.Rest Nat) := ⟨#[⟨"gss", some 1, 0, 0⟩], ()⟩

theorem models_agree_exchange :
    (startIn oneSlot : PoolSession Guarded Nat).Undisturbed exchange ∧
    ((startIn oneSlot : PoolSession Guarded Nat).performAll exchange).1 =
      ((startIn oneSlot : PoolSession Locked Nat).performAll exchange).1 ∧
    .refused ∉ ((startIn oneSlot : PoolSession Guarded Nat).performAll exchange).1 ∧
    Agrees ((startIn oneSlot : PoolSession Guarded Nat).performAll exchange).2
      ((startIn oneSlot : PoolSession Locked Nat).performAll exchange).2 ∧
    ((startIn oneSlot : PoolSession Locked Nat).performAll exchange).2.pool.setting.budgets =
      #[⟨"gss", some 1, 0, 1⟩] := by
  have hu : (startIn oneSlot : PoolSession Guarded Nat).Undisturbed exchange := by decide
  have hall := models_agree oneSlot exchange hu exchange.length
  rw [List.take_length] at hall
  exact ⟨hu, hall.1, hall.2.1, hall.2.2, by decide⟩

end GraphStack.PoolSession
