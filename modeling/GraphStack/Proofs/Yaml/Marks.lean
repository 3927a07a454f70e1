import GraphStack.Proofs.Json.Bytes
import GraphStack.Yaml.Token

/-!
# Marks of tokens

A cursor that has no more bytes before it and behind it than the text keeps this when it moves on.
All marks of tokens, possible keys and failures are taken from cursors, so they are in the text
(`Scan.Within`, `Tokens.within_ofText`). One lemma for each step of the scanner follows the step.
-/

namespace GraphStack.Yaml

open Json (byteLength)

/-- A result with a property, or a failure with at most `n` bytes before it. -/
def Holds (n : Nat) {α : Type} (P : α → Prop) : Except Failure α → Prop
  | .ok a => P a
  | .error f => f.mark.index ≤ n

section Holds

variable {n : Nat} {α β : Type} {P : α → Prop} {x : Except Failure α}

theorem Holds.of_ok (h : Holds n P x) {a : α} (hx : x = .ok a) : P a := by
  subst hx
  exact h

theorem Holds.of_error (h : Holds n P x) {f : Failure} (hx : x = .error f) : f.mark.index ≤ n := by
  subst hx
  exact h

theorem Holds.bind {R : β → Prop} {f : α → Except Failure β} (h : Holds n P x)
    (hf : ∀ a, P a → Holds n R (f a)) : Holds n R (x >>= f) := by
  cases x with
  | error e => exact h
  | ok a => exact hf a h

theorem Holds.ite {c : Prop} [Decidable c] {y : Except Failure α} (hx : Holds n P x)
    (hy : Holds n P y) : Holds n P (if c then x else y) := by
  split
  · exact hx
  · exact hy

end Holds

/-! ## Cursors -/

/-- The bytes before the cursor and those behind it are at most `n`. -/
def Cursor.Within (n : Nat) (c : Cursor) : Prop := c.mark.index + byteLength c.rest ≤ n

theorem Mark.index_past (m : Mark) (c : Char) (rest : List Char) :
    (m.past c rest).index = m.index + c.utf8Size := by
  unfold Mark.past
  split <;> rfl

section Cursor

variable {n : Nat} {c : Cursor}

theorem Cursor.Within.index_le (h : c.Within n) : c.mark.index ≤ n :=
  (Nat.le_add_right _ _).trans h

theorem Cursor.within_past {x : Char} {cs : List Char} {m : Mark}
    (h : (⟨x :: cs, m⟩ : Cursor).Within n) : (⟨cs, m.past x cs⟩ : Cursor).Within n := by
  simp only [Cursor.Within, Json.byteLength_cons, Mark.index_past] at h ⊢
  omega

theorem Cursor.Within.skip (h : c.Within n) (k : Nat) : (c.skip k).Within n := by
  obtain ⟨cs, m⟩ := c
  unfold Cursor.skip
  induction k generalizing cs m with
  | zero => exact h
  | succ k ih =>
    cases cs with
    | nil => exact h
    | cons x cs => exact ih cs _ (within_past h)

theorem Cursor.Within.upTo (h : c.Within n) (rest : List Char) : (c.upTo rest).Within n :=
  h.skip _

end Cursor

/-! ## Scans -/

def Token.Within (n : Nat) (t : Token) : Prop := t.start.index ≤ n ∧ t.stop.index ≤ n

structure Tokens.Within (n : Nat) (ts : Tokens) : Prop where
  list : ∀ t ∈ ts.list, t.Within n
  ending : Holds n (fun m : Mark => m.index ≤ n) ts.ending

namespace Scan

/-- All that a scan knows of the text is in it. -/
structure Within (n : Nat) (s : Scan) : Prop where
  cursor : s.cursor.Within n
  tokens : ∀ t ∈ s.tokens, t.Within n
  keys : ∀ key ∈ s.key :: s.outerKeys, ∀ k ∈ key, k.mark.index ≤ n

namespace Within

variable {n : Nat} {s : Scan}

theorem mark_le (h : s.Within n) : s.cursor.mark.index ≤ n := h.cursor.index_le

theorem of_cons {k : PossibleKey} (h : s.Within n) (hk : s.key = some k) : k.mark.index ≤ n :=
  h.keys s.key List.mem_cons_self k hk

theorem none_key (h : s.Within n) {key : Option PossibleKey} (hkey : key ∈ none :: s.outerKeys) :
    ∀ k ∈ key, k.mark.index ≤ n := by
  rcases List.mem_cons.1 hkey with rfl | hkey
  · exact fun k hk => by cases hk
  · exact h.keys key (List.mem_cons_of_mem _ hkey)

theorem push (h : s.Within n) {t : Token} (ht : t.Within n) : (s.push t).Within n :=
  ⟨h.cursor, List.forall_mem_cons.2 ⟨ht, h.tokens⟩, h.keys⟩

theorem allowing (h : s.Within n) (allowed : Bool) :
    ({ s with keyAllowed := allowed } : Scan).Within n := ⟨h.cursor, h.tokens, h.keys⟩

/-- A token up to a later cursor, which the scan moves to. -/
theorem moved (h : s.Within n) {c : Cursor} (hc : c.Within n) (kind : Token.Kind) :
    ({ s.push ⟨kind, s.cursor.mark, c.mark⟩ with cursor := c } : Scan).Within n := by
  have hpush := h.push (t := ⟨kind, s.cursor.mark, c.mark⟩) ⟨h.mark_le, hc.index_le⟩
  exact ⟨hc, hpush.tokens, hpush.keys⟩

theorem take (h : s.Within n) (kind : Token.Kind) (k : Nat) : (s.take kind k).Within n :=
  h.moved (h.cursor.skip k) kind

/-- No place of the text is given for a forbidden character. -/
theorem blocked_le {k : Nat} {unread : List Char} {f : Failure}
    (hf : s.blocked? k unread = some f) : f.mark.index ≤ n := by
  unfold blocked? at hf
  split at hf
  · cases hf
  · split at hf
    · cases hf
      exact Nat.zero_le n
    · cases hf

theorem look (h : s.Within n) (k : Nat) : Holds n (Within n) (s.look k) := by
  unfold Scan.look
  split
  · next hf => exact blocked_le hf
  · exact h

theorem failure_le {c : Cursor} (hc : c.Within n) (halt : Halt) (start : Mark) :
    (halt.failure c start).mark.index ≤ n := (hc.upTo _).index_le

theorem halt_le {c : Cursor} (hc : c.Within n) (halt : Halt) (start : Mark) :
    ((s.blocked? halt.ahead halt.unread).getD (halt.failure c start)).mark.index ≤ n := by
  cases hb : s.blocked? halt.ahead halt.unread with
  | none => exact failure_le hc halt start
  | some f => exact blocked_le hb

theorem readToken {α : Type} (h : s.Within n) (k : Nat) (read : List Char → Step (Seen α))
    (kind : α → Token.Kind) : Holds n (Within n) (s.readToken k read kind) := by
  have hinner := h.cursor.skip k
  unfold Scan.readToken
  dsimp only
  split
  · exact halt_le hinner _ _
  · next rest _ =>
    split
    · next hf => exact blocked_le hf
    · exact h.moved (hinner.upTo rest) _

theorem dropKey (h : s.Within n) : Holds n (Within n) s.dropKey := by
  unfold Scan.dropKey
  split
  · exact h
  · split
    · exact h.mark_le
    · exact ⟨h.cursor, h.tokens, fun _ => h.none_key⟩

theorem offerKey (h : s.Within n) : Holds n (Within n) s.offerKey := by
  unfold Scan.offerKey
  split
  · split
    · next hf => exact h.dropKey.of_error hf
    · next s' hs =>
      have h' := h.dropKey.of_ok hs
      refine ⟨h'.cursor, h'.tokens, List.forall_mem_cons.2 ⟨?_, ?_⟩⟩
      · rintro k ⟨⟩
        exact h'.mark_le
      · exact fun key hkey => h'.keys key (List.mem_cons_of_mem _ hkey)
  · exact h

theorem dropStaleKeys (h : s.Within n) : Holds n (Within n) s.dropStaleKeys := by
  unfold Scan.dropStaleKeys
  dsimp only
  split
  · exact h.mark_le
  · refine ⟨h.cursor, h.tokens, ?_⟩
    rw [← List.map_cons (f := fun k : Option PossibleKey =>
      k.filter (!·.isStale s.cursor.mark))]
    intro key hkey k hk
    obtain ⟨old, hold, rfl⟩ := List.mem_map.1 hkey
    exact h.keys old hold k (Option.mem_filter_iff.1 hk).1

theorem closeBlocks (h : s.Within n) (column : Int) : (s.closeBlocks column).Within n := by
  unfold Scan.closeBlocks
  split
  · exact h
  · refine ⟨h.cursor, ?_, h.keys⟩
    intro t ht
    rcases List.mem_append.1 ht with ht | ht
    · obtain ⟨_, _, rfl⟩ := List.mem_map.1 ht
      exact ⟨h.mark_le, h.mark_le⟩
    · exact h.tokens t ht

theorem openBlock (h : s.Within n) (kind : Token.Kind) : (s.openBlock kind).Within n := by
  unfold Scan.openBlock
  split
  · have hpush := h.push (t := ⟨kind, s.cursor.mark, s.cursor.mark⟩) ⟨h.mark_le, h.mark_le⟩
    exact ⟨hpush.cursor, hpush.tokens, hpush.keys⟩
  · exact h

theorem insertKey (h : s.Within n) {k : PossibleKey} (hk : k.mark.index ≤ n) :
    (s.insertKey k).Within n := by
  have since : ∀ t ∈ s.tokens.take (s.tokens.length - k.number), t.Within n :=
    fun t ht => h.tokens t (List.mem_of_mem_take ht)
  have before : ∀ t ∈ s.tokens.drop (s.tokens.length - k.number), t.Within n :=
    fun t ht => h.tokens t (List.mem_of_mem_drop ht)
  unfold Scan.insertKey
  dsimp only
  split
  · refine ⟨h.cursor, List.forall_mem_append.2 ⟨since, ?_⟩, h.keys⟩
    exact List.forall_mem_cons.2 ⟨⟨hk, hk⟩, List.forall_mem_cons.2 ⟨⟨hk, hk⟩, before⟩⟩
  · refine ⟨h.cursor, List.forall_mem_append.2 ⟨since, ?_⟩, h.keys⟩
    exact List.forall_mem_cons.2 ⟨⟨hk, hk⟩, before⟩

theorem toToken {inFlow keyAllowed comment : Bool} {m : Mark} {cs : List Char}
    (h : (⟨cs, m⟩ : Cursor).Within n) :
    (Scan.toToken inFlow keyAllowed comment m cs).2.Within n := by
  fun_induction Scan.toToken inFlow keyAllowed comment m cs with
  | case1 => exact h
  | case7 => exact h
  | _ => rename_i ih; exact ih (Cursor.within_past h)

theorem skipToToken (h : s.Within n) : s.skipToToken.Within n :=
  ⟨toToken h.cursor, h.tokens, h.keys⟩

theorem finish (h : s.Within n) : Holds n (Within n) s.finish := by
  have atEnd (m : Mark) (hm : m.index = s.cursor.mark.index) :
      (({ s with cursor := ⟨[], m⟩ } : Scan).closeBlocks (-1)).Within n := by
    have hcursor : (⟨[], m⟩ : Cursor).Within n := by
      have := h.mark_le
      rwa [← hm] at this
    have hscan : ({ s with cursor := ⟨[], m⟩ } : Scan).Within n := ⟨hcursor, h.tokens, h.keys⟩
    exact hscan.closeBlocks (-1)
  have hkey := (atEnd (if s.cursor.mark.column = 0 then s.cursor.mark
    else ⟨s.cursor.mark.index, s.cursor.mark.line + 1, 0⟩) (by split <;> rfl)).dropKey
  unfold Scan.finish
  dsimp only
  split
  · next hf => exact hkey.of_error hf
  · next hs =>
    have h' := hkey.of_ok hs
    exact ⟨h'.cursor, h'.tokens, h'.keys⟩

theorem leaveBlocks (h : s.Within n) : Holds n (Within n) s.leaveBlocks := by
  have hkey := (h.closeBlocks (-1)).dropKey
  unfold Scan.leaveBlocks
  split
  · next hf => exact hkey.of_error hf
  · next hs =>
    have h' := hkey.of_ok hs
    exact ⟨h'.cursor, h'.tokens, h'.keys⟩

theorem directive (h : s.Within n) : Holds n (Within n) s.directive := by
  unfold Scan.directive
  split
  · next hf => exact h.leaveBlocks.of_error hf
  · next hs => exact (h.leaveBlocks.of_ok hs).readToken 1 _ _

theorem documentIndicator (h : s.Within n) (kind : Token.Kind) :
    Holds n (Within n) (s.documentIndicator kind) := by
  unfold Scan.documentIndicator
  split
  · next hf => exact h.leaveBlocks.of_error hf
  · next hs => exact (h.leaveBlocks.of_ok hs).take kind 3

theorem openFlow (h : s.Within n) (kind : Token.Kind) : Holds n (Within n) (s.openFlow kind) := by
  unfold Scan.openFlow
  split
  · next hf => exact h.offerKey.of_error hf
  · next s' hs =>
    have h' := h.offerKey.of_ok hs
    have hinner : ({ s' with key := none, outerKeys := s'.key :: s'.outerKeys } : Scan).Within n :=
      ⟨h'.cursor, h'.tokens,
        List.forall_mem_cons.2 ⟨fun k hk => (Option.not_mem_none k hk).elim, h'.keys⟩⟩
    exact (hinner.allowing true).take kind 1

theorem closeFlow (h : s.Within n) (kind : Token.Kind) :
    Holds n (Within n) (s.closeFlow kind) := by
  unfold Scan.closeFlow
  split
  · next hf => exact h.dropKey.of_error hf
  · next s' hs =>
    have h' := h.dropKey.of_ok hs
    dsimp only
    split
    · exact (h'.allowing false).take kind 1
    · next k ks hks =>
      have hkeys := h'.keys
      rw [hks] at hkeys
      have houter : ({ s' with key := k, outerKeys := ks } : Scan).Within n :=
        ⟨h'.cursor, h'.tokens, fun key hkey => hkeys key (List.mem_cons_of_mem _ hkey)⟩
      exact (houter.allowing false).take kind 1

theorem flowEntry (h : s.Within n) : Holds n (Within n) s.flowEntry := by
  unfold Scan.flowEntry
  split
  · next hf => exact h.dropKey.of_error hf
  · next hs =>
    exact ((h.dropKey.of_ok hs).allowing true).take .flowEntry 1

/-- In block style an entry or an announced key may open a collection. -/
theorem opened (h : s.Within n) (kind : Token.Kind) :
    Holds n (Within n) (if s.inFlow then s else s.openBlock kind).dropKey := by
  split
  · exact h.dropKey
  · exact (h.openBlock kind).dropKey

theorem blockEntry (h : s.Within n) : Holds n (Within n) s.blockEntry := by
  unfold Scan.blockEntry
  split
  · exact h.mark_le
  · split
    · next hf => exact (h.opened .sequenceStart).of_error hf
    · next hs => exact (((h.opened .sequenceStart).of_ok hs).allowing true).take .blockEntry 1

theorem announcedKey (h : s.Within n) : Holds n (Within n) s.announcedKey := by
  unfold Scan.announcedKey
  split
  · exact h.mark_le
  · split
    · next hf => exact (h.opened .mappingStart).of_error hf
    · next hs => exact (((h.opened .mappingStart).of_ok hs).allowing _).take .key 1

theorem value (h : s.Within n) : Holds n (Within n) s.value := by
  unfold Scan.value
  split
  · next k hk =>
    have h' := h.insertKey (h.of_cons hk)
    have hnone : ({ s.insertKey k with key := none } : Scan).Within n :=
      ⟨h'.cursor, h'.tokens, fun _ => h'.none_key⟩
    exact (hnone.allowing false).take .value 1
  · split
    · exact (h.allowing false).take .value 1
    · split
      · exact h.mark_le
      · exact ((h.openBlock .mappingStart).allowing true).take .value 1

theorem keyToken {α : Type} (h : s.Within n) (k : Nat) (read : List Char → Step (Seen α))
    (kind : α → Token.Kind) : Holds n (Within n) (s.keyToken k read kind) := by
  unfold Scan.keyToken
  split
  · next hf => exact h.offerKey.of_error hf
  · next hs => exact ((h.offerKey.of_ok hs).allowing false).readToken k read kind

theorem plain (h : s.Within n) : Holds n (Within n) s.plain := by
  unfold Scan.plain
  split
  · next hf => exact h.offerKey.of_error hf
  · next hs =>
    have h' := h.offerKey.of_ok hs
    split
    · exact halt_le h'.cursor _ _
    · next rest _ =>
      split
      · next hf => exact blocked_le hf
      · exact (h'.moved (h'.cursor.upTo rest) _).allowing _

theorem block (h : s.Within n) (folded : Bool) : Holds n (Within n) (s.block folded) := by
  unfold Scan.block
  split
  · next hf => exact h.dropKey.of_error hf
  · next hs => exact ((h.dropKey.of_ok hs).allowing true).readToken 1 _ _

theorem tokenAt (h : s.Within n) (c : Char) (cs : List Char) :
    Holds n (Within n) (s.tokenAt c cs) := by
  have step {c : Prop} [Decidable c] {x y : Except Failure Scan} (hx : Holds n (Within n) x)
      (hy : Holds n (Within n) y) : Holds n (Within n) (if c then x else y) := hx.ite hy
  exact step h.directive <| step (h.documentIndicator _) <|
    step (h.openFlow _) <| step (h.openFlow _) <| step (h.closeFlow _) <| step (h.closeFlow _) <|
    step h.flowEntry <| step h.blockEntry <| step h.announcedKey <| step h.value <|
    step (h.keyToken _ _ _) <| step (h.keyToken _ _ _) <| step (h.keyToken _ _ _) <|
    step (h.block _) <| step (h.block _) <|
    step (h.keyToken _ _ _) <| step (h.keyToken _ _ _) <| step h.plain h.mark_le

theorem next (h : s.Within n) : Holds n (Within n) s.next := by
  refine (h.skipToToken.look 1).bind fun s h => h.dropStaleKeys.bind fun s h =>
    ((h.closeBlocks s.column).look 4).bind fun s h => ?_
  split
  · exact h.finish
  · exact h.tokenAt _ _

theorem settled (h : s.Within n) : ∀ t ∈ s.settled, t.Within n :=
  fun t ht => h.tokens t (List.mem_reverse.1 (List.mem_of_mem_take ht))

theorem run {before : Scan} (hb : before.Within n) (h : s.Within n) (steps : Nat) :
    (Scan.run steps before s).Within n := by
  induction steps generalizing before s with
  | zero =>
    unfold Scan.run
    split
    · next hf => exact ⟨hb.settled, h.dropStaleKeys.of_error hf⟩
    · next hs =>
      have h' := h.dropStaleKeys.of_ok hs
      split
      · exact ⟨fun t ht => h'.tokens t (List.mem_reverse.1 ht), h'.mark_le⟩
      · exact ⟨h'.settled, h'.mark_le⟩
  | succ steps ih =>
    unfold Scan.run
    split
    · next hf => exact ⟨hb.settled, h.dropStaleKeys.of_error hf⟩
    · next hs =>
      have h' := h.dropStaleKeys.of_ok hs
      split
      · exact ⟨fun t ht => h'.tokens t (List.mem_reverse.1 ht), h'.mark_le⟩
      · dsimp only
        split
        · next hf => exact ⟨h'.settled, h'.next.of_error hf⟩
        · next hs => exact ih h' (h'.next.of_ok hs)

end Within
end Scan

theorem Intake.byteLength_readable_le (text : List Char) :
    byteLength (Intake.ofText text).readable ≤ byteLength text := by
  unfold Intake.ofText
  split
  · exact le_refl _
  · next p _ =>
    have hlen := congrArg byteLength (List.take_append_drop p.portion text)
    rw [Json.byteLength_append] at hlen
    dsimp only
    omega

/-- All marks of the tokens of a text are in the text, also where the text cannot be split. -/
theorem Tokens.within_ofText (text : List Char) :
    (Tokens.ofText text).Within (byteLength text) := by
  have hstart : (Scan.ofIntake (Intake.ofText text)).Within (byteLength text) := by
    refine ⟨?_, fun t ht => (List.not_mem_nil ht).elim, ?_⟩
    · have := Intake.byteLength_readable_le text
      simpa [Cursor.Within, Scan.ofIntake, Cursor.ofText, Mark.start] using this
    · rintro key hkey k hk
      rw [List.mem_singleton.1 hkey] at hk
      cases hk
  exact Scan.Within.run hstart hstart _

end GraphStack.Yaml
