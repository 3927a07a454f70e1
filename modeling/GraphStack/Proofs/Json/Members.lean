import GraphStack.Proofs.Json.Spelling

/-!
# What stands between the members of a document

The readers of colons, commas and brackets pass the space before them and nothing else. A comma
stands before every key and every element but the first (`Lead`).
-/

namespace GraphStack.Json

theorem exists_of_skipSpace {cs rest : List Char} (h : skipSpace cs = rest) :
    ∃ gap, Blank gap ∧ cs = gap ++ rest := h ▸ exists_blank_skipSpace cs

theorem skipSpace_eq_nil_iff {cs : List Char} : skipSpace cs = [] ↔ Blank cs :=
  List.dropWhile_eq_nil_iff

theorem skipSpace_blank_cons {gap : List Char} (hg : Blank gap) {c : Char} (hc : isSpace c = false)
    (cs : List Char) : skipSpace (gap ++ c :: cs) = c :: cs := by
  rw [skipSpace_blank hg, skipSpace_cons hc]

theorem Blank.append {gap gap' : List Char} (hg : Blank gap) (hg' : Blank gap') :
    Blank (gap ++ gap') := by
  intro c hc
  rcases List.mem_append.1 hc with hc | hc
  · exact hg c hc
  · exact hg' c hc

theorem endsNumber_of_isSpace {c : Char} (hc : isSpace c = true) : EndsNumber c := by
  simp only [isSpace, Bool.or_eq_true, decide_eq_true_eq] at hc
  rcases hc with ((rfl | rfl) | rfl) | rfl <;> exact ⟨rfl, by decide, rfl⟩

/-- Space ends a number, and so does what may follow the space. -/
theorem exists_endsNumber {gap : List Char} (hg : Blank gap) {c : Char} (hc : EndsNumber c)
    (cs : List Char) : ∃ d rest, gap ++ c :: cs = d :: rest ∧ EndsNumber d := by
  cases gap with
  | nil => exact ⟨c, cs, rfl, hc⟩
  | cons d gap => exact ⟨d, _, rfl, endsNumber_of_isSpace (hg d List.mem_cons_self)⟩

/-- What stands before the space around a key or an element. -/
inductive Lead : Bool → List Char → Prop
  | first : Lead true []
  | next {gap : List Char} (hg : Blank gap) : Lead false (gap ++ [','])

theorem skipColon_eq_ok_iff {cs rest : List Char} :
    skipColon cs = .ok ((), rest) ↔ ∃ gap, Blank gap ∧ cs = gap ++ ':' :: rest := by
  constructor
  · intro h
    unfold skipColon at h
    split at h
    · next hs =>
      cases h
      exact exists_of_skipSpace hs
    · cases h
    · cases h
  · rintro ⟨gap, hg, rfl⟩
    rw [skipColon, skipSpace_blank_cons hg rfl]
    rfl

theorem closeList_eq_ok_iff {cs rest : List Char} :
    closeList cs = .ok ((), rest) ↔ ∃ gap, Blank gap ∧ cs = gap ++ ']' :: rest := by
  constructor
  · intro h
    unfold closeList at h
    split at h
    · next hs =>
      cases h
      exact exists_of_skipSpace hs
    · split at h <;> cases h
    · cases h
    · cases h
  · rintro ⟨gap, hg, rfl⟩
    rw [closeList, skipSpace_blank_cons hg rfl]
    rfl

theorem endOfText_eq_ok_iff {cs : List Char} : endOfText cs = .ok () ↔ Blank cs := by
  rw [← skipSpace_eq_nil_iff]
  unfold endOfText
  split
  · next hs => exact ⟨fun _ => hs, fun _ => rfl⟩
  · next hs => exact ⟨fun h => (by cases h), fun h => (hs h).elim⟩

theorem nextKey_eq_key_iff {first : Bool} {cs rest : List Char} :
    nextKey first cs = .ok (.key rest) ↔
      ∃ lead gap, Lead first lead ∧ Blank gap ∧ cs = lead ++ (gap ++ '"' :: rest) := by
  constructor
  · intro h
    unfold nextKey at h
    split at h
    · cases h
    · cases h
    · next c r _ hs =>
      obtain ⟨gap, hg, rfl⟩ := exists_of_skipSpace hs
      split at h
      · next hfirst =>
        subst hfirst
        split at h
        · next hc =>
          cases h
          exact ⟨[], gap, .first, hg, by rw [hc, List.nil_append]⟩
        · cases h
      · next hfirst =>
        obtain rfl : first = false := by simpa using hfirst
        split at h
        · next hc =>
          split at h
          · cases h
          · next hs =>
            cases h
            obtain ⟨gap', hg', rfl⟩ := exists_of_skipSpace hs
            exact ⟨_, gap', .next hg, hg', by simp [hc]⟩
          · cases h
          · cases h
        · cases h
  · rintro ⟨_, gap, hl, hg, rfl⟩
    cases hl with
    | first =>
      rw [List.nil_append, nextKey, skipSpace_blank_cons hg rfl]
      rfl
    | @next gap' hg' =>
      rw [List.append_assoc, List.singleton_append, nextKey, skipSpace_blank_cons hg' rfl]
      simp [skipSpace_blank_cons hg (show isSpace '"' = false from rfl)]

theorem nextKey_eq_closed_iff {first : Bool} {cs rest : List Char} :
    nextKey first cs = .ok (.closed rest) ↔
      ∃ gap behind, Blank gap ∧ rest = '\x7d' :: behind ∧ cs = gap ++ rest := by
  constructor
  · intro h
    unfold nextKey at h
    split at h
    · cases h
    · next hs =>
      cases h
      obtain ⟨gap, hg, rfl⟩ := exists_of_skipSpace hs
      exact ⟨gap, _, hg, rfl, rfl⟩
    · split at h
      · split at h <;> cases h
      · split at h
        · split at h <;> cases h
        · cases h
  · rintro ⟨gap, behind, hg, rfl, rfl⟩
    rw [nextKey, skipSpace_blank_cons hg rfl]
    rfl

section Members

variable {δ : Type} {m : Member δ} {d d' : δ} {first : Bool} {cs rest : List Char}

theorem readMembers_key {rest₁ rest₂ key : List Char} (hk : nextKey first cs = .ok (.key rest₁))
    (hd : decode rest₁ = .ok (key, rest₂))
    (hm : m.read d (String.ofList key) rest₂ = .ok (d', rest)) :
    readMembers m first d cs = readMembers m false d' rest := by
  rw [readMembers]
  split
  · next h =>
    rw [hk] at h
    cases h
  · next h =>
    rw [hk] at h
    cases h
  · next h =>
    rw [hk] at h
    cases h
    split
    · next h =>
      rw [hd] at h
      cases h
    · next h =>
      rw [hd] at h
      cases h
      split
      · next h =>
        rw [hm] at h
        cases h
      · next h =>
        rw [hm] at h
        cases h
        rfl

theorem readMembers_closed (hk : nextKey first cs = .ok (.closed rest)) :
    readMembers m first d cs = .ok (d, rest) := by
  rw [readMembers]
  split
  · next h =>
    rw [hk] at h
    cases h
  · next h =>
    rw [hk] at h
    cases h
    rfl
  · next h =>
    rw [hk] at h
    cases h

end Members

theorem exists_of_nextElement {first : Bool} {cs rest : List Char}
    (h : nextElement first cs = .ok (.element rest)) :
    ∃ lead gap, Lead first lead ∧ Blank gap ∧ cs = lead ++ (gap ++ rest) := by
  unfold nextElement at h
  split at h
  · cases h
  · cases h
  · next c r _ hs =>
    obtain ⟨gap, hg, rfl⟩ := exists_of_skipSpace hs
    split at h
    · next hfirst =>
      subst hfirst
      cases h
      exact ⟨[], gap, .first, hg, rfl⟩
    · next hfirst =>
      obtain rfl : first = false := by simpa using hfirst
      split at h
      · next hc =>
        split at h
        · cases h
        · cases h
        · next hs =>
          cases h
          obtain ⟨gap', hg', hr⟩ := exists_blank_skipSpace r
          refine ⟨_, gap', .next hg, hg', ?_⟩
          rw [hc, List.append_assoc, List.singleton_append, ← hr]
      · cases h

theorem nextElement_of_lead {first : Bool} {lead gap : List Char} (hl : Lead first lead)
    (hg : Blank gap) {c : Char} (hc : isSpace c = false) (hb : c ≠ ']') (rest : List Char) :
    nextElement first (lead ++ (gap ++ c :: rest)) = .ok (.element (c :: rest)) := by
  cases hl with
  | first =>
    rw [List.nil_append, nextElement, skipSpace_blank_cons hg hc]
    split
    · next h => cases h
    · next h =>
      cases h
      exact absurd rfl hb
    · next h =>
      cases h
      rfl
  | @next gap' hg' =>
    rw [List.append_assoc, List.singleton_append, nextElement, skipSpace_blank_cons hg' rfl]
    simp [skipSpace_blank_cons hg hc, hb]

theorem nextElement_eq_closed_iff {first : Bool} {cs rest : List Char} :
    nextElement first cs = .ok (.closed rest) ↔
      ∃ gap behind, Blank gap ∧ rest = ']' :: behind ∧ cs = gap ++ rest := by
  constructor
  · intro h
    unfold nextElement at h
    split at h
    · cases h
    · next hs =>
      cases h
      obtain ⟨gap, hg, rfl⟩ := exists_of_skipSpace hs
      exact ⟨gap, _, hg, rfl, rfl⟩
    · split at h
      · cases h
      · split at h
        · split at h <;> cases h
        · cases h
  · rintro ⟨gap, behind, hg, rfl, rfl⟩
    rw [nextElement, skipSpace_blank_cons hg rfl]
    rfl

end GraphStack.Json
