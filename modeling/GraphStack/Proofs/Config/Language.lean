import GraphStack.Config.Json
import GraphStack.Proofs.Json.Members

/-!
# The language of configurations in JSON

`Denotes` says which texts are configurations and which configuration each of them is, without the
reader: an object or a list of the fields, with space around every part of it. The reader accepts
these texts and no others (`accepts_language`). Members and lists are read one after the other, so
a lemma on one member (`exists_of_readField`, `readField_of_spells`) carries the induction over all
of them.
-/

namespace GraphStack.Config

open GraphStack.Json

/-- A field with the value that a document gives it. -/
inductive Field
  | label (s : String)
  | limit (n : Option UInt64)
  deriving DecidableEq, Repr

namespace Field

def key : Field → String
  | label _ => labelKey
  | limit _ => limitKey

/-- The draft has no value for the field yet. -/
def IsNew (d : Draft) : Field → Prop
  | label _ => d.label = none
  | limit _ => d.limit = none

end Field

def Draft.put (d : Draft) : Field → Draft
  | .label s => { d with label := some s }
  | .limit n => { d with limit := some n }

inductive SpellsValue : List Char → Field → Prop
  | label {word : List Char} {s : String} (h : SpellsText word s) : SpellsValue word (.label s)
  | limit {word : List Char} {n : Option UInt64} (h : SpellsLimit word n) :
      SpellsValue word (.limit n)

/-- A name in quotes, a colon and a value, with space before each of them. -/
inductive SpellsMember : List Char → Field → Prop
  | mk {beforeKey name beforeColon beforeValue word : List Char} {f : Field}
      (hk : Blank beforeKey) (hn : SpellsText name f.key) (hc : Blank beforeColon)
      (hv : Blank beforeValue) (hw : SpellsValue word f) :
      SpellsMember (beforeKey ++ (name ++ (beforeColon ++ ':' :: (beforeValue ++ word)))) f

/-- One member or more, with commas between them. -/
inductive SpellsMembers : List Char → List Field → Prop
  | last {cs : List Char} {f : Field} (hm : SpellsMember cs f) : SpellsMembers cs [f]
  | more {cs gap ds : List Char} {f : Field} {fs : List Field} (hm : SpellsMember cs f)
      (hg : Blank gap) (hs : SpellsMembers ds fs) :
      SpellsMembers (cs ++ (gap ++ ',' :: ds)) (f :: fs)

/-- An object whose members are fields with different names, or a list of at most a label and a
limit. -/
inductive SpellsDraft : List Char → Draft → Prop
  | noMembers {gap : List Char} (hg : Blank gap) : SpellsDraft ('\x7b' :: (gap ++ ['\x7d'])) .empty
  | members {cs gap : List Char} {fs : List Field} (hs : SpellsMembers cs fs)
      (hd : (fs.map Field.key).Nodup) (hg : Blank gap) :
      SpellsDraft ('\x7b' :: (cs ++ (gap ++ ['\x7d']))) (fs.foldl Draft.put .empty)
  | noElements {gap : List Char} (hg : Blank gap) : SpellsDraft ('[' :: (gap ++ [']'])) .empty
  | label {gap word gap' : List Char} {s : String} (hg : Blank gap) (hw : SpellsText word s)
      (hg' : Blank gap') : SpellsDraft ('[' :: (gap ++ (word ++ (gap' ++ [']'])))) ⟨some s, none⟩
  | labelAndLimit {gap word gap' before limit after : List Char} {s : String} {n : Option UInt64}
      (hg : Blank gap) (hw : SpellsText word s) (hg' : Blank gap') (hb : Blank before)
      (hl : SpellsLimit limit n) (ha : Blank after) :
      SpellsDraft ('[' :: (gap ++ (word ++ (gap' ++ ',' ::
        (before ++ (limit ++ (after ++ [']'])))))))
        ⟨some s, some n⟩

/-- A document with space around it. -/
inductive SpellsDocument : List Char → Draft → Prop
  | mk {before doc after : List Char} {d : Draft} (hb : Blank before) (hd : SpellsDraft doc d)
      (ha : Blank after) : SpellsDocument (before ++ (doc ++ after)) d

/-- The configuration of a text: what its document leaves out has its default, and a document with a
limit of zero has no configuration. -/
def Denotes (text : String) (c : Config) : Prop :=
  ∃ d, SpellsDocument text.toList d ∧ d.finish = c ∧ c.maxLiveNodes ≠ some 0

/-! ## Members -/

theorem exists_of_readField {d d' : Draft} {key : String} {cs rest : List Char}
    (h : readField d key cs = .ok (d', rest)) :
    ∃ f beforeColon beforeValue word, f.key = key ∧ f.IsNew d ∧ d' = d.put f ∧
      Blank beforeColon ∧ Blank beforeValue ∧ SpellsValue word f ∧
      cs = beforeColon ++ ':' :: (beforeValue ++ (word ++ rest)) := by
  unfold readField at h
  split at h
  · next hkey =>
    split at h
    · cases h
    · next hnew =>
      split at h
      · cases h
      · next hcolon =>
        split at h
        · cases h
        · next s _ hvalue =>
          cases h
          obtain ⟨gap, hg, rfl⟩ := skipColon_eq_ok_iff.1 hcolon
          obtain ⟨gap', word, hg', hw, rfl⟩ := readText_eq_ok_iff.1 hvalue
          exact ⟨.label s, gap, gap', word, hkey.symm, Option.not_isSome_iff_eq_none.1 hnew, rfl,
            hg, hg', .label hw, rfl⟩
  · split at h
    · next hkey =>
      split at h
      · cases h
      · next hnew =>
        split at h
        · cases h
        · next hcolon =>
          split at h
          · cases h
          · next n _ hvalue =>
            cases h
            obtain ⟨gap, hg, rfl⟩ := skipColon_eq_ok_iff.1 hcolon
            obtain ⟨gap', word, hg', hw, rfl⟩ := exists_of_readOptionalCount hvalue
            exact ⟨.limit n, gap, gap', word, hkey.symm, Option.not_isSome_iff_eq_none.1 hnew,
              rfl, hg, hg', .limit hw, rfl⟩
    · cases h

theorem readField_of_spells {d : Draft} {f : Field} (hn : f.IsNew d)
    {beforeColon beforeValue word : List Char} (hc : Blank beforeColon) (hv : Blank beforeValue)
    (hw : SpellsValue word f) {c : Char} (he : EndsNumber c) (rest : List Char) :
    readField d f.key (beforeColon ++ ':' :: (beforeValue ++ (word ++ c :: rest))) =
      .ok (d.put f, c :: rest) := by
  have hcolon : skipColon (beforeColon ++ ':' :: (beforeValue ++ (word ++ c :: rest))) =
      .ok ((), beforeValue ++ (word ++ c :: rest)) := skipColon_eq_ok_iff.2 ⟨beforeColon, hc, rfl⟩
  have hkey : limitKey ≠ labelKey := by decide
  cases hw with
  | @label s hw =>
    have hread : readText (beforeValue ++ (word ++ c :: rest)) = .ok (s, c :: rest) :=
      readText_eq_ok_iff.2 ⟨beforeValue, word, hv, hw, rfl⟩
    have hnew : d.label = none := hn
    simp [readField, Field.key, hnew, hcolon, hread, Draft.put]
  | @limit n hw =>
    have hread := readOptionalCount_of_spells hv hw he rest
    have hnew : d.limit = none := hn
    simp [readField, Field.key, hkey, hnew, hcolon, hread, Draft.put]

/-- Each field in turn has no value yet. -/
def Draft.Fresh (d : Draft) : List Field → Prop
  | [] => True
  | f :: fs => f.IsNew d ∧ (d.put f).Fresh fs

theorem Field.isNew_put_iff {d : Draft} {f g : Field} :
    g.IsNew (d.put f) ↔ g.IsNew d ∧ g.key ≠ f.key := by
  cases f <;> cases g <;> simp [Field.IsNew, Draft.put, Field.key, labelKey, limitKey]

theorem Draft.fresh_iff {d : Draft} {fs : List Field} :
    d.Fresh fs ↔ (∀ f ∈ fs, f.IsNew d) ∧ (fs.map Field.key).Nodup := by
  induction fs generalizing d with
  | nil => simp [Draft.Fresh]
  | cons f fs ih =>
    simp only [Draft.Fresh, ih, Field.isNew_put_iff, List.forall_mem_cons, List.map_cons,
      List.nodup_cons, List.mem_map, not_exists, not_and]
    constructor
    · rintro ⟨hf, hfs, hd⟩
      exact ⟨⟨hf, fun g hg => (hfs g hg).1⟩, fun g hg => (hfs g hg).2, hd⟩
    · rintro ⟨⟨hf, hfs⟩, hne, hd⟩
      exact ⟨hf, fun g hg => ⟨hfs g hg, hne g hg⟩, hd⟩

theorem Draft.fresh_empty_iff {fs : List Field} :
    Draft.empty.Fresh fs ↔ (fs.map Field.key).Nodup := by
  rw [Draft.fresh_iff]
  refine and_iff_right fun f _ => ?_
  cases f <;> rfl

/-- Members are read one after the other up to the closing brace. -/
theorem exists_of_readMembers {first : Bool} {d d' : Draft} {cs rest : List Char}
    (h : readMembers member first d cs = .ok (d', rest)) :
    ∃ gap behind, Blank gap ∧ rest = '\x7d' :: behind ∧
      ((d' = d ∧ cs = gap ++ rest) ∨
        ∃ lead ms fs, Lead first lead ∧ SpellsMembers ms fs ∧ d.Fresh fs ∧
          d' = fs.foldl Draft.put d ∧ cs = lead ++ (ms ++ (gap ++ rest))) := by
  fun_induction readMembers member first d cs with
  | case1 => cases h
  | case2 first d cs rest' hk =>
    cases h
    obtain ⟨gap, behind, hg, hr, hcs⟩ := nextKey_eq_closed_iff.1 hk
    exact ⟨gap, behind, hg, hr, .inl ⟨rfl, hcs⟩⟩
  | case3 => cases h
  | case4 => cases h
  | case5 first d cs rest₁ hk key rest₂ hd d₁ rest₃ hm _ _ _ ih =>
    obtain ⟨lead, gap, hl, hg, rfl⟩ := nextKey_eq_key_iff.1 hk
    obtain ⟨body, hb, rfl⟩ := decode_eq_ok_iff.1 hd
    obtain ⟨f, beforeColon, beforeValue, word, hf, hn, rfl, hc, hv, hw, rfl⟩ :=
      exists_of_readField hm
    have hname : SpellsText ('"' :: (body ++ ['"'])) f.key :=
      .quoted (by rwa [hf, String.toList_ofList])
    have hmember := SpellsMember.mk hg hname hc hv hw
    -- behind the member the object closes, or a comma comes and more members
    obtain ⟨gap', behind, hg', hr, ⟨rfl, rfl⟩ | ⟨lead', ms, fs, hl', hms, hfresh, rfl, hrest⟩⟩ :=
      ih h
    · exact ⟨gap', behind, hg', hr, .inr ⟨lead, _, [f], hl, .last hmember, ⟨hn, trivial⟩, rfl,
        by simp⟩⟩
    · cases hl' with
      | next hcomma =>
        exact ⟨gap', behind, hg', hr, .inr ⟨lead, _, f :: fs, hl, .more hmember hcomma hms,
          ⟨hn, hfresh⟩, rfl, by simp [hrest]⟩⟩

theorem readMembers_member {first : Bool} {d : Draft} {lead cs : List Char} {f : Field}
    (hl : Lead first lead) (hm : SpellsMember cs f) (hn : f.IsNew d) {c : Char} (he : EndsNumber c)
    (rest : List Char) :
    readMembers member first d (lead ++ (cs ++ c :: rest)) =
      readMembers member false (d.put f) (c :: rest) := by
  obtain @⟨beforeKey, _, beforeColon, beforeValue, word, _, hk, @⟨body, _, hb⟩, hc, hv, hw⟩ := hm
  have hread := readField_of_spells hn hc hv hw he rest
  have hname : decode (body ++ '"' :: (beforeColon ++ ':' ::
      (beforeValue ++ (word ++ c :: rest)))) = .ok (f.key.toList, _) :=
    decode_eq_ok_iff.2 ⟨body, hb, rfl⟩
  refine readMembers_key (nextKey_eq_key_iff.2 ⟨lead, beforeKey, hl, hk, ?_⟩) hname ?_
  · simp
  · rwa [String.ofList_toList]

theorem readMembers_of_spells {ms : List Char} {fs : List Field} (hs : SpellsMembers ms fs)
    {first : Bool} {d : Draft} (hd : d.Fresh fs) {lead gap : List Char} (hl : Lead first lead)
    (hg : Blank gap) (rest : List Char) :
    readMembers member first d (lead ++ (ms ++ (gap ++ '\x7d' :: rest))) =
      .ok (fs.foldl Draft.put d, '\x7d' :: rest) := by
  induction hs generalizing first d lead with
  | last hm =>
    have hbrace : EndsNumber '\x7d' := ⟨rfl, by decide, rfl⟩
    obtain ⟨c, behind, hc, he⟩ := exists_endsNumber hg hbrace rest
    rw [hc, readMembers_member hl hm hd.1 he, ← hc]
    exact readMembers_closed (nextKey_eq_closed_iff.2 ⟨gap, rest, hg, rfl, rfl⟩)
  | @more cs gap' ds f fs hm hg' hs ih =>
    have hcomma : EndsNumber ',' := ⟨rfl, by decide, rfl⟩
    obtain ⟨c, behind, hc, he⟩ := exists_endsNumber hg' hcomma (ds ++ (gap ++ '\x7d' :: rest))
    have happ : (cs ++ (gap' ++ ',' :: ds)) ++ (gap ++ '\x7d' :: rest) = cs ++ c :: behind := by
      rw [← hc]
      simp
    rw [happ, readMembers_member hl hm hd.1 he, ← hc]
    have hrest := ih hd.2 (.next hg')
    rw [List.append_assoc, List.singleton_append] at hrest
    exact hrest

/-! ## Documents -/

theorem exists_of_readObject {cs rest : List Char} {d : Draft}
    (h : readObject cs = .ok (d, rest)) :
    ∃ inner, SpellsDraft ('\x7b' :: inner) d ∧ cs = inner ++ rest := by
  unfold readObject at h
  split at h
  · cases h
  · next hm =>
    split at h
    · cases h
    · next hclose =>
      cases h
      obtain ⟨gap, behind, hg, rfl, hcases⟩ := exists_of_readMembers hm
      obtain rfl : behind = rest := by
        rw [closeObject, skipSpace_cons rfl] at hclose
        cases hclose
        rfl
      rcases hcases with ⟨rfl, rfl⟩ | ⟨_, ms, fs, hl, hs, hd, rfl, rfl⟩
      · exact ⟨_, .noMembers hg, by simp⟩
      · obtain ⟨⟩ := hl
        exact ⟨_, .members hs (Draft.fresh_empty_iff.1 hd) hg, by simp⟩

theorem readObject_of_spells {inner : List Char} {d : Draft} (h : SpellsDraft ('\x7b' :: inner) d)
    (rest : List Char) : readObject (inner ++ rest) = .ok (d, rest) := by
  have hclose : closeObject ('\x7d' :: rest) = .ok ((), rest) := by
    rw [closeObject, skipSpace_cons rfl]
    rfl
  have hread : readMembers member true .empty (inner ++ rest) = .ok (d, '\x7d' :: rest) := by
    generalize ht : '\x7b' :: inner = text at h
    cases h with
    | @noMembers gap hg =>
      cases ht
      exact readMembers_closed (nextKey_eq_closed_iff.2 ⟨gap, rest, hg, rfl, by simp⟩)
    | members hs hd hg =>
      cases ht
      simpa using readMembers_of_spells hs (Draft.fresh_empty_iff.2 hd) .first hg rest
    | noElements hg => cases ht
    | label hg hw hg' => cases ht
    | labelAndLimit hg hw hg' hb hl ha => cases ht
  simp only [readObject, hread, hclose]

/-- The elements end before the closing bracket, so any space may follow them. -/
theorem exists_of_readElements {cs rest : List Char} {d : Draft}
    (h : readElements cs = .ok (d, rest)) :
    ∃ elements, cs = elements ++ rest ∧
      ∀ after, Blank after → SpellsDraft ('[' :: (elements ++ (after ++ [']']))) d := by
  unfold readElements at h
  split at h
  · cases h
  · next hfirst =>
    cases h
    obtain ⟨gap, _, hg, rfl, rfl⟩ := nextElement_eq_closed_iff.1 hfirst
    refine ⟨gap, rfl, fun after ha => ?_⟩
    rw [← List.append_assoc]
    exact .noElements (hg.append ha)
  · next hfirst =>
    obtain ⟨_, gap, ⟨⟩, hg, rfl⟩ := exists_of_nextElement hfirst
    split at h
    · cases h
    · next htext =>
      obtain ⟨gap₁, word, hg₁, hw, rfl⟩ := readText_eq_ok_iff.1 htext
      have hbefore := hg.append hg₁
      split at h
      · cases h
      · next hsecond =>
        cases h
        obtain ⟨gap₂, _, hg₂, rfl, rfl⟩ := nextElement_eq_closed_iff.1 hsecond
        refine ⟨gap ++ gap₁ ++ word ++ gap₂, by simp, fun after ha => ?_⟩
        simpa using SpellsDraft.label hbefore hw (hg₂.append ha)
      · next hsecond =>
        obtain ⟨_, gap₂, hl, hg₂, rfl⟩ := exists_of_nextElement hsecond
        cases hl with
        | @next between hcomma =>
          split at h
          · cases h
          · next hlimit =>
            cases h
            obtain ⟨gap₃, limit, hg₃, hlim, rfl⟩ := exists_of_readOptionalCount hlimit
            refine ⟨gap ++ gap₁ ++ word ++ (between ++ ',' :: (gap₂ ++ gap₃ ++ limit)), by simp,
              fun after ha => ?_⟩
            simpa using SpellsDraft.labelAndLimit hbefore hw hcomma (hg₂.append hg₃) hlim ha

theorem exists_of_readList {cs rest : List Char} {d : Draft} (h : readList cs = .ok (d, rest)) :
    ∃ inner, SpellsDraft ('[' :: inner) d ∧ cs = inner ++ rest := by
  unfold readList at h
  split at h
  · cases h
  · next he =>
    split at h
    · cases h
    · next hclose =>
      cases h
      obtain ⟨elements, rfl, hspells⟩ := exists_of_readElements he
      obtain ⟨after, ha, rfl⟩ := closeList_eq_ok_iff.1 hclose
      exact ⟨_, hspells after ha, by simp⟩

/-- No value begins like space or like the end of a list. -/
theorem SpellsValue.exists_cons {word : List Char} {f : Field} (h : SpellsValue word f) :
    ∃ c cs, word = c :: cs ∧ isSpace c = false ∧ c ≠ ']' := by
  cases h with
  | label hw =>
    cases hw
    exact ⟨_, _, rfl, rfl, by decide⟩
  | limit hw =>
    cases hw with
    | null => exact ⟨'n', "ull".toList, rfl, rfl, by decide⟩
    | count n =>
      obtain ⟨d, ds, hds, hd⟩ := exists_digit_toDigits n.toNat
      refine ⟨d, ds, hds, isSpace_of_isDigit hd, ?_⟩
      rintro rfl
      cases hd

theorem nextElement_value {first : Bool} {lead gap word : List Char} {f : Field}
    (hl : Lead first lead) (hg : Blank gap) (hw : SpellsValue word f) (rest : List Char) :
    nextElement first (lead ++ (gap ++ (word ++ rest))) = .ok (.element (word ++ rest)) := by
  obtain ⟨c, cs, rfl, hc, hb⟩ := hw.exists_cons
  exact nextElement_of_lead hl hg hc hb (cs ++ rest)

theorem readList_of_spells {inner : List Char} {d : Draft} (h : SpellsDraft ('[' :: inner) d)
    (rest : List Char) : readList (inner ++ rest) = .ok (d, rest) := by
  have closed (first : Bool) {gap : List Char} (hg : Blank gap) :
      nextElement first (gap ++ ']' :: rest) = .ok (.closed (']' :: rest)) :=
    nextElement_eq_closed_iff.2 ⟨gap, rest, hg, rfl, rfl⟩
  have close {gap : List Char} (hg : Blank gap) : closeList (gap ++ ']' :: rest) = .ok ((), rest) :=
    closeList_eq_ok_iff.2 ⟨gap, hg, rfl⟩
  have atBracket : closeList (']' :: rest) = .ok ((), rest) := close blank_nil
  have text {word : List Char} {s : String} (hw : SpellsText word s) (behind : List Char) :
      readText (word ++ behind) = .ok (s, behind) :=
    readText_eq_ok_iff.2 ⟨[], word, blank_nil, hw, rfl⟩
  generalize ht : '[' :: inner = doc at h
  cases h with
  | noMembers hg => cases ht
  | members hs hd hg => cases ht
  | noElements hg =>
    cases ht
    simp only [List.append_assoc, List.singleton_append, readList, readElements, closed true hg,
      atBracket]
  | @label gap word gap' s hg hw hg' =>
    cases ht
    have element := nextElement_value .first hg (.label hw) (gap' ++ ']' :: rest)
    rw [List.nil_append] at element
    simp only [List.append_assoc, List.singleton_append, readList, readElements, element, text hw,
      closed false hg', atBracket]
  | @labelAndLimit gap word gap' before limit after s n hg hw hg' hb hl ha =>
    cases ht
    have bracket : EndsNumber ']' := ⟨rfl, by decide, rfl⟩
    obtain ⟨c, behind, hc, he⟩ := exists_endsNumber ha bracket rest
    have element := nextElement_value .first hg (.label hw)
      (gap' ++ ',' :: (before ++ (limit ++ c :: behind)))
    have second := nextElement_value (.next hg') hb (.limit hl) (c :: behind)
    have count := readOptionalCount_of_spells blank_nil hl he behind
    rw [List.nil_append] at element count
    rw [List.append_assoc, List.singleton_append] at second
    have hclose := close ha
    rw [hc] at hclose
    simp only [List.append_assoc, List.cons_append, List.nil_append, readList, readElements, hc,
      element, text hw, second, count, hclose]

/-- Only space may stand around a document. -/
theorem readDocument_eq_ok_iff {cs : List Char} {c : Config} :
    readDocument cs = .ok c ↔ ∃ d, SpellsDocument cs d ∧ d.finish = c := by
  constructor
  · intro h
    obtain ⟨before, hb, hcs⟩ := exists_blank_skipSpace cs
    unfold readDocument at h
    dsimp only at h
    split at h
    · cases h
    · next d rest hread =>
      split at h
      · cases h
      · next hend =>
        cases h
        have ha := endOfText_eq_ok_iff.1 hend
        split at hread
        · next hs =>
          obtain ⟨inner, hd, rfl⟩ := exists_of_readObject hread
          rw [hs] at hcs
          exact ⟨d, hcs ▸ .mk hb hd ha, rfl⟩
        · next hs =>
          obtain ⟨inner, hd, rfl⟩ := exists_of_readList hread
          rw [hs] at hcs
          exact ⟨d, hcs ▸ .mk hb hd ha, rfl⟩
        · cases hread
  · rintro ⟨d, @⟨before, doc, after, _, hb, hd, ha⟩, rfl⟩
    have hend := endOfText_eq_ok_iff.2 ha
    have object {inner : List Char} (hdoc : '\x7b' :: inner = doc) :
        readDocument (before ++ (doc ++ after)) = .ok d.finish := by
      subst hdoc
      have hskip := skipSpace_blank_cons hb (show isSpace '\x7b' = false from rfl)
      simp only [readDocument, List.cons_append, hskip, readObject_of_spells hd, hend]
    have list {inner : List Char} (hdoc : '[' :: inner = doc) :
        readDocument (before ++ (doc ++ after)) = .ok d.finish := by
      subst hdoc
      have hskip := skipSpace_blank_cons hb (show isSpace '[' = false from rfl)
      simp only [readDocument, List.cons_append, hskip, readList_of_spells hd, hend]
    cases hd with
    | noMembers hg => exact object rfl
    | members hs hn hg => exact object rfl
    | noElements hg => exact list rfl
    | label hg hw hg' => exact list rfl
    | labelAndLimit hg hw hg' hb hl ha => exact list rfl

theorem validated_eq_ok_iff {source : Source} {c c' : Config} :
    c.validated source = .ok c' ↔ c = c' ∧ c'.maxLiveNodes ≠ some 0 := by
  by_cases hz : c.maxLiveNodes = some 0
  · have hzero : c.hasZeroLimit = true := beq_iff_eq.2 hz
    rw [validated, if_pos hzero]
    refine ⟨fun h => (by cases h), ?_⟩
    rintro ⟨rfl, h⟩
    exact absurd hz h
  · have hzero : ¬ c.hasZeroLimit = true := fun h => hz (beq_iff_eq.1 h)
    rw [validated, if_neg hzero, Except.ok.injEq]
    refine ⟨?_, And.left⟩
    rintro rfl
    exact ⟨rfl, hz⟩

theorem ofJson_eq_ok_iff {text : String} {c : Config} : ofJson text = .ok c ↔ Denotes text c := by
  unfold ofJson ofJsonNamed Denotes
  cases hr : readDocument text.toList with
  | error halt =>
    refine ⟨fun h => (by cases h), ?_⟩
    rintro ⟨d, hd, -, -⟩
    rw [readDocument_eq_ok_iff.2 ⟨d, hd, rfl⟩] at hr
    cases hr
  | ok c' =>
    have hdraft {d : Draft} (hd : SpellsDocument text.toList d) : d.finish = c' := by
      have := readDocument_eq_ok_iff.2 ⟨d, hd, rfl⟩
      rw [hr] at this
      cases this
      rfl
    simp only [validated_eq_ok_iff]
    constructor
    · rintro ⟨rfl, hz⟩
      obtain ⟨d, hd, rfl⟩ := readDocument_eq_ok_iff.1 hr
      exact ⟨d, hd, rfl, hz⟩
    · rintro ⟨d, hd, rfl, hz⟩
      exact ⟨(hdraft hd).symm, hz⟩

/-- Whatever refuses a text, the reader or the check of the limit, it is a fault of the
configuration. -/
theorem kind_of_ofJson_eq_error {text : String} {f : Fault} (h : ofJson text = .error f) :
    f.kind = .config := by
  unfold ofJson ofJsonNamed validated at h
  split at h
  · split at h
    · cases h
      rfl
    · cases h
  · cases h
    rfl

/-- A text is read as the configuration that it denotes; a text that denotes none is refused. -/
theorem accepts_language (text : String) :
    (∀ c, ofJson text = .ok c ↔ Denotes text c) ∧
      ((∃ c, Denotes text c) ∨ ∃ f, ofJson text = .error f ∧ f.kind = .config) := by
  refine ⟨fun c => ofJson_eq_ok_iff, ?_⟩
  cases h : ofJson text with
  | ok c => exact .inl ⟨c, ofJson_eq_ok_iff.1 h⟩
  | error f => exact .inr ⟨f, rfl, kind_of_ofJson_eq_error h⟩

end GraphStack.Config
