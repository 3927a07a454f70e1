import GraphStack.Config.Yaml
import GraphStack.Proofs.Config.Json

/-!
# Where a limit of zero is marked

The key of a limit of zero is looked for in the text. The first occurrence of its characters is
marked, so a key is marked exactly when its characters do not stand anywhere before it
(`covers_iff_first`). In JSON only the text of a label can hold them there (`covers_iff_label`).
-/

namespace GraphStack.Config

open GraphStack.Json GraphStack.Yaml

/-! ## The search -/

/-- `part` stands in `cs` behind `before`, and nowhere earlier. -/
structure FirstBehind (part before cs : List Char) : Prop where
  stands : before ++ part <+: cs
  first : ∀ earlier, earlier ++ part <+: cs → before.length ≤ earlier.length

theorem exists_findBytes {part cs : List Char} (h : part <:+: cs) (offset : Nat) :
    ∃ before, FirstBehind part before cs ∧
      findBytes part cs offset = some (offset + byteLength before) := by
  induction cs generalizing offset with
  | nil =>
    obtain rfl := List.infix_nil.1 h
    exact ⟨[], ⟨List.prefix_rfl, fun _ _ => Nat.zero_le _⟩, rfl⟩
  | cons c cs ih =>
    by_cases hp : part <+: c :: cs
    · refine ⟨[], ⟨hp, fun _ _ => Nat.zero_le _⟩, ?_⟩
      rw [findBytes, if_pos (List.isPrefixOf_iff_prefix.2 hp)]
      rfl
    · have hcs : part <:+: cs := (List.infix_cons_iff.1 h).resolve_left hp
      obtain ⟨before, hfirst, hfind⟩ := ih hcs (offset + c.utf8Size)
      refine ⟨c :: before, ⟨List.cons_prefix_cons.2 ⟨rfl, hfirst.stands⟩, ?_⟩, ?_⟩
      · intro earlier he
        cases earlier with
        | nil => exact absurd he hp
        | cons d earlier =>
          have := hfirst.first earlier (List.cons_prefix_cons.1 he).2
          simpa using this
      · rw [findBytes, if_neg (fun hb => hp (List.isPrefixOf_iff_prefix.1 hb)), hfind,
          byteLength_cons, Nat.add_assoc]

theorem infix_of_findBytes {part cs : List Char} {offset start : Nat}
    (h : findBytes part cs offset = some start) : part <:+: cs := by
  induction cs generalizing offset with
  | nil =>
    unfold findBytes at h
    split at h
    · next hempty => exact List.isEmpty_iff.1 hempty ▸ List.nil_infix
    · cases h
  | cons c cs ih =>
    unfold findBytes at h
    split at h
    · next hp => exact (List.isPrefixOf_iff_prefix.1 hp).isInfix
    · exact List.infix_cons (ih h)

theorem eq_of_byteLength_eq {before before' cs : List Char} (h : before <+: cs)
    (h' : before' <+: cs) (hlen : byteLength before = byteLength before') : before = before' := by
  have short {xs ys : List Char} (hle : xs <+: ys) (hlen : byteLength xs = byteLength ys) :
      xs = ys := by
    obtain ⟨rest, rfl⟩ := hle
    have := length_le_byteLength rest
    rw [byteLength_append] at hlen
    rw [List.length_eq_zero_iff.1 (by omega : rest.length = 0), List.append_nil]
  rcases List.prefix_or_prefix_of_prefix h h' with hle | hle
  · exact short hle hlen
  · exact (short hle hlen.symm).symm

/-- The fault marks the limit's key behind these characters. -/
def Covers (f : Fault) (before : List Char) : Prop :=
  f.span = some ⟨byteLength before, byteLength before + byteLength limitKey.toList⟩

theorem covers_iff_first {source : Source} {before : List Char}
    (hkey : before ++ limitKey.toList <+: source.text.toList) :
    Covers (zeroLimitFault source) before ↔
      ∀ earlier, earlier ++ limitKey.toList <+: source.text.toList →
        before.length ≤ earlier.length := by
  have hinfix : limitKey.toList <:+: source.text.toList :=
    (List.suffix_append before _).isInfix.trans hkey.isInfix
  obtain ⟨found, hfirst, hfind⟩ := exists_findBytes hinfix 0
  rw [Nat.zero_add] at hfind
  have hsize : limitKey.utf8ByteSize = byteLength limitKey.toList := rfl
  have hprefix := (List.prefix_append found limitKey.toList).trans hfirst.stands
  have hbefore := (List.prefix_append before limitKey.toList).trans hkey
  unfold Covers zeroLimitFault limitKeySpan
  simp only [hfind, Option.getD_some, Option.some.injEq, Span.mk.injEq, hsize]
  constructor
  · rintro ⟨hlen, -⟩
    rw [← eq_of_byteLength_eq hprefix hbefore hlen]
    exact hfirst.first
  · intro h
    have hle := h found hfirst.stands
    have hge := hfirst.first before hkey
    have heq : found = before := by
      have := List.prefix_of_prefix_length_le hprefix hbefore hge
      exact this.eq_of_length (Nat.le_antisymm hge hle)
    rw [heq]
    exact ⟨rfl, rfl⟩

/-! ## Keys in JSON -/

/-- An occurrence that begins before a character it does not hold ends before it too. -/
theorem infix_of_earlier {part earlier xs ys : List Char} {sep : Char} (hsep : sep ∉ part)
    (hlen : earlier.length ≤ xs.length) (h : earlier ++ part <+: xs ++ sep :: ys) :
    part <:+: xs := by
  obtain ⟨t, ht⟩ := h
  obtain ⟨between, rfl⟩ : earlier <+: xs :=
    List.prefix_of_prefix_length_le ⟨part ++ t, by rw [← List.append_assoc, ht]⟩
      (List.prefix_append xs _) hlen
  rw [List.append_assoc, List.append_assoc, List.append_cancel_left_eq] at ht
  rcases List.append_eq_append_iff.1 ht with ⟨more, rfl, -⟩ | ⟨more, rfl, hmore⟩
  · exact ⟨earlier, more, by rw [List.append_assoc]⟩
  · cases more with
    | nil => exact ⟨earlier, [], by simp⟩
    | cons d more =>
      cases hmore
      simp at hsep

theorem infix_before_or_after {part xs ys : List Char} {sep : Char} (hsep : sep ∉ part)
    (h : part <:+: xs ++ sep :: ys) : part <:+: xs ∨ part <:+: ys := by
  obtain ⟨earlier, t, ht⟩ := h
  by_cases hlen : earlier.length ≤ xs.length
  · exact .inl (infix_of_earlier hsep hlen ⟨t, ht⟩)
  · right
    rw [List.append_assoc] at ht
    rcases List.append_eq_append_iff.1 ht with ⟨more, rfl, -⟩ | ⟨more, rfl, hmore⟩
    · simp at hlen
    · cases more with
      | nil => simp at hlen
      | cons d more =>
        cases hmore
        exact ⟨more, t, List.append_assoc more part t⟩

theorem not_mem_of_hex4 {ds : List Char} {n : Nat} (h : Hex4 ds n) : 'm' ∉ ds := by
  obtain ⟨ha, hb, hc, hd⟩ := h
  have hm : Text.hexValue? 'm' = none := rfl
  simp only [List.mem_cons, List.not_mem_nil, or_false]
  rintro (rfl | rfl | rfl | rfl) <;> simp_all

/-- No escape holds the letter that the limit's key begins with. -/
theorem mem_of_spellsChar {part : List Char} {c : Char} (h : SpellsChar part c) (hm : 'm' ∈ part) :
    c = 'm' := by
  cases h with
  | itself => exact (List.mem_singleton.1 hm).symm
  | short he =>
    simp only [List.mem_cons, List.not_mem_nil, or_false, (by decide : 'm' ≠ '\\'), false_or] at hm
    subst hm
    simp [shortEscapes] at he
  | number hd _ _ => simp [not_mem_of_hex4 hd] at hm
  | pair hd he _ _ => simp [not_mem_of_hex4 hd, not_mem_of_hex4 he] at hm

theorem mem_of_spells {body s : List Char} (h : Spells body s) (hm : 'm' ∈ body) : 'm' ∈ s := by
  induction h with
  | nil => exact hm
  | cons hc _ ih =>
    rcases List.mem_append.1 hm with hm | hm
    · exact mem_of_spellsChar hc hm ▸ List.mem_cons_self
    · exact List.mem_cons_of_mem _ (ih hm)

theorem not_infix_of_not_mem {cs : List Char} (h : 'm' ∉ cs) : ¬ limitKey.toList <:+: cs :=
  fun hi => h (hi.subset (by decide))

theorem not_infix_of_blank {gap : List Char} (hg : Blank gap) : ¬ limitKey.toList <:+: gap :=
  not_infix_of_not_mem fun hm => Bool.false_ne_true (hg 'm' hm)

/-- What may stand in a JSON object before the quote of the limit's key, and what stands between the
quotes of the label in it. -/
inductive BeforeKey : List Char → List Char → Prop
  | first {before gap : List Char} (hb : Blank before) (hg : Blank gap) :
      BeforeKey (before ++ '\x7b' :: gap) []
  | second {before beforeKey name beforeColon beforeValue label gap gap' s : List Char}
      (hb : Blank before) (hk : Blank beforeKey) (hn : Spells name labelKey.toList)
      (hc : Blank beforeColon) (hv : Blank beforeValue) (hl : Spells label s) (hg : Blank gap)
      (hg' : Blank gap') :
      BeforeKey (before ++ '\x7b' :: (beforeKey ++ '"' :: (name ++ '"' :: (beforeColon ++ ':' ::
        (beforeValue ++ '"' :: (label ++ '"' :: (gap ++ ',' :: gap'))))))) label

theorem infix_beforeKey_iff {front label : List Char} (h : BeforeKey front label) :
    limitKey.toList <:+: front ↔ limitKey.toList <:+: label := by
  have hquote : '"' ∉ limitKey.toList := by decide
  have hbrace : '\x7b' ∉ limitKey.toList := by decide
  have hcolon : ':' ∉ limitKey.toList := by decide
  have hcomma : ',' ∉ limitKey.toList := by decide
  cases h with
  | first hb hg =>
    refine ⟨fun hi => ?_, fun hi => absurd hi (by decide)⟩
    rcases infix_before_or_after hbrace hi with hi | hi
    · exact absurd hi (not_infix_of_blank hb)
    · exact absurd hi (not_infix_of_blank hg)
  | @second before beforeKey name beforeColon beforeValue label gap gap' s hb hk hn hc hv hl hg
      hg' =>
    constructor
    · -- the key has none of the marks that separate the parts, so it stands in one of them
      intro hi
      replace hi := (infix_before_or_after hbrace hi).resolve_left (not_infix_of_blank hb)
      replace hi := (infix_before_or_after hquote hi).resolve_left (not_infix_of_blank hk)
      have hname : 'm' ∉ name := fun hm => absurd (mem_of_spells hn hm) (by decide)
      replace hi := (infix_before_or_after hquote hi).resolve_left (not_infix_of_not_mem hname)
      replace hi := (infix_before_or_after hcolon hi).resolve_left (not_infix_of_blank hc)
      replace hi := (infix_before_or_after hquote hi).resolve_left (not_infix_of_blank hv)
      refine (infix_before_or_after hquote hi).resolve_right fun hi => ?_
      rcases infix_before_or_after hcomma hi with hi | hi
      · exact not_infix_of_blank hg hi
      · exact not_infix_of_blank hg' hi
    · intro hi
      refine hi.trans ⟨before ++ '\x7b' :: (beforeKey ++ '"' :: (name ++ '"' :: (beforeColon ++
        ':' :: (beforeValue ++ ['"'])))), '"' :: (gap ++ ',' :: gap'), ?_⟩
      simp

/-- The key of an object is marked unless the label before it holds the characters of the key. -/
theorem covers_iff_label {source : Source} {front label after : List Char}
    (hf : BeforeKey front label)
    (ht : source.text.toList = front ++ '"' :: (limitKey.toList ++ after)) :
    Covers (zeroLimitFault source) (front ++ ['"']) ↔ ¬ limitKey.toList <:+: label := by
  have hquote : '"' ∉ limitKey.toList := by decide
  have hkey : (front ++ ['"']) ++ limitKey.toList <+: source.text.toList :=
    ⟨after, by rw [ht]; simp⟩
  rw [covers_iff_first hkey, ← infix_beforeKey_iff hf]
  constructor
  · rintro hfirst ⟨earlier, rest, hfront⟩
    have hle := hfirst earlier ⟨rest ++ '"' :: (limitKey.toList ++ after), by
      rw [ht, ← hfront, List.append_assoc _ rest]⟩
    have hlen := congrArg List.length hfront
    simp only [List.length_append] at hle hlen
    have : limitKey.toList.length = 14 := rfl
    simp only [List.length_singleton] at hle
    omega
  · intro hnot earlier hearlier
    by_contra hlt
    rw [List.length_append, List.length_singleton, Nat.not_le, Nat.lt_succ_iff] at hlt
    rw [ht] at hearlier
    exact hnot (infix_of_earlier hquote hlt hearlier)

theorem ofJson_of_zero {text : String} {c : Config} (hr : readDocument text.toList = .ok c)
    (hz : c.maxLiveNodes = some 0) :
    ofJson text = .error (zeroLimitFault ⟨jsonSourceName, text⟩) := by
  have hzero : c.hasZeroLimit = true := beq_iff_eq.2 hz
  rw [ofJson, ofJsonNamed, hr]
  exact if_pos hzero

theorem ofYaml_of_zero {text : String} {c : Config} (hr : ofDocument (.ofText text) = .ok c)
    (hz : c.maxLiveNodes = some 0) :
    ofYaml text = .error (zeroLimitFault ⟨yamlSourceName, text⟩) := by
  have hzero : c.hasZeroLimit = true := beq_iff_eq.2 hz
  unfold ofYaml ofYamlNamed
  rw [hr]
  exact if_pos hzero

/-- A limit of zero is refused in both formats. Where the key of the limit stands in the text, it is
marked exactly when its characters do not stand anywhere before; in a JSON object, exactly when they
do not stand in the label before the key. -/
theorem span_of_zero_limit {text : String} {c : Config} (hz : c.maxLiveNodes = some 0) :
    (readDocument text.toList = .ok c → ∃ f, ofJson text = .error f ∧
      (∀ before after, text.toList = before ++ (limitKey.toList ++ after) →
        (Covers f before ↔ ∀ earlier, earlier ++ limitKey.toList <+: text.toList →
          before.length ≤ earlier.length)) ∧
      ∀ front label after, BeforeKey front label →
        text.toList = front ++ '"' :: (limitKey.toList ++ after) →
        (Covers f (front ++ ['"']) ↔ ¬ limitKey.toList <:+: label)) ∧
    (ofDocument (.ofText text) = .ok c → ∃ f, ofYaml text = .error f ∧
      ∀ before after, text.toList = before ++ (limitKey.toList ++ after) →
        (Covers f before ↔ ∀ earlier, earlier ++ limitKey.toList <+: text.toList →
          before.length ≤ earlier.length)) := by
  have first (name : String) {before after : List Char}
      (hkey : text.toList = before ++ (limitKey.toList ++ after)) :
      before ++ limitKey.toList <+: (⟨name, text⟩ : Source).text.toList :=
    ⟨after, by rw [List.append_assoc, hkey]⟩
  refine ⟨fun hr => ⟨_, ofJson_of_zero hr hz, ?_, ?_⟩, fun hr => ⟨_, ofYaml_of_zero hr hz, ?_⟩⟩
  · exact fun before after hkey => covers_iff_first (first jsonSourceName hkey)
  · exact fun front label after hf ht => covers_iff_label hf ht
  · exact fun before after hkey => covers_iff_first (first yamlSourceName hkey)

/-- A label that is the key of the limit is marked in place of the key. -/
theorem span_of_zero_limit_behind_label :
    let text := "\x7b\"label\":\"max_live_nodes\",\"max_live_nodes\":0\x7d"
    readDocument text.toList = .ok ⟨limitKey, some 0⟩ ∧
      ∃ f, ofJson text = .error f ∧ f.span = some ⟨10, 24⟩ ∧ f.span ≠ some ⟨27, 41⟩ := by
  intro text
  have htext : text.toList = laidOut [] [] [] ⟨limitKey, some 0⟩ := by cbv
  have hread : readDocument text.toList = .ok ⟨limitKey, some 0⟩ := by
    rw [htext, readDocument_laidOut blank_nil blank_nil blank_nil]
  obtain ⟨f, hf, hfirst, hlabel⟩ := (span_of_zero_limit (c := ⟨limitKey, some 0⟩) rfl).1 hread
  refine ⟨hread, f, hf, ?_, ?_⟩
  · refine (hfirst "\x7b\"label\":\"".toList "\",\"max_live_nodes\":0\x7d".toList (by cbv)).2 ?_
    intro earlier hearlier
    by_contra hlt
    have hten : "\x7b\"label\":\"".toList.length = 10 := by cbv
    have hnine : "\x7b\"label\":".toList.length = 9 := by cbv
    have hquote : '"' ∉ limitKey.toList := by decide
    have hsplit : text.toList = "\x7b\"label\":".toList ++
        '"' :: "max_live_nodes\",\"max_live_nodes\":0\x7d".toList := by cbv
    rw [hsplit] at hearlier
    have hinfix := infix_of_earlier hquote (by omega) hearlier
    exact absurd hinfix (by decide)
  · have hbefore := BeforeKey.second blank_nil blank_nil (spells_encode labelKey.toList) blank_nil
      blank_nil (spells_encode limitKey.toList) blank_nil blank_nil
    have hnot := (hlabel _ _ "\":0\x7d".toList hbefore (by cbv)).not
    exact hnot.2 (not_not_intro List.infix_rfl)

end GraphStack.Config
