import GraphStack.Proofs.Config.KeySearch
import GraphStack.Proofs.Config.Places
import GraphStack.Proofs.Yaml.Entries

/-!
# Labels of refused configurations

A fault with a source marks a range of it. A JSON text is marked at one of its bytes. A YAML text is
marked at the place that its reader reports, which is in the text or at its end, and at its first
byte where no place is reported. A limit of zero marks as many bytes as its key has
(`labels_of_refused`).
-/

namespace GraphStack.Config

open GraphStack.Json GraphStack.Yaml

/-! ## Places of refusals -/

namespace Refusal

/-- The place that the reader reports. -/
def place? : Refusal → Option Mark
  | unreadable f => some f.mark
  | unfit _ _ mark => some mark
  | severalDocuments => none
  | cutOff => none

theorem span_eq (r : Refusal) : r.span = r.place?.elim .empty fun m => .point m.index := by
  cases r <;> rfl

def Within (n : Nat) (r : Refusal) : Prop := ∀ m ∈ r.place?, m.index ≤ n

end Refusal

section Reading

variable {n : Nat} {refusal : Refusal}

theorem within_unfit {m : Mismatch} {key : Option String} {mark : Mark} (h : mark.index ≤ n) :
    (Refusal.unfit m key mark).Within n := fun _ hm => Option.mem_some.1 hm ▸ h

theorem within_unreadable {f : Failure} (h : f.mark.index ≤ n) :
    (Refusal.unreadable f).Within n := fun _ hm => Option.mem_some.1 hm ▸ h

theorem within_cutShort {d : Document} (h : d.Within n) : (cutShort d).Within n := by
  unfold cutShort
  cases hf : d.failure with
  | none => exact fun m hm => (Option.not_mem_none m hm).elim
  | some f => exact within_unreadable (h.failure f hf)

theorem within_labelEntry {name : String} {e : Entry} (he : e.mark.index ≤ n)
    (h : labelEntry name e = .error refusal) : refusal.Within n := by
  unfold labelEntry at h
  split at h
  · cases h
  · cases h
    exact within_unfit he

theorem within_countEntry {name : String} {e : Entry} (he : e.mark.index ≤ n)
    (h : countEntry name e = .error refusal) : refusal.Within n := by
  unfold countEntry at h
  dsimp only at h
  split at h
  · next s _ =>
    cases hc : s.count? with
    | none =>
      rw [hc] at h
      cases h
      exact within_unfit he
    | some k =>
      rw [hc] at h
      cases h
  · cases h
    exact within_unfit he

theorem within_limitEntry {start : Mark} {name : String} {e : Entry} (hs : start.index ≤ n)
    (he : e.mark.index ≤ n) (h : limitEntry start name e = .error refusal) :
    refusal.Within n := by
  have some? (h : (countEntry name e).map some = .error refusal) : refusal.Within n := by
    cases hc : countEntry name e with
    | ok k =>
      rw [hc] at h
      cases h
    | error r =>
      rw [hc] at h
      cases h
      exact within_countEntry he hc
  unfold limitEntry at h
  dsimp only at h
  split at h
  · split at h
    · exact some? h
    · split at h
      · split at h
        · cases h
        · exact some? h
      · split at h
        · split at h
          · cases h
          · cases h
            exact within_unfit hs
        · exact some? h
  · exact some? h

theorem within_readFields {doc : Document} (hd : doc.Within n) {start : Mark}
    (hs : start.index ≤ n) {entries : List Entry} (he : ∀ e ∈ entries, e.mark.index ≤ n)
    {d : Draft} (h : readFields doc start d entries = .error refusal) : refusal.Within n := by
  fun_induction readFields doc start d entries with
  | case1 =>
    cases h
    exact within_cutShort hd
  | case2 => cases h
  | case3 =>
    rw [← Except.error.inj h]
    exact within_unfit hs
  | case4 =>
    cases h
    exact within_cutShort hd
  | case5 d key s hk _ _ value rest r hr =>
    cases h
    exact within_labelEntry (he value (by simp)) hr
  | case6 d key s hk _ _ value rest label hr ih =>
    exact ih (fun e hm => he e (by simp [hm])) h
  | case7 =>
    rw [← Except.error.inj h]
    exact within_unfit hs
  | case8 =>
    cases h
    exact within_cutShort hd
  | case9 d key s hk _ _ _ value rest r hr =>
    cases h
    exact within_limitEntry hs (he value (by simp)) hr
  | case10 d key s hk _ _ _ value rest limit hr ih =>
    exact ih (fun e hm => he e (by simp [hm])) h
  | case11 d key rest =>
    cases h
    exact within_unfit (he key (by simp))
  | case12 d key rest =>
    cases h
    exact within_unfit (he key (by simp))

theorem within_readEntries {doc : Document} (hd : doc.Within n)
    (h : readEntries doc = .error refusal) : refusal.Within n := by
  unfold readEntries at h
  split at h
  · split at h
    · cases h
      exact within_cutShort hd
    · cases h
  · next e rest hentries =>
    have he := hd.entries
    rw [hentries] at he
    obtain ⟨hmark, hrest⟩ := List.forall_mem_cons.1 he
    split at h
    · exact within_readFields hd hmark hrest h
    · split at h
      · cases h
      · cases h
        exact within_unfit hmark
    · cases h
      exact within_unfit hmark

/-- No refusal has a place behind the end of the text. -/
theorem within_ofDocument {doc : Document} (hd : doc.Within n)
    (h : ofDocument doc = .error refusal) : refusal.Within n := by
  unfold ofDocument at h
  split at h
  · next hr =>
    cases h
    exact within_readEntries hd hr
  · split at h
    · next f hf =>
      cases h
      exact within_unreadable (hd.failure f hf)
    · split at h
      · cases h
        exact fun m hm => (Option.not_mem_none m hm).elim
      · cases h

end Reading

/-! ## Labels -/

/-- The label of the fault is a range of bytes of this text, which is its source. -/
def MarksIn (f : Fault) (text : String) : Prop :=
  ∃ source span, f.source = some source ∧ source.text = text ∧ f.span = some span ∧
    span.start < span.stop ∧ span.stop ≤ text.utf8ByteSize ∧
    f.label? = some ⟨f.message, span.start, span.stop - span.start⟩

theorem utf8ByteSize_eq (text : String) : text.utf8ByteSize = byteLength text.toList := by
  have hbytes : text.toList.utf8Encode = text.toByteArray := String.utf8Encode_toList
  have hsize := congrArg ByteArray.size hbytes
  rw [List.utf8Encode, List.size_toByteArray] at hsize
  rw [← length_bytes]
  exact hsize.symm

theorem marksIn_of_span {f : Fault} {name text : String} (hs : f.source = some ⟨name, text⟩)
    {span : Span} (hspan : f.span = some span) (hlt : span.start < span.stop)
    (hle : span.stop ≤ text.utf8ByteSize) : MarksIn f text := by
  refine ⟨⟨name, text⟩, span, hs, rfl, hspan, hlt, hle, ?_⟩
  rw [Fault.label?, hs, hspan]
  simp only [Span.marked, if_pos hlt]

theorem marksIn_of_point {f : Fault} {name text : String} (hs : f.source = some ⟨name, text⟩)
    {offset : Nat} (hspan : f.span = some (.point offset)) (hlt : offset < text.utf8ByteSize) :
    MarksIn f text := marksIn_of_span hs hspan (Nat.lt_succ_self offset) hlt

/-- The key of the limit is marked where it stands in the text, and otherwise the first bytes. -/
theorem zeroLimitFault_marksIn {source : Source}
    (hlong : limitKey.utf8ByteSize ≤ source.text.utf8ByteSize) :
    MarksIn (zeroLimitFault source) source.text := by
  have hsize : limitKey.utf8ByteSize = byteLength limitKey.toList := rfl
  have hpos : 0 < limitKey.utf8ByteSize := by decide
  refine marksIn_of_span rfl rfl ?_ ?_
  · exact Nat.lt_add_of_pos_right hpos
  · unfold limitKeySpan
    cases hfind : findBytes limitKey.toList source.text.toList 0 with
    | none => simpa using hlong
    | some start =>
      obtain ⟨before, hfirst, hbefore⟩ := exists_findBytes (infix_of_findBytes hfind) 0
      rw [hfind, Option.some.injEq, Nat.zero_add] at hbefore
      obtain ⟨after, hafter⟩ := hfirst.stands
      have hlen := congrArg byteLength hafter
      simp only [byteLength_append] at hlen
      rw [Option.getD_some, hbefore, hsize, utf8ByteSize_eq]
      dsimp only
      omega

/-- What a refused text that is not empty has marked in it. A fault of the JSON reader marks a byte,
and a limit of zero as many bytes as its key has, if the text has as many. The place of a fault of
the YAML reader is in the text or at its end; where it is in the text, it marks a byte there, and
where there is no place, the empty span at the start, for which the label takes the first byte. -/
theorem labels_of_refused {text : String} (hne : text ≠ "") :
    (∀ halt, readDocument text.toList = .error halt →
      ∃ f, ofJson text = .error f ∧ MarksIn f text) ∧
    (∀ c : Config, c.maxLiveNodes = some 0 → limitKey.utf8ByteSize ≤ text.utf8ByteSize →
      (readDocument text.toList = .ok c → ∃ f, ofJson text = .error f ∧ MarksIn f text) ∧
      (ofDocument (.ofText text) = .ok c → ∃ f, ofYaml text = .error f ∧ MarksIn f text)) ∧
    ∀ refusal, ofDocument (.ofText text) = .error refusal → ∃ f, ofYaml text = .error f ∧
      (∀ m ∈ refusal.place?, f.span = some (.point m.index) ∧ m.index ≤ text.utf8ByteSize ∧
        (m.index < text.utf8ByteSize → MarksIn f text)) ∧
      (refusal.place? = none → f.span = some ⟨0, 0⟩ ∧ f.label? = some ⟨f.message, 0, 1⟩ ∧
        1 ≤ text.utf8ByteSize) := by
  have hsize : 0 < text.utf8ByteSize := by
    rw [Nat.pos_iff_ne_zero]
    exact fun h => hne (String.utf8ByteSize_eq_zero_iff.1 h)
  refine ⟨fun halt hr => ?_, fun c hz hlong => ⟨fun hr => ?_, fun hr => ?_⟩, fun refusal hr => ?_⟩
  · have hfault : ofJson text = .error (malformed ⟨jsonSourceName, text⟩ (halt.message text.toList)
        (.point (offsetOf text.toList (halt.place text.toList)))) := by
      rw [ofJson, ofJsonNamed, hr]
    refine ⟨_, hfault, marksIn_of_point rfl rfl ?_⟩
    rw [utf8ByteSize_eq] at hsize ⊢
    unfold offsetOf
    omega
  · exact ⟨_, ofJson_of_zero hr hz, zeroLimitFault_marksIn hlong⟩
  · exact ⟨_, ofYaml_of_zero hr hz, zeroLimitFault_marksIn hlong⟩
  · have hwithin := within_ofDocument (Document.within_ofText text) hr
    have hfault : ofYaml text =
        .error (malformed ⟨yamlSourceName, text⟩ refusal.message refusal.span) := by
      unfold ofYaml ofYamlNamed
      rw [hr]
    rw [Refusal.span_eq] at hfault
    rw [← utf8ByteSize_eq] at hwithin
    refine ⟨_, hfault, fun m hm => ?_, fun hnone => ?_⟩
    · rw [Option.mem_def.1 hm, Option.elim_some]
      exact ⟨rfl, hwithin m hm, marksIn_of_point rfl rfl⟩
    · rw [hnone, Option.elim_none]
      exact ⟨rfl, rfl, hsize⟩

/-- An unknown key is marked where it stands. -/
theorem labels_of_unknown_key :
    let text := "label: a\nlabels: b\n"
    text ≠ "" ∧ ∃ f, ofYaml text = .error f ∧ f.span = some ⟨9, 10⟩ ∧ MarksIn f text := by
  intro text
  have hne : text ≠ "" := by decide
  have hread : ofDocument (.ofText text) =
      .error (.unfit (.unknownField "labels" fieldNames) none ⟨9, 1, 0⟩) := by cbv
  obtain ⟨f, hf, hplace, -⟩ := (labels_of_refused hne).2.2 _ hread
  obtain ⟨hspan, -, hmarks⟩ := hplace ⟨9, 1, 0⟩ rfl
  exact ⟨hne, f, hf, hspan, hmarks (by decide)⟩

/-- Of several documents none is marked: the span is empty. -/
theorem severalDocuments_unmarked :
    let text := "label: a\n---\nlabel: b\n"
    text ≠ "" ∧ ∃ f, ofYaml text = .error f ∧ f.span = some ⟨0, 0⟩ ∧
      ¬ ∃ span, f.span = some span ∧ span.start < span.stop ∧ span.stop ≤ text.utf8ByteSize := by
  intro text
  have hread : ofDocument (.ofText text) = .error .severalDocuments := by cbv
  refine ⟨by decide, malformed ⟨yamlSourceName, text⟩ Refusal.severalDocuments.message .empty, ?_,
    rfl, ?_⟩
  · unfold ofYaml ofYamlNamed
    rw [hread]
    rfl
  · rintro ⟨span, hspan, hlt, -⟩
    cases hspan
    exact absurd hlt (Nat.lt_irrefl 0)

end GraphStack.Config
