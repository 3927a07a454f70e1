import GraphStack.Config.Yaml
import GraphStack.Proofs.Config.Json
import GraphStack.Proofs.Yaml.Document
import GraphStack.Proofs.Yaml.Schema

/-!
# Configurations through YAML

A configuration that is written in YAML is the one that is read, whatever its label, and so is the
one that is written in JSON. A limit of zero is refused in both.
-/

namespace GraphStack.Config

open GraphStack.Yaml

def limitText (c : Config) : String := c.maxLiveNodes.elim "null" fun n => toString n.toNat

theorem limitText_plain (c : Config) :
    c.limitText.toList ≠ [] ∧ Render.AllowsPlain c.limitText.toList := by
  unfold limitText
  cases c.maxLiveNodes with
  | none => exact ⟨by simp, .of_eq_true rfl⟩
  | some n =>
    rw [Option.elim_some, Nat.toString_eq_repr, Nat.toList_repr]
    exact ⟨Nat.toDigits_ne_nil, allowsPlain_toDigits n.toNat⟩

def labelLine (c : Config) : Scan.Line where
  key := labelKey
  value := Render.scalar c.label
  text := c.label
  style := Render.styleOf c.label
  nonempty := by decide
  plain := .of_eq_true rfl
  short := by decide
  written := Scan.written_scalar c.label

def limitLine (c : Config) : Scan.Line where
  key := limitKey
  value := c.limitText.toList
  text := c.limitText
  style := .plain
  nonempty := by decide
  plain := .of_eq_true rfl
  short := by decide
  written := by
    have hw := Scan.Written.plain c.limitText_plain.1 c.limitText_plain.2
    rwa [String.ofList_toList] at hw

theorem toYaml_eq (c : Config) :
    c.toYaml = String.ofList ([c.labelLine, c.limitLine].flatMap Scan.Line.chars) := by
  simp [toYaml, Scan.Line.chars, labelLine, limitLine, limitText]

theorem count?_toString (n : UInt64) :
    Scalar.count? ⟨toString n.toNat, none, .plain⟩ = some n := by
  have hlt : n.toNat < twoTo 64 := n.toNat_lt
  have hplain : Scalar.count? ⟨toString n.toNat, none, .plain⟩ =
    ((natural? (toString n.toNat)).filter (· < twoTo 64)).map .ofNat := rfl
  rw [hplain, natural?_toString, Option.filter_some, if_pos (decide_eq_true hlt)]
  exact congrArg some UInt64.ofNat_toNat

theorem limitEntry_of_count? {e : Entry} {text : String} {n : UInt64} (start : Mark) (name : String)
    (he : e.item = .scalar ⟨text, none, .plain⟩) (hempty : text ≠ "") (hnull : isNull text = false)
    (hn : Scalar.count? ⟨text, none, .plain⟩ = some n) :
    limitEntry start name e = .ok (some n) := by
  simp [limitEntry, countEntry, he, Scalar.isPlain, hempty, hnull, hn, Except.map]

/-- Whatever the limit, it is read as it was written. -/
theorem limitEntry_limitText (c : Config) {e : Entry} (start : Mark) (name : String)
    (he : e.item = .scalar ⟨c.limitText, none, .plain⟩) :
    limitEntry start name e = .ok c.maxLiveNodes := by
  have hempty : c.limitText ≠ "" := fun h => c.limitText_plain.1 (by rw [h]; rfl)
  unfold limitText at he hempty
  cases hl : c.maxLiveNodes with
  | none =>
    rw [hl] at he
    simp [limitEntry, he, Scalar.isPlain, isNull]
  | some n =>
    rw [hl] at he hempty
    exact limitEntry_of_count? start name he hempty (isNull_toString _) (count?_toString n)

/-- Both entries are those of the configuration, and nothing follows them. -/
theorem ofDocument_toYaml (c : Config) : ofDocument (.ofText c.toYaml) = .ok c := by
  rw [toYaml_eq]
  obtain ⟨hfailure, hfollowed, hitems⟩ := Document.ofText_lines c.labelLine [c.limitLine]
  generalize Document.ofText _ = doc at hfailure hfollowed hitems
  obtain ⟨entries, failure, followed⟩ := doc
  obtain rfl : failure = none := hfailure
  obtain rfl : followed = false := hfollowed
  obtain ⟨mapping, entries, rfl, hmapping, hitems⟩ := List.map_eq_cons_iff.1 hitems
  obtain ⟨labelWord, entries, rfl, hlabelWord, hitems⟩ := List.map_eq_cons_iff.1 hitems
  obtain ⟨label, entries, rfl, hlabel, hitems⟩ := List.map_eq_cons_iff.1 hitems
  obtain ⟨limitWord, entries, rfl, hlimitWord, hitems⟩ := List.map_eq_cons_iff.1 hitems
  obtain ⟨limit, entries, rfl, hlimit, hitems⟩ := List.map_eq_cons_iff.1 hitems
  obtain ⟨closing, entries, rfl, hclosing, -⟩ := List.map_eq_cons_iff.1 hitems
  have hread := c.limitEntry_limitText mapping.mark (keyName limitWord limitKey) hlimit
  have hlimitKey : c.limitLine.key = limitKey := rfl
  have hkey : limitKey ≠ labelKey := by decide
  have hfields : readEntries ⟨mapping :: labelWord :: label :: limitWord :: limit :: closing ::
      entries, none, false⟩ = .ok ⟨some c.label, some c.maxLiveNodes⟩ := by
    simp [readEntries, hmapping, readFields, hlabelWord, Draft.empty, labelEntry, hlabel,
      hlimitWord, hlimitKey, hkey, hread, hclosing, labelLine]
  rw [ofDocument, hfields]
  rfl

theorem ofYaml_toYaml (c : Config) : ofYaml c.toYaml = c.validated ⟨yamlSourceName, c.toYaml⟩ := by
  unfold ofYaml ofYamlNamed
  rw [ofDocument_toYaml]

/-- Every configuration is read back from YAML as from JSON, whatever characters its label has; only
a limit of zero is refused. -/
theorem yaml_reads_back (c : Config) :
    (c.maxLiveNodes ≠ some 0 ∧ ofYaml c.toYaml = .ok c ∧ ofJson c.toJson = .ok c ∧
      ofJson c.toJsonLines = .ok c) ∨
    (c.maxLiveNodes = some 0 ∧ ∃ f, ofYaml c.toYaml = .error f ∧ f.kind = .config ∧
      f.message = "max_live_nodes must be at least 1") := by
  rw [ofYaml_toYaml, ofJson_toJson, ofJson_toJsonLines]
  by_cases hz : c.maxLiveNodes = some 0
  · have hzero : c.hasZeroLimit = true := beq_iff_eq.2 hz
    exact .inr ⟨hz, zeroLimitFault ⟨yamlSourceName, c.toYaml⟩, if_pos hzero, rfl, rfl⟩
  · have hzero : ¬ c.hasZeroLimit = true := fun h => hz (beq_iff_eq.1 h)
    exact .inl ⟨hz, if_neg hzero, if_neg hzero, if_neg hzero⟩

end GraphStack.Config
