import GraphStack.Proofs.Config.Language
import GraphStack.Proofs.Session.Slots
import GraphStack.Session.Command

/-!
# Configurations through JSON

A configuration that is written in JSON, with whatever space between its parts, is the one that is
read, unless its limit is zero: then it is refused, like the budget that it describes.
-/

namespace GraphStack.Config

open GraphStack.Json

/-- A configuration written with space before each key, before each value and at the end. -/
def laidOut (beforeKey beforeValue atEnd : List Char) (c : Config) : List Char :=
  '\x7b' :: (beforeKey ++ (encode labelKey.toList ++
    ':' :: (beforeValue ++ (encode c.label.toList ++
      ',' :: (beforeKey ++ (encode limitKey.toList ++
        ':' :: (beforeValue ++ (c.limitJson.toList ++ (atEnd ++ ['\x7d'])))))))))

theorem toList_toJson (c : Config) : c.toJson.toList = laidOut [] [] [] c := by
  simp [toJson, laidOut, encodeString]

theorem toList_toJsonLines (c : Config) :
    c.toJsonLines.toList = laidOut ['\n', ' ', ' '] [' '] ['\n'] c := by
  simp [toJsonLines, laidOut, encodeString]

variable {beforeKey beforeValue atEnd : List Char}

theorem spells_limitJson (c : Config) : SpellsLimit c.limitJson.toList c.maxLiveNodes := by
  unfold limitJson
  cases c.maxLiveNodes with
  | none => exact .null
  | some n =>
    have htext : (toString n.toNat).toList = Nat.toDigits 10 n.toNat := by
      simp [toString, Nat.repr]
    exact htext ▸ .count n

/-- Whatever the space, a written configuration is an object of its label and its limit. -/
theorem spells_laidOut (hk : Blank beforeKey) (hv : Blank beforeValue) (he : Blank atEnd)
    (c : Config) :
    SpellsDraft (laidOut beforeKey beforeValue atEnd c) ⟨some c.label, some c.maxLiveNodes⟩ := by
  have name (s : String) : SpellsText (encode s.toList) s := .quoted (spells_encode s.toList)
  have label := SpellsMember.mk (f := .label c.label) hk (name labelKey) blank_nil hv
    (.label (name c.label))
  have limit := SpellsMember.mk (f := .limit c.maxLiveNodes) hk (name limitKey) blank_nil hv
    (.limit (spells_limitJson c))
  have hdraft := SpellsDraft.members (.more label blank_nil (.last limit)) (by simp [Field.key,
    labelKey, limitKey]) he
  simpa [laidOut, Draft.put] using hdraft

theorem readDocument_laidOut (hk : Blank beforeKey) (hv : Blank beforeValue) (he : Blank atEnd)
    (c : Config) : readDocument (laidOut beforeKey beforeValue atEnd c) = .ok c := by
  have hdocument := SpellsDocument.mk blank_nil (spells_laidOut hk hv he c) blank_nil
  rw [List.nil_append, List.append_nil] at hdocument
  exact readDocument_eq_ok_iff.2 ⟨_, hdocument, rfl⟩

/-- A configuration is read as it was written, unless its limit is zero. -/
theorem ofJson_eq {text : String} {c : Config} (hk : Blank beforeKey) (hv : Blank beforeValue)
    (he : Blank atEnd) (ht : text.toList = laidOut beforeKey beforeValue atEnd c) :
    ofJson text = c.validated ⟨jsonSourceName, text⟩ := by
  rw [ofJson, ofJsonNamed, ht, readDocument_laidOut hk hv he]

theorem ofJson_toJson (c : Config) : ofJson c.toJson = c.validated ⟨jsonSourceName, c.toJson⟩ := by
  exact ofJson_eq blank_nil blank_nil blank_nil (toList_toJson c)

theorem ofJson_toJsonLines (c : Config) :
    ofJson c.toJsonLines = c.validated ⟨jsonSourceName, c.toJsonLines⟩ := by
  refine ofJson_eq ?_ ?_ ?_ (toList_toJsonLines c) <;> simp [Blank, isSpace]

/-- A budget that is opened without a limit of zero has its label and its limit. -/
theorem openBudget_of_ne {limit : Option UInt64} (hl : limit ≠ some 0) (s : Session)
    (label into : String) :
    ∃ s' id, s.openBudget label limit into = (.budget ⟨label, limit.map (·.toNat), 0, 0⟩, s') ∧
      s'.budgets.lookup into = some id ∧
      s'.heap.budget id = ⟨label, limit.map (·.toNat), 0, 0⟩ := by
  have hnew : (s.heap.openBudget label (limit.map (·.toNat))).budget s.heap.nextBudget =
      ⟨label, limit.map (·.toNat), 0, 0⟩ := by
    rw [Heap.budget_openBudget, if_pos rfl]
  rw [Session.openBudget, if_neg hl]
  refine ⟨_, s.heap.nextBudget, Prod.ext ?_ rfl, lookup_putNamed into _ _, hnew⟩
  exact congrArg Reply.budget hnew

/-- A budget opens from a configuration, with its label and its limit, and both texts of the
configuration are read as the configuration; or neither happens, and the faults are alike. -/
theorem opens_and_reads (c : Config) (s : Session) (into : String) :
    let opened : Budget := ⟨c.label, c.maxLiveNodes.map (·.toNat), 0, 0⟩
    (∃ s' id, s.perform (.openBudgetFrom (.ok c) into) = .ok (.budget opened, s') ∧
      s'.budgets.lookup into = some id ∧ s'.heap.budget id = opened ∧
      ofJson c.toJson = .ok c ∧ ofJson c.toJsonLines = .ok c) ∨
    ∃ refused short long, s.perform (.openBudgetFrom (.ok c) into) = .ok (.fault refused, s) ∧
      ofJson c.toJson = .error short ∧ ofJson c.toJsonLines = .error long ∧
      ∀ f ∈ [refused, short, long], f.kind = .config ∧ f.message = zeroLimitMessage := by
  rw [ofJson_toJson, ofJson_toJsonLines]
  by_cases hz : c.maxLiveNodes = some 0
  · have hzero : c.hasZeroLimit = true := beq_iff_eq.2 hz
    refine .inr ⟨.plain .config zeroLimitMessage, zeroLimitFault ⟨jsonSourceName, c.toJson⟩,
      zeroLimitFault ⟨jsonSourceName, c.toJsonLines⟩, ?_, if_pos hzero, if_pos hzero, ?_⟩
    · simp only [Session.perform, Session.openBudget, if_pos hz]
    · simp only [List.forall_mem_cons]
      exact ⟨⟨rfl, rfl⟩, ⟨rfl, rfl⟩, ⟨rfl, rfl⟩, List.forall_mem_nil _⟩
  · have hzero : ¬ c.hasZeroLimit = true := fun h => hz (beq_iff_eq.1 h)
    obtain ⟨s', id, hopen, hlookup, hbudget⟩ := openBudget_of_ne hz s c.label into
    refine .inl ⟨s', id, ?_, hlookup, hbudget, if_neg hzero, if_neg hzero⟩
    simp only [Session.perform, hopen]

end GraphStack.Config
