import GraphStack.Proofs.Number.Whole
import GraphStack.Proofs.Value.Shape
import GraphStack.Session.Recipe
import GraphStack.Value.Text

/-!
# Values as they are displayed

The names of the nodes that a value links to are the only part of its text that depends on how nodes
are named.

A number has two texts: whole numbers below `10 ^ 15` are converted to an integer, all others go
through the search for the shortest digits. On whole numbers the two agree but for the sign of zero,
and a whole number of up to `2 ^ 53` that becomes a value is displayed with its own digits on both
sides of the bound.
-/

namespace GraphStack

namespace Value

/-! ## The names of nodes -/

section
variable {name name' : NodeId → String}

theorem displaysWith_eq_map (vs : List Value) :
    displaysWith name vs = vs.map (displayWith name) := by
  induction vs with
  | nil => rfl
  | cons v vs ih => rw [displaysWith, ih, List.map_cons]

theorem entryDisplaysWith_eq_map (es : List (String × Value)) :
    entryDisplaysWith name es = es.map fun e => e.1 ++ ": " ++ e.2.displayWith name := by
  induction es with
  | nil => rfl
  | cons e es ih => rw [entryDisplaysWith, ih, List.map_cons]

/-- Only the names of the nodes that the value links to, at any depth, are part of its text. -/
theorem displayWith_congr (v : Value)
    (h : ∀ id, v.Contains (.node id) → name id = name' id) :
    v.displayWith name = v.displayWith name' := by
  induction v using tree_induction with
  | nil => rfl
  | bool b => rfl
  | number x => rfl
  | text s => rfl
  | list vs ih =>
    have heq : vs.map (displayWith name) = vs.map (displayWith name') :=
      List.map_congr_left fun v hv => ih v hv fun id hc => h id (.item hv hc)
    simp only [displayWith, displaysWith_eq_map, heq]
  | map t es ih =>
    have heq : ∀ e ∈ es, e.2.displayWith name = e.2.displayWith name' :=
      fun e he => ih e he fun id hc => h id (.entry he hc)
    simp only [displayWith, entryDisplaysWith_eq_map]
    rw [List.map_congr_left fun e he => congrArg (e.1 ++ ": " ++ ·) (heq e he)]
  | node id => rw [displayWith, displayWith, h id (.refl _)]

/-- Below ten a number has one digit, the same in decimal and in hexadecimal. -/
theorem display_eq_mark {v : Value} (h : ∀ id, v.Contains (.node id) → id.number < 10) :
    v.display = v.displayWith NodeId.mark := by
  refine displayWith_congr v fun id hc => congrArg ("#" ++ ·) ?_
  have hdigit : ∀ n < 10, toString n = Text.hexDigits n := by decide
  exact hdigit id.number (h id hc)

end

/-! ## Whole numbers -/

variable {x : Double} {k : Int}

theorem display_of_toInt? (hx : x.toInt? = some k) (hk : k.natAbs < 10 ^ 15) :
    (number x).display = toString k := by
  have hbound : integerBound = 10 ^ 15 := rfl
  rw [display, displayWith, displayNumber, hx]
  exact if_pos (hbound ▸ hk)

theorem display_of_large (hx : x.toInt? = some k) (hk : 10 ^ 15 ≤ k.natAbs) :
    (number x).display = Layout.plain.text x := by
  have hbound : integerBound = 10 ^ 15 := rfl
  rw [display, displayWith, displayNumber, hx]
  exact if_neg (hbound ▸ Nat.not_lt.2 hk)

/-- A whole number below `2 ^ 53` is displayed with its digits, whichever way its text is made. -/
theorem display_of_whole (hv : x.value? = some (k : ℚ)) (hk : k.natAbs < 2 ^ 53) :
    (number x).display = toString k := by
  have hx := Double.toInt?_of_whole hv
  rcases Nat.lt_or_ge k.natAbs (10 ^ 15) with hlt | hge
  · exact display_of_toInt? hx hlt
  · have h0 : ¬ (k = 0 ∧ x.negative) := by
      rintro ⟨rfl, -⟩
      exact absurd hge (by decide)
    rw [display_of_large hx hge, Layout.plain_text_of_whole hv hk, if_neg h0]

/-- `2 ^ 53` has a mantissa of its own, with the next double two units away. -/
theorem display_ofInt (hk : k.natAbs ≤ 2 ^ 53) : (number (.ofInt k)).display = toString k := by
  rcases Nat.lt_or_eq_of_le hk with hlt | heq
  · exact display_of_whole (Double.value?_ofInt hlt) hlt
  · rcases Int.natAbs_eq k with h | h
    · rw [h, heq]
      decide +kernel
    · rw [h, heq]
      decide +kernel

/-- On whole numbers below `10 ^ 15` the text made from the integer is the text of the shortest
digits, but that a negative zero loses its sign. A whole number of up to `2 ^ 53` is displayed as
itself once it is a value. -/
theorem display_whole_exact :
    (∀ (x : Double) (k : Int), x.value? = some (k : ℚ) → k.natAbs < 10 ^ 15 →
      x.toInt? = some k ∧ (number x).display = toString k ∧
        Layout.plain.text x = if k = 0 ∧ x.negative then "-0" else toString k) ∧
    ∀ (s : Session) (k : Int), k.natAbs ≤ 2 ^ 53 →
      ∃ v, s.build (.integer k) = .ok (v, s) ∧ v.display = toString k := by
  refine ⟨fun x k hv hk => ?_, fun s k hk => ?_⟩
  · have hx := Double.toInt?_of_whole hv
    have hk' : k.natAbs < 2 ^ 53 := hk.trans (by norm_num)
    exact ⟨hx, display_of_toInt? hx hk, Layout.plain_text_of_whole hv hk'⟩
  · exact ⟨.number (.ofInt k), by rw [Session.build], display_ofInt hk⟩

/-- Negative zero, a negative number, and the ends of the range. -/
theorem display_whole_exact_ends :
    ((⟨0x8000000000000000⟩ : Double).value? = some ((0 : Int) : ℚ) ∧
      (number ⟨0x8000000000000000⟩).display = "0" ∧
      Layout.plain.text ⟨0x8000000000000000⟩ = "-0") ∧
    ((⟨0xc0fe240000000000⟩ : Double).value? = some ((-123456 : Int) : ℚ) ∧
      (number ⟨0xc0fe240000000000⟩).display = "-123456" ∧
      Layout.plain.text ⟨0xc0fe240000000000⟩ = "-123456") ∧
    (∃ v, Session.empty.build (.integer (2 ^ 53)) = .ok (v, .empty) ∧
      v.display = "9007199254740992") ∧
    ∃ v, Session.empty.build (.integer (-(2 ^ 53))) = .ok (v, .empty) ∧
      v.display = "-9007199254740992" := by
  have hzero : (⟨0x8000000000000000⟩ : Double).value? = some ((0 : Int) : ℚ) := by
    rw [Double.value?_of_reading (s := true) (m := 0) (q := -1074) (by decide)]
    norm_num
  have hwhole : (⟨0xc0fe240000000000⟩ : Double).value? = some ((-123456 : Int) : ℚ) := by
    rw [Double.value?_of_reading (s := true) (m := 8483831719919616) (q := -36) (by decide)]
    norm_num
  obtain ⟨hdisplay, hbuild⟩ := display_whole_exact
  obtain ⟨-, hd, ht⟩ := hdisplay _ _ hzero (by decide)
  obtain ⟨-, hd', ht'⟩ := hdisplay _ _ hwhole (by decide)
  exact ⟨⟨hzero, hd, ht⟩, ⟨hwhole, hd', ht'⟩, hbuild .empty (2 ^ 53) (by decide),
    hbuild .empty (-(2 ^ 53)) (by decide)⟩

end Value
end GraphStack
