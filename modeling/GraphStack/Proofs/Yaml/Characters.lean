import GraphStack.Yaml.Intake
import GraphStack.Yaml.Render
import Mathlib

/-!
# The characters of written scalars

Whatever the text, a written scalar holds nothing but printable characters and line ends, which may
stand in any YAML text. Of the line ends only those are written as they are that a reader keeps as
they are.
-/

namespace GraphStack.Yaml

theorem joinsNext_of_isBreak {c : Char} (hb : isBreak c = false) (rest : List Char) :
    joinsNext c rest = false := by
  have hc : c ≠ '\r' := by
    rintro rfl
    cases hb
  rw [joinsNext, decide_eq_false hc]
  rfl

/-- A token may begin with it at the start of a line. -/
def Firm (c : Char) : Prop :=
  isBreak c = false ∧ isBlank c = false ∧ c ≠ byteOrderMark ∧ c ≠ '#'

/-- A line begins here that is not indented, or the text ends. -/
def Unindented (rest : List Char) : Prop := ∀ c ∈ rest.head?, Firm c

namespace Render

section Printable

variable {c : Char} (hc : isPrintable c = true)

include hc

theorem ne_tab : c ≠ '\t' := by
  rintro rfl
  cases hc

theorem ne_return : c ≠ '\r' := by
  rintro rfl
  cases hc

theorem ne_nextLine : c ≠ nextLine := by
  rintro rfl
  cases hc

theorem ne_byteOrderMark : c ≠ byteOrderMark := by
  rintro rfl
  cases hc

theorem joinsNext_eq_false (rest : List Char) : joinsNext c rest = false := by
  rw [joinsNext, decide_eq_false (ne_return hc)]
  rfl

theorem isBlank_eq_isSpace : isBlank c = isSpace c := by
  rw [isBlank, decide_eq_false (ne_tab hc), Bool.or_false]
  rfl

theorem keptBreak_eq (hb : isBreak c = true) : keptBreak c = c := by
  unfold keptBreak
  split
  · rfl
  · next hs =>
    simp only [isBreak, Bool.or_eq_true, decide_eq_true_eq] at hb
    rcases hb with (((rfl | rfl) | rfl) | hb) | hb
    · rfl
    · exact absurd rfl (ne_return hc)
    · exact absurd rfl (ne_nextLine hc)
    · exact absurd (.inl hb) hs
    · exact absurd (.inr hb) hs

theorem isAllowed_of_isPrintable : Intake.isAllowed c = true := by
  have hlow : ∀ d : Char, d ≤ c ↔ d.toNat ≤ c.toNat := fun d => Iff.rfl
  have hhigh : ∀ d : Char, c ≤ d ↔ c.toNat ≤ d.toNat := fun d => Iff.rfl
  have hne : ∀ d : Char, c ≠ d → c.toNat ≠ d.toNat := fun d hn he => hn (Char.toNat_inj.1 he)
  simp only [isPrintable, Intake.isAllowed, Bool.or_eq_true, Bool.and_eq_true, decide_eq_true_eq,
    bne_iff_ne] at hc ⊢
  rcases hc with (rfl | hc) | ⟨⟨⟨hlo, -⟩, hfffe⟩, hffff⟩
  · simp
  · exact .inl (.inl (.inl (.inr hc)))
  · by_cases hle : c ≤ '\ufffd'
    · exact .inl (.inr ⟨hlo, hle⟩)
    · have hfffe := hne _ hfffe
      have hffff := hne _ hffff
      rw [hhigh] at hle
      have h1 : ('\ufffd' : Char).toNat = 0xfffd := rfl
      have h2 : ('\ufffe' : Char).toNat = 0xfffe := rfl
      have h3 : ('\uffff' : Char).toNat = 0xffff := rfl
      exact .inr (by omega)

end Printable

/-- Only printable characters and line ends are in it. -/
def Printable (cs : List Char) : Prop := ∀ c ∈ cs, isPrintable c = true

theorem printable_nil : Printable [] := fun _ hc => (List.not_mem_nil hc).elim

theorem printable_of_all {cs : List Char} (hcs : cs.all isPrintable = true) : Printable cs :=
  List.all_eq_true.1 hcs

theorem printable_cons {c : Char} {cs : List Char} :
    Printable (c :: cs) ↔ isPrintable c = true ∧ Printable cs := List.forall_mem_cons

theorem printable_append {cs ds : List Char} :
    Printable (cs ++ ds) ↔ Printable cs ∧ Printable ds := List.forall_mem_append

theorem printable_indent (broken : Bool) : Printable (if broken then margin else []) := by
  cases broken with
  | false => exact printable_nil
  | true => exact printable_of_all rfl

/-- A text of printable characters is readable to its end. -/
theorem ofText_printable {cs : List Char} (hcs : Printable cs) : Intake.ofText cs = ⟨cs, none⟩ := by
  have hnone : ∀ p, Intake.forbidden? p cs = none := by
    induction cs with
    | nil => exact fun p => rfl
    | cons c cs ih =>
      obtain ⟨hc, hcs⟩ := printable_cons.1 hcs
      intro p
      rw [Intake.forbidden?]
      simp only [isAllowed_of_isPrintable hc, if_true, ih hcs]
  rw [Intake.ofText, hnone]

/-! ## Styles -/

/-- Nothing in the text would be read as something else, were it written plain. -/
structure AllowsPlain (cs : List Char) : Prop where
  line : ∀ c ∈ cs, isPrintable c = true ∧ isBreak c = false
  first : cs.head?.any isSpace = false
  last : cs.getLast?.any isSpace = false
  document : startsLikeDocument cs = false
  indicator : startsLikeIndicator cs = false
  inner : hasInnerIndicator cs = false

theorem AllowsPlain.of_eq_true {cs : List Char} (ha : allowsPlain cs = true) : AllowsPlain cs := by
  simp only [allowsPlain, Bool.and_eq_true, List.all_eq_true, Bool.not_eq_true'] at ha
  obtain ⟨⟨⟨⟨⟨hline, hfirst⟩, hlast⟩, hdocument⟩, hindicator⟩, hinner⟩ := ha
  exact ⟨hline, hfirst, hlast, hdocument, hindicator, hinner⟩

theorem AllowsPlain.printable {cs : List Char} (ha : AllowsPlain cs) : Printable cs :=
  fun c hc => (ha.line c hc).1

/-- What is known of a text that is written in a style. -/
inductive Suits (s : String) : Style → Prop
  | plain (hq : needsQuotes s = false) (ha : AllowsPlain s.toList) : Suits s .plain
  | single (hn : '\n' ∉ s.toList) (ha : allowsSingle s.toList = true) : Suits s .single
  | double : Suits s .double
  | literal (hn : '\n' ∈ s.toList) (ha : allowsLiteral s.toList = true) : Suits s .literal

theorem suits_styleOf (s : String) : Suits s (styleOf s) := by
  unfold styleOf
  rw [String.contains_char_eq]
  by_cases hn : '\n' ∈ s.toList
  · rw [if_pos (decide_eq_true hn)]
    split
    · next ha => exact .literal hn ha
    · exact .double
  · rw [if_neg (by rwa [decide_eq_true_eq])]
    split
    · next h =>
      rw [Bool.and_eq_true, Bool.not_eq_true'] at h
      exact .plain h.1 (.of_eq_true h.2)
    · split
      · next ha => exact .single hn ha
      · exact .double

theorem printable_of_allowsSingle {cs : List Char} (ha : allowsSingle cs = true) :
    Printable cs := by
  simp only [allowsSingle, Bool.and_eq_true, List.all_eq_true] at ha
  exact ha.1.1

theorem printable_of_allowsLiteral {cs : List Char} (ha : allowsLiteral cs = true) :
    Printable cs := by
  simp only [allowsLiteral, Bool.and_eq_true, List.all_eq_true] at ha
  exact ha.1.1

theorem printable_singleFrom {cs : List Char} (hcs : Printable cs) (broken : Bool) :
    Printable (singleFrom broken cs) := by
  induction cs generalizing broken with
  | nil => exact printable_indent broken
  | cons c cs ih =>
    obtain ⟨hc, hcs⟩ := printable_cons.1 hcs
    rw [singleFrom]
    split
    · exact printable_cons.2 ⟨hc, ih hcs true⟩
    · split
      · exact printable_cons.2 ⟨hc, ih hcs broken⟩
      · have hquote : Printable (if c = '\'' then [c, c] else [c]) := by
          split <;> simp [Printable, hc]
        exact printable_append.2
          ⟨printable_append.2 ⟨printable_indent broken, hquote⟩, ih hcs false⟩

theorem printable_literalFrom {cs : List Char} (hcs : Printable cs) (broken : Bool) :
    Printable (literalFrom broken cs) := by
  induction cs generalizing broken with
  | nil => exact printable_nil
  | cons c cs ih =>
    obtain ⟨hc, hcs⟩ := printable_cons.1 hcs
    rw [literalFrom]
    split
    · exact printable_cons.2 ⟨hc, ih hcs true⟩
    · exact printable_append.2 ⟨printable_indent broken, printable_cons.2 ⟨hc, ih hcs false⟩⟩

theorem printable_hexField (width n : Nat) : Printable (Text.hexField width n) := by
  induction width generalizing n with
  | zero => exact printable_nil
  | succ width ih =>
    have hlast : n % 16 < 16 := Nat.mod_lt _ (by decide)
    refine printable_append.2 ⟨ih _, printable_cons.2 ⟨?_, printable_nil⟩⟩
    generalize n % 16 = d at hlast
    interval_cases d <;> rfl

theorem printable_escape (c : Char) : Printable (escape c) := by
  unfold escape
  cases hn : escapeName? c with
  | some name =>
    refine printable_cons.2 ⟨rfl, printable_cons.2 ⟨?_, printable_nil⟩⟩
    unfold escapeName? at hn
    split at hn <;> try split_ifs at hn
    all_goals
      cases hn
      rfl
  | none =>
    dsimp only
    split
    · split
      · exact printable_cons.2 ⟨rfl, printable_cons.2 ⟨rfl, printable_hexField _ _⟩⟩
      · split
        · exact printable_cons.2 ⟨rfl, printable_cons.2 ⟨rfl, printable_hexField _ _⟩⟩
        · exact printable_cons.2 ⟨rfl, printable_cons.2 ⟨rfl, printable_hexField _ _⟩⟩
    · next hc =>
      refine printable_cons.2 ⟨?_, printable_nil⟩
      simpa using hc

theorem printable_literal {cs : List Char} (hcs : Printable cs) : Printable (literal cs) := by
  have hindent : Printable (literalIndent cs) := by
    unfold literalIndent
    split <;> exact printable_of_all rfl
  have hchomp : Printable (literalChomp cs) := by
    unfold literalChomp
    repeat' split
    all_goals exact printable_of_all rfl
  refine printable_append.2 ⟨printable_append.2 ⟨printable_cons.2 ⟨rfl, hindent⟩, hchomp⟩, ?_⟩
  exact printable_cons.2 ⟨rfl, printable_literalFrom hcs true⟩

theorem printable_single {cs : List Char} (hcs : Printable cs) : Printable (single cs) :=
  printable_append.2 ⟨printable_cons.2 ⟨rfl, printable_singleFrom hcs false⟩,
    printable_cons.2 ⟨rfl, printable_nil⟩⟩

/-- Whatever the text, between double quotes only printable characters are written. -/
theorem printable_double (cs : List Char) : Printable (double cs) := by
  have hall : Printable (cs.flatMap escape) := by
    intro d hd
    obtain ⟨c, -, hd⟩ := List.mem_flatMap.1 hd
    exact printable_escape c d hd
  exact printable_append.2 ⟨printable_cons.2 ⟨rfl, hall⟩, printable_cons.2 ⟨rfl, printable_nil⟩⟩

end Render
end GraphStack.Yaml
