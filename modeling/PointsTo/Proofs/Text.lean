import Mathlib.Data.List.Basic
import Mathlib.Data.List.Infix
import Mathlib.Data.List.DropRight
import PointsTo.Text.Blank
import PointsTo.Text.Decimal
import PointsTo.Text.Split

/-!
What the cuts of a text are. Cutting at a mark, before a suffix and off the blanks at the ends each takes a
text apart in one way only, and the numerals that are read are the digits of the number that they are read as.
-/
namespace PointsTo.Text

variable {mark c : Char} {cs suffix before after word : List Char} {start bound n : Nat}

theorem splitFirst?_eq_none : splitFirst? mark cs = none ↔ mark ∉ cs := by
  induction cs with
  | nil => simp [splitFirst?]
  | cons c rest ih =>
    by_cases here : c = mark
    · simp [splitFirst?, here]
    · simp [splitFirst?, here, ih, Ne.symm here]

theorem splitFirst?_eq_some :
    splitFirst? mark cs = some (before, after) ↔ cs = before ++ mark :: after ∧ mark ∉ before := by
  induction cs generalizing before with
  | nil => simp [splitFirst?]
  | cons c rest ih =>
    rw [splitFirst?]
    by_cases here : c = mark
    · subst here
      rw [if_pos rfl]
      cases before with
      | nil => simp [eq_comm]
      | cons d others =>
        refine iff_of_false (by simp) ?_
        rintro ⟨same, fresh⟩
        exact fresh ((List.cons.inj same).1 ▸ List.mem_cons_self)
    · rw [if_neg here, Option.map_eq_some_iff]
      cases before with
      | nil => simp [here]
      | cons d others =>
        constructor
        · rintro ⟨⟨left, right⟩, found, same⟩
          cases same
          obtain ⟨rfl, fresh⟩ := ih.mp found
          exact ⟨rfl, by simp [fresh, Ne.symm here]⟩
        · rintro ⟨same, fresh⟩
          cases same
          exact ⟨(others, after), ih.mpr ⟨rfl, fun member => fresh (List.mem_cons_of_mem _ member)⟩, rfl⟩

theorem dropSuffix?_eq_none : dropSuffix? suffix cs = none ↔ ¬ suffix <:+ cs := by
  simp [dropSuffix?, List.isSuffixOf_iff_suffix]

theorem dropSuffix?_eq_some : dropSuffix? suffix cs = some before ↔ cs = before ++ suffix := by
  rw [dropSuffix?, Option.ite_none_right_eq_some, List.isSuffixOf_iff_suffix, Option.some.injEq]
  constructor
  · rintro ⟨⟨rest, rfl⟩, same⟩
    simpa using same
  · rintro rfl
    exact ⟨List.suffix_append _ _, by simp⟩

theorem digit?_eq_some {d : Nat} : digit? c = some d ↔ c.isDigit = true ∧ c.toNat - '0'.toNat = d := by
  simp [digit?, Char.isDigit, Char.le_def]

theorem digits?_eq_some : digits? start cs = some n ↔
    (∀ c ∈ cs, c.isDigit = true) ∧ Nat.ofDigitChars 10 cs start = n := by
  induction cs generalizing start with
  | nil => simp [digits?]
  | cons c rest ih =>
    rw [digits?, Nat.ofDigitChars_cons, List.forall_mem_cons]
    cases found : digit? c with
    | none =>
      have : ¬ c.isDigit = true := fun digit => by
        simp [digit?_eq_some.mpr ⟨digit, rfl⟩] at found
      simp [this]
    | some d =>
      obtain ⟨digit, rfl⟩ := digit?_eq_some.mp found
      simp only [ih, digit, true_and]

theorem numeral?_eq_some : numeral? cs = some n ↔
    cs ≠ [] ∧ (∀ c ∈ cs, c.isDigit = true) ∧ Nat.ofDigitChars 10 cs 0 = n := by
  cases cs with
  | nil => simp [numeral?]
  | cons c rest => simp [numeral?, digits?_eq_some]

/-- Decimal digits that stand for a number; a plus sign may precede them. -/
def Numeral (cs : List Char) (n : Nat) : Prop :=
  ∃ digits, (cs = digits ∨ cs = '+' :: digits) ∧ digits ≠ [] ∧ (∀ c ∈ digits, c.isDigit = true) ∧
    Nat.ofDigitChars 10 digits 0 = n

theorem unsigned?_eq_some : unsigned? bound cs = some n ↔ n < bound ∧ Numeral cs n := by
  constructor
  · intro found
    unfold unsigned? at found
    dsimp only at found
    split at found
    · next k read =>
      obtain ⟨small, ⟨⟩⟩ := Option.ite_none_right_eq_some.mp found
      refine ⟨small, ?_⟩
      split at read
      · exact ⟨_, Or.inr rfl, numeral?_eq_some.mp read⟩
      · exact ⟨_, Or.inl rfl, numeral?_eq_some.mp read⟩
    · cases found
  · rintro ⟨small, digits, rfl | rfl, digital⟩
    · obtain ⟨c, rest, rfl⟩ := List.exists_cons_of_ne_nil digital.1
      have unsigned : c ≠ '+' := by
        rintro rfl
        exact absurd (digital.2.1 '+' List.mem_cons_self) (by decide)
      simp [unsigned?, unsigned, numeral?_eq_some.mpr digital, small]
    · simp [unsigned?, numeral?_eq_some.mpr digital, small]

theorem numeral_toString (n : Nat) : Numeral (toString n).toList n := by
  rw [Nat.toString_eq_repr, Nat.toList_repr]
  exact ⟨_, Or.inl rfl, Nat.toDigits_ne_nil,
    fun c member => Nat.isDigit_of_mem_toDigits (by decide) (by decide) member, Nat.ofDigitChars_ten_toDigits⟩

/-- A word with blanks around it. -/
def Padded (cs word : List Char) : Prop :=
  ∃ left right, (∀ c ∈ left, isBlank c = true) ∧ (∀ c ∈ right, isBlank c = true) ∧ cs = left ++ word ++ right

theorem padded_self (cs : List Char) : Padded cs cs := ⟨[], [], by simp, by simp, by simp⟩

theorem padded_trimChars (cs : List Char) : Padded cs (trimChars cs) := by
  have trailing : ∀ l : List Char, ∃ right, (∀ c ∈ right, isBlank c = true) ∧
      l = (l.reverse.dropWhile isBlank).reverse ++ right := by
    intro l
    refine ⟨(l.reverse.takeWhile isBlank).reverse, fun c member => ?_, ?_⟩
    · exact List.mem_takeWhile_imp (List.mem_reverse.mp member)
    · rw [← List.reverse_append, List.takeWhile_append_dropWhile, List.reverse_reverse]
  obtain ⟨right, blank, same⟩ := trailing (cs.dropWhile isBlank)
  refine ⟨cs.takeWhile isBlank, right, fun c member => List.mem_takeWhile_imp member, blank, ?_⟩
  rw [trimChars, List.append_assoc, ← same, List.takeWhile_append_dropWhile]

/-- No blank stands at either end. -/
def Trimmed (cs : List Char) : Prop :=
  (∀ c ∈ cs.head?, isBlank c = false) ∧ ∀ c ∈ cs.getLast?, isBlank c = false

instance (cs : List Char) : Decidable (Trimmed cs) :=
  decidable_of_iff (cs.head?.all (!isBlank ·) ∧ cs.getLast?.all (!isBlank ·))
    (by simp [Trimmed, Option.all_eq_true])

theorem dropWhile_blanks {blanks : List Char} (blank : ∀ c ∈ blanks, isBlank c = true)
    (first : ∀ c ∈ word.head?, isBlank c = false) : (blanks ++ word).dropWhile isBlank = word := by
  rw [List.dropWhile_append_of_pos blank]
  cases word with
  | nil => rfl
  | cons c rest => exact List.dropWhile_cons_of_neg (by simp [first c rfl])

theorem Trimmed.trimChars_eq (trimmed : Trimmed word) (padded : Padded cs word) : trimChars cs = word := by
  obtain ⟨left, right, blank, blank', rfl⟩ := padded
  rw [trimChars, List.append_assoc]
  cases word with
  | nil =>
    rw [List.nil_append, ← List.append_nil (left ++ right), dropWhile_blanks _ (by simp)]
    · rfl
    · exact List.forall_mem_append.mpr ⟨blank, blank'⟩
  | cons c rest =>
    rw [dropWhile_blanks blank (by simpa using trimmed.1), List.reverse_append,
      dropWhile_blanks (by simpa using blank') (by rw [List.head?_reverse]; exact trimmed.2), List.reverse_reverse]

theorem trimChars_eq_iff (solid : ∀ c ∈ word, isBlank c = false) : trimChars cs = word ↔ Padded cs word := by
  constructor
  · rintro rfl
    exact padded_trimChars cs
  · exact Trimmed.trimChars_eq ⟨fun c first => solid c (List.mem_of_mem_head? first),
      fun c last => solid c (List.mem_of_mem_getLast? last)⟩

theorem head_dropWhile (first : c ∈ (cs.dropWhile isBlank).head?) : isBlank c = false := by
  have solid := List.head?_dropWhile_not isBlank cs
  rwa [Option.mem_def.mp first] at solid

theorem trimmed_trimChars (cs : List Char) : Trimmed (trimChars cs) := by
  constructor
  · intro c first
    obtain ⟨rest, whole⟩ : trimChars cs <+: cs.dropWhile isBlank := List.rdropWhile_prefix isBlank _
    exact head_dropWhile (whole ▸ List.mem_head?_append_of_mem_head? first)
  · intro c last
    rw [trimChars, List.getLast?_reverse] at last
    exact head_dropWhile last

theorem trimmed_angles {s : String} (opened : s.toList.head? = some '<') : Trimmed (s ++ ">").toList := by
  rw [String.toList_append]
  constructor
  · intro c first
    rw [List.head?_append, opened] at first
    cases first
    decide
  · intro c last
    rw [List.getLast?_append] at last
    cases last
    decide

/-- Neither a blank nor a comma occurs in the text. -/
def Plain (s : String) : Prop := ∀ c ∈ s.toList, isBlank c = false ∧ c ≠ ','

instance (s : String) : Decidable (Plain s) :=
  decidable_of_iff (s.toList.all fun c => !isBlank c && c != ',') (by simp [Plain])

theorem mem_join {sep : String} {parts : List String} (member : c ∈ (join sep parts).toList) :
    c ∈ sep.toList ∨ ∃ part ∈ parts, c ∈ part.toList := by
  induction parts with
  | nil => simp [join] at member
  | cons part rest ih =>
    cases rest with
    | nil => exact Or.inr ⟨part, by simp, member⟩
    | cons next others =>
      simp only [join, String.toList_append, List.mem_append] at member
      rcases member with (here | between) | later
      · exact Or.inr ⟨part, by simp, here⟩
      · exact Or.inl between
      · rcases ih later with between | ⟨other, listed, inside⟩
        · exact Or.inl between
        · exact Or.inr ⟨other, List.mem_cons_of_mem _ listed, inside⟩

end PointsTo.Text
