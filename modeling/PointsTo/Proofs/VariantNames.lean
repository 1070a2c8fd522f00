import PointsTo.Context.Spec
import PointsTo.Proofs.Text
import PointsTo.Proofs.Truncation

/-!
Names of context sensitivity variants. The names that are documented are read as the variants that they stand
for. Other texts are refused, but for a bound of zero before a word that is no kind: the bound is read before
the kind, and zero decides alone.
-/
namespace PointsTo

namespace ContextSpec

variable {s word : String} {digits : List Char} {k : Nat} {spec : ContextSpec}

/-- The words for the kinds of contexts. -/
def kinds : List (String × ContextKind) :=
  [("call", .callSite), ("cfa", .callSite), ("obj", .object), ("type", .type)]

/-- The documented names and the variants that they stand for. -/
inductive Names : String → ContextSpec → Prop
  | ci : Names "ci" .insensitive
  | bounded {digits : List Char} {k : Nat} {word : String} {kind : ContextKind} (numeral : Text.Numeral digits k)
    (small : k < Text.wordBound) (known : (word, kind) ∈ kinds) :
    Names (String.ofList digits ++ "-" ++ word) (kind.spec k)

/-- A bound of zero before a word that is no kind. -/
def Idle (s : String) : Prop :=
  ∃ digits word, s = String.ofList digits ++ "-" ++ word ∧ Text.Numeral digits 0 ∧ ∀ kind, (word, kind) ∉ kinds

theorem toList_bounded (digits : List Char) (word : String) :
    (String.ofList digits ++ "-" ++ word).toList = digits ++ '-' :: word.toList := by
  simp

theorem splitFirst?_bounded (numeral : Text.Numeral digits k) (word : String) :
    Text.splitFirst? '-' (String.ofList digits ++ "-" ++ word).toList = some (digits, word.toList) := by
  refine Text.splitFirst?_eq_some.mpr ⟨toList_bounded digits word, fun member => ?_⟩
  obtain ⟨figures, signed, _, digital, _⟩ := numeral
  have figure : '-' ∈ figures := by
    rcases signed with rfl | rfl
    · exact member
    · exact (List.mem_cons.mp member).resolve_left (by decide)
  exact absurd (digital '-' figure) (by decide)

theorem ofKind?_eq_some :
    ofKind? (k + 1) word = some spec ↔ ∃ kind, (word, kind) ∈ kinds ∧ spec = kind.spec (k + 1) := by
  unfold ofKind? kinds
  constructor
  · intro found
    split at found
    · next same =>
      cases found
      exact ⟨.callSite, by rcases same with rfl | rfl <;> simp, rfl⟩
    · split at found
      · next same =>
        cases found
        exact ⟨.object, by simp [same], rfl⟩
      · obtain ⟨rfl, same⟩ := Option.ite_none_right_eq_some.mp found
        exact ⟨.type, by simp, (Option.some.inj same).symm⟩
  · rintro ⟨kind, known, rfl⟩
    simp only [List.mem_cons, Prod.mk.injEq, List.not_mem_nil, or_false] at known
    rcases known with ⟨rfl, rfl⟩ | ⟨rfl, rfl⟩ | ⟨rfl, rfl⟩ | ⟨rfl, rfl⟩ <;> rfl

theorem parse?_bounded (numeral : Text.Numeral digits k) (small : k < Text.wordBound) (word : String) :
    parse? (String.ofList digits ++ "-" ++ word) =
      if k = 0 then some .insensitive else ofKind? k word := by
  have marked : String.ofList digits ++ "-" ++ word ≠ "ci" := by
    intro same
    have chars := congrArg String.toList same
    rw [toList_bounded] at chars
    have member : '-' ∈ "ci".toList := by rw [← chars]; simp
    revert member
    decide
  unfold parse?
  rw [if_neg marked, splitFirst?_bounded numeral]
  simp only [Text.unsigned?_eq_some.mpr ⟨small, numeral⟩, String.ofList_toList]
  cases k <;> rfl

/-- What is accepted: the documented names, and any word after a bound of zero. -/
theorem parse?_eq_some : parse? s = some spec ↔ Names s spec ∨ Idle s ∧ spec = .insensitive := by
  constructor
  · intro read
    unfold parse? at read
    split at read
    · next same =>
      cases read
      exact Or.inl (same ▸ .ci)
    · split at read
      · cases read
      · next bound kind cut =>
        have whole : s = String.ofList bound ++ "-" ++ String.ofList kind := by
          rw [← String.toList_inj, toList_bounded, String.toList_ofList]
          exact (Text.splitFirst?_eq_some.mp cut).1
        subst whole
        split at read
        · cases read
        · next zero =>
          cases read
          obtain ⟨small, numeral⟩ := Text.unsigned?_eq_some.mp zero
          by_cases known : ∃ kind', (String.ofList kind, kind') ∈ kinds
          · obtain ⟨kind', known⟩ := known
            exact Or.inl (.bounded numeral small known)
          · exact Or.inr ⟨⟨_, _, rfl, numeral, not_exists.mp known⟩, rfl⟩
        · next k positive number =>
          obtain ⟨small, numeral⟩ := Text.unsigned?_eq_some.mp number
          obtain ⟨j, rfl⟩ := Nat.exists_eq_succ_of_ne_zero positive
          obtain ⟨kind', known, rfl⟩ := ofKind?_eq_some.mp read
          exact Or.inl (.bounded numeral small known)
  · rintro (named | ⟨⟨digits, word, rfl, numeral, _⟩, rfl⟩)
    · cases named with
      | ci => rfl
      | @bounded digits k word kind numeral small known =>
        rw [parse?_bounded numeral small]
        cases k with
        | zero => rfl
        | succ k => exact ofKind?_eq_some.mpr ⟨kind, known, rfl⟩
    · exact parse?_bounded numeral (by decide) word

theorem Idle.not_names (idle : Idle s) : ¬ Names s spec := by
  obtain ⟨digits, word, rfl, numeral, unknown⟩ := idle
  generalize whole : String.ofList digits ++ "-" ++ word = s
  intro named
  have cut := whole ▸ splitFirst?_bounded numeral word
  cases named with
  | ci => cases cut
  | bounded numeral' _ known =>
    rw [splitFirst?_bounded numeral'] at cut
    cases String.toList_inj.mp (Prod.mk.inj (Option.some.inj cut)).2
    exact unknown _ known

/-- The text is read as it is documented: as what it names, and refused by its own text if it names nothing. -/
def AsDocumented (s : String) : Prop :=
  (∀ spec, parse s = .ok spec ↔ Names s spec) ∧
  ∀ e, parse s = .error e ↔ e = .unknownSelector s ∧ ∀ spec, ¬ Names s spec

/-- All texts but the idle ones are read as documented; those name nothing, but are read as the insensitive
variant. -/
theorem variants_documented (s : String) :
    (AsDocumented s ↔ ¬ Idle s) ∧
    (Idle s ↔ parse s = .ok .insensitive ∧ ∀ spec, ¬ Names s spec) := by
  have accepted : ∀ spec, parse s = .ok spec ↔ parse? s = some spec := by
    intro spec
    unfold parse
    cases parse? s <;> simp
  have refused : ∀ e, parse s = .error e ↔ e = .unknownSelector s ∧ ∀ spec, parse? s ≠ some spec := by
    intro e
    unfold parse
    cases parse? s <;> simp [eq_comm]
  have idle : Idle s → parse s = .ok .insensitive :=
    fun idle => (accepted _).mpr (parse?_eq_some.mpr (Or.inr ⟨idle, rfl⟩))
  refine ⟨⟨fun documented vain => ?_, fun sound => ?_⟩, fun vain => ⟨idle vain, fun _ => vain.not_names⟩, ?_⟩
  · exact vain.not_names ((documented.1 _).mp (idle vain))
  · have named : ∀ spec, parse? s = some spec ↔ Names s spec := by simp [parse?_eq_some, sound]
    exact ⟨fun spec => (accepted spec).trans (named spec), by simpa [named] using refused⟩
  · rintro ⟨read, unnamed⟩
    exact ((parse?_eq_some.mp ((accepted _).mp read)).resolve_left (unnamed _)).1

theorem heap_undocumented : parse "0-heap" = .ok .insensitive ∧ ∀ spec, ¬ Names "0-heap" spec := by
  have idle : Idle "0-heap" := ⟨['0'], "heap", rfl, ⟨['0'], by simp [Nat.ofDigitChars]⟩, by simp [kinds]⟩
  exact ⟨rfl, fun spec => idle.not_names⟩

end ContextSpec

end PointsTo
