import PointsTo.Program.Builder
import PointsTo.Proofs.Initialization
import PointsTo.Proofs.Text
import PointsTo.Taint.Index

/-!
Index references are read exactly: a reference that is read is well formed for its method, every well-
formed reference is read from its spelling, and any other text is refused with the text and the
signature of the method.
-/
namespace PointsTo

namespace Program

variable {p : Program} {c d : ClassId} {name : String} {f g : FieldId}

def FieldNamed (p : Program) (name : String) (f : FieldId) : Prop :=
  ∃ decl, p.fields[f]? = some decl ∧ decl.name = name

/-- The first field of a name that a class itself lists. -/
def OwnField (p : Program) (name : String) (c : ClassId) (f : FieldId) : Prop :=
  ∃ decl before after, p.classes[c]? = some decl ∧ decl.fields = before ++ f :: after ∧ p.FieldNamed name f ∧
    ∀ g ∈ before, ¬ p.FieldNamed name g

/-- The field of a name that is found first on the way up from a class. -/
inductive HasField (p : Program) (name : String) : ClassId → FieldId → Prop
  | own {c : ClassId} {f : FieldId} (lists : p.OwnField name c f) : HasField p name c f
  | inherited {c d : ClassId} {f : FieldId} (none : ∀ g, ¬ p.OwnField name c g)
      (above : p.superclass? c = some d) (has : HasField p name d f) : HasField p name c f

def ownField? (p : Program) (name : String) (c : ClassId) : Option FieldId :=
  (p.classes[c]?).bind fun e => e.fields.find? fun f => (p.fields[f]?).any fun g => g.name == name

theorem lookupField?_eq (p : Program) (c : ClassId) (name : String) :
    p.lookupField? c name = (p.superclasses c).findSome? (p.ownField? name) := by
  unfold lookupField?
  congr 1
  funext d
  unfold ownField?
  cases p.classes[d]? with
  | none => rfl
  | some e =>
    refine congrArg (fun test => e.fields.find? test) (funext fun f => ?_)
    cases p.fields[f]? <;> rfl

theorem ownField?_eq_some : p.ownField? name c = some f ↔ p.OwnField name c f := by
  have named : ∀ g, (p.fields[g]?).any (fun decl => decl.name == name) = true ↔ p.FieldNamed name g := by
    intro g
    simp [Option.any_eq_true, FieldNamed]
  unfold ownField? OwnField
  rw [Option.bind_eq_some_iff]
  refine exists_congr fun decl => ?_
  simp only [List.find?_eq_some_iff_append, Bool.not_eq_true', ← Bool.not_eq_true, named]
  constructor
  · rintro ⟨known, first, before, after, lists, others⟩
    exact ⟨before, after, known, lists, first, others⟩
  · rintro ⟨before, after, known, lists, first, others⟩
    exact ⟨known, first, before, after, lists, others⟩

theorem ownField?_eq_none : p.ownField? name c = none ↔ ∀ g, ¬ p.OwnField name c g := by
  simp only [← ownField?_eq_some, Option.eq_none_iff_forall_ne_some]

theorem HasField.unique (first : p.HasField name c f) (second : p.HasField name c g) : f = g := by
  induction first with
  | own lists =>
    cases second with
    | own lists' =>
      exact Option.some.inj ((ownField?_eq_some.mpr lists).symm.trans (ownField?_eq_some.mpr lists'))
    | inherited none _ _ => exact absurd lists (none _)
  | inherited none above _ ih =>
    cases second with
    | own lists => exact absurd lists (none _)
    | inherited _ above' has =>
      cases above.symm.trans above'
      exact ih has

theorem FieldNamed.unique {name' : String} (first : p.FieldNamed name f) (second : p.FieldNamed name' f) :
    name = name' := by
  obtain ⟨decl, known, rfl⟩ := first
  obtain ⟨decl', known', rfl⟩ := second
  cases known.symm.trans known'
  rfl

theorem HasField.owner (has : p.HasField name c f) : ∃ k d, p.climb? k c = some d ∧ p.OwnField name d f := by
  induction has with
  | own lists => exact ⟨0, _, rfl, lists⟩
  | inherited _ above _ ih =>
    obtain ⟨k, d, climbs, lists⟩ := ih
    exact ⟨k + 1, d, by rw [climb?, above]; exact climbs, lists⟩

theorem HasField.named (has : p.HasField name c f) : p.FieldNamed name f := by
  obtain ⟨_, _, _, _, _, _, _, _, named, _⟩ := has.owner
  exact named

theorem hasField_of_superChain {n : Nat} (found : (p.superChain n c).findSome? (p.ownField? name) = some f) :
    p.HasField name c f := by
  induction n generalizing c with
  | zero => cases found
  | succ n ih =>
    rw [superChain, List.findSome?_cons] at found
    cases own : p.ownField? name c with
    | some g =>
      rw [own] at found
      cases found
      exact .own (ownField?_eq_some.mp own)
    | none =>
      rw [own] at found
      cases above : p.superclass? c with
      | none => simp [above] at found
      | some d =>
        rw [above] at found
        exact .inherited (ownField?_eq_none.mp own) above (ih found)

theorem lookupField?_eq_some : p.lookupField? c name = some f ↔ p.HasField name c f := by
  rw [lookupField?_eq]
  refine ⟨hasField_of_superChain, fun has => ?_⟩
  -- the class that has the field is among the superclasses, so something is found; and there is one such field
  obtain ⟨k, d, climbs, lists⟩ := has.owner
  have inside : d < p.classes.size := by
    obtain ⟨decl, _, _, known, _⟩ := lists
    exact (Array.getElem?_eq_some_iff.mp known).1
  have listed : d ∈ p.superclasses c := mem_superChain.mpr (climb?_bounded climbs inside)
  cases found : (p.superclasses c).findSome? (p.ownField? name) with
  | none =>
    cases (List.findSome?_eq_none_iff.mp found d listed).symm.trans (ownField?_eq_some.mpr lists)
  | some g => rw [(hasField_of_superChain found).unique has]

end Program

namespace Index

variable {p : Program} {m : MethodId} {decl : MethodDecl} {i : Index} {t : Ty} {word text : List Char}

/-- The method has such a place. The position of an argument is a machine word. -/
def Fits (decl : MethodDecl) : Index → Prop
  | base => decl.flags.isStatic = false
  | result => decl.ret ≠ .void
  | arg i => i < decl.params.length ∧ i < Text.wordBound

inductive HasTy (decl : MethodDecl) : Index → Ty → Prop
  | base : HasTy decl base (.cls decl.owner)
  | result : HasTy decl result decl.ret
  | arg {i : Nat} {t : Ty} (declares : decl.params[i]? = some t) : HasTy decl (arg i) t

theorem HasTy.ty_eq (has : i.HasTy decl t) (known : p.methods[m]? = some decl) : i.ty p m = t := by
  cases has with
  | base => simp [ty, known]
  | result => simp [ty, known]
  | arg declares => simp [ty, known, declares]

theorem Fits.hasTy (fits : i.Fits decl) (known : p.methods[m]? = some decl) : i.HasTy decl (i.ty p m) := by
  have some : ∃ t, i.HasTy decl t := by
    cases i with
    | base => exact ⟨_, .base⟩
    | result => exact ⟨_, .result⟩
    | arg i => exact ⟨_, .arg (List.getElem?_eq_getElem fits.1)⟩
  obtain ⟨t, has⟩ := some
  exact (has.ty_eq known).symm ▸ has

def Word : Index → List Char → Prop
  | base, word => word = "this".toList ∨ word = "base".toList
  | result, word => word = "result".toList
  | arg i, word => Text.Numeral word i

theorem word_text (i : Index) : i.Word i.text.toList := by
  cases i with
  | base => exact Or.inr rfl
  | result => exact rfl
  | arg i => exact Text.numeral_toString i

theorem Word.plain (spelled : i.Word word) :
    ∀ c ∈ word, Text.isBlank c = false ∧ c ≠ '.' ∧ c ≠ ']' := by
  cases i with
  | base => rcases spelled with rfl | rfl <;> simp [Text.isBlank]
  | result =>
    cases (show word = _ from spelled)
    simp [Text.isBlank]
  | arg i =>
    obtain ⟨digits, signed, _, digital, _⟩ := spelled
    have digit : ∀ c : Char, c.isDigit = true → Text.isBlank c = false ∧ c ≠ '.' ∧ c ≠ ']' := by
      intro c digit
      have bounds : 48 ≤ c.toNat ∧ c.toNat ≤ 57 := by
        simpa [Char.isDigit, UInt32.le_iff_toNat_le] using digit
      refine ⟨?_, ?_, ?_⟩
      · simp only [Text.isBlank]
        grind
      · rintro rfl
        exact absurd digit (by decide)
      · rintro rfl
        exact absurd digit (by decide)
    rcases signed with rfl | rfl
    · exact fun c member => digit c (digital c member)
    · exact List.forall_mem_cons.mpr ⟨by decide, fun c member => digit c (digital c member)⟩

theorem Word.unmarked {before : List Char} (spelled : i.Word word) (padded : Text.Padded before word) :
    ∀ c ∈ before, c ≠ '.' ∧ c ≠ ']' := by
  obtain ⟨left, right, blank, blank', rfl⟩ := padded
  have space : ∀ c, Text.isBlank c = true → c ≠ '.' ∧ c ≠ ']' := by
    intro c blank
    constructor
    · rintro rfl
      exact absurd blank (by decide)
    · rintro rfl
      exact absurd blank (by decide)
  refine List.forall_mem_append.mpr ⟨List.forall_mem_append.mpr ⟨fun c member => space c (blank c member), ?_⟩,
    fun c member => space c (blank' c member)⟩
  exact fun c member => (spelled.plain c member).2

theorem not_numeral {n : Nat} (unread : Text.unsigned? (n + 1) word = none) : ¬ Text.Numeral word n := by
  intro numeral
  cases unread.symm.trans (Text.unsigned?_eq_some.mpr ⟨Nat.lt_succ_self n, numeral⟩)

theorem readIndex_eq_ok :
    IndexRef.readIndex decl text = .ok i ↔ i.Fits decl ∧ i.Word (Text.trimChars text) := by
  unfold IndexRef.readIndex
  dsimp only
  generalize Text.trimChars text = word
  constructor
  · intro read
    split at read
    · next receiver =>
      split at read
      · cases read
      · next dynamic =>
        cases read
        exact ⟨Bool.eq_false_iff.mpr dynamic, receiver⟩
    · split at read
      · next answer =>
        split at read
        · cases read
        · next returns =>
          cases read
          exact ⟨returns, answer⟩
      · split at read
        · cases read
        · next n found =>
          obtain ⟨bound, numeral⟩ := Text.unsigned?_eq_some.mp found
          split at read
          · next small =>
            cases read
            exact ⟨⟨small, bound⟩, numeral⟩
          · cases read
  · rintro ⟨fits, spelled⟩
    cases i with
    | base =>
      have receiver : word = "this".toList ∨ word = "base".toList := spelled
      rw [if_pos receiver, if_neg (Bool.eq_false_iff.mp fits)]
    | result =>
      cases (show word = _ from spelled)
      rw [if_neg (by decide), if_pos rfl, if_neg fits]
    | arg n =>
      have receiver : ¬ (word = "this".toList ∨ word = "base".toList) := by
        rintro (rfl | rfl)
        · exact not_numeral rfl spelled
        · exact not_numeral rfl spelled
      have answer : word ≠ "result".toList := by
        rintro rfl
        exact not_numeral rfl spelled
      rw [if_neg receiver, if_neg answer, Text.unsigned?_eq_some.mpr ⟨fits.2, spelled⟩]
      exact if_pos fits.1

end Index

namespace IndexRef

variable {p : Program} {m : MethodId} {decl : MethodDecl} {r : IndexRef} {kind : IndexKind}
  {before text : List Char} {suffix : Suffix} {t : String}

/-- What is written for a suffix. -/
def Suffix.chars : Suffix → List Char
  | none => []
  | array => "[*]".toList
  | field name => '.' :: name

/-- A field name is told from elements by its end. -/
def Suffix.Clear : Suffix → Prop
  | field name => ¬ "[*]".toList <:+ name
  | _ => True

theorem suffix_of_field {name : List Char} (ends : "[*]".toList <:+ before ++ '.' :: name) :
    "[*]".toList <:+ name := by
  rcases List.suffix_or_suffix_of_suffix ends (List.suffix_append before ('.' :: name)) with short | long
  · rcases List.suffix_cons_iff.mp short with same | inside
    · cases same
    · exact inside
  · exact absurd (long.subset List.mem_cons_self) (by decide)

theorem cut_parts (text : List Char) : text = (cut text).1 ++ (cut text).2.chars ∧ (cut text).2.Clear := by
  unfold cut
  split
  · next before found => exact ⟨Text.dropSuffix?_eq_some.mp found, trivial⟩
  · next unmarked =>
    split
    · next before name found =>
      obtain ⟨rfl, _⟩ := Text.splitFirst?_eq_some.mp found
      refine ⟨rfl, fun ends => Text.dropSuffix?_eq_none.mp unmarked (ends.trans ?_)⟩
      exact List.suffix_append_of_suffix (List.suffix_cons _ _)
    · exact ⟨(List.append_nil _).symm, trivial⟩

theorem cut_append (plain : ∀ c ∈ before, c ≠ '.' ∧ c ≠ ']') (clear : suffix.Clear) :
    cut (before ++ suffix.chars) = (before, suffix) := by
  have point : '.' ∉ before := fun member => (plain _ member).1 rfl
  unfold cut
  cases suffix with
  | array =>
    rw [show Text.dropSuffix? ['[', '*', ']'] (before ++ Suffix.array.chars) = some before from
      Text.dropSuffix?_eq_some.mpr rfl]
  | field name =>
    rw [show Text.dropSuffix? ['[', '*', ']'] (before ++ (Suffix.field name).chars) = none from
      Text.dropSuffix?_eq_none.mpr fun ends => clear (suffix_of_field ends)]
    dsimp only
    rw [show Text.splitFirst? '.' (before ++ (Suffix.field name).chars) = some (before, name) from
      Text.splitFirst?_eq_some.mpr ⟨rfl, point⟩]
  | none =>
    have whole : before ++ Suffix.none.chars = before := List.append_nil _
    rw [whole, Text.dropSuffix?_eq_none.mpr fun ends => (plain _ (ends.subset (by decide))).2 rfl]
    dsimp only
    rw [Text.splitFirst?_eq_none.mpr point]

/-- The place exists, and it has elements or the field. -/
inductive WellFormed (p : Program) (decl : MethodDecl) : IndexRef → Prop
  | var {i : Index} (fits : i.Fits decl) : WellFormed p decl ⟨i, .var⟩
  | array {i : Index} {elem : Ty} (fits : i.Fits decl) (has : i.HasTy decl (.array elem)) :
      WellFormed p decl ⟨i, .array⟩
  | field {i : Index} {c : ClassId} {f : FieldId} {name : String} (fits : i.Fits decl)
      (has : i.HasTy decl (.cls c)) (found : p.HasField name c f) : WellFormed p decl ⟨i, .field f⟩

/-- The type of the values at a reference, read off what the program declares. -/
inductive HasTy (p : Program) (decl : MethodDecl) : IndexRef → Ty → Prop
  | var {i : Index} {t : Ty} (has : i.HasTy decl t) : HasTy p decl ⟨i, .var⟩ t
  | array {i : Index} {elem : Ty} (has : i.HasTy decl (.array elem)) : HasTy p decl ⟨i, .array⟩ elem
  | field {i : Index} {c : ClassId} {f : FieldId} {field : FieldDecl} (has : i.HasTy decl (.cls c))
      (known : p.fields[f]? = some field) : HasTy p decl ⟨i, .field f⟩ field.ty

/-- The suffix that stands for a kind. -/
inductive Suffix.Stands (p : Program) : Suffix → IndexKind → Prop
  | var : Stands p .none .var
  | array : Stands p .array .array
  | field {name : String} {f : FieldId} (named : p.FieldNamed name f) : Stands p (.field name.toList) (.field f)

/-- The texts for a reference: a word for the place, with blanks around it, and the suffix. -/
def Spelling (p : Program) (r : IndexRef) (text : List Char) : Prop :=
  ∃ (before word : List Char) (suffix : Suffix), text = before ++ suffix.chars ∧ Text.Padded before word ∧
    r.index.Word word ∧ suffix.Stands p r.kind ∧ suffix.Clear

theorem readKind_eq_ok {i : Index} (known : p.methods[m]? = some decl) (fits : i.Fits decl) :
    readKind p (i.ty p m) suffix = .ok kind ↔ WellFormed p decl ⟨i, kind⟩ ∧ suffix.Stands p kind := by
  have typed := fits.hasTy known
  constructor
  · intro read
    unfold readKind at read
    split at read
    · cases read
      exact ⟨.var fits, .var⟩
    · split at read
      · next elem same =>
        cases read
        exact ⟨.array fits (same ▸ typed), .array⟩
      · cases read
    · next name =>
      split at read
      · next f found =>
        cases read
        obtain ⟨c, same, found⟩ := Option.bind_eq_some_iff.mp found
        have has := Program.lookupField?_eq_some.mp found
        have stands := Suffix.Stands.field has.named
        rw [String.toList_ofList] at stands
        cases type : i.ty p m with
        | cls d =>
          rw [type] at same typed
          cases same
          exact ⟨.field fits typed has, stands⟩
        | _ =>
          rw [type] at same
          cases same
      · cases read
  · rintro ⟨formed, stands⟩
    cases stands with
    | var => rfl
    | array =>
      cases formed with
      | array _ has => rw [has.ty_eq known]; rfl
    | field named =>
      cases formed with
      | field _ has found =>
        obtain rfl := found.named.unique named
        simp [readKind, has.ty_eq known, Ty.class?, Program.lookupField?_eq_some.mpr found]

theorem read_eq_ok : read p m text = .ok r ↔
    ∃ decl, p.methods[m]? = some decl ∧ r.WellFormed p decl ∧ r.Spelling p text := by
  constructor
  · intro done
    obtain ⟨whole, clear⟩ := cut_parts text
    unfold read at done
    cases known : p.methods[m]? with
    | none => simp [known] at done
    | some decl =>
      cases place : readIndex decl (cut text).1 with
      | error e => simp [known, place, bind, Except.bind] at done
      | ok i =>
        cases part : readKind p (i.ty p m) (cut text).2 with
        | error e => simp [known, place, part, bind, Except.bind] at done
        | ok kind =>
          simp only [known, place, part, bind, Except.bind] at done
          cases done
          obtain ⟨fits, word⟩ := Index.readIndex_eq_ok.mp place
          obtain ⟨formed, stands⟩ := (readKind_eq_ok known fits).mp part
          exact ⟨decl, rfl, formed, _, _, _, whole, Text.padded_trimChars _, word, stands, clear⟩
  · rintro ⟨decl, known, formed, before, word, suffix, rfl, padded, spelled, stands, clear⟩
    have fits : r.index.Fits decl := by cases formed <;> assumption
    have trimmed := (Text.trimChars_eq_iff fun c member => (spelled.plain c member).1).mpr padded
    have place := Index.readIndex_eq_ok.mpr ⟨fits, trimmed.symm ▸ spelled⟩
    have part := (readKind_eq_ok known fits).mpr ⟨formed, stands⟩
    simp only [read, known, cut_append (spelled.unmarked padded) clear, place, part, bind, Except.bind]

theorem WellFormed.hasTy (formed : r.WellFormed p decl) (known : p.methods[m]? = some decl) :
    r.HasTy p decl (r.valueTy p m) := by
  cases formed with
  | var fits => exact .var (fits.hasTy known)
  | array fits has =>
    have elem := HasTy.array (p := p) has
    simpa [valueTy, has.ty_eq known, Ty.elem?] using elem
  | field fits has found =>
    obtain ⟨field, declared, _⟩ := found.named
    have own := HasTy.field has declared
    simpa [valueTy, declared] using own

/-- The canonical spelling of a reference; a field whose name ends like elements has none. -/
inductive Canonical (p : Program) : IndexRef → String → Prop
  | var {i : Index} : Canonical p ⟨i, .var⟩ (IndexRef.text ⟨i, .var⟩)
  | array {i : Index} : Canonical p ⟨i, .array⟩ (IndexRef.text ⟨i, .array⟩)
  | field {i : Index} {f : FieldId} {name : String} (named : p.FieldNamed name f)
      (clear : ¬ "[*]".toList <:+ name.toList) : Canonical p ⟨i, .field f⟩ (i.text ++ "." ++ name)

theorem Canonical.spelling (canonical : r.Canonical p t) : r.Spelling p t.toList := by
  have place : ∀ i : Index, Text.Padded i.text.toList i.text.toList := fun i => Text.padded_self _
  cases canonical with
  | var => exact ⟨_, _, .none, (List.append_nil _).symm, place _, Index.word_text _, .var, trivial⟩
  | array => exact ⟨_, _, .array, String.toList_append, place _, Index.word_text _, .array, trivial⟩
  | field named clear =>
    refine ⟨_, _, .field _, ?_, place _, Index.word_text _, .field named, clear⟩
    rw [String.toList_append, String.toList_append, List.append_assoc]
    rfl

theorem parse_eq_ok : parse p m t = .ok r ↔
    ∃ decl, p.methods[m]? = some decl ∧ r.WellFormed p decl ∧ r.Spelling p t.toList := by
  rw [← read_eq_ok, parse]
  cases read p m t.toList <;> simp [Except.mapError]

/-- Index references are read exactly: what is read is what is spelled and well formed for the method, its value
has a declared type, every canonical spelling of a well-formed reference is read, and all else is refused with
the text and the signature of the method. -/
theorem parse_exact (p : Program) (m : MethodId) (t : String) :
    (∀ r, parse p m t = .ok r ↔
      ∃ decl, p.methods[m]? = some decl ∧ r.WellFormed p decl ∧ r.Spelling p t.toList) ∧
    (∀ r, parse p m t = .ok r → ∃ decl, p.methods[m]? = some decl ∧ r.HasTy p decl (r.valueTy p m)) ∧
    (∀ decl r, p.methods[m]? = some decl → r.WellFormed p decl → r.Canonical p t → parse p m t = .ok r) ∧
    ∀ e, parse p m t = .error e → ∃ reason, e = .invalidIndex t (p.methodSignature m) reason := by
  refine ⟨fun r => parse_eq_ok, fun r done => ?_, fun decl r known formed canonical => ?_, fun e refused => ?_⟩
  · obtain ⟨decl, known, formed, _⟩ := parse_eq_ok.mp done
    exact ⟨decl, known, formed.hasTy known⟩
  · exact parse_eq_ok.mpr ⟨decl, known, formed, canonical.spelling⟩
  · unfold parse at refused
    cases reading : read p m t.toList with
    | ok r => simp [reading, Except.mapError] at refused
    | error reason =>
      rw [reading] at refused
      cases refused
      exact ⟨reason, rfl⟩

end IndexRef

/-- A holder of strings, and a method that takes an array of strings and a special holder. -/
def holder : Program :=
  let p : Program := {}
  let p := p.addClass "Object" none
  let p := p.addClass "String" (some 0)
  let p := p.addClass "Holder" (some 0)
  let p := p.addClass "SubHolder" (some 2)
  let p := p.addField 2 "value" (.cls 1) false
  p.addMethod 2 "put" [.array (.cls 1), .cls 3] (.cls 1) ⟨false, false, false⟩

namespace IndexRef

/-- The field of a special holder is that of all holders, and a special holder has no elements. -/
theorem holder_parse_exact :
    parse holder 0 "1.value" = .ok ⟨.arg 1, .field 0⟩ ∧
    (parse holder 0 " +00[*]" = .ok ⟨.arg 0, .array⟩ ∧
      ∃ decl, holder.methods[0]? = some decl ∧ HasTy holder decl ⟨.arg 0, .array⟩ (.cls 1)) ∧
    ∃ e reason, parse holder 0 "1[*]" = .error e ∧
      e = .invalidIndex "1[*]" "<Holder: String put(String[],SubHolder)>" reason := by
  refine ⟨?_, ?_, ?_⟩
  · have inherited : holder.HasField "value" 3 0 := Program.lookupField?_eq_some.mp (by decide)
    have formed : WellFormed holder (holder.methods[0]) ⟨.arg 1, .field 0⟩ :=
      .field ⟨by decide, by decide⟩ (.arg rfl) inherited
    exact (parse_exact holder 0 "1.value").2.2.1 _ _ rfl formed (.field inherited.named (by decide))
  · have done : parse holder 0 " +00[*]" = .ok ⟨.arg 0, .array⟩ := by decide
    exact ⟨done, (parse_exact holder 0 " +00[*]").2.1 _ done⟩
  · have refused : parse holder 0 "1[*]" = .error (.invalidIndex "1[*]"
        "<Holder: String put(String[],SubHolder)>" "[*] needs an array, found SubHolder") := by decide
    obtain ⟨reason, same⟩ := (parse_exact holder 0 "1[*]").2.2.2 _ refused
    exact ⟨_, reason, refused, same⟩

end IndexRef

end PointsTo
