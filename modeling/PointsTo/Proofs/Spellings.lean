import PointsTo.Proofs.InitOrder
import PointsTo.Proofs.LibraryCalls
import PointsTo.Proofs.References

/-!
Spellings of types and members. A type is read from its name and a member is found by its signature, as
long as those are told apart. A lookup drops one blank after a comma and no more, so wider gaps are not
found.
-/
namespace PointsTo

variable {α : Type u}

section Commas

open Text (isBlank Trimmed)

variable {cs sig word : List Char} {c : Char}

theorem head?_normalizeChars (cs : List Char) : (normalizeChars cs).head? = cs.head? := by
  fun_cases normalizeChars cs <;> rfl

theorem length_normalizeChars_le (cs : List Char) : (normalizeChars cs).length ≤ cs.length := by
  fun_induction normalizeChars cs with
  | case1 rest ih => simp only [List.length_cons]; omega
  | case2 c rest _ ih => simpa using ih
  | case3 => exact Nat.le_refl 0

theorem singleton_prefix : [c] <+: cs ↔ cs.head? = some c := by
  cases cs with
  | nil => simp
  | cons d rest => simp [List.cons_prefix_cons, eq_comm]

/-- A comma has lost one blank: what follows it now came after a blank, or was no blank. -/
theorem comma_normalizeChars :
    [',', c] <:+: normalizeChars cs ↔ [',', ' ', c] <:+: cs ∨ c ≠ ' ' ∧ [',', c] <:+: cs := by
  fun_induction normalizeChars cs with
  | case1 rest ih =>
    simp only [List.infix_cons_iff, List.cons_prefix_cons, singleton_prefix, head?_normalizeChars, ih]
    grind
  | case2 d rest other ih =>
    have unspaced : d = ',' → rest.head? ≠ some ' ' := by
      rintro rfl first
      obtain ⟨after, rfl⟩ := List.head?_eq_some_iff.mp first
      exact other after rfl rfl
    have spaced : [' ', c] <+: rest → rest.head? = some ' ' := by
      rintro ⟨_, rfl⟩
      rfl
    simp only [List.infix_cons_iff, List.cons_prefix_cons, singleton_prefix, head?_normalizeChars, ih]
    grind
  | case3 => simp

theorem normalizeChars_eq_self : normalizeChars cs = cs ↔ ¬ [',', ' '] <:+: cs := by
  fun_induction normalizeChars cs with
  | case1 rest ih =>
    have shorter := length_normalizeChars_le rest
    refine iff_of_false (fun same => ?_) (not_not_intro ⟨[], rest, rfl⟩)
    have := congrArg List.length same
    simp only [List.length_cons] at this
    omega
  | case2 d rest other ih =>
    have unspaced : ¬ [',', ' '] <+: d :: rest := by
      rintro ⟨after, same⟩
      cases same
      exact other after rfl rfl
    rw [List.cons_inj_right, ih, List.infix_cons_iff]
    simp [unspaced]
  | case3 => simp

theorem normalizeChars_snoc (solid : c ≠ ' ') (cs : List Char) :
    normalizeChars (cs ++ [c]) = normalizeChars cs ++ [c] := by
  fun_induction normalizeChars cs with
  | case1 rest ih => rw [List.cons_append, List.cons_append, normalizeChars, ih]; rfl
  | case2 d rest other ih =>
    rw [List.cons_append, normalizeChars, ih]
    · rfl
    · rintro after rfl same
      cases rest with
      | nil =>
        cases same
        exact solid rfl
      | cons e others =>
        cases same
        exact other others rfl rfl
  | case3 => simp [normalizeChars]

theorem normalizeChars_trimmed (trimmed : Trimmed cs) : Trimmed (normalizeChars cs) := by
  refine ⟨fun c first => trimmed.1 c (head?_normalizeChars cs ▸ first), ?_⟩
  cases cs using List.reverseRecOn with
  | nil => simp [normalizeChars]
  | append_singleton before c =>
    have solid : isBlank c = false := trimmed.2 c (by simp)
    rw [normalizeChars_snoc (by rintro rfl; exact absurd solid (by decide))]
    simpa using solid

/-- No comma is followed by a blank. -/
def Tight (cs : List Char) : Prop := ∀ c, isBlank c = true → ¬ [',', c] <:+: cs

/-- A comma is followed by one blank at most, and that one is a space. -/
def Airy (cs : List Char) : Prop :=
  ∀ c, isBlank c = true → ¬ [',', ' ', c] <:+: cs ∧ (c ≠ ' ' → ¬ [',', c] <:+: cs)

theorem tight_normalizeChars : Tight (normalizeChars cs) ↔ Airy cs := by
  simp only [Tight, Airy, comma_normalizeChars, not_or, not_and]

/-- The second text is the first one with blanks after its commas. -/
inductive Spaced : List Char → List Char → Prop
  | nil : Spaced [] []
  | char {c : Char} {sig word : List Char} (other : c ≠ ',') (rest : Spaced sig word) :
      Spaced (c :: sig) (c :: word)
  | comma {gap sig word : List Char} (blank : ∀ c ∈ gap, isBlank c = true) (rest : Spaced sig word) :
    Spaced (',' :: sig) (',' :: (gap ++ word))

theorem Spaced.cons (rest : Spaced sig word) (c : Char) : Spaced (c :: sig) (c :: word) := by
  by_cases comma : c = ','
  · subst comma
    exact @Spaced.comma [] _ _ (List.forall_mem_nil _) rest
  · exact .char comma rest

theorem Spaced.gap (front back : List Char) {gap : List Char} (blank : ∀ c ∈ gap, isBlank c = true) :
    Spaced (front ++ ',' :: back) (front ++ ',' :: (gap ++ back)) := by
  induction front with
  | nil =>
    refine .comma blank ?_
    induction back with
    | nil => exact .nil
    | cons c rest ih => exact ih.cons c
  | cons c rest ih => exact ih.cons c

theorem Tight.tail (tight : Tight (c :: cs)) : Tight cs :=
  fun d blank found => tight d blank (List.infix_cons found)

theorem Airy.of_infix (airy : Airy word) (inside : cs <:+: word) : Airy cs :=
  fun d blank => ⟨fun found => (airy d blank).1 (found.trans inside),
    fun other found => (airy d blank).2 other (found.trans inside)⟩

theorem Airy.gap {gap : List Char} (airy : Airy (',' :: (gap ++ word))) (blank : ∀ c ∈ gap, isBlank c = true) :
    gap = [] ∨ gap = [' '] := by
  cases gap with
  | nil => exact Or.inl rfl
  | cons c more =>
    have space : c = ' ' := by
      by_contra other
      exact (airy c (blank c List.mem_cons_self)).2 other ⟨[], more ++ word, rfl⟩
    subst space
    cases more with
    | nil => exact Or.inr rfl
    | cons d others => exact absurd ⟨[], others ++ word, rfl⟩ (airy d (blank d (by simp))).1

theorem Spaced.head? (spaced : Spaced sig word) : word.head? = sig.head? := by
  cases spaced <;> rfl

theorem Spaced.normalizeChars_eq (spaced : Spaced sig word) (tight : Tight sig) (airy : Airy word) :
    normalizeChars word = sig := by
  induction spaced with
  | nil => rfl
  | @char c sig word other rest ih =>
    rw [normalizeChars, ih tight.tail (airy.of_infix (List.suffix_cons c word).isInfix)]
    exact fun _ comma _ => other comma
  | @comma gap sig word blank rest ih =>
    have inner := ih tight.tail
      (airy.of_infix ((List.suffix_append gap word).trans (List.suffix_cons _ _)).isInfix)
    rcases airy.gap blank with rfl | rfl
    · rw [List.nil_append, normalizeChars, inner]
      rintro after _ rfl
      refine tight ' ' (by decide) ?_
      rw [List.infix_cons_iff, List.cons_prefix_cons, singleton_prefix, ← rest.head?]
      exact Or.inl ⟨rfl, rfl⟩
    · rw [List.singleton_append, normalizeChars, inner]

/-- Blanks after the commas are undone exactly if there is at most one after each. -/
theorem Spaced.normalizeChars_eq_iff (spaced : Spaced sig word) (tight : Tight sig) :
    normalizeChars word = sig ↔ Airy word :=
  ⟨fun same => tight_normalizeChars.mp (same ▸ tight), spaced.normalizeChars_eq tight⟩

theorem Spaced.snoc (other : c ≠ ',') (spaced : Spaced (sig ++ [c]) word) : ∃ front, word = front ++ [c] := by
  induction sig generalizing word with
  | nil =>
    cases spaced with
    | char _ rest =>
      cases rest
      exact ⟨[], rfl⟩
    | comma => exact absurd rfl other
  | cons d sig ih =>
    cases spaced with
    | char _ rest =>
      obtain ⟨front, rfl⟩ := ih rest
      exact ⟨d :: front, rfl⟩
    | @comma gap _ _ _ rest =>
      obtain ⟨front, rfl⟩ := ih rest
      exact ⟨',' :: (gap ++ front), by simp⟩

theorem Spaced.trimmed {s : String} (opened : s.toList.head? = some '<') (spaced : Spaced (s ++ ">").toList word) :
    Trimmed word := by
  refine ⟨spaced.head? ▸ (Text.trimmed_angles opened).1, ?_⟩
  rw [String.toList_append] at spaced
  obtain ⟨front, rfl⟩ := Spaced.snoc (c := '>') (by decide) spaced
  simp [isBlank]

theorem Tight.of_cut {front back : List Char} (commas : ',' ∉ front) (solid : ∀ c ∈ back, isBlank c = false) :
    Tight (front ++ back) := by
  induction front with
  | nil =>
    intro c blank found
    have member : c ∈ back := found.subset (by simp)
    exact absurd blank (by simp [solid c member])
  | cons d front ih =>
    obtain ⟨other, commas⟩ := not_or.mp (mt List.mem_cons.mpr commas)
    intro c blank found
    rw [List.cons_append, List.infix_cons_iff, List.cons_prefix_cons] at found
    rcases found with ⟨comma, _⟩ | later
    · exact other comma
    · exact ih commas c blank later

end Commas

theorem lastIdx?_eq_none {holds : α → Bool} {l : List α} (absent : lastIdx? holds l = none) :
    ∀ a ∈ l, holds a = false := by
  induction l with
  | nil => simp
  | cons a rest ih =>
    unfold lastIdx? at absent
    split at absent
    · cases absent
    · next later =>
      exact List.forall_mem_cons.mpr ⟨by simpa using absent, ih later⟩

theorem lastIdx?_spelled (spelled : α → String) {items : List α} {wanted : String} {i : Nat} {a : α}
    (known : items[i]? = some a) (alone : ∀ j b, items[j]? = some b → spelled b = spelled a → j = i) :
    lastIdx? (fun b => spelled b == wanted) items = some i ↔ wanted = spelled a := by
  constructor
  · intro found
    obtain ⟨b, known', same⟩ := lastIdx?_holds found
    cases known.symm.trans known'
    exact (beq_iff_eq.mp same).symm
  · rintro rfl
    cases found : lastIdx? (fun b => spelled b == spelled a) items with
    | none => exact absurd (lastIdx?_eq_none found a (List.mem_of_getElem? known)) (by simp)
    | some j =>
      obtain ⟨b, known', same⟩ := lastIdx?_holds found
      exact congrArg some (alone j b known' (beq_iff_eq.mp same))

namespace Program

open Text (isBlank Trimmed Padded Plain)

variable {p q : Program} {m : MethodId} {f : FieldId} {c : ClassId} {t : Ty} {text name : String} {d : MethodDecl}

theorem methodSignature_eq (known : p.methods[m]? = some d) :
    p.methodSignature m = p.refSignature ⟨d.owner, d.subsignature⟩ := by
  rw [methodSignature, known]

theorem trimmed_methodSignature (inside : m < p.methods.size) : Trimmed (p.methodSignature m).toList := by
  rw [methodSignature_eq (Array.getElem?_eq_getElem inside)]
  exact Text.trimmed_angles (by simp)

theorem trimmed_fieldSignature (inside : f < p.fields.size) : Trimmed (p.fieldSignature f).toList := by
  rw [fieldSignature, Array.getElem?_eq_getElem inside]
  exact Text.trimmed_angles (by simp)

theorem methodBySignature?_iff (inside : m < p.methods.size)
    (alone : ∀ n < p.methods.size, p.methodSignature n = p.methodSignature m → n = m) :
    p.methodBySignature? text = some m ↔ normalizeSignature text = p.methodSignature m := by
  have known := Array.getElem?_eq_getElem inside
  rw [methodSignature_eq known, ← lastIdx?_spelled (fun d => p.refSignature ⟨d.owner, d.subsignature⟩)
    (Array.getElem?_toList.trans known)]
  · rfl
  · intro n d known' same
    rw [Array.getElem?_toList] at known'
    refine alone n (Array.getElem?_eq_some_iff.mp known').1 ?_
    rw [methodSignature_eq known, methodSignature_eq known', same]

theorem fieldBySignature?_iff (inside : f < p.fields.size)
    (alone : ∀ g < p.fields.size, p.fieldSignature g = p.fieldSignature f → g = f) :
    p.fieldBySignature? text = some f ↔ normalizeSignature text = p.fieldSignature f := by
  rw [← lastIdx?_spelled p.fieldSignature (List.getElem?_range inside)]
  · rfl
  · intro g h known same
    obtain ⟨inside', rfl⟩ : g < p.fields.size ∧ g = h := by simpa [List.getElem?_eq_some_iff] using known
    exact alone g inside' same

theorem normalizeSignature_self (trimmed : Trimmed text.toList) (tidy : ¬ [',', ' '] <:+: text.toList) :
    normalizeSignature text = text := by
  rw [normalizeSignature, trimmed.trimChars_eq (Text.padded_self _), normalizeChars_eq_self.mpr tidy,
    String.ofList_toList]

/-- Class names that tell the classes from each other and from all other types. -/
structure Nameable (p : Program) : Prop where
  distinct : ∀ b < p.classes.size, ∀ c < p.classes.size, p.className b = p.className c → b = c
  own : ∀ c < p.classes.size, p.className c ∉ "void" :: "null" :: Prim.all.map Prim.name
  unmarked : ∀ c < p.classes.size, ¬ ['[', ']'] <:+ (p.className c).toList
  trimmed : ∀ c < p.classes.size, Trimmed (p.className c).toList

/-- The class at the bottom of a type, if there is one, is a class of the program. -/
def Hosts (p : Program) (t : Ty) : Prop := ∀ c, t.innermost = .cls c → c < p.classes.size

/-- The name is read as the type by itself, and by all that read more of it. -/
def Reads (p : Program) (name : String) (t : Ty) : Prop :=
  Trimmed name.toList ∧ ∀ n, name.toList.length ≤ n → p.readTy? (n + 1) name.toList = some t

theorem reads_base (trimmed : Trimmed name.toList) (unmarked : ¬ ['[', ']'] <:+ name.toList)
    (read : p.baseTy? name = some t) : p.Reads name t := by
  refine ⟨trimmed, fun n _ => ?_⟩
  simp only [readTy?, trimmed.trimChars_eq (Text.padded_self _), Text.dropSuffix?_eq_none.mpr unmarked,
    String.ofList_toList]
  exact read

theorem className_eq {d : ClassDecl} (known : p.classes[c]? = some d) : p.className c = d.name := by
  rw [className, known]

theorem Nameable.reads_cls (nameable : p.Nameable) (inside : c < p.classes.size) :
    p.Reads (p.className c) (.cls c) := by
  have known := Array.getElem?_eq_getElem inside
  have found : p.classByName? (p.className c) = some c := by
    rw [className_eq known]
    refine (lastIdx?_spelled ClassDecl.name (Array.getElem?_toList.trans known) ?_).mpr rfl
    intro b d known' same
    rw [Array.getElem?_toList] at known'
    refine nameable.distinct b (Array.getElem?_eq_some_iff.mp known').1 c inside ?_
    rw [className_eq known, className_eq known', same]
  obtain ⟨notVoid, notNull, notPrim⟩ : p.className c ≠ "void" ∧ p.className c ≠ "null" ∧
      ∀ q ∈ Prim.all, q.name ≠ p.className c := by
    simpa using nameable.own c inside
  have unread : Prim.ofName? (p.className c) = none := by simpa [Prim.ofName?] using notPrim
  refine reads_base (nameable.trimmed c inside) (nameable.unmarked c inside) ?_
  rw [baseTy?, if_neg notVoid, if_neg notNull, unread, found]
  rfl

theorem Reads.array (reads : p.Reads name t) : p.Reads (name ++ "[]") (.array t) := by
  have marked : (name ++ "[]").toList = name.toList ++ ['[', ']'] := String.toList_append
  have trimmed : Trimmed (name ++ "[]").toList := by
    rw [marked]
    refine ⟨fun d first => ?_, fun d last => ?_⟩
    · cases chars : name.toList with
      | nil =>
        rw [chars] at first
        cases first
        decide
      | cons e rest => exact reads.1.1 d (by rw [chars] at first ⊢; exact first)
    · rw [List.getLast?_append] at last
      cases last
      decide
  refine ⟨trimmed, fun n enough => ?_⟩
  cases n with
  | zero => simp at enough
  | succ n =>
    have inner := reads.2 n (by simp at enough; omega)
    rw [readTy?]
    simp only [trimmed.trimChars_eq (Text.padded_self _), Text.dropSuffix?_eq_some.mpr marked,
      inner, Option.map_some]

theorem Nameable.reads_tyName (nameable : p.Nameable) (hosts : p.Hosts t) : p.Reads (p.tyName t) t := by
  induction t with
  | prim q =>
    change p.Reads q.name _
    cases q <;> exact reads_base (by decide) (by decide) rfl
  | cls c => exact nameable.reads_cls (hosts c rfl)
  | array t ih => exact (ih hosts).array
  | null => exact show p.Reads "null" _ from reads_base (by decide) (by decide) rfl
  | void => exact show p.Reads "void" _ from reads_base (by decide) (by decide) rfl

/-- Signatures that tell the first items from each other and that lookups leave as they are. -/
structure Telling (signature : Nat → String) (size : Nat) : Prop where
  distinct : ∀ i < size, ∀ j < size, signature i = signature j → i = j
  tidy : ∀ i < size, ¬ [',', ' '] <:+: (signature i).toList

/-- Types are read from their names, and methods and fields are found by their signatures. -/
theorem names_read_back (p : Program) :
    (p.Nameable → ∀ t, p.Hosts t → p.tyByName? (p.tyName t) = some t) ∧
    (Telling p.methodSignature p.methods.size → ∀ m < p.methods.size,
      p.methodBySignature? (p.methodSignature m) = some m) ∧
    (Telling p.fieldSignature p.fields.size → ∀ f < p.fields.size,
      p.fieldBySignature? (p.fieldSignature f) = some f) := by
  refine ⟨fun nameable t hosts => ?_, fun telling m inside => ?_, fun telling f inside => ?_⟩
  · exact (nameable.reads_tyName hosts).2 _ (Nat.le_refl _)
  · refine (methodBySignature?_iff inside fun n inside' => telling.distinct n inside' m inside).mpr ?_
    exact normalizeSignature_self (trimmed_methodSignature inside) (telling.tidy m inside)
  · refine (fieldBySignature?_iff inside fun g inside' => telling.distinct g inside' f inside).mpr ?_
    exact normalizeSignature_self (trimmed_fieldSignature inside) (telling.tidy f inside)

theorem holder_read_back : holder.tyByName? "SubHolder[][]" = some (.array (.array (.cls 3))) ∧
    holder.methodBySignature? "<Holder: String put(String[],SubHolder)>" = some 0 ∧
    holder.fieldBySignature? "<Holder: String value>" = some 0 := by
  obtain ⟨types, methods, fields⟩ := names_read_back holder
  have nameable : holder.Nameable := ⟨by decide, by decide, by decide, by decide⟩
  have hosts : holder.Hosts (.array (.array (.cls 3))) := by
    rintro c same
    cases same
    decide
  exact ⟨types nameable _ hosts, methods ⟨by decide, by decide⟩ 0 (by decide),
    fields ⟨by decide, by decide⟩ 0 (by decide)⟩

def PlainNames (p : Program) : Prop :=
  (∀ d ∈ p.classes, Plain d.name) ∧ ∀ d ∈ p.methods, Plain d.name

/-- The spelling of a method is made of the class names that there were when it was added. -/
def Spelled (p : Program) (d : MethodDecl) : Prop :=
  ∃ past : Program, (∀ c, past.className c = "" ∨ past.className c = p.className c) ∧
    d.subsignature = past.spell d.name d.params d.ret

theorem Spelled.keep (spelled : p.Spelled d) (kept : ∀ c, p.className c = "" ∨ p.className c = q.className c)
    (body : Option Body) : q.Spelled { d with body } := by
  obtain ⟨past, names, spelling⟩ := spelled
  refine ⟨past, fun c => ?_, spelling⟩
  rcases names c with empty | known
  · exact Or.inl empty
  · exact (kept c).imp known.trans known.trans

theorem className_push (d : ClassDecl) (c : ClassId) :
    p.className c = "" ∨ p.className c = (p.push d).className c := by
  cases known : p.classes[c]? with
  | none => exact Or.inl (by rw [className, known])
  | some e =>
    have inside := (Array.getElem?_eq_some_iff.mp known).1
    have later : (p.push d).classes[c]? = some e := by
      rw [push, Array.getElem?_push, if_neg (Nat.ne_of_lt inside), known]
    exact Or.inr ((className_eq known).trans (className_eq later).symm)

theorem className_modify {b : ClassId} {f : ClassDecl → ClassDecl} (same : ∀ d, (f d).name = d.name)
    (classes : q.classes = p.classes.modify b f) (c : ClassId) : p.className c = q.className c := by
  unfold className
  rw [classes, Array.getElem?_modify]
  cases p.classes[c]? <;> by_cases here : b = c <;> simp [here, same]

theorem Built.spelled (built : p.Built) : ∀ (m : MethodId) d, p.methods[m]? = some d → p.Spelled d := by
  refine built.steps (P := fun p => ∀ (m : MethodId) d, p.methods[m]? = some d → p.Spelled d) (by simp)
    (fun p new ih _ m d known => ?_) (fun p q b f ih same classes methods m d known => ?_)
    (fun p owner name params ret flags ih m d known => ?_) (fun p n text ih m d known => ?_)
    (fun p n ih m d known => ?_)
  · exact (ih m d known).keep (className_push new) d.body
  · exact (ih m d (methods ▸ known)).keep (fun c => .inr (className_modify (fun d => (same d).1) classes c)) d.body
  · have kept (c : ClassId) : p.className c = (p.addMethod owner name params ret flags).className c :=
      className_modify (f := fun d => { d with methods := d.methods ++ [p.methods.size] }) (fun _ => rfl) rfl c
    rw [Program.addMethod, Array.getElem?_push] at known
    split at known
    · cases known
      exact ⟨p, fun c => .inr (kept c), rfl⟩
    · exact (ih m d known).keep (fun c => .inr (kept c)) d.body
  · unfold Program.setBody at known ⊢
    split at known
    · exact ih m d known
    · rw [Array.getElem?_modify] at known
      split at known
      · obtain ⟨e, known', rfl⟩ := Option.map_eq_some_iff.mp known
        exact (ih m e known').keep (fun c => .inr rfl) _
      · exact (ih m d known).keep (fun c => .inr rfl) d.body
  · exact (ih m d known).keep (fun c => .inr rfl) d.body

theorem PlainNames.className (plain : p.PlainNames) (c : ClassId) : Plain (p.className c) := by
  unfold Program.className
  split
  · next d known => exact plain.1 d (Array.mem_of_getElem? known)
  · simp [Plain]

theorem plain_tyName (plain : ∀ c, Plain (p.className c)) (t : Ty) : Plain (p.tyName t) := by
  induction t with
  | prim q => cases q <;> simp [tyName, Prim.name, Plain, isBlank]
  | cls c => exact plain c
  | array t ih =>
    intro c member
    rw [tyName, String.toList_append, List.mem_append] at member
    rcases member with inner | mark
    · exact ih c inner
    · revert mark; revert c; simp [isBlank]
  | null | void => simp [tyName, Plain, isBlank]

/-- In the signatures of a program with plain names, commas stand between parameters only. -/
theorem Built.tight (built : p.Built) (plain : p.PlainNames) (inside : m < p.methods.size) :
    Tight (p.methodSignature m).toList := by
  have known := Array.getElem?_eq_getElem inside
  obtain ⟨past, names, spelling⟩ := built.spelled m _ known
  have words (t : Ty) : Plain (past.tyName t) := by
    refine plain_tyName (fun c => ?_) t
    rcases names c with empty | same
    · simp [empty, Plain]
    · exact same ▸ plain.className c
  have method : Plain p.methods[m].name := plain.2 _ (Array.getElem_mem inside)
  have owner := plain.className p.methods[m].owner
  rw [methodSignature_eq known, refSignature, spelling, spell]
  generalize p.methods[m] = d at *
  have cut : ("<" ++ p.className d.owner ++ ": " ++ (past.tyName d.ret ++ " " ++ d.name ++ "(" ++
      Text.join "," (d.params.map past.tyName) ++ ")") ++ ">").toList =
      ("<" ++ p.className d.owner ++ ": " ++ past.tyName d.ret ++ " " ++ d.name ++ "(").toList ++
        (Text.join "," (d.params.map past.tyName) ++ ")>").toList := by
    simp
  rw [cut]
  refine Tight.of_cut ?_ fun c member => ?_
  · simp only [String.toList_append, List.mem_append, not_or]
    exact ⟨⟨⟨⟨⟨⟨by decide, fun member => (owner _ member).2 rfl⟩, by decide⟩,
      fun member => (words _ _ member).2 rfl⟩,
      by decide⟩, fun member => (method _ member).2 rfl⟩, by decide⟩
  · rw [String.toList_append, List.mem_append] at member
    rcases member with inner | mark
    · rcases Text.mem_join inner with mark | ⟨part, listed, inside⟩
      · cases List.mem_singleton.mp mark
        decide
      · obtain ⟨t, _, rfl⟩ := List.mem_map.mp listed
        exact (words t c inside).1
    · revert mark; revert c; simp [isBlank]

theorem blanks_after_commas (p : Program) :
    (p.Built → p.PlainNames → ∀ m < p.methods.size,
      (∀ n < p.methods.size, p.methodSignature n = p.methodSignature m → n = m) →
      ∀ text word, Padded text.toList word → Spaced (p.methodSignature m).toList word →
        (p.methodBySignature? text = some m ↔ Airy word)) ∧
    ∀ s, (normalizeSignature (normalizeSignature s) = normalizeSignature s ↔
        ¬ [',', ' ', ' '] <:+: Text.trimChars s.toList) ∧
      (Tight (normalizeSignature s).toList ↔ Airy (Text.trimChars s.toList)) := by
  refine ⟨fun built plain m inside alone text word padded spaced => ?_, fun s => ⟨?_, ?_⟩⟩
  · have tight := built.tight plain inside
    have trimmed : Trimmed word := by
      rw [methodSignature_eq (Array.getElem?_eq_getElem inside)] at spaced
      exact spaced.trimmed (by simp)
    rw [methodBySignature?_iff inside alone, normalizeSignature, trimmed.trimChars_eq padded,
      ← spaced.normalizeChars_eq_iff tight, ← String.toList_inj, String.toList_ofList]
  · have trimmed := normalizeChars_trimmed (Text.trimmed_trimChars s.toList)
    rw [normalizeSignature, normalizeSignature, String.toList_ofList, trimmed.trimChars_eq (Text.padded_self _),
      String.ofList_inj, normalizeChars_eq_self, comma_normalizeChars]
    simp
  · rw [normalizeSignature, String.toList_ofList, tight_normalizeChars]

theorem holder_built : holder.Built :=
  .addMethod (.addField (.addClass (.addClass (.addClass (.addClass .empty _ _) _ _) _ _) _ _) _ _ _ _) _ _ _ _ _

theorem holder_plain : holder.PlainNames := ⟨by decide, by decide⟩

theorem holder_spaced {gap : List Char} (blank : ∀ c ∈ gap, isBlank c = true) :
    Spaced (holder.methodSignature 0).toList
      ("<Holder: String put(String[]".toList ++ ',' :: (gap ++ "SubHolder)>".toList)) := by
  have cut : (holder.methodSignature 0).toList =
      "<Holder: String put(String[]".toList ++ ',' :: "SubHolder)>".toList := by decide
  rw [cut]
  exact Spaced.gap _ _ blank

/-- Blanks around the text and one after the comma do no harm. -/
theorem holder_blank_after_comma :
    holder.methodBySignature? " <Holder: String put(String[], SubHolder)>" = some 0 := by
  obtain ⟨lookup, _⟩ := blanks_after_commas holder
  have blank : ∀ c ∈ [' '], isBlank c = true := List.forall_mem_singleton.mpr rfl
  have spaced := holder_spaced blank
  have padded : Padded " <Holder: String put(String[], SubHolder)>".toList
      ("<Holder: String put(String[]".toList ++ ',' :: ([' '] ++ "SubHolder)>".toList)) :=
    ⟨[' '], [], blank, List.forall_mem_nil _, by decide⟩
  refine (lookup holder_built holder_plain 0 (by decide) (by decide) _ _ padded spaced).mpr ?_
  exact (spaced.normalizeChars_eq_iff (holder_built.tight holder_plain (by decide))).mp (by decide)

/-- Two blanks after the comma are too many. -/
theorem holder_gap_kept :
    holder.Built ∧ holder.PlainNames ∧ (∀ n < holder.methods.size, n = 0) ∧
    Spaced (holder.methodSignature 0).toList "<Holder: String put(String[],  SubHolder)>".toList ∧
    holder.methodBySignature? "<Holder: String put(String[],  SubHolder)>" = none ∧
    normalizeSignature "<Holder: String put(String[],  SubHolder)>" = "<Holder: String put(String[], SubHolder)>" ∧
    normalizeSignature "<Holder: String put(String[], SubHolder)>" =
      "<Holder: String put(String[],SubHolder)>" := by
  refine ⟨holder_built, holder_plain, by decide, ?_, by decide, by decide, by decide⟩
  have cut : "<Holder: String put(String[],  SubHolder)>".toList =
      "<Holder: String put(String[]".toList ++ ',' :: ([' ', ' '] ++ "SubHolder)>".toList) := by decide
  rw [cut]
  exact holder_spaced (List.forall_mem_cons.mpr ⟨rfl, List.forall_mem_singleton.mpr rfl⟩)

end Program

end PointsTo
