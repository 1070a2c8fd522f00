import Mathlib.Logic.Relation
import PointsTo.Program.Builder
import PointsTo.Proofs.Initialization

/-!
The class hierarchy as a relation, and two ways to compute it: the search from a stack, which leaves
supertypes there at most once for a class, and the recursion along the hierarchy, which ends if there is
no cycle.
-/
namespace PointsTo.Program

variable {p : Program} {c d e : ClassId} {known stack seen found classes : List ClassId} {n : Nat}
  {ask : ClassId → Option Bool}

def Inherits (p : Program) (c d : ClassId) : Prop := d ∈ p.directSupertypes c

/-- A class is another one or inherits from it, directly or not. -/
def Below (p : Program) : ClassId → ClassId → Prop := Relation.ReflTransGen p.Inherits

/-- A class inherits from another one, directly or not. -/
def StrictlyBelow (p : Program) : ClassId → ClassId → Prop := Relation.TransGen p.Inherits

def Acyclic (p : Program) : Prop := ∀ c, ¬ p.StrictlyBelow c c

theorem Inherits.lt (inherits : p.Inherits c d) : c < p.classes.size := by
  by_contra out
  simp [Inherits, directSupertypes, superclass?, interfacesOf,
    Array.getElem?_eq_none (Nat.le_of_not_lt out)] at inherits

/-- A hierarchy has no cycle if every class outranks its supertypes. -/
theorem Acyclic.of_rank (rank : ClassId → Nat)
    (descends : ∀ c < p.classes.size, ∀ d ∈ p.directSupertypes c, rank d < rank c) : p.Acyclic := by
  have lower : ∀ c d, p.StrictlyBelow c d → rank d < rank c := by
    intro c d below
    induction below with
    | single step => exact descends c step.lt _ step
    | tail _ step ih => exact Nat.lt_trans (descends _ step.lt _ step) ih
  exact fun c cycle => Nat.lt_irrefl _ (lower c c cycle)

theorem Acyclic.not_below (acyclic : p.Acyclic) (below : p.StrictlyBelow c d) : ¬ p.Below d c :=
  fun back => acyclic c (Relation.TransGen.trans_left below back)

/-- Classes with all classes above them. -/
def Closed (p : Program) (known : List ClassId) : Prop := ∀ c ∈ known, ∀ d, p.Inherits c d → d ∈ known

theorem Closed.of_below (closed : p.Closed known) (member : c ∈ known) (below : p.Below c d) : d ∈ known := by
  induction below with
  | refl => exact member
  | tail _ step ih => exact closed _ ih _ step

/-- The classes of the program that a search has not seen. -/
def unseen (p : Program) (seen : List ClassId) : List ClassId :=
  (List.range p.classes.size).filter (· ∉ seen)

theorem mem_unseen : c ∈ p.unseen seen ↔ c < p.classes.size ∧ c ∉ seen := by simp [unseen]

theorem unseen_cons : p.unseen (c :: seen) = (p.unseen seen).erase c := by
  have distinct : (p.unseen seen).Nodup := List.nodup_range.filter _
  rw [distinct.erase_eq_filter, unseen, unseen, List.filter_filter]
  refine List.filter_congr fun d _ => ?_
  by_cases same : d = c <;> simp [same]

/-- The steps that a search still needs: one for each class on the stack, and one for each supertype that
an unseen class names. -/
def pending (p : Program) (stack seen : List ClassId) : Nat :=
  stack.length + ((p.unseen seen).flatMap p.directSupertypes).length

/-- Passing over a class that was seen takes one step. -/
theorem pending_seen : p.pending (c :: stack) seen = p.pending stack seen + 1 := by
  simp only [pending, List.length_cons]
  omega

/-- So does taking a new class: what its supertypes add to the stack, the unseen classes lose. -/
theorem pending_new (new : c ∉ seen) :
    p.pending (c :: stack) seen = p.pending ((p.directSupertypes c).reverse ++ stack) (c :: seen) + 1 := by
  simp only [pending, List.length_cons, List.length_append, List.length_reverse, unseen_cons]
  by_cases inside : c < p.classes.size
  · have apart := List.perm_cons_erase (mem_unseen.mpr ⟨inside, new⟩)
    have lengths := (apart.flatMap_right p.directSupertypes).length_eq
    rw [List.flatMap_cons, List.length_append] at lengths
    omega
  -- a class that the program does not have names no supertypes
  · have none : p.directSupertypes c = [] :=
      List.eq_nil_iff_forall_not_mem.mpr fun d step => inside (Inherits.lt (d := d) step)
    rw [List.erase_of_not_mem fun member => inside (mem_unseen.mp member).1, none, List.length_nil]
    omega

theorem pending_start : p.pending [c] [] = p.inheritances + 1 := by
  simp [pending, unseen, inheritances, Nat.add_comm]

theorem gather?_step (p : Program) (c : ClassId) (stack seen : List ClassId) : ∃ rest known,
    p.pending (c :: stack) seen = p.pending rest known + 1 ∧
      ∀ m, p.gather? (m + 1) (c :: stack) seen = p.gather? m rest known := by
  by_cases old : c ∈ seen
  · exact ⟨stack, seen, pending_seen, fun m => by simp [gather?, old]⟩
  · exact ⟨_, c :: seen, pending_new old, fun m => by simp [gather?, old]⟩

/-- A search ends with every number of steps that is not below what it needs, and always in the same way. -/
theorem gather?_ends (enough : p.pending stack seen ≤ n) :
    ∃ found, ∀ m, n ≤ m → p.gather? m stack seen = some found := by
  induction n generalizing stack seen with
  | zero =>
    have empty : stack = [] := List.length_eq_zero_iff.mp (by unfold pending at enough; omega)
    subst empty
    exact ⟨seen, fun m _ => by simp [gather?]⟩
  | succ n ih =>
    cases stack with
    | nil => exact ⟨seen, fun m _ => by simp [gather?]⟩
    | cons c stack =>
      obtain ⟨rest, known, needs, step⟩ := p.gather?_step c stack seen
      have less : p.pending rest known ≤ n := by omega
      obtain ⟨found, ends⟩ := ih less
      refine ⟨found, fun m more => ?_⟩
      obtain ⟨m, rfl⟩ : ∃ k, m = k + 1 := Nat.exists_eq_succ_of_ne_zero (by omega)
      rw [step]
      exact ends m (by omega)

theorem gather?_eq_supertypes (c : ClassId) {m : Nat} (enough : p.inheritances + 1 ≤ m) :
    p.gather? m [c] [] = some (p.supertypes c) := by
  obtain ⟨found, ends⟩ := gather?_ends (p := p) (n := p.inheritances + 1) (Nat.le_of_eq (pending_start (c := c)))
  rw [supertypes, ends _ (Nat.le_refl _), ends m enough, Option.getD_some]

/-- What the classes seen so far inherit from was seen too, or waits on the stack. -/
def Expanded (p : Program) (stack seen : List ClassId) : Prop :=
  ∀ c ∈ seen, ∀ d, p.Inherits c d → d ∈ seen ∨ d ∈ stack

theorem Expanded.skip (expanded : p.Expanded (c :: stack) seen) (old : c ∈ seen) : p.Expanded stack seen := by
  intro b member d step
  rcases expanded b member d step with known | waiting
  · exact Or.inl known
  · rcases List.mem_cons.mp waiting with rfl | later
    · exact Or.inl old
    · exact Or.inr later

theorem Expanded.take (expanded : p.Expanded (c :: stack) seen) :
    p.Expanded ((p.directSupertypes c).reverse ++ stack) (c :: seen) := by
  intro b member d step
  simp only [List.mem_cons, List.mem_append, List.mem_reverse]
  rcases List.mem_cons.mp member with rfl | earlier
  · exact Or.inr (Or.inl step)
  · rcases expanded b earlier d step with known | waiting
    · exact Or.inl (Or.inr known)
    · rcases List.mem_cons.mp waiting with rfl | later
      · exact Or.inl (Or.inl rfl)
      · exact Or.inr (Or.inr later)

theorem gather?_closed (expanded : p.Expanded stack seen) (ends : p.gather? n stack seen = some found) :
    p.Closed found := by
  fun_induction gather? p n stack seen with
  | case1 n seen =>
    cases ends
    exact fun c member d step => (expanded c member d step).resolve_right List.not_mem_nil
  | case2 => cases ends
  | case3 n c stack seen old ih => exact ih (expanded.skip (List.contains_iff_mem.mp old)) ends
  | case4 n c stack seen _ ih => exact ih expanded.take ends

theorem mem_of_gather? (ends : p.gather? n stack seen = some found) (member : c ∈ stack ∨ c ∈ seen) :
    c ∈ found := by
  fun_induction gather? p n stack seen with
  | case1 n seen =>
    cases ends
    exact member.resolve_left List.not_mem_nil
  | case2 => cases ends
  | case3 n b stack seen old ih =>
    rcases member with waiting | known
    · rcases List.mem_cons.mp waiting with rfl | later
      · exact ih ends (Or.inr (List.contains_iff_mem.mp old))
      · exact ih ends (Or.inl later)
    · exact ih ends (Or.inr known)
  | case4 n b stack seen _ ih =>
    rcases member with waiting | known
    · rcases List.mem_cons.mp waiting with rfl | later
      · exact ih ends (Or.inr List.mem_cons_self)
      · exact ih ends (Or.inl (List.mem_append_right _ later))
    · exact ih ends (Or.inr (List.mem_cons_of_mem _ known))

theorem below_of_gather? (ends : p.gather? n stack seen = some found) (member : d ∈ found) :
    d ∈ seen ∨ ∃ c ∈ stack, p.Below c d := by
  fun_induction gather? p n stack seen with
  | case1 n seen =>
    cases ends
    exact Or.inl member
  | case2 => cases ends
  | case3 n b stack seen _ ih =>
    rcases ih ends with known | ⟨c, waiting, below⟩
    · exact Or.inl known
    · exact Or.inr ⟨c, List.mem_cons_of_mem _ waiting, below⟩
  | case4 n b stack seen _ ih =>
    rcases ih ends with known | ⟨c, waiting, below⟩
    · rcases List.mem_cons.mp known with rfl | earlier
      · exact Or.inr ⟨d, List.mem_cons_self, .refl⟩
      · exact Or.inl earlier
    · rcases List.mem_append.mp waiting with above | later
      · exact Or.inr ⟨b, List.mem_cons_self, below.head (List.mem_reverse.mp above)⟩
      · exact Or.inr ⟨c, List.mem_cons_of_mem _ later, below⟩

theorem mem_supertypes : d ∈ p.supertypes c ↔ p.Below c d := by
  have ends := gather?_eq_supertypes (p := p) c (Nat.le_refl _)
  constructor
  · intro member
    rcases below_of_gather? ends member with known | ⟨b, here, below⟩
    · cases known
    · rwa [List.mem_singleton.mp here] at below
  · have closed := gather?_closed (fun _ member => absurd member List.not_mem_nil) ends
    exact closed.of_below (mem_of_gather? ends (Or.inl (List.mem_singleton_self c)))

def classesAbove (p : Program) (c : ClassId) : Finset ClassId :=
  (Finset.range p.classes.size).filter (· ∈ p.supertypes c)

theorem Acyclic.classesAbove_lt (acyclic : p.Acyclic) (step : p.Inherits c d) :
    (p.classesAbove d).card < (p.classesAbove c).card := by
  refine Finset.card_lt_card (Finset.ssubset_iff_of_subset (fun b member => ?_) |>.mpr ⟨c, ?_, ?_⟩)
  · simp only [classesAbove, Finset.mem_filter, mem_supertypes] at member ⊢
    exact ⟨member.1, member.2.head step⟩
  · simp only [classesAbove, Finset.mem_filter, Finset.mem_range, mem_supertypes]
    exact ⟨step.lt, .refl⟩
  · simp only [classesAbove, Finset.mem_filter, mem_supertypes]
    exact fun back => acyclic.not_below (.single step) back.2

theorem below_iff : p.Below c e ↔ c = e ∨ ∃ d, p.Inherits c d ∧ p.Below d e := by
  rw [Below, Relation.ReflTransGen.cases_head_iff]

theorem anyM_eq_some {answer : ClassId → Bool} (known : ∀ d ∈ classes, ask d = some (answer d)) :
    classes.anyM ask = some (classes.any answer) := by
  induction classes with
  | nil => rfl
  | cons d rest ih =>
    have others := ih fun b member => known b (List.mem_cons_of_mem d member)
    rw [List.anyM, known d List.mem_cons_self, List.any_cons]
    cases answer d with
    | true => rfl
    | false => exact others

theorem exists_of_anyM (found : classes.anyM ask = some true) : ∃ b ∈ classes, ask b = some true := by
  induction classes with
  | nil => cases found
  | cons b rest ih =>
    rw [List.anyM] at found
    cases answer : ask b with
    | none => simp [answer] at found
    | some yes =>
      cases yes with
      | true => exact ⟨b, List.mem_cons_self, answer⟩
      | false =>
        obtain ⟨x, later, asked⟩ := ih (by simpa [answer] using found)
        exact ⟨x, List.mem_cons_of_mem b later, asked⟩

theorem isSubclass_iff_leadsTo? : p.isSubclass c e = true ↔ p.leadsTo? e (p.classes.size + 1) c = some true := by
  rw [isSubclass]
  cases p.leadsTo? e (p.classes.size + 1) c <;> simp

theorem below_of_leadsTo? (found : p.leadsTo? e n c = some true) : p.Below c e := by
  induction n generalizing c with
  | zero => cases found
  | succ n ih =>
    rw [leadsTo?] at found
    split at found
    · next here =>
      subst here
      exact .refl
    · obtain ⟨b, step, higher⟩ := exists_of_anyM found
      exact (ih higher).head step

/-- The superclass is asked first, so a class up the chain of superclasses is found whatever the interfaces
are. -/
theorem leadsTo?_of_climb? {k : Nat} (climbs : p.climb? k c = some e) (enough : k < n) :
    p.leadsTo? e n c = some true := by
  induction k generalizing c n with
  | zero =>
    obtain ⟨n, rfl⟩ := Nat.exists_eq_succ_of_ne_zero (Nat.ne_zero_of_lt enough)
    cases climbs
    rw [leadsTo?, if_pos rfl]
  | succ k ih =>
    obtain ⟨n, rfl⟩ := Nat.exists_eq_succ_of_ne_zero (Nat.ne_zero_of_lt enough)
    obtain ⟨b, super, rest⟩ := Option.bind_eq_some_iff.mp climbs
    rw [leadsTo?]
    split
    · rfl
    · rw [directSupertypes, super, Option.toList_some, List.singleton_append, List.anyM,
        ih rest (Nat.lt_of_succ_lt_succ enough)]
      rfl

/-- The recursion along the hierarchy ends if there is no cycle, no deeper than there are classes above,
and its answer is whether a class is among the supertypes. -/
theorem Acyclic.leadsTo? (acyclic : p.Acyclic) (enough : (p.classesAbove c).card < n) :
    p.leadsTo? e n c = some (decide (e ∈ p.supertypes c)) := by
  induction n generalizing c with
  | zero => exact absurd enough (Nat.not_lt_zero _)
  | succ n ih =>
    rw [Program.leadsTo?]
    split
    · next here => simp [mem_supertypes, here, Below, Relation.ReflTransGen.refl]
    · next elsewhere =>
      have answers : ∀ d ∈ p.directSupertypes c, p.leadsTo? e n d = some (decide (e ∈ p.supertypes d)) :=
        fun d step => ih (Nat.lt_of_lt_of_le (acyclic.classesAbove_lt step) (Nat.le_of_lt_succ enough))
      rw [anyM_eq_some answers, Option.some.injEq, Bool.eq_iff_iff, List.any_eq_true, decide_eq_true_eq,
        mem_supertypes, below_iff]
      simp [elsewhere, mem_supertypes, Inherits]

theorem Acyclic.leadsTo?_eq_isSubclass (acyclic : p.Acyclic) (c e : ClassId) (enough : p.classes.size < n) :
    p.leadsTo? e n c = some (p.isSubclass c e) := by
  have within : (p.classesAbove c).card ≤ p.classes.size :=
    (Finset.card_filter_le _ _).trans_eq (Finset.card_range _)
  rw [isSubclass, acyclic.leadsTo? (Nat.lt_of_le_of_lt within enough),
    acyclic.leadsTo? (Nat.lt_succ_of_le within), Option.getD_some]

theorem Acyclic.isSubclass_iff (acyclic : p.Acyclic) : p.isSubclass c e = true ↔ p.Below c e := by
  have within : (p.classesAbove c).card < p.classes.size + 1 :=
    Nat.lt_succ_of_le ((Finset.card_filter_le _ _).trans_eq (Finset.card_range _))
  rw [isSubclass, acyclic.leadsTo? within, Option.getD_some, decide_eq_true_eq, mem_supertypes]

/-- The search for supertypes ends on every hierarchy, with or without a cycle, and finds the classes above.
Without a cycle the recursion along the hierarchy ends too, and agrees with it. -/
theorem supertypes_agree (p : Program) :
    (∀ a, (∃ n, ∀ m, n ≤ m → p.gather? m [a] [] = some (p.supertypes a)) ∧
      ∀ b, b ∈ p.supertypes a ↔ p.Below a b) ∧
    (p.Acyclic → ∀ a b, (∃ n, ∀ m, n ≤ m → p.leadsTo? b m a = some (p.isSubclass a b)) ∧
      (p.isSubclass a b = true ↔ b ∈ p.supertypes a) ∧ (p.isSubclass a b = true ↔ p.Below a b)) := by
  constructor
  · intro a
    exact ⟨⟨p.inheritances + 1, fun m => gather?_eq_supertypes a⟩, fun b => mem_supertypes⟩
  · intro acyclic a b
    refine ⟨⟨p.classes.size + 1, fun m => acyclic.leadsTo?_eq_isSubclass a b⟩, ?_, acyclic.isSubclass_iff⟩
    rw [mem_supertypes]
    exact acyclic.isSubclass_iff

/-- A boat floats both as a boat and because it sails. -/
def harbour : Program :=
  let p : Program := {}
  let p := p.addClass "java.lang.Object" none
  let p := p.addInterface "java.lang.Cloneable" []
  let p := p.addInterface "Floating" []
  let p := p.addInterface "Sailing" [2]
  let p := p.addClass "Boat" (some 0)
  p.addInterfaces 4 [2, 3]

theorem harbour_acyclic : harbour.Acyclic := .of_rank id (by decide)

theorem harbour_agrees : harbour.Acyclic ∧ 2 ∈ harbour.supertypes 4 ∧ harbour.Below 4 2 ∧
    4 ∉ harbour.supertypes 2 ∧ ¬ harbour.Below 2 4 := by
  have up := (supertypes_agree harbour).2 harbour_acyclic 4 2
  have down := (supertypes_agree harbour).2 harbour_acyclic 2 4
  have boat : harbour.isSubclass 4 2 = true := by decide
  have floating : ¬ harbour.isSubclass 2 4 = true := by decide
  exact ⟨harbour_acyclic, up.2.1.mp boat, up.2.2.mp boat, mt down.2.1.mpr floating, mt down.2.2.mpr floating⟩

theorem inherits_of_superclass? (above : p.superclass? c = some d) : p.Inherits c d := by
  simp [Inherits, directSupertypes, above]

theorem superChain_below (member : d ∈ p.superChain n c) : p.Below c d := by
  induction n generalizing c with
  | zero => cases member
  | succ n ih =>
    rw [superChain, List.mem_cons] at member
    rcases member with rfl | above
    · exact .refl
    · cases next : p.superclass? c with
      | none => simp [next] at above
      | some b =>
        rw [next] at above
        exact (ih above).head (inherits_of_superclass? next)

theorem superclasses_below (member : d ∈ p.superclasses c) : p.Below c d := superChain_below member

theorem superChain_pairwise : (p.superChain n c).Pairwise p.Below := by
  induction n generalizing c with
  | zero => exact List.Pairwise.nil
  | succ n ih =>
    rw [superChain]
    cases next : p.superclass? c with
    | none => exact List.pairwise_singleton _ _
    | some b =>
      exact List.pairwise_cons.mpr
        ⟨fun d above => (superChain_below above).head (inherits_of_superclass? next), ih⟩

end PointsTo.Program
