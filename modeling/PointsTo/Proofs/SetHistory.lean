import Mathlib.Data.Finset.Sort
import Mathlib.Data.List.Forall2
import PointsTo.Proofs.ObjSet

/-!
Histories of sets. The same history of copies, additions, unions and removals runs on sets of handles
and on finite sets of numbers, and the two cannot be told apart. Nothing is said of the test that turns
a list into a bitmap, so lists and bitmaps are mixed in every way.
-/
namespace PointsTo

/-- The operations of a history, for sets in the form `α`. -/
structure SetForm (α : Type) where
  empty : α
  single : Nat → α
  gather : List Nat → α
  add : α → Nat → α × Bool
  union : α → α → α × α
  removeIf : α → (Nat → Bool) → α × Nat
  same : α → α → Bool

/-- Sets of handles; `crowded` says which lists become bitmaps. -/
def ObjSet.form (crowded : List Nat → Bool) : SetForm ObjSet where
  empty := ObjSet.empty
  single := ObjSet.singleton
  gather := ObjSet.ofListBy crowded
  add := ObjSet.addBy crowded
  union := ObjSet.unionBy crowded
  removeIf := ObjSet.removeIf
  same s t := s == t

def SetForm.finite : SetForm (Finset Nat) where
  empty := ∅
  single x := {x}
  gather xs := xs.toFinset
  add F x := (insert x F, decide (x ∉ F))
  union F G := (F ∪ G, G \ F)
  removeIf F drop := (F.filter fun x => drop x = false, (F.filter fun x => drop x = true).card)
  same F G := decide (F = G)

/-- A step names the sets that are there by their places. Handles are 32-bit numbers. -/
inductive SetStep
  | new
  | single (x : UInt32)
  | gather (xs : List UInt32)
  | copy (i : Nat)
  | add (i : Nat) (x : UInt32)
  | union (i j : Nat)
  | removeIf (i : Nat) (drop : Nat → Bool)
  | compare (i j : Nat)

inductive SetAnswer
  | made
  | added (new : Bool)
  | removed (count : Nat)
  | compared (same : Bool)
  | absent

namespace SetStep

variable {α β : Type}

/-- What a step does to the sets, and its answer. A union also leaves the set of what was new. -/
def act (form : SetForm α) (sets : List α) : SetStep → List α × SetAnswer
  | new => (sets ++ [form.empty], .made)
  | single x => (sets ++ [form.single x.toNat], .made)
  | gather xs => (sets ++ [form.gather (xs.map (·.toNat))], .made)
  | copy i =>
    match sets[i]? with
    | some s => (sets ++ [s], .made)
    | none => (sets, .absent)
  | add i x =>
    match sets[i]? with
    | some s => (sets.set i (form.add s x.toNat).1, .added (form.add s x.toNat).2)
    | none => (sets, .absent)
  | union i j =>
    match sets[i]?, sets[j]? with
    | some s, some t => (sets.set i (form.union s t).1 ++ [(form.union s t).2], .made)
    | _, _ => (sets, .absent)
  | removeIf i drop =>
    match sets[i]? with
    | some s => (sets.set i (form.removeIf s drop).1, .removed (form.removeIf s drop).2)
    | none => (sets, .absent)
  | compare i j =>
    match sets[i]?, sets[j]? with
    | some s, some t => (sets, .compared (form.same s t))
    | _, _ => (sets, .absent)

def run (form : SetForm α) : List SetStep → List α → List α × List SetAnswer
  | [], sets => (sets, [])
  | step :: rest, sets =>
    let next := step.act form sets
    let later := run form rest next.1
    (later.1, next.2 :: later.2)

/-- `R` relates the sets in two forms, and every operation keeps it and answers alike. -/
structure Matches (R : α → β → Prop) (f : SetForm α) (g : SetForm β) : Prop where
  empty : R f.empty g.empty
  single : ∀ x : UInt32, R (f.single x.toNat) (g.single x.toNat)
  gather : ∀ xs : List UInt32, R (f.gather (xs.map (·.toNat))) (g.gather (xs.map (·.toNat)))
  add : ∀ s a, R s a → ∀ x : UInt32,
    R (f.add s x.toNat).1 (g.add a x.toNat).1 ∧ (f.add s x.toNat).2 = (g.add a x.toNat).2
  union : ∀ s a t b, R s a → R t b →
    R (f.union s t).1 (g.union a b).1 ∧ R (f.union s t).2 (g.union a b).2
  removeIf : ∀ s a, R s a → ∀ drop,
    R (f.removeIf s drop).1 (g.removeIf a drop).1 ∧ (f.removeIf s drop).2 = (g.removeIf a drop).2
  same : ∀ s a t b, R s a → R t b → f.same s t = g.same a b

variable {R : α → β → Prop} {f : SetForm α} {g : SetForm β} {sets : List α} {others : List β} {s : α} {a : β}

theorem related_at (related : List.Forall₂ R sets others) (i : Nat) :
    (sets[i]? = none ∧ others[i]? = none) ∨
      ∃ s a, sets[i]? = some s ∧ others[i]? = some a ∧ R s a := by
  induction related generalizing i with
  | nil => exact Or.inl ⟨rfl, rfl⟩
  | cons head _ ih =>
    cases i with
    | zero => exact Or.inr ⟨_, _, rfl, rfl, head⟩
    | succ i => exact ih i

theorem related_set (related : List.Forall₂ R sets others) (pair : R s a) (i : Nat) :
    List.Forall₂ R (sets.set i s) (others.set i a) := by
  induction related generalizing i with
  | nil => exact List.Forall₂.nil
  | cons head tail ih =>
    cases i with
    | zero => exact List.Forall₂.cons pair tail
    | succ i => exact List.Forall₂.cons head (ih i)

theorem related_push (related : List.Forall₂ R sets others) (pair : R s a) :
    List.Forall₂ R (sets ++ [s]) (others ++ [a]) :=
  List.rel_append related (List.Forall₂.cons pair List.Forall₂.nil)

theorem act_matches (alike : Matches R f g) (related : List.Forall₂ R sets others) (step : SetStep) :
    List.Forall₂ R (step.act f sets).1 (step.act g others).1 ∧
      (step.act f sets).2 = (step.act g others).2 := by
  cases step with
  | new => exact ⟨related_push related alike.empty, rfl⟩
  | single x => exact ⟨related_push related (alike.single x), rfl⟩
  | gather xs => exact ⟨related_push related (alike.gather xs), rfl⟩
  | copy i =>
    rcases related_at related i with ⟨no, no'⟩ | ⟨s, a, found, found', pair⟩
    · simp [act, no, no', related]
    · simp [act, found, found', related_push related pair]
  | add i x =>
    rcases related_at related i with ⟨no, no'⟩ | ⟨s, a, found, found', pair⟩
    · simp [act, no, no', related]
    · obtain ⟨kept, answer⟩ := alike.add s a pair x
      simp [act, found, found', related_set related kept i, answer]
  | union i j =>
    rcases related_at related i with ⟨no, no'⟩ | ⟨s, a, found, found', pair⟩
    · simp [act, no, no', related]
    · rcases related_at related j with ⟨no, no'⟩ | ⟨t, b, other, other', pair'⟩
      · simp [act, found, found', no, no', related]
      · obtain ⟨kept, fresh⟩ := alike.union s a t b pair pair'
        simp [act, found, found', other, other', related_push (related_set related kept i) fresh]
  | removeIf i drop =>
    rcases related_at related i with ⟨no, no'⟩ | ⟨s, a, found, found', pair⟩
    · simp [act, no, no', related]
    · obtain ⟨kept, answer⟩ := alike.removeIf s a pair drop
      simp [act, found, found', related_set related kept i, answer]
  | compare i j =>
    rcases related_at related i with ⟨no, no'⟩ | ⟨s, a, found, found', pair⟩
    · simp [act, no, no', related]
    · rcases related_at related j with ⟨no, no'⟩ | ⟨t, b, other, other', pair'⟩
      · simp [act, found, found', no, no', related]
      · simp [act, found, found', other, other', related, alike.same s a t b pair pair']

theorem run_matches (alike : Matches R f g) (history : List SetStep)
    (related : List.Forall₂ R sets others) :
    List.Forall₂ R (run f history sets).1 (run g history others).1 ∧
      (run f history sets).2 = (run g history others).2 := by
  induction history generalizing sets others with
  | nil => exact ⟨related, rfl⟩
  | cons step rest ih =>
    obtain ⟨next, answer⟩ := act_matches alike related step
    obtain ⟨later, answers⟩ := ih next
    refine ⟨later, ?_⟩
    simp only [run, answer, answers]

end SetStep

namespace ObjSet

variable {s : ObjSet} {x : Nat} {ws : Words} {crowded : List Nat → Bool} {F : Finset Nat}

/-- Every handle is a 32-bit number, and a bitmap has a word for each of its members and none beyond
the 32-bit numbers: the handle of a bit is computed without overflow. -/
def Fits : ObjSet → Prop
  | sparse elems _ => ∀ x ∈ elems, x < UInt32.size
  | dense map => (∀ x ∈ map.toList, x / 64 < map.words.size) ∧ 64 * map.words.size ≤ UInt32.size

theorem Fits.lt (fits : s.Fits) (member : x ∈ s) : x < UInt32.size := by
  cases s with
  | sparse elems ascending => exact fits x member
  | dense map =>
    have room := fits.1 x member
    have bound := fits.2
    omega

theorem fits_dense {map : Bitmap} (bound : 64 * map.words.size ≤ UInt32.size) : (dense map).Fits :=
  ⟨fun _ member => Words.room_of_has (Bitmap.mem_toList.mp member), bound⟩

theorem size_markAll (xs : List Nat) (ws : Words) (room : ∀ x ∈ xs, x / 64 < ws.size) :
    (Words.markAll xs ws room).size = ws.size := by
  induction xs generalizing ws with
  | nil => rfl
  | cons x rest ih => rw [Words.markAll, ih, Words.size_mark]

theorem size_put_le (small : x < UInt32.size) (bound : 64 * ws.size ≤ UInt32.size) :
    64 * (ws.put x).size ≤ UInt32.size := by
  rw [Words.put, Words.size_mark, Words.grow, Array.size_append, Array.size_replicate]
  simp only [UInt32.size] at *
  omega

theorem size_foldl_put_le (xs : List Nat) (small : ∀ x ∈ xs, x < UInt32.size)
    (bound : 64 * ws.size ≤ UInt32.size) :
    64 * (xs.foldl Words.put ws).size ≤ UInt32.size := by
  induction xs generalizing ws with
  | nil => exact bound
  | cons x rest ih =>
    exact ih (fun y member => small y (List.mem_cons_of_mem _ member))
      (size_put_le (small x List.mem_cons_self) bound)

theorem fits_ofAscendingBy {elems : List Nat} (ascending : elems.Pairwise (· < ·))
    (small : ∀ x ∈ elems, x < UInt32.size) : (ofAscendingBy crowded elems ascending).Fits := by
  unfold ofAscendingBy
  split
  · refine fits_dense ?_
    have last : elems.getLast?.getD 0 < UInt32.size := by
      cases ends : elems.getLast? with
      | none => decide
      | some last => exact small last (List.mem_of_getLast? ends)
    rw [Bitmap.ofAscending, size_markAll, Array.size_replicate]
    simp only [UInt32.size] at *
    omega
  · exact small

theorem Fits.addBy (fits : s.Fits) (small : x < UInt32.size) : (addBy crowded s x).1.Fits := by
  cases s with
  | sparse elems ascending =>
    dsimp only [ObjSet.addBy]
    split
    · exact fits
    · refine fits_ofAscendingBy _ fun y member => ?_
      rcases mem_insertAscending.mp member with rfl | old
      · exact small
      · exact fits y old
  | dense map =>
    dsimp only [ObjSet.addBy, Bitmap.add]
    split
    · exact fits
    · exact fits_dense (size_put_le small fits.2)

theorem Fits.unionBy (crowded : List Nat → Bool) {other : ObjSet} (fits : s.Fits) (fits' : other.Fits) :
    (unionBy crowded s other).1.Fits ∧ (unionBy crowded s other).2.Fits := by
  have fresh : ∀ x ∈ s.newIn other, x < UInt32.size := fun x member =>
    fits'.lt (mem_newIn.mp member).1
  unfold ObjSet.unionBy
  dsimp only
  split
  · exact ⟨fits, fun x member => absurd member List.not_mem_nil⟩
  · cases s with
    | sparse elems ascending =>
      refine ⟨fits_ofAscendingBy _ fun y member => ?_, fresh⟩
      rcases (mem_mergeAscending (List.Pairwise.filter _ other.toList_ascending)).mp member with
        old | new
      · exact fits y old
      · exact fresh y new
    | dense map => exact ⟨fits_dense (size_foldl_put_le _ fresh fits.2), fresh⟩

theorem Fits.removeIf (fits : s.Fits) (drop : Nat → Bool) : (s.removeIf drop).1.Fits := by
  cases s with
  | sparse elems ascending => exact fun x member => fits x (List.mem_filter.mp member).1
  | dense map =>
    refine fits_dense ?_
    change 64 * (map.words.mapIdx _).size ≤ UInt32.size
    rw [Array.size_mapIdx]
    exact fits.2

/-- A set stands for a finite set: the same members, and all handles within 32 bits. -/
def StandsFor (s : ObjSet) (F : Finset Nat) : Prop := (∀ x, x ∈ s ↔ x ∈ F) ∧ s.Fits

theorem StandsFor.toFinset (stands : s.StandsFor F) : s.toList.toFinset = F :=
  Finset.ext fun x => List.mem_toFinset.trans (stands.1 x)

theorem StandsFor.count (stands : s.StandsFor F) (test : Nat → Bool) :
    s.toList.countP test = (F.filter fun x => test x = true).card := by
  have distinct : s.toList.Nodup := s.toList_ascending.imp fun less => Nat.ne_of_lt less
  rw [← stands.toFinset, List.countP_eq_length_filter, ← List.toFinset_filter,
    List.toFinset_card_of_nodup (distinct.filter _)]

theorem form_matches (crowded : List Nat → Bool) :
    SetStep.Matches StandsFor (ObjSet.form crowded) SetForm.finite where
  empty := ⟨fun x => by simp [ObjSet.form, SetForm.finite], fun x member => absurd member List.not_mem_nil⟩
  single x := by
    refine ⟨fun y => mem_singleton.trans Finset.mem_singleton.symm, fun y member => ?_⟩
    rw [List.mem_singleton.mp member]
    exact x.toNat_lt
  gather xs := by
    have small : ∀ y ∈ xs.map (·.toNat), y < UInt32.size := fun y member => by
      obtain ⟨x, _, rfl⟩ := List.mem_map.mp member
      exact x.toNat_lt
    refine ⟨fun y => mem_ofListBy.trans List.mem_toFinset.symm, ?_⟩
    refine fits_ofAscendingBy _ fun y member => small y ?_
    exact (@mem_ofListBy crowded _ _).mp (mem_ofAscendingBy.mpr member)
  add s F stands x := by
    refine ⟨⟨fun y => ?_, stands.2.addBy x.toNat_lt⟩, ?_⟩
    · exact mem_addBy.trans ((or_congr_right (stands.1 y)).trans Finset.mem_insert.symm)
    · rw [Bool.eq_iff_iff]
      exact addBy_new.trans ((not_congr (stands.1 _)).trans decide_eq_true_iff.symm)
  union s F t G stands stands' := by
    obtain ⟨fits, fits'⟩ := stands.2.unionBy crowded stands'.2
    refine ⟨⟨fun y => ?_, fits⟩, ⟨fun y => ?_, fits'⟩⟩
    · exact mem_unionBy_fst.trans ((or_congr (stands.1 y) (stands'.1 y)).trans Finset.mem_union.symm)
    · exact mem_unionBy_snd.trans
        ((and_congr (stands'.1 y) (not_congr (stands.1 y))).trans Finset.mem_sdiff.symm)
  removeIf s F stands drop := by
    refine ⟨⟨fun y => ?_, stands.2.removeIf drop⟩, (removeIf_count s drop).trans (stands.count drop)⟩
    refine mem_removeIf.trans ((and_congr_left' (stands.1 y)).trans ?_)
    exact (Finset.mem_filter (p := fun x => drop x = false)).symm
  same s F t G stands stands' := by
    rw [Bool.eq_iff_iff]
    refine beq_iff.trans (Iff.trans ?_ decide_eq_true_iff.symm)
    constructor
    · exact fun same => Finset.ext fun x => (stands.1 x).symm.trans ((same x).trans (stands'.1 x))
    · rintro rfl x
      exact (stands.1 x).trans (stands'.1 x).symm

/-- All that can be asked of a set, asked of the finite set that it represents. -/
structure Represents (s : ObjSet) (F : Finset Nat) : Prop where
  contains : ∀ x, s.contains x = decide (x ∈ F)
  size : s.size = F.card
  isEmpty : s.isEmpty = decide (F = ∅)
  toList : s.toList = F.sort (· ≤ ·)
  ascending : s.toList.Pairwise (· < ·)
  fits : s.Fits

theorem StandsFor.represents (stands : s.StandsFor F) : s.Represents F where
  contains x := by
    rw [Bool.eq_iff_iff]
    exact contains_iff.trans ((stands.1 x).trans decide_eq_true_iff.symm)
  size := by
    have all := stands.count fun _ => true
    rwa [List.countP_true, length_toList, Finset.filter_true_of_mem fun _ _ => rfl] at all
  isEmpty := by
    rw [Bool.eq_iff_iff, isEmpty_iff, decide_eq_true_iff, Finset.eq_empty_iff_forall_notMem]
    exact forall_congr' fun x => not_congr (stands.1 x)
  toList := by
    have distinct : s.toList.Nodup := s.toList_ascending.imp fun less => Nat.ne_of_lt less
    rw [← stands.toFinset]
    exact ((List.toFinset_sort (· ≤ ·) distinct).mpr
      (s.toList_ascending.imp fun less => Nat.le_of_lt less)).symm
  ascending := s.toList_ascending
  fits := stands.2

end ObjSet

/-- Sets of handles refine finite sets. After every history, and whichever lists become bitmaps, the
answers are those of finite sets: an addition says whether the handle was new, a union leaves the
union and the set of what was new, a removal takes out just what matches and counts it, and equal
sets are those with the same members. Each set represents the finite set at its place. -/
theorem set_history_refines (crowded : List Nat → Bool) (history : List SetStep) :
    (SetStep.run (ObjSet.form crowded) history []).2 = (SetStep.run SetForm.finite history []).2 ∧
      List.Forall₂ ObjSet.Represents (SetStep.run (ObjSet.form crowded) history []).1
        (SetStep.run SetForm.finite history []).1 := by
  obtain ⟨related, answers⟩ :=
    SetStep.run_matches (ObjSet.form_matches crowded) history List.Forall₂.nil
  exact ⟨answers, related.imp fun _ _ stands => stands.represents⟩

/-- The operations in use are those of the test in use. -/
example : ObjSet.form ObjSet.fills = {
    empty := ObjSet.empty, single := ObjSet.singleton, gather := ObjSet.ofList, add := ObjSet.add
    union := ObjSet.union, removeIf := ObjSet.removeIf, same := fun s t => s == t } := rfl

end PointsTo
