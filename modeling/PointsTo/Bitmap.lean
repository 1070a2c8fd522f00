import PointsTo.Ascending

/-!
Bitmaps: sets of numbers as 64-bit words. The set bits of a word are visited from the lowest to the
highest by clearing the lowest one again and again. A bitmap keeps the number of its set bits beside
the words, and the proof that the number is right.
-/
namespace PointsTo

abbrev Word := BitVec 64

namespace Word

def bit (i : Nat) : Word := 1#64 <<< i

def dropLowest (w : Word) : Word := w &&& (w - 1#64)

theorem dropLowest_lt {w : Word} (some : w ≠ 0#64) : w.dropLowest.toNat < w.toNat := by
  have positive : w.toNat ≠ 0 := fun zero => some (BitVec.eq_of_toNat_eq (by simpa using zero))
  have below : w.dropLowest.toNat ≤ (w - 1#64).toNat := by
    rw [dropLowest, BitVec.toNat_and]
    exact Nat.and_le_right
  rw [BitVec.toNat_sub_of_le (by rw [BitVec.le_def, BitVec.toNat_ofNat]; omega), BitVec.toNat_ofNat]
    at below
  omega

/-- The places of the set bits, ascending. -/
def places (w : Word) : List Nat :=
  if _none : w = 0#64 then [] else w.ctz.toNat :: places w.dropLowest
termination_by w.toNat
decreasing_by exact dropLowest_lt _none

/-- The word without the bits at the places that `drop` names, and how many these are. -/
def clear (drop : Nat → Bool) (w : Word) : Word × Nat :=
  w.places.foldl (fun r i => if drop i then (r.1 &&& ~~~ bit i, r.2 + 1) else r) (w, 0)

theorem getLsbD_bit (i j : Nat) (bound : j < 64) : (bit i).getLsbD j = decide (j = i) := by
  unfold bit
  rw [BitVec.getLsbD_shiftLeft, BitVec.getLsbD_one]
  by_cases same : j = i
  · subst same
    simp [bound]
  · by_cases below : j < i
    · simp [below, same]
    · have apart : j - i ≠ 0 := by omega
      simp [same, apart]

/-- A bit stays just when a lower one is set. -/
theorem getLsbD_dropLowest (w : Word) (i : Nat) :
    w.dropLowest.getLsbD i = true ↔ w.getLsbD i = true ∧ ∃ j, j < i ∧ w.getLsbD j = true := by
  rw [dropLowest, BitVec.getLsbD_and, ← BitVec.not_neg, BitVec.getLsbD_not, BitVec.getLsbD_neg]
  cases set : w.getLsbD i with
  | false => simp
  | true => simp [BitVec.lt_of_getLsbD set]

theorem mem_places {w : Word} {i : Nat} : i ∈ w.places ↔ w.getLsbD i = true := by
  fun_induction places w with
  | case1 => simp
  | case2 w some ih =>
    have lowest := BitVec.getLsbD_true_ctz_of_ne_zero some
    rw [List.mem_cons, ih, getLsbD_dropLowest]
    constructor
    · rintro (rfl | ⟨set, _⟩)
      · exact lowest
      · exact set
    · intro set
      rcases Nat.lt_trichotomy i w.ctz.toNat with below | same | above
      · rw [BitVec.getLsbD_false_of_lt_ctz below] at set
        cases set
      · exact Or.inl same
      · exact Or.inr ⟨set, _, above, lowest⟩

theorem places_ascending (w : Word) : w.places.Pairwise (· < ·) := by
  fun_induction places w with
  | case1 => exact List.Pairwise.nil
  | case2 w some ih =>
    refine List.pairwise_cons.mpr ⟨fun i member => ?_, ih⟩
    obtain ⟨_, j, lower, set⟩ := (getLsbD_dropLowest w i).mp (mem_places.mp member)
    have notBelow : ¬ j < w.ctz.toNat := fun below => by
      rw [BitVec.getLsbD_false_of_lt_ctz below] at set
      cases set
    omega

theorem getLsbD_clear_bit (w : Word) (i j : Nat) (bound : j < 64) :
    (w &&& ~~~ bit i).getLsbD j = (w.getLsbD j && !decide (j = i)) := by
  rw [BitVec.getLsbD_and, BitVec.getLsbD_not, getLsbD_bit i j bound]
  simp [bound]

theorem getLsbD_foldl_clear (drop : Nat → Bool) (places : List Nat) (r : Word × Nat) (j : Nat)
    (bound : j < 64) :
    (places.foldl (fun r i => if drop i then (r.1 &&& ~~~ bit i, r.2 + 1) else r) r).1.getLsbD j =
      (r.1.getLsbD j && !(decide (j ∈ places) && drop j)) := by
  induction places generalizing r with
  | nil => simp
  | cons i rest ih =>
    rw [List.foldl_cons, ih]
    by_cases named : drop i = true
    · rw [if_pos named, getLsbD_clear_bit r.1 i j bound]
      by_cases same : j = i
      · subst same
        simp [named]
      · simp [same]
    · rw [if_neg named]
      by_cases same : j = i
      · subst same
        simp [named]
      · simp [same]

theorem getLsbD_clear (drop : Nat → Bool) (w : Word) (j : Nat) (bound : j < 64) :
    (clear drop w).1.getLsbD j = (w.getLsbD j && !drop j) := by
  unfold clear
  rw [getLsbD_foldl_clear drop _ _ j bound]
  cases set : w.getLsbD j <;> simp [mem_places, set]

theorem foldl_clear_count (drop : Nat → Bool) (places : List Nat) (r : Word × Nat) :
    (places.foldl (fun r i => if drop i then (r.1 &&& ~~~ bit i, r.2 + 1) else r) r).2 =
      r.2 + places.countP drop := by
  induction places generalizing r with
  | nil => rfl
  | cons i rest ih =>
    rw [List.foldl_cons, ih, List.countP_cons]
    by_cases named : drop i = true
    · rw [if_pos named, if_pos named]
      omega
    · rw [if_neg named, if_neg named, Nat.add_zero]

theorem clear_count (drop : Nat → Bool) (w : Word) : (clear drop w).2 = w.places.countP drop := by
  rw [clear, foldl_clear_count, Nat.zero_add]

end Word

abbrev Words := Array Word

namespace Words

def has (ws : Words) (x : Nat) : Bool :=
  match ws[x / 64]? with
  | some w => w.getLsbD (x % 64)
  | none => false

def members (ws : Words) : List Nat :=
  ws.toList.zipIdx.flatMap fun x => x.1.places.map (64 * x.2 + ·)

def grow (ws : Words) (i : Nat) : Words := ws ++ Array.replicate (i + 1 - ws.size) 0#64

def mark (ws : Words) (x : Nat) (room : x / 64 < ws.size) : Words :=
  ws.set (x / 64) (ws[x / 64] ||| Word.bit (x % 64)) room

theorem size_mark (ws : Words) (x : Nat) (room : x / 64 < ws.size) : (ws.mark x room).size = ws.size :=
  Array.size_set room

theorem room_grow (ws : Words) (i : Nat) : i < (ws.grow i).size := by
  simp [grow]
  omega

/-- Sets the bit of a number, with more words if need be. -/
def put (ws : Words) (x : Nat) : Words := (ws.grow (x / 64)).mark x (ws.room_grow (x / 64))

def markAll : (xs : List Nat) → (ws : Words) → (room : ∀ x ∈ xs, x / 64 < ws.size) → Words
  | [], ws, _ => ws
  | x :: rest, ws, room =>
    markAll rest (ws.mark x (room x List.mem_cons_self)) fun y member => by
      rw [size_mark]
      exact room y (List.mem_cons_of_mem _ member)

/-- The words without the numbers that `drop` names, and how many these are. -/
def sweep (drop : Nat → Bool) (ws : Words) : Words × Nat :=
  (ws.mapIdx fun i w => (Word.clear (fun j => drop (64 * i + j)) w).1,
    ws.toList.zipIdx.foldl (fun n x => n + (Word.clear (fun j => drop (64 * x.2 + j)) x.1).2) 0)

theorem mem_members {ws : Words} {x : Nat} : x ∈ ws.members ↔ ws.has x = true := by
  unfold members has
  rw [List.mem_flatMap]
  constructor
  · rintro ⟨⟨w, i⟩, member, placed⟩
    rw [List.mem_zipIdx_iff_getElem?, Array.getElem?_toList] at member
    obtain ⟨j, set, rfl⟩ := List.mem_map.mp placed
    rw [Word.mem_places] at set
    have bound := BitVec.lt_of_getLsbD set
    have word : (64 * i + j) / 64 = i := by omega
    have place : (64 * i + j) % 64 = j := by omega
    rw [word, place, member]
    exact set
  · intro held
    cases found : ws[x / 64]? with
    | none => simp [found] at held
    | some w =>
      rw [found] at held
      refine ⟨(w, x / 64), ?_, List.mem_map.mpr ⟨x % 64, Word.mem_places.mpr held, by simp only; omega⟩⟩
      rw [List.mem_zipIdx_iff_getElem?, Array.getElem?_toList]
      exact found

theorem members_ascending (ws : Words) : ws.members.Pairwise (· < ·) := by
  unfold members
  rw [List.pairwise_flatMap]
  constructor
  · intro x _
    rw [List.pairwise_map]
    refine List.Pairwise.imp ?_ x.1.places_ascending
    intro a b
    omega
  · rw [List.pairwise_iff_getElem]
    intro i j hi hj before a ha b hb
    simp only [List.getElem_zipIdx, Nat.zero_add, List.mem_map, Word.mem_places] at ha hb
    obtain ⟨c, hc, rfl⟩ := ha
    obtain ⟨d, hd, rfl⟩ := hb
    have := BitVec.lt_of_getLsbD hc
    omega

theorem room_of_has {ws : Words} {x : Nat} (held : ws.has x = true) : x / 64 < ws.size := by
  unfold has at held
  split at held
  · next w found => exact (Array.getElem?_eq_some_iff.mp found).1
  · cases held

theorem has_grow (ws : Words) (i x : Nat) : (ws.grow i).has x = ws.has x := by
  unfold has grow
  rw [Array.getElem?_append]
  by_cases within : x / 64 < ws.size
  · rw [if_pos within]
  · rw [if_neg within, Array.getElem?_eq_none (Nat.le_of_not_lt within), Array.getElem?_replicate]
    by_cases new : x / 64 - ws.size < i + 1 - ws.size
    · rw [if_pos new]
      exact BitVec.getLsbD_zero
    · rw [if_neg new]

theorem has_mark {ws : Words} {x y : Nat} {room : x / 64 < ws.size} :
    (ws.mark x room).has y = true ↔ y = x ∨ ws.has y = true := by
  unfold has mark
  rw [Array.getElem?_set]
  -- only the word of `x` changes, and in it only the place of `x`
  by_cases same : x / 64 = y / 64
  · simp only [same, ↓reduceIte]
    rw [BitVec.getLsbD_or, Word.getLsbD_bit _ _ (Nat.mod_lt _ (by decide)),
      Array.getElem?_eq_getElem (same ▸ room)]
    simp only [Bool.or_eq_true, decide_eq_true_eq]
    constructor
    · rintro (held | place)
      · exact Or.inr held
      · exact Or.inl (by omega)
    · rintro (equal | held)
      · exact Or.inr (by omega)
      · exact Or.inl held
  · have apart : y ≠ x := by
      rintro rfl
      exact same rfl
    simp [same, apart]

theorem has_put {ws : Words} {x y : Nat} : (ws.put x).has y = true ↔ y = x ∨ ws.has y = true := by
  rw [put, has_mark, has_grow]

theorem has_markAll {xs : List Nat} {ws : Words} {room : ∀ x ∈ xs, x / 64 < ws.size} {y : Nat} :
    (markAll xs ws room).has y = true ↔ y ∈ xs ∨ ws.has y = true := by
  induction xs generalizing ws with
  | nil => simp [markAll]
  | cons x rest ih =>
    rw [markAll, ih, has_mark, List.mem_cons]
    constructor
    · rintro (later | equal | held)
      · exact Or.inl (Or.inr later)
      · exact Or.inl (Or.inl equal)
      · exact Or.inr held
    · rintro ((equal | later) | held)
      · exact Or.inr (Or.inl equal)
      · exact Or.inl later
      · exact Or.inr (Or.inr held)

theorem has_sweep (drop : Nat → Bool) (ws : Words) (x : Nat) :
    (ws.sweep drop).1.has x = (ws.has x && !drop x) := by
  unfold has sweep
  simp only [Array.getElem?_mapIdx]
  cases ws[x / 64]? with
  | none => simp
  | some w =>
    have place : 64 * (x / 64) + x % 64 = x := by omega
    simp only [Option.map_some]
    rw [Word.getLsbD_clear _ w _ (Nat.mod_lt _ (by decide)), place]

theorem has_blank (n x : Nat) : Words.has (Array.replicate n 0#64) x = false := by
  unfold has
  rw [Array.getElem?_replicate]
  by_cases within : x / 64 < n
  · rw [if_pos within]
    exact BitVec.getLsbD_zero
  · rw [if_neg within]

theorem members_put {ws : Words} {x : Nat} : (ws.put x).members = insertAscending x ws.members :=
  ascending_ext (members_ascending _) (insertAscending_ascending (members_ascending _)) fun y => by
    rw [mem_members, has_put, mem_insertAscending, mem_members]

theorem length_put {ws : Words} {x : Nat} (fresh : ws.has x = false) :
    (ws.put x).members.length = ws.members.length + 1 := by
  rw [members_put, length_insertAscending]
  rw [mem_members, fresh]
  exact Bool.false_ne_true

theorem length_foldl_put (xs : List Nat) (ws : Words) (apart : xs.Pairwise (· < ·))
    (fresh : ∀ x ∈ xs, ws.has x = false) :
    (xs.foldl put ws).members.length = ws.members.length + xs.length := by
  induction xs generalizing ws with
  | nil => rfl
  | cons x rest ih =>
    obtain ⟨below, tail⟩ := List.pairwise_cons.mp apart
    have still : ∀ y ∈ rest, (ws.put x).has y = false := fun y member => by
      rw [← Bool.not_eq_true, has_put]
      rintro (equal | held)
      · have := below y member
        omega
      · rw [fresh y (List.mem_cons_of_mem _ member)] at held
        cases held
    rw [List.foldl_cons, ih _ tail still, length_put (fresh x List.mem_cons_self), List.length_cons]
    omega

theorem has_foldl_put (xs : List Nat) (ws : Words) (y : Nat) :
    (xs.foldl put ws).has y = true ↔ y ∈ xs ∨ ws.has y = true := by
  induction xs generalizing ws with
  | nil => simp
  | cons x rest ih =>
    rw [List.foldl_cons, ih, has_put, List.mem_cons]
    constructor
    · rintro (later | equal | held)
      · exact Or.inl (Or.inr later)
      · exact Or.inl (Or.inl equal)
      · exact Or.inr held
    · rintro ((equal | later) | held)
      · exact Or.inr (Or.inl equal)
      · exact Or.inl later
      · exact Or.inr (Or.inr held)

theorem members_sweep (drop : Nat → Bool) (ws : Words) :
    (ws.sweep drop).1.members = ws.members.filter fun x => !drop x :=
  ascending_ext (members_ascending _) (List.Pairwise.filter _ (members_ascending _)) fun x => by
    rw [mem_members, has_sweep, List.mem_filter, mem_members, Bool.and_eq_true]

theorem sweep_count (drop : Nat → Bool) (ws : Words) : (ws.sweep drop).2 = ws.members.countP drop := by
  have counts : ∀ (l : List (Word × Nat)) (n : Nat),
      l.foldl (fun n x => n + (Word.clear (fun j => drop (64 * x.2 + j)) x.1).2) n =
        n + (l.flatMap fun x => x.1.places.map (64 * x.2 + ·)).countP drop := by
    intro l
    induction l with
    | nil => exact fun _ => rfl
    | cons x rest ih =>
      intro n
      rw [List.foldl_cons, ih, List.flatMap_cons, List.countP_append, List.countP_map, Word.clear_count,
        Nat.add_assoc]
      rfl
  exact (counts _ 0).trans (Nat.zero_add _)

end Words

structure Bitmap where
  words : Words
  count : Nat
  counted : count = words.members.length

namespace Bitmap

def contains (m : Bitmap) (x : Nat) : Bool := m.words.has x

def toList (m : Bitmap) : List Nat := m.words.members

/-- The bitmap with `x` in it; the answer says whether `x` is new. -/
def add (m : Bitmap) (x : Nat) : Bitmap × Bool :=
  if held : m.words.has x = true then
    (m, false)
  else
    (⟨m.words.put x, m.count + 1, by rw [Words.length_put (Bool.not_eq_true _ ▸ held), m.counted]⟩, true)

def addNew (m : Bitmap) (xs : List Nat) (apart : xs.Pairwise (· < ·))
    (fresh : ∀ x ∈ xs, m.words.has x = false) : Bitmap :=
  ⟨xs.foldl Words.put m.words, m.count + xs.length, by
    rw [Words.length_foldl_put xs m.words apart fresh, m.counted]⟩

def ofAscending (xs : List Nat) (ascending : xs.Pairwise (· < ·)) : Bitmap :=
  have room : ∀ x ∈ xs, x / 64 < (Array.replicate ((xs.getLast?.getD 0 + 64) / 64) (0#64 : Word)).size := by
    intro x member
    cases ends : xs.getLast? with
    | none => exact absurd (List.getLast?_eq_none_iff.mp ends ▸ member) List.not_mem_nil
    | some last =>
      have := le_getLast_of_ascending ascending ends member
      rw [Array.size_replicate, Option.getD_some]
      omega
  ⟨Words.markAll xs (Array.replicate ((xs.getLast?.getD 0 + 64) / 64) 0#64) room, xs.length, by
    refine congrArg List.length (ascending_ext ascending (Words.members_ascending _) fun x => ?_)
    rw [Words.mem_members, Words.has_markAll, Words.has_blank]
    simp⟩

def removeIf (m : Bitmap) (drop : Nat → Bool) : Bitmap × Nat :=
  (⟨(m.words.sweep drop).1, m.count - (m.words.sweep drop).2, by
    rw [Words.members_sweep, Words.sweep_count, m.counted, ← List.countP_eq_length_filter]
    have parts := List.length_eq_countP_add_countP drop (l := m.words.members)
    simp only [Bool.not_eq_true, Bool.decide_eq_false] at parts
    omega⟩, (m.words.sweep drop).2)

theorem toList_ascending (m : Bitmap) : m.toList.Pairwise (· < ·) := m.words.members_ascending

end Bitmap

end PointsTo
