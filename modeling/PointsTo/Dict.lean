/-!
Finite maps, and two kinds of index on a growing array: one that gives the position of the item with a
key, and one that lists the positions of all items with a key.
-/
namespace PointsTo

/-- A list of keys with their values; the first entry of a key counts. -/
structure Dict (κ : Type u) (ν : Type v) where
  entries : List (κ × ν) := []

namespace Dict

variable {κ : Type u} {ν : Type v} [DecidableEq κ]

def get? (d : Dict κ ν) (k : κ) : Option ν := (d.entries.find? fun entry => entry.1 = k).map Prod.snd

def insert (d : Dict κ ν) (k : κ) (x : ν) : Dict κ ν := ⟨(k, x) :: d.entries⟩

def erase (d : Dict κ ν) (k : κ) : Dict κ ν := ⟨d.entries.filter fun entry => entry.1 ≠ k⟩

def isEmpty (d : Dict κ ν) : Bool := d.entries.isEmpty

/-- The list that stands under a key, empty for a key that is not there. -/
def list (d : Dict κ (List ν)) (k : κ) : List ν := (d.get? k).getD []

/-- Puts a value at the end of the list under a key. -/
def append (d : Dict κ (List ν)) (k : κ) (x : ν) : Dict κ (List ν) := d.insert k (d.list k ++ [x])

def append? (d : Dict κ (List ν)) (k? : Option κ) (x : ν) : Dict κ (List ν) :=
  match k? with
  | some k => d.append k x
  | none => d

variable {d : Dict κ ν} {k l : κ} {x : ν}

theorem get?_insert : (d.insert k x).get? l = if k = l then some x else d.get? l := by
  by_cases same : k = l <;> simp [get?, insert, same]

theorem get?_erase : (d.erase k).get? l = if k = l then none else d.get? l := by
  by_cases same : k = l
  · simp [get?, erase, same]
  · have kept : ∀ entry : κ × ν, (entry.1 ≠ k ∧ entry.1 = l) ↔ entry.1 = l := by grind
    simp [get?, erase, same, List.find?_filter, kept]

theorem isEmpty_iff : d.isEmpty = true ↔ ∀ k, d.get? k = none := by
  rcases d with ⟨_ | ⟨⟨k, x⟩, rest⟩⟩
  · simp [isEmpty, get?]
  · simp only [isEmpty, List.isEmpty_cons, Bool.false_eq_true, false_iff]
    exact fun none => by simpa [get?] using none k

theorem list_append? {d : Dict κ (List ν)} {k? : Option κ} :
    (d.append? k? x).list l = d.list l ++ if k? = some l then [x] else [] := by
  cases k? with
  | none => simp [append?]
  | some k => by_cases same : k = l <;> simp [append?, append, list, get?_insert, same]

variable {α : Type w} {items : Array α} {a : α}

/-- The map gives the position of the item with a key. -/
def Indexes (d : Dict κ Nat) (items : Array α) (key : α → κ) : Prop :=
  ∀ k i, d.get? k = some i ↔ ∃ a, items[i]? = some a ∧ key a = k

/-- Under a key the map lists the positions of the items with it, in order. -/
def Lists (d : Dict κ (List Nat)) (items : Array α) (key : α → Option κ) : Prop :=
  ∀ k, (d.list k).Pairwise (· < ·) ∧ ∀ i, i ∈ d.list k ↔ ∃ a, items[i]? = some a ∧ key a = some k

theorem Indexes.empty {key : α → κ} : Indexes {} #[] key := by simp [Indexes, get?]

theorem Lists.empty {key : α → Option κ} : Lists {} #[] key := by simp [Lists, list, get?]

/-- An item with a new key is put at the end. -/
theorem Indexes.push {d : Dict κ Nat} {key : α → κ} (indexes : d.Indexes items key)
    (fresh : d.get? (key a) = none) : (d.insert (key a) items.size).Indexes (items.push a) key := by
  intro k i
  have before := indexes k i
  -- no item had the key, and nothing stood at the new position
  have outside : items[items.size]? = none := by simp
  rw [get?_insert, Array.getElem?_push]
  by_cases same : key a = k <;> by_cases last : i = items.size <;> grind

theorem Lists.push {d : Dict κ (List Nat)} {key : α → Option κ} (lists : d.Lists items key) :
    (d.append? (key a) items.size).Lists (items.push a) key := by
  intro l
  obtain ⟨ordered, members⟩ := lists l
  -- positions that are listed lie below the new one, which therefore comes last
  have below : ∀ i ∈ d.list l, i < items.size := fun i member => by
    obtain ⟨_, found, _⟩ := (members i).mp member
    exact (Array.getElem?_eq_some_iff.mp found).1
  rw [list_append?]
  refine ⟨List.pairwise_append.mpr ⟨ordered, by split <;> simp, by grind⟩, fun i => ?_⟩
  rw [List.mem_append, members, Array.getElem?_push]
  by_cases last : i = items.size <;> grind

end Dict

end PointsTo
