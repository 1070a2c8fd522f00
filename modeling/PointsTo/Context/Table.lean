import PointsTo.Heap.Basic

/-!
Contexts: sequences of call sites, objects or classes, the most recent element last. The table of
contexts knows each sequence by its position; the empty sequence is at position 0.
-/
namespace PointsTo

abbrev ContextId := Nat

inductive ContextElem
  | callSite (site : StmtRef)
  | object (obj : ObjId)
  | type (cls : ClassId)
  deriving DecidableEq

abbrev Context := List ContextElem

def Context.recent (limit : Nat) (c : Context) : Context := c.drop (c.length - limit)

structure ContextTable where
  entries : Table Context
  initial : entries.get? 0 = some []

namespace ContextTable

/-- The context that every entry method runs in. -/
def emptyId : ContextId := 0

def empty : ContextTable := ⟨(Table.empty.intern []).1, by decide⟩

instance : Inhabited ContextTable := ⟨empty⟩

def size (t : ContextTable) : Nat := t.entries.size

def elems (t : ContextTable) (c : ContextId) : Context :=
  match t.entries.get? c with
  | some elems => elems
  | none => []

def intern (t : ContextTable) (c : Context) : ContextTable × ContextId :=
  (⟨(t.entries.intern c).1, Table.get?_intern_of_some t.initial⟩, (t.entries.intern c).2)

/-- The context `c` followed by `elem`, cut to its most recent `limit` elements. -/
def append (t : ContextTable) (c : ContextId) (elem : ContextElem) (limit : Nat) :
    ContextTable × ContextId :=
  if limit = 0 then (t, emptyId) else t.intern (Context.recent limit (t.elems c ++ [elem]))

def truncate (t : ContextTable) (c : ContextId) (limit : Nat) : ContextTable × ContextId :=
  if (t.elems c).length ≤ limit then (t, c) else t.intern (Context.recent limit (t.elems c))

def maxDepth (t : ContextTable) : Nat := t.entries.items.toList.foldl (fun n c => max n c.length) 0

end ContextTable

end PointsTo
