import PointsTo.Context.Table
import PointsTo.ObjSet

/-!
Things under contexts: objects, call sites, methods and pointers, each interned in a table of its
own. Every pointer has one slot for its points-to set and the filters attached to it, and the pointers of
each variable are kept in a list.
-/
namespace PointsTo

abbrev CsObjId := Nat
abbrev CsSiteId := Nat
abbrev CsMethodId := Nat
abbrev PointerId := Nat

inductive Pointer
  | var (context : ContextId) (v : VarId)
  | field (base : CsObjId) (f : FieldId)
  | element (array : CsObjId)
  | static (f : FieldId)
  deriving DecidableEq

namespace Pointer

def var? : Pointer → Option (ContextId × VarId)
  | var c v => some (c, v)
  | _ => none

end Pointer

structure Slot where
  /-- None until something arrives at the pointer. -/
  pts : Option ObjSet := none
  /-- Objects that some filter refuses never enter the set. -/
  filters : List (Obj → Bool) := []

structure Elements where
  objs : Table (ContextId × ObjId) := Table.empty
  sites : Table (ContextId × StmtRef) := Table.empty
  methods : Table (ContextId × MethodId) := Table.empty
  pointers : Table Pointer := Table.empty
  slots : Array Slot := #[]
  slots_size : slots.size = pointers.size := by rfl
  vars : Dict VarId (List PointerId) := {}
  vars_listed : vars.Lists pointers.items fun p => p.var?.map Prod.snd := by exact Dict.Lists.empty

namespace Elements

def obj? (e : Elements) (o : CsObjId) : Option (ContextId × ObjId) := e.objs.get? o

def site? (e : Elements) (s : CsSiteId) : Option (ContextId × StmtRef) := e.sites.get? s

def method? (e : Elements) (m : CsMethodId) : Option (ContextId × MethodId) := e.methods.get? m

def pointer? (e : Elements) (p : PointerId) : Option Pointer := e.pointers.get? p

def findPointer? (e : Elements) (p : Pointer) : Option PointerId := e.pointers.find? p

def findMethod? (e : Elements) (c : ContextId) (m : MethodId) : Option CsMethodId :=
  e.methods.find? (c, m)

def internObj (e : Elements) (c : ContextId) (o : ObjId) : Elements × CsObjId :=
  ({ e with objs := (e.objs.intern (c, o)).1 }, (e.objs.intern (c, o)).2)

def internSite (e : Elements) (c : ContextId) (s : StmtRef) : Elements × CsSiteId :=
  ({ e with sites := (e.sites.intern (c, s)).1 }, (e.sites.intern (c, s)).2)

def internMethod (e : Elements) (c : ContextId) (m : MethodId) : Elements × CsMethodId :=
  ({ e with methods := (e.methods.intern (c, m)).1 }, (e.methods.intern (c, m)).2)

/-- Interns a pointer; a new pointer gets an empty slot, and joins the pointers of its variable. -/
def internPointer (e : Elements) (p : Pointer) : Elements × PointerId :=
  match h : e.pointers.find? p with
  | some i => (e, i)
  | none =>
    ({ e with
        pointers := e.pointers.push p h
        slots := e.slots.push {}
        slots_size := by
          rw [Array.size_push, e.slots_size, Table.size_push]
        vars := e.vars.append? (p.var?.map Prod.snd) e.pointers.size
        vars_listed := e.vars_listed.push },
      e.pointers.size)

/-- The points-to set of a pointer; none where nothing ever arrived. -/
def pts? (e : Elements) (p : PointerId) : Option ObjSet := e.slots[p]?.bind (·.pts)

def filters (e : Elements) (p : PointerId) : List (Obj → Bool) :=
  match e.slots[p]? with
  | some slot => slot.filters
  | none => []

def modifySlot (e : Elements) (p : PointerId) (f : Slot → Slot) : Elements :=
  { e with
    slots := e.slots.modify p f
    slots_size := by rw [Array.size_modify, e.slots_size] }

def setPts (e : Elements) (p : PointerId) (set : ObjSet) : Elements :=
  e.modifySlot p fun slot => { slot with pts := some set }

def addFilter (e : Elements) (p : PointerId) (keep : Obj → Bool) : Elements :=
  e.modifySlot p fun slot => { slot with filters := slot.filters ++ [keep] }

def allPointers (e : Elements) : List (PointerId × Pointer) :=
  e.pointers.items.toList.zipIdx.map fun (p, i) => (i, p)

/-- The pointers of a variable, one for each context that it was met in. -/
def varsOf (e : Elements) (v : VarId) : List PointerId := e.vars.list v

def varPts? (e : Elements) (c : ContextId) (v : VarId) : Option ObjSet :=
  (e.findPointer? (.var c v)).bind e.pts?

def dump (e : Elements) : String :=
  dumpRecord "CsManager"
    [("objs", toString e.objs.size), ("call_sites", toString e.sites.size),
      ("methods", toString e.methods.size), ("pointers", toString e.pointers.size)]

end Elements

end PointsTo
