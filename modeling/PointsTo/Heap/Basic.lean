import PointsTo.Dump
import PointsTo.Table

/-!
The heap: the table of abstract objects, and the rules by which allocations and constants become
objects. With merging on, all allocations of one string class are one object.
-/
namespace PointsTo

abbrev ObjId := Nat

structure HeapRules where
  mergeStrings : Bool
  stringClasses : List ClassId
  stringTy : Ty
  classTy : Ty

namespace HeapRules

def ofProgram (p : Program) (mergeStrings : Bool) : HeapRules :=
  { mergeStrings
    stringClasses := ["java.lang.String", "java.lang.StringBuilder",
      "java.lang.StringBuffer"].filterMap p.classByName?
    stringTy := Ty.ofClass? (p.classByName? "java.lang.String")
    classTy := Ty.ofClass? (p.classByName? "java.lang.Class") }

def merges (r : HeapRules) : Ty → Bool
  | .cls c => r.mergeStrings && r.stringClasses.contains c
  | _ => false

def allocated (r : HeapRules) (site : StmtRef) (ty : Ty) : Obj :=
  if r.merges ty then Obj.mock .mergedString (.type ty) ty else ⟨.allocated site, ty⟩

def literalTy (r : HeapRules) : Literal → Ty
  | .str _ => r.stringTy
  | .cls _ => r.classTy
  | .int _ => .prim .int
  | .float _ => .prim .double
  | .null => .null

def constant (r : HeapRules) (value : Literal) : Obj := ⟨.constant value, r.literalTy value⟩

end HeapRules

structure Heap where
  rules : HeapRules
  objects : Table Obj

namespace Heap

def ofProgram (p : Program) (mergeStrings : Bool) : Heap :=
  ⟨HeapRules.ofProgram p mergeStrings, Table.empty⟩

def size (h : Heap) : Nat := h.objects.size

def get? (h : Heap) (o : ObjId) : Option Obj := h.objects.get? o

def intern (h : Heap) (o : Obj) : Heap × ObjId :=
  let (objects, id) := h.objects.intern o
  ({ h with objects }, id)

def internAll (h : Heap) (os : List Obj) : Heap := { h with objects := h.objects.internAll os }

def dump (h : Heap) : String :=
  dumpRecord "HeapModel"
    [("objects", toString h.size), ("merge_string_objects", dumpBool h.rules.mergeStrings)]

end Heap

end PointsTo
