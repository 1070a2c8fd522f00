import PointsTo.CallGraph
import PointsTo.Dict

/-!
The worklist of the solver: call edges, and objects on their way to a pointer. Objects for one pointer wait
together, and a queue holds the pointers in the order in which the first objects of each were put; call edges
come first.
-/
namespace PointsTo

structure WorkQueue where
  calls : List CallEdge := []
  order : List PointerId := []
  waiting : Dict PointerId ObjSet := {}

inductive WorkItem
  | call (edge : CallEdge)
  | points (pointer : PointerId) (objs : ObjSet)

namespace WorkQueue

/-- Adds objects to those that wait for a pointer; a pointer that none waited for joins the queue. -/
def pushPoints (w : WorkQueue) (p : PointerId) (set : ObjSet) : WorkQueue :=
  if set.isEmpty then w
  else
    match w.waiting.get? p with
    | some held => { w with waiting := w.waiting.insert p (held.union set).1 }
    | none => { w with order := w.order ++ [p], waiting := w.waiting.insert p set }

def pushCall (w : WorkQueue) (e : CallEdge) : WorkQueue := { w with calls := w.calls ++ [e] }

/-- Takes pointers from the queue up to the first that objects wait for. -/
def next? (waiting : Dict PointerId ObjSet) : List PointerId → Option (PointerId × ObjSet × List PointerId)
  | [] => none
  | p :: rest =>
    match waiting.get? p with
    | some set => some (p, set, rest)
    | none => next? waiting rest

def poll? (w : WorkQueue) : Option (WorkItem × WorkQueue) :=
  match w.calls with
  | e :: rest => some (.call e, { w with calls := rest })
  | [] => (next? w.waiting w.order).map fun (p, set, rest) =>
      (.points p set, { w with order := rest, waiting := w.waiting.erase p })

def isEmpty (w : WorkQueue) : Bool := w.calls.isEmpty && w.waiting.isEmpty

/-- The queue holds the pointers that objects wait for, each once. -/
def Agrees (w : WorkQueue) : Prop := w.order.Nodup ∧ ∀ p, p ∈ w.order ↔ (w.waiting.get? p).isSome

theorem agrees_empty : Agrees {} := by simp [Agrees, Dict.get?]

variable {w : WorkQueue} (agrees : w.Agrees)

include agrees

theorem Agrees.pushPoints (p : PointerId) (set : ObjSet) : (w.pushPoints p set).Agrees := by
  obtain ⟨distinct, queued⟩ := agrees
  unfold WorkQueue.pushPoints
  split
  · exact ⟨distinct, queued⟩
  · split
    · exact ⟨distinct, by grind [Dict.get?_insert]⟩
    · exact ⟨by grind, by grind [Dict.get?_insert]⟩

/-- What a poll takes: the first call, or else all that waits for the first pointer of the queue. -/
theorem Agrees.poll?_cases :
    (w.poll? = none ∧ w.calls = [] ∧ w.order = []) ∨
      (∃ e later, w.calls = e :: later ∧ w.poll? = some (.call e, { w with calls := later })) ∨
      ∃ p set later, w.calls = [] ∧ w.order = p :: later ∧ w.waiting.get? p = some set ∧
        w.poll? = some (.points p set, { w with order := later, waiting := w.waiting.erase p }) := by
  obtain ⟨calls, order, waiting⟩ := w
  cases calls with
  | cons e later => exact Or.inr (Or.inl ⟨e, later, rfl, rfl⟩)
  | nil =>
    cases order with
    | nil => exact Or.inl ⟨rfl, rfl, rfl⟩
    | cons p later =>
      obtain ⟨set, found⟩ := Option.isSome_iff_exists.mp ((agrees.2 p).mp List.mem_cons_self)
      exact Or.inr (Or.inr ⟨p, set, later, rfl, rfl, found, by simp [poll?, next?, found]⟩)

theorem Agrees.poll? {item : WorkItem} {rest : WorkQueue} (polled : w.poll? = some (item, rest)) :
    rest.Agrees := by
  rcases agrees.poll?_cases with ⟨none, _⟩ | ⟨e, later, _, same⟩ | ⟨p, set, later, _, order, _, same⟩
  · rw [none] at polled
    cases polled
  · rw [same] at polled
    cases polled
    exact agrees
  · rw [same] at polled
    cases polled
    -- the pointer leaves the queue and the map together
    obtain ⟨distinct, queued⟩ := agrees
    exact ⟨by grind, by grind [Dict.get?_erase]⟩

end WorkQueue

structure Worklist extends WorkQueue where
  agrees : toWorkQueue.Agrees := by exact WorkQueue.agrees_empty

namespace Worklist

def pushPoints (w : Worklist) (p : PointerId) (set : ObjSet) : Worklist :=
  ⟨w.toWorkQueue.pushPoints p set, w.agrees.pushPoints p set⟩

def pushCall (w : Worklist) (e : CallEdge) : Worklist := ⟨w.toWorkQueue.pushCall e, w.agrees⟩

def poll? (w : Worklist) : Option (WorkItem × Worklist) :=
  match h : w.toWorkQueue.poll? with
  | none => none
  | some (item, rest) => some (item, ⟨rest, w.agrees.poll? h⟩)

end Worklist

end PointsTo
