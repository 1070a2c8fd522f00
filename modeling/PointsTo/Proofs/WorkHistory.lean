import PointsTo.Proofs.Scaling

/-!
Histories of a worklist. Pushes and polls come in any order and are kept in a log; from the log alone it
follows which pushes were not delivered yet, and what a poll has to take. The worklist holds just that.
-/
namespace PointsTo

inductive WorkStep
  | points (p : PointerId) (set : ObjSet)
  | call (e : CallEdge)
  | poll

/-- What a step did: a poll takes something, or there is nothing to tell of it. -/
inductive WorkEvent
  | points (p : PointerId) (set : ObjSet)
  | call (e : CallEdge)
  | take (item : WorkItem)

namespace WorkEvent

def pushed? : WorkEvent → Option CallEdge
  | call e => some e
  | _ => none

def taken? : WorkEvent → Option CallEdge
  | take (.call e) => some e
  | _ => none

def track (waiting : List (PointerId × ObjSet)) : WorkEvent → List (PointerId × ObjSet)
  | points p set => if set.isEmpty then waiting else waiting ++ [(p, set)]
  | take (.points p _) => waiting.filter (·.1 != p)
  | _ => waiting

/-- The pushes of objects that were not delivered, the oldest first: with a pointer all its pushes are. -/
def undelivered (log : List WorkEvent) : List (PointerId × ObjSet) := log.foldl track []

/-- What has to be taken after a log: the oldest call that was not taken, or, if there is none, all that was
pushed to the pointer with the oldest push. -/
inductive Due (log : List WorkEvent) : WorkItem → Prop
  | call {e : CallEdge} {later : List CallEdge}
      (next : log.filterMap pushed? = log.filterMap taken? ++ e :: later) : Due log (.call e)
  | points {p : PointerId} {set : ObjSet} (calls : log.filterMap pushed? = log.filterMap taken?)
      (oldest : (undelivered log).head?.map Prod.fst = some p) (some : ∃ o, o ∈ set)
      (all : ∀ o, o ∈ set ↔ ∃ pushed, (p, pushed) ∈ undelivered log ∧ o ∈ pushed) : Due log (.points p set)

theorem undelivered_snoc (log : List WorkEvent) (x : WorkEvent) :
    undelivered (log ++ [x]) = track (undelivered log) x := List.foldl_append

end WorkEvent

namespace WorkQueue

open WorkEvent

def act (x : WorkQueue × List WorkEvent) : WorkStep → WorkQueue × List WorkEvent
  | .points p set => (x.1.pushPoints p set, x.2 ++ [.points p set])
  | .call e => (x.1.pushCall e, x.2 ++ [.call e])
  | .poll =>
    match x.1.poll? with
    | none => x
    | some (item, rest) => (rest, x.2 ++ [.take item])

def run (steps : List WorkStep) : WorkQueue × List WorkEvent := steps.foldl act ({}, [])

/-- The queue and the map of a worklist agree, they hold what a log left in them, in order, and the log has no
other losses and no gains. -/
structure Accounts (w : WorkQueue) (log : List WorkEvent) : Prop where
  agrees : w.order.Nodup ∧ ∀ p, p ∈ w.order ↔ (w.waiting.get? p).isSome
  order : w.order = ((undelivered log).map Prod.fst).eraseDups
  filled : ∀ p set, w.waiting.get? p = some set → ∃ o, o ∈ set
  pending : ∀ p o, w.Pending p o ↔ ∃ set, (p, set) ∈ undelivered log ∧ o ∈ set
  calls : log.filterMap pushed? = log.filterMap taken? ++ w.calls
  conserved : ∀ p o, (∃ set, .points p set ∈ log ∧ o ∈ set) ↔
    (∃ set, .take (.points p set) ∈ log ∧ o ∈ set) ∨ w.Pending p o
  due : ∀ past item, past ++ [.take item] <+: log → Due past item

variable {w : WorkQueue} {log : List WorkEvent} {p : PointerId} {set : ObjSet}

theorem Agrees.order_pushPoints (agrees : w.Agrees) : (w.pushPoints p set).order =
    if set.isEmpty then w.order else if p ∈ w.order then w.order else w.order ++ [p] := by
  unfold WorkQueue.pushPoints
  split
  · rfl
  · split <;> simp [agrees.2, *]

theorem filled_pushPoints (filled : ∀ p set, w.waiting.get? p = some set → ∃ o, o ∈ set) {q : PointerId}
    {held : ObjSet} (found : (w.pushPoints p set).waiting.get? q = some held) : ∃ o, o ∈ held := by
  unfold WorkQueue.pushPoints at found
  split at found
  · exact filled q held found
  · next some =>
    rw [ObjSet.isEmpty_iff] at some
    obtain ⟨o, member⟩ : ∃ o, o ∈ set := by simpa using some
    -- what was pushed is in the new entry, with what waited before or alone
    split at found
    · rw [Dict.get?_insert] at found
      split at found
      · cases found
        exact ⟨o, ObjSet.mem_union_fst.mpr (Or.inr member)⟩
      · exact filled q held found
    · grind [Dict.get?_insert]

theorem due_snoc (due : ∀ past item, past ++ [.take item] <+: log → Due past item) {x : WorkEvent}
    (last : ∀ item, x = .take item → Due log item) :
    ∀ past item, past ++ [.take item] <+: log ++ [x] → Due past item := by
  intro past item cut
  rcases List.prefix_concat_iff.mp cut with whole | before
  · obtain ⟨rfl, same⟩ := List.append_inj' whole rfl
    exact last item (List.cons.inj same).1.symm
  · exact due past item before

theorem Accounts.pushPoints (accounts : w.Accounts log) :
    (w.pushPoints p set).Accounts (log ++ [.points p set]) where
  agrees := Agrees.pushPoints accounts.agrees p set
  order := by
    rw [undelivered_snoc, track, Agrees.order_pushPoints accounts.agrees, accounts.order]
    split
    · rfl
    · rw [List.map_append]
      exact (eraseDups_snoc _ p).symm
  filled := fun _ _ => filled_pushPoints accounts.filled
  pending := by
    intro q o
    rw [pending_pushPoints, accounts.pending, undelivered_snoc, track]
    split
    · next none =>
      have no := ObjSet.isEmpty_iff.mp none o
      simp [no]
    · simp [or_and_right, exists_or, and_assoc]
  calls := by simpa [List.filterMap_cons, calls_pushPoints, pushed?, taken?] using accounts.calls
  conserved := by
    intro q o
    simp [or_and_right, exists_or, pending_pushPoints, accounts.conserved, and_assoc, or_assoc]
  due := due_snoc accounts.due nofun

theorem Accounts.called (accounts : w.Accounts log) {e : CallEdge} {calls : List CallEdge} {x : WorkEvent}
    (about : x = .call e ∨ x = .take (.call e))
    (same : (log ++ [x]).filterMap pushed? = (log ++ [x]).filterMap taken? ++ calls)
    (last : ∀ item, x = .take item → Due log item) : Accounts { w with calls } (log ++ [x]) := by
  -- what happens to calls leaves no trace among the objects
  have waiting : undelivered (log ++ [x]) = undelivered log := by
    rw [undelivered_snoc]
    rcases about with rfl | rfl <;> rfl
  have pushes : ∀ q set, .points q set ∈ log ++ [x] ↔ .points q set ∈ log := by
    rcases about with rfl | rfl <;> simp
  have takes : ∀ q set, .take (.points q set) ∈ log ++ [x] ↔ .take (.points q set) ∈ log := by
    rcases about with rfl | rfl <;> simp
  refine ⟨accounts.agrees, ?_, accounts.filled, ?_, same, ?_, due_snoc accounts.due last⟩
  · rw [waiting]
    exact accounts.order
  · rw [waiting]
    exact accounts.pending
  · simp only [pushes, takes]
    exact accounts.conserved

theorem Accounts.takePoints (accounts : w.Accounts log) {rest : WorkQueue} (none : w.calls = [])
    (first : w.order = p :: rest.order) (found : w.waiting.get? p = some set) (agrees : rest.Agrees)
    (idle : rest.calls = []) (erased : rest.waiting = w.waiting.erase p) :
    rest.Accounts (log ++ [.take (.points p set)]) := by
  obtain ⟨_, order, filled, pending, calls, conserved, due⟩ := accounts
  have absent : ∀ o, ¬ rest.Pending p o := by simp [Pending, erased, Dict.get?_erase]
  have ahead : ∀ q o, w.Pending q o ↔ (q = p ∧ o ∈ set) ∨ rest.Pending q o := by
    grind [Pending, Dict.get?_erase]
  rw [first] at order
  -- the first pointer is that of the oldest push, and it does not come again
  cases waiting : undelivered log with
  | nil => simp [waiting] at order
  | cons y later =>
    rw [waiting, List.map_cons, List.eraseDups_cons] at order
    obtain ⟨rfl, left⟩ := List.cons.inj order
    refine ⟨agrees, ?_, ?_, ?_, ?_, ?_, due_snoc due fun item same => ?_⟩
    · simp [undelivered_snoc, waiting, track, left, List.filter_map, Function.comp_def, bne]
    · grind [Dict.get?_erase]
    · intro q o
      have before := pending q o
      rw [ahead] at before
      rw [undelivered_snoc, track]
      by_cases same : q = y.1
      · simp [same, absent]
      · simpa [same] using before
    · simpa [List.filterMap_cons, pushed?, taken?, none, idle] using calls
    · intro q o
      simp only [List.mem_append, List.mem_singleton, reduceCtorEq, or_false, conserved, ahead, take.injEq,
        WorkItem.points.injEq, or_and_right, exists_or, or_assoc]
      simp
    · cases same
      refine .points (by simpa [none] using calls) (by simp [waiting]) (filled _ _ found) fun o => ?_
      rw [← pending, ahead]
      simp [absent]

theorem Accounts.act (x : WorkQueue × List WorkEvent) (accounts : x.1.Accounts x.2) (step : WorkStep) :
    (act x step).1.Accounts (act x step).2 := by
  cases step with
  | points p set => exact accounts.pushPoints
  | call e =>
    exact accounts.called (Or.inl rfl)
      (by simp [List.filterMap_cons, pushed?, taken?, accounts.calls]) nofun
  | poll =>
    unfold WorkQueue.act
    rcases Agrees.poll?_cases accounts.agrees with ⟨none, _⟩ | ⟨e, later, calls, same⟩ |
      ⟨p, set, later, calls, order, found, same⟩
    · simpa [none] using accounts
    · simp only [same]
      refine accounts.called (Or.inr rfl)
        (by simp [List.filterMap_cons, pushed?, taken?, accounts.calls, calls]) ?_
      rintro _ ⟨rfl⟩
      exact .call (accounts.calls.trans (by rw [calls]))
    · simp only [same]
      exact accounts.takePoints calls order found (Agrees.poll? accounts.agrees same) calls rfl

/-- The worklist loses and duplicates nothing. After any pushes and polls, the queue has each pointer once that
objects wait for and no other, in the order of their oldest undelivered push; what was pushed was delivered or
waits; every call is taken once, in order and before any objects; and there is nothing to poll just if the
worklist is empty. -/
theorem work_conserved (steps : List WorkStep) :
    (run steps).1.Accounts (run steps).2 ∧ ((run steps).1.isEmpty = true ↔ (run steps).1.poll? = none) := by
  have accounts : (run steps).1.Accounts (run steps).2 := by
    refine List.foldlRecOn steps WorkQueue.act ?_ fun x accounts step _ => Accounts.act x accounts step
    exact ⟨agrees_empty, rfl, by simp [Dict.get?], by simp [Pending, undelivered, Dict.get?], rfl,
      by simp [Pending, Dict.get?], by simp⟩
  refine ⟨accounts, (Agrees.isEmpty_iff accounts.agrees).trans ?_⟩
  rcases Agrees.poll?_cases accounts.agrees with ⟨none, empty⟩ | ⟨e, later, calls, same⟩ |
    ⟨p, set, later, calls, order, _, same⟩
  · simp [none, empty]
  · simp [same, calls]
  · simp [same, order]

end WorkQueue

end PointsTo
