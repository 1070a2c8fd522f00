import PointsTo.Proofs.Store
import PointsTo.Solver.Basic

/-!
Runs of the solver step by step. What a step does depends on the item it takes from the worklist;
a policy says which items it may take. The solver takes call edges first, and the oldest of them.
-/
namespace PointsTo

/-- Taking any one item from a worklist. -/
inductive Worklist.Takes (w : Worklist) : WorkItem → Worklist → Prop
  | call {rest : Worklist} (before after : List CallEdge) (e : CallEdge) (calls : w.calls = before ++ e :: after)
      (left : rest.calls = before ++ after) (order : rest.order = w.order) (waiting : rest.waiting = w.waiting) :
      Takes w (.call e) rest
  | points {rest : Worklist} (q : PointerId) (set : ObjSet) (found : w.waiting.get? q = some set)
      (calls : rest.calls = w.calls) (order : rest.order = w.order.erase q)
      (waiting : rest.waiting = w.waiting.erase q) : Takes w (.points q set) rest

namespace Worklist

variable {w rest : Worklist} {item : WorkItem} {q r : PointerId} {o : CsObjId} {e : CallEdge}

theorem Takes.pending_before (taken : w.Takes item rest) (pending : rest.Pending q o) : w.Pending q o := by
  cases taken with
  | call before after e calls left order waiting =>
    unfold WorkQueue.Pending at pending ⊢
    rw [waiting] at pending
    exact pending
  | points r set found calls order waiting =>
    obtain ⟨held, member, inside⟩ := pending
    refine ⟨held, ?_, inside⟩
    rw [waiting, Dict.get?_erase] at member
    split at member
    · cases member
    · exact member

theorem Takes.pending_call (taken : w.Takes (.call e) rest) (pending : w.Pending q o) : rest.Pending q o := by
  cases taken with
  | call before after e calls left order waiting =>
    unfold WorkQueue.Pending at pending ⊢
    rw [waiting]
    exact pending

theorem Takes.pending_points {set : ObjSet} (taken : w.Takes (.points r set) rest) (pending : w.Pending q o) :
    rest.Pending q o ∨ (q = r ∧ o ∈ set) := by
  cases taken with
  | points r set found calls order waiting =>
    obtain ⟨held, member, inside⟩ := pending
    by_cases same : r = q
    · subst same
      rw [found] at member
      cases member
      exact Or.inr ⟨rfl, inside⟩
    · refine Or.inl ⟨held, ?_, inside⟩
      rw [waiting, Dict.get?_erase, if_neg same]
      exact member

theorem Takes.pending_set {set : ObjSet} (taken : w.Takes (.points r set) rest) (member : o ∈ set) :
    w.Pending r o := by
  cases taken with
  | points r set found => exact ⟨set, found, member⟩

theorem Takes.calls_before (taken : w.Takes item rest) (waits : e ∈ rest.calls) : e ∈ w.calls := by
  cases taken with
  | call before after d calls left =>
    rw [calls, List.mem_append, List.mem_cons]
    rcases List.mem_append.mp (left ▸ waits) with first | last
    · exact Or.inl first
    · exact Or.inr (Or.inr last)
  | points r set found calls => exact calls ▸ waits

theorem Takes.calls_call (taken : w.Takes (.call e) rest) :
    e ∈ w.calls ∧ ∀ d ∈ w.calls, d ∈ rest.calls ∨ d = e := by
  cases taken with
  | call before after e calls left =>
    rw [calls, left]
    refine ⟨List.mem_append_right _ List.mem_cons_self, fun d member => ?_⟩
    rw [List.mem_append, List.mem_cons] at member
    rcases member with first | same | last
    · exact Or.inl (List.mem_append_left _ first)
    · exact Or.inr same
    · exact Or.inl (List.mem_append_right _ last)

theorem Takes.calls_points {set : ObjSet} (taken : w.Takes (.points r set) rest) : rest.calls = w.calls := by
  cases taken with
  | points r set found calls => exact calls

end Worklist

abbrev Policy := Worklist → WorkItem → Prop

/-- Pointers wait until no call edge is left. -/
def Policy.callsFirst : Policy
  | _, .call _ => True
  | w, .points _ _ => w.calls = []

def State.taking (s : State σ) (worklist : Worklist) : State σ :=
  { s with worklist, stats := { s.stats with iterations := s.stats.iterations + 1 } }

def State.popping (s : State σ) (rest : List Command) : State σ :=
  { s with queue := rest, stats := { s.stats with commands := s.stats.commands + 1 } }

namespace Solver

variable {σ : Type u} {cx : Setup σ} {first s t : State σ} {w : Worklist} {fuel : Nat}

/-- A step of a run that is not over: the oldest command, or an item that the policy allows, or
the end of a phase. -/
inductive Step (cx : Setup σ) (policy : Policy) : State σ → State σ → Prop
  | command {s : State σ} {c : Command} {rest : List Command} (queue : s.queue = c :: rest) :
      Step cx policy s ((s.popping rest).apply cx c)
  | call {s : State σ} {e : CallEdge} {worklist : Worklist} (queue : s.queue = [])
      (allowed : policy s.worklist (.call e)) (taken : s.worklist.Takes (.call e) worklist) :
      Step cx policy s ((s.taking worklist).processCall cx e)
  | points {s : State σ} {q : PointerId} {set : ObjSet} {worklist : Worklist} (queue : s.queue = [])
      (allowed : policy s.worklist (.points q set))
      (taken : s.worklist.Takes (.points q set) worklist) :
      Step cx policy s ((s.taking worklist).processPoints cx q set)
  | phase {s : State σ} (queue : s.queue = []) (idle : s.worklist.isEmpty = true)
      (more : (s.endPhase cx).queue ≠ []) : Step cx policy s (s.endPhase cx)

/-- The end of a phase that brings no new work is the end of the run. -/
structure Finishes (cx : Setup σ) (s t : State σ) : Prop where
  queue : s.queue = []
  idle : s.worklist.isEmpty = true
  last : t = s.endPhase cx
  quiet : t.queue = []

inductive Runs (cx : Setup σ) (policy : Policy) (first : State σ) : State σ → Prop
  | here : Runs cx policy first first
  | next {s t : State σ} (run : Runs cx policy first s) (step : Step cx policy s t) :
      Runs cx policy first t

def Solves (cx : Setup σ) (policy : Policy) (heap : Heap) (handler : σ) (t : State σ) : Prop :=
  ∃ s, Runs cx policy (start cx heap handler) s ∧ Finishes cx s t

theorem Runs.induct {policy : Policy} (run : Runs cx policy first s) (holds : State σ → Prop)
    (initial : holds first) (next : ∀ s t, holds s → Step cx policy s t → holds t) : holds s := by
  induction run with
  | here => exact initial
  | next _ step ih => exact next _ _ ih step

theorem poll?_none (idle : w.poll? = none) : w.isEmpty = true := by
  unfold Worklist.poll? at idle
  rcases w.agrees.poll?_cases with ⟨_, empty⟩ | ⟨_, _, _, polled⟩ | ⟨_, _, _, _, _, _, polled⟩
  · exact w.agrees.isEmpty_iff.mpr empty
  · split at idle <;> simp_all
  · split at idle <;> simp_all

theorem poll?_some {rest : Worklist} {item : WorkItem} (polled : w.poll? = some (item, rest)) :
    w.Takes item rest ∧ Policy.callsFirst w item := by
  unfold Worklist.poll? at polled
  split at polled
  · cases polled
  · next item rest taken =>
    cases polled
    rcases w.agrees.poll?_cases with
      ⟨none, _⟩ | ⟨e, later, calls, same⟩ | ⟨p, set, later, calls, order, found, same⟩
    · rw [none] at taken
      cases taken
    · rw [same] at taken
      cases taken
      exact ⟨.call [] later e calls rfl rfl rfl, trivial⟩
    · rw [same] at taken
      cases taken
      exact ⟨.points p set found rfl (by simp [order]) rfl, calls⟩

theorem step_running (stepped : step cx s = .running t) : Step cx Policy.callsFirst s t := by
  unfold step at stepped
  split at stepped
  · next c rest queue =>
    cases stepped
    exact Step.command queue
  · next queue =>
    split at stepped
    · next item worklist polled =>
      obtain ⟨taken, allowed⟩ := poll?_some polled
      dsimp only at stepped
      split at stepped
      · cases stepped
        exact Step.call queue allowed taken
      · cases stepped
        exact Step.points queue allowed taken
    · next idle =>
      dsimp only at stepped
      split at stepped
      · cases stepped
      · next goesOn =>
        cases stepped
        refine Step.phase queue (poll?_none idle) fun silent => goesOn ?_
        rw [silent, Bool.and_eq_true]
        exact ⟨poll?_none idle, rfl⟩

theorem step_finished (stepped : step cx s = .finished t) : Finishes cx s t := by
  unfold step at stepped
  split at stepped
  · cases stepped
  · next queue =>
    split at stepped
    · dsimp only at stepped
      split at stepped <;> cases stepped
    · next idle =>
      dsimp only at stepped
      split at stepped
      · next finishes =>
        cases stepped
        rw [Bool.and_eq_true, List.isEmpty_iff] at finishes
        exact ⟨queue, poll?_none idle, rfl, finishes.2⟩
      · cases stepped

/-- The states that the solver passes through. -/
inductive Visits (cx : Setup σ) (first : State σ) : State σ → Prop
  | here : Visits cx first first
  | next {s t : State σ} (visited : Visits cx first s) (stepped : step cx s = .running t) :
      Visits cx first t

theorem run_some (finishes : run cx fuel s = some t) : ∃ u, Visits cx s u ∧ Finishes cx u t := by
  -- the fuel is spent from the front, while visits grow at the back: keep the first state apart
  have reached : ∀ first, Visits cx first s → ∃ u, Visits cx first u ∧ Finishes cx u t := by
    induction fuel generalizing s with
    | zero => cases finishes
    | succ fuel ih =>
      intro first visited
      unfold run at finishes
      split at finishes
      · next last stepped =>
        cases finishes
        exact ⟨s, visited, step_finished stepped⟩
      · next after stepped => exact ih finishes first (visited.next stepped)
  exact reached s Visits.here

/-- Whether a test succeeds in all states of a run that ends within a number of steps. -/
def always (cx : Setup σ) (test : State σ → Bool) : Nat → State σ → Bool
  | 0, _ => false
  | n + 1, s =>
    test s && match step cx s with
      | .finished _ => true
      | .running t => always cx test n t

theorem Visits.of_always {test : State σ → Bool} (succeeds : always cx test fuel first = true)
    (visited : Visits cx first s) : ∃ n, always cx test n s = true := by
  induction visited with
  | here => exact ⟨fuel, succeeds⟩
  | next _ stepped ih =>
    obtain ⟨n, later⟩ := ih
    cases n with
    | zero => cases later
    | succ n =>
      rw [always, stepped, Bool.and_eq_true] at later
      exact ⟨n, later.2⟩

theorem Visits.test {test : State σ → Bool} (succeeds : always cx test fuel first = true)
    (visited : Visits cx first s) : test s = true := by
  obtain ⟨n, now⟩ := visited.of_always succeeds
  cases n with
  | zero => cases now
  | succ n =>
    rw [always, Bool.and_eq_true] at now
    exact now.1

theorem Visits.runs (visited : Visits cx first s) : Runs cx Policy.callsFirst first s := by
  induction visited with
  | here => exact Runs.here
  | next _ stepped ih => exact ih.next (step_running stepped)

theorem solve_some {heap : Heap} {handler : σ} (solved : solve cx fuel heap handler = some t) :
    Solves cx Policy.callsFirst heap handler t := by
  obtain ⟨u, visited, finishes⟩ := run_some solved
  exact ⟨u, visited.runs, finishes⟩

end Solver

end PointsTo
