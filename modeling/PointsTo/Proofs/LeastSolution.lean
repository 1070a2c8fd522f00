import Mathlib.Logic.Function.Iterate
import PointsTo.Handlers.Entries
import PointsTo.Proofs.Hierarchy
import PointsTo.Proofs.Injection

/-!
A run whose handler only names entry points at its start finds the least solution of the inclusion
rules. The order among calls does not matter, nor does that among points; that calls come before points
does, since a statement sees only the objects that come after its method is reached.
-/
namespace PointsTo

variable {σ : Type u}

/-- A handler that names entry points when the run starts and asks for nothing after that. -/
structure EntriesOnly (cx : Setup σ) (heap : Heap) (handler : σ) : Prop where
  start : ∀ c ∈ (cx.handlers.react .started { heap } handler).commands,
    ∃ entry, c = .addEntryPoint entry
  silent : ∀ e f h, e ≠ .started → (cx.handlers.react e f h).commands = []
  idle : ∀ f n h, (cx.handlers.phaseEnd f n h).commands = [] ∧
    (cx.handlers.phaseEnd f n h).removals = []

inductive Seeds (cx : Setup σ) (heap : Heap) (handler : σ) (x : Fact) : Prop
  | intro (entry : EntryPoint)
    (given : .addEntryPoint entry ∈ (cx.handlers.react .started { heap } handler).commands)
    (gives : entry.Gives cx.program x)

namespace EntriesOnly

variable {cx : Setup σ} {heap : Heap} {handler : σ} {t : State σ} {policy : Policy} {holds : Fact → Prop}

def regime (only : EntriesOnly cx heap handler) (declared : cx.program.Scoped) {holds : Fact → Prop}
    (closed : Closed (Rule cx.program cx.selector heap.rules) holds) : Regime cx where
  law := { holds }
  rules := heap.rules
  closed := closed
  excuse := fun _ _ => False.elim
  exact := fun _ _ _ _ _ _ => False.elim
  declared := declared
  Good := fun _ _ => True
  mono := fun _ _ _ _ _ => trivial
  react := by
    intro e f h _ _ named _
    refine ⟨trivial, fun c member => ?_⟩
    rw [only.silent e f h fun same => by rw [same] at named; exact named] at member
    cases member
  phaseEnd := by
    intro n f h _ _
    refine ⟨trivial, fun c member => ?_, (only.idle f n h).2⟩
    rw [(only.idle f n h).1] at member
    cases member

variable (only : EntriesOnly cx heap handler) (declared : cx.program.Scoped)

include only declared

theorem starts (closed : Closed (Rule cx.program cx.selector heap.rules) holds)
    (seeded : ∀ x, Seeds cx heap handler x → holds x) : (only.regime declared closed).Starts heap handler where
  rules := rfl
  good := trivial
  pure := not_false
  permitted := by
    intro c given
    obtain ⟨entry, rfl⟩ := only.start c given
    exact fun x gives => seeded x ⟨entry, given, gives⟩

/-- Whatever the worklist is polled for, what is found lies in every closed set with the seeds. -/
theorem found_minimal (solved : Solver.Solves cx policy heap handler t)
    (closed : Closed (Rule cx.program cx.selector heap.rules) holds)
    (seeded : ∀ x, Seeds cx heap handler x → holds x) {x : Fact} (found : t.Found x) : holds x :=
  (solved.rests (only.starts declared closed seeded)).toLawful.inLaw found

theorem found_iff (solved : Solver.Solves cx Policy.callsFirst heap handler t) (x : Fact) :
    t.Found x ↔
      Derivable (Rule cx.program cx.selector heap.rules) (Seeds cx heap handler) x := by
  have derivable := Derivable.closed (Rule cx.program cx.selector heap.rules) (Seeds cx heap handler)
  have starts := only.starts declared derivable fun _ given => Derivable.seed given
  constructor
  · exact only.found_minimal declared solved derivable fun _ given => Derivable.seed given
  · -- what is found is closed itself, and the entry points are found
    refine Derivable.least ((solved.settles starts).closed (solved.rests starts) ?_) ?_
    · exact fun _ _ _ injected => injected.elim
    · rintro y ⟨entry, given, gives⟩
      exact solved.asked starts given gives

end EntriesOnly

def Entries.alone (p : Program) (sel : Selector) : Setup Entries :=
  ⟨p, sel, { react := fun e _ s => s.react p e, phaseEnd := fun _ _ s => { state := s } }⟩

theorem Entries.alone_only (p : Program) (sel : Selector) (heap : Heap) (s : Entries) :
    EntriesOnly (alone p sel) heap s where
  start := by
    intro c member
    rcases List.mem_append.mp member with given | implicit
    · obtain ⟨m, _, rfl⟩ := List.mem_map.mp given
      exact ⟨_, rfl⟩
    · obtain ⟨m, _, rfl⟩ := List.mem_map.mp implicit
      exact ⟨_, rfl⟩
  silent := by
    intro e f s later
    cases e with
    | started => exact absurd rfl later
    | _ => rfl
  idle := fun _ _ _ => ⟨rfl, rfl⟩

namespace Solver

variable {cx : Setup σ} {heap : Heap} {handler : σ}

/-- The solver finds the least set of facts that holds the entry points and is closed under the
inclusion rules; every run that takes calls first finds the same facts, and no run finds more. -/
theorem solve_least (only : EntriesOnly cx heap handler) (declared : cx.program.Scoped) {fuel : Nat}
    {t : State σ} (solved : solve cx fuel heap handler = some t) :
    t.Spelled ∧
      (∀ holds, Closed (Rule cx.program cx.selector heap.rules) holds →
        (∀ x, Seeds cx heap handler x → holds x) → ∀ x, t.Found x → holds x) ∧
      (∀ x, t.Found x ↔
        Derivable (Rule cx.program cx.selector heap.rules) (Seeds cx heap handler) x) ∧
      (∀ s, Solves cx Policy.callsFirst heap handler s → ∀ x, s.Found x ↔ t.Found x) ∧
      ∀ policy s, Solves cx policy heap handler s → ∀ x, s.Found x → t.Found x := by
  have result := solve_some solved
  have derivable := Derivable.closed (Rule cx.program cx.selector heap.rules) (Seeds cx heap handler)
  have seeded : ∀ x, Seeds cx heap handler x →
      Derivable (Rule cx.program cx.selector heap.rules) (Seeds cx heap handler) x :=
    fun _ given => Derivable.seed given
  refine ⟨(result.rests (only.starts declared derivable seeded)).toLawful.spelled, ?_, ?_, ?_, ?_⟩
  · exact fun holds closed given x found => only.found_minimal declared result closed given found
  · exact only.found_iff declared result
  · exact fun s other x => (only.found_iff declared other x).trans (only.found_iff declared result x).symm
  · intro policy s other x found
    exact (only.found_iff declared result x).mpr
      (only.found_minimal declared other derivable seeded found)

theorem boxes_least :
    ∃ t, solve (Entries.alone boxes (.limited (.callSite 1))) 100 (Heap.ofProgram boxes true) ⟨[1, 0], []⟩ =
        some t ∧
      ∀ x, t.Found x ↔ Derivable (Rule boxes (.limited (.callSite 1)) (HeapRules.ofProgram boxes true))
        (Seeds (Entries.alone boxes (.limited (.callSite 1))) (Heap.ofProgram boxes true) ⟨[1, 0], []⟩) x := by
  have ends : (solve (Entries.alone boxes (.limited (.callSite 1))) 100 (Heap.ofProgram boxes true)
      ⟨[1, 0], []⟩).isSome = true := by decide +kernel
  obtain ⟨t, solved⟩ := Option.isSome_iff_exists.mp ends
  obtain ⟨_, _, exact_, _⟩ := solve_least (Entries.alone_only _ _ _ _) (by decide) solved
  exact ⟨t, solved, exact_⟩

end Solver

/-- Calls wait until no objects are on their way. -/
def Policy.pointsFirst : Policy
  | w, .call _ => w.order = []
  | _, .points _ _ => True

namespace Worklist

/-- Polls as if there were no calls, and takes a call only if nothing is found. -/
def pollPoints? (w : Worklist) : Option (WorkItem × Worklist) :=
  match ({ w with calls := [] } : Worklist).poll? with
  | some (item, rest) => some (item, { rest with calls := w.calls })
  | none => w.poll?

theorem pollPoints?_some {w rest : Worklist} {item : WorkItem} (polled : w.pollPoints? = some (item, rest)) :
    w.Takes item rest ∧ Policy.pointsFirst w item := by
  unfold pollPoints? at polled
  split at polled
  · next taken =>
    cases polled
    -- from a worklist without calls only objects can be taken
    cases (Solver.poll?_some taken).1 with
    | call before after e calls => simp at calls
    | points q set found calls order waiting => exact ⟨.points q set found rfl order waiting, trivial⟩
  · next idle =>
    have empty := (WorkQueue.Agrees.isEmpty_iff w.agrees (w := { w with calls := [] })).mp
      (Solver.poll?_none idle)
    cases item with
    | call e => exact ⟨(Solver.poll?_some polled).1, empty.2⟩
    | points q set => exact ⟨(Solver.poll?_some polled).1, trivial⟩

end Worklist

namespace Solver

variable {cx : Setup σ} {poll : Worklist → Option (WorkItem × Worklist)} {policy : Policy}

/-- A step of a run that polls in its own way; none is left to do without commands and items. -/
def stepBy (poll : Worklist → Option (WorkItem × Worklist)) (cx : Setup σ) (s : State σ) : State σ :=
  match s.queue, poll s.worklist with
  | c :: rest, _ => (s.popping rest).apply cx c
  | [], some (.call e, worklist) => (s.taking worklist).processCall cx e
  | [], some (.points q set, worklist) => (s.taking worklist).processPoints cx q set
  | [], none => s

theorem runs_stepBy (obeys : ∀ w item rest, poll w = some (item, rest) → w.Takes item rest ∧ policy w item)
    (first : State σ) (n : Nat) : Runs cx policy first ((stepBy poll cx)^[n] first) := by
  induction n with
  | zero => exact .here
  | succ n ih =>
    rw [Function.iterate_succ_apply']
    generalize (stepBy poll cx)^[n] first = s at ih
    unfold stepBy
    split
    · next queue => exact ih.next (.command queue)
    · next queue polled => exact ih.next (.call queue (obeys _ _ _ polled).2 (obeys _ _ _ polled).1)
    · next queue polled => exact ih.next (.points queue (obeys _ _ _ polled).2 (obeys _ _ _ polled).1)
    · exact ih

/-- A box that arrives in `put` before the call does is not filled, so nothing is read back. -/
theorem boxes_points_first :
    let cx := Entries.alone boxes (.limited (.callSite 1))
    let heap := Heap.ofProgram boxes true
    boxes.Acyclic ∧ boxes.Scoped ∧ EntriesOnly cx heap ⟨[1], []⟩ ∧
      ∃ s t, solve cx 100 heap ⟨[1], []⟩ = some s ∧ Solves cx Policy.pointsFirst heap ⟨[1], []⟩ t ∧
        ∃ x, s.Found x ∧ ¬ t.Found x := by
  intro cx heap
  have filled : (solve cx 100 heap ⟨[1], []⟩).any (·.holds 4 ⟨.allocated ⟨1, 1⟩, .cls 0⟩) = true := by
    decide +kernel
  obtain ⟨s, solved, there⟩ := (Option.any_eq_true _ _).mp filled
  -- the other run is at its end after 40 steps, and the variable that is loaded into is still empty
  let u := (stepBy Worklist.pollPoints? cx)^[40] (start cx heap ⟨[1], []⟩)
  have ends : (u.queue.isEmpty && u.worklist.isEmpty && (u.endPhase cx).queue.isEmpty &&
      !(u.endPhase cx).holds 4 ⟨.allocated ⟨1, 1⟩, .cls 0⟩) = true := by decide +kernel
  simp only [Bool.and_eq_true, Bool.not_eq_true', ← Bool.not_eq_true, List.isEmpty_iff] at ends
  obtain ⟨⟨⟨queue, idle⟩, quiet⟩, lost⟩ := ends
  refine ⟨.of_rank id (by decide), by decide, Entries.alone_only _ _ _ _, s, u.endPhase cx, solved,
    ⟨u, ?_, queue, idle, rfl, quiet⟩, _, Facts.found_iff_holds.mpr there,
    fun found => lost (Facts.found_iff_holds.mp found)⟩
  exact runs_stepBy (fun _ _ _ => Worklist.pollPoints?_some) _ 40

end Solver

end PointsTo
