import PointsTo.Proofs.Grounding
import PointsTo.Proofs.Story

/-!
Filters that come in time. A handler that filters a variable only when its method is reached does so
before any object has come to the variable, so no filter takes anything away that was there.
-/
namespace PointsTo

/-- The handlers keep quiet at the ends of phases, meet variables only where their method is known, and
filter a variable at once when its method is reached. -/
structure Regime.Prompt {σ : Type u} {cx : Setup σ} (R : Regime cx) : Prop where
  sleeps : R.Sleeps
  pure : ∀ x, ¬ R.law.injected x
  strict : ∀ c m, ¬ R.law.excused c m
  filters : ∀ e f h, f.Sane cx.program R.law → f.heap.rules = R.rules → e = .started ∨ e.Named f →
    R.Good f h → ∀ r keep, .addFilter r keep ∈ (cx.handlers.react e f h).commands →
      ∃ id c m v, e = .csMethodReached id ∧ f.elements.method? id = some (c, m) ∧ r = .var c v ∧
        cx.program.Mentions m v

def Facts.Vacant (f : Facts) (c : ContextId) (v : VarId) : Prop :=
  ∀ q o, f.elements.pointer? q = some (.var c v) → ¬ f.elements.Holds q o

namespace State

variable {σ : Type u} {cx : Setup σ} {R : Regime cx} {s : State σ} {q : PointerId} {o : CsObjId}

/-- A pointer with objects, or with objects on their way, was what it is. -/
theorem Lawful.pointer_before (lawful : s.Lawful R) (has : s.Holds q o ∨ s.Pending q o) {f : Facts}
    (grown : s.toFacts.Extends f) {ptr : Pointer} (pointer : f.elements.pointer? q = some ptr) :
    s.elements.pointer? q = some ptr := by
  obtain ⟨_, _, ⟨old, before, _⟩, _⟩ := lawful.obeys (.points q o) has
  exact before.trans ((grown.pointers _ _ before).symm.trans pointer)

theorem Lawful.inTime_of_vacant (lawful : s.Lawful R) {c : ContextId} {v : VarId} (vacant : s.Vacant c v)
    (keep : Obj → Bool) : Command.InTime s (.addFilter (.var c v) keep) := by
  intro pts found
  refine ObjSet.isEmpty_iff.mpr fun o member => ?_
  -- resolving the variable may make its pointer, and then nothing is there yet
  have quiet := internPointer_quiet s (.var c v)
  have held : s.Holds (s.internPointer (.var c v)).2 o := quiet.holds_iff.mp ⟨pts, found, member⟩
  have named := Elements.pointer?_internPointer_self s.elements (.var c v)
  exact vacant _ o (lawful.pointer_before (Or.inl held) quiet.grown named) held

end State

namespace Solver

open State

variable {σ : Type u} {cx : Setup σ} {R : Regime cx} {first : σ} {sleeps : R.Sleeps} {s t : State (Watched σ)}
  {q : PointerId} {o : CsObjId} {heap : Heap}

/-- What holds an object belongs to a method that is reachable, and filters wait for variables to which
no object has come. -/
structure Forestalls (R : Regime cx) (first : σ) (sleeps : R.Sleeps) (s : State (Watched σ)) : Prop
    extends Attends R first sleeps s where
  hosted : ∀ q o c v m, s.Holds q o → s.elements.pointer? q = some (.var c v) →
    cx.program.Mentions m v → s.Reaches c m
  vacant : ∀ r keep, .addFilter r keep ∈ s.queue → ∃ c v, r = .var c v ∧ s.Vacant c v

theorem Forestalls.start (prompt : R.Prompt) (opens : R.Opens heap first) (good : R.Good { heap } first)
    (sane : Facts.Sane { heap } cx.program R.law) :
    Forestalls R first sleeps (start cx.watched heap (first, [])) where
  toAttends := Attends.start opens good sane
  hosted := by
    rintro q o c v m ⟨pts, found, _⟩
    simp [Solver.start, State.notify, Elements.pts?] at found
  vacant := by
    intro r keep queued
    obtain ⟨_, _, _, _, event, _⟩ :=
      prompt.filters .started _ _ sane opens.rules (Or.inl rfl) good r keep queued
    cases event

/-- An object that a step brings to a pointer was on its way, and nothing else was left to do. -/
theorem Attends.held_before (attends : Attends R first sleeps s) (later : Attends R first sleeps t)
    (step : Step cx.watched Policy.callsFirst s t) (held : t.Holds q o) :
    s.Holds q o ∨ s.queue = [] ∧ s.worklist.calls = [] ∧ ∃ o', s.Pending q o' := by
  obtain ⟨u, near, same, _, ⟨new, record, _, fine⟩, pending⟩ := step.voices attends.settles.toLawful
  obtain ⟨delta, heard, member⟩ := (later.coherent.held q o).mp held
  rw [PointsTo.heard, List.filterMap_nil, List.append_nil, record, same, told_append] at heard
  rcases List.mem_append.mp heard with before | after
  · exact Or.inl ((attends.coherent.held q o).mpr ⟨delta, List.mem_append_left _ before, member⟩)
  · obtain ⟨x, listed, picked⟩ := List.mem_filterMap.mp after
    exact Or.inr (pending q (fine x listed q delta (Event.delta?_eq_some.mp picked)))

/-- What holds an object after a step belongs to a method that was reachable before it. -/
theorem Forestalls.hosts (forestalls : Forestalls R first sleeps s) (strict : ∀ c m, ¬ R.law.excused c m)
    (later : Attends R first sleeps t) (step : Step cx.watched Policy.callsFirst s t) {c : ContextId}
    {v : VarId} {m : MethodId} (held : t.Holds q o) (pointer : t.elements.pointer? q = some (.var c v))
    (mentions : cx.program.Mentions m v) : s.Reaches c m := by
  have lawful := forestalls.settles.toLawful
  have grown := (step.lawful lawful).2.grown
  rcases forestalls.toAttends.held_before later step held with before | ⟨_, none, o', waiting⟩
  · exact forestalls.hosted q o c v m before (lawful.pointer_before (Or.inl before) grown pointer) mentions
  · -- objects arrive when no call waits, and then all methods that are known are reachable
    have before := lawful.pointer_before (Or.inr waiting) grown pointer
    have placed : s.Placed R.law c m := (lawful.obeys (.pointer q _) before).2 c v rfl m mentions
    exact forestalls.settles.reaches none (Facts.interned_of_placed strict placed)

theorem Attends.unreached (attends : Attends R first sleeps s) (later : Attends R first sleeps t)
    {new : List (Moment σ)} (record : t.record = s.record ++ new) {x : Moment σ} (listed : x ∈ new)
    {id : CsMethodId} (event : x.event = .csMethodReached id) : id ∉ s.calls.reachable := by
  intro reachable
  obtain ⟨before, after, rfl⟩ := List.append_of_mem listed
  rw [← List.append_assoc] at record
  have fits := (later.coherent.proper _ x after record).1
  refine (fits.of_event event).1 ?_
  rw [told_append]
  refine List.mem_append_left _ ?_
  exact attends.coherent.told_csMethod ▸ reachable

theorem Forestalls.step (forestalls : Forestalls R first sleeps s) (prompt : R.Prompt)
    (step : Step cx.watched Policy.callsFirst s t) : Forestalls R first sleeps t := by
  have lawful := forestalls.settles.toLawful
  have inTime : ∀ c ∈ s.queue.head?, c.InTime s := by
    intro c next
    cases c with
    | addFilter r keep =>
      obtain ⟨c, v, rfl, vacant⟩ := forestalls.vacant r keep (List.mem_of_head? next)
      exact lawful.inTime_of_vacant vacant keep
    | _ => exact trivial
  have later := forestalls.toAttends.step prompt.pure inTime step
  have grown := (step.lawful lawful).2.grown
  refine ⟨later, fun q o c v m held pointer mentions => ?_, fun r keep queued => ?_⟩
  · exact grown.reaches (forestalls.hosts prompt.strict later step held pointer mentions)
  obtain ⟨u, near, same, inside, ⟨new, record, queue, _⟩, _⟩ := step.voices lawful
  rw [queue] at queued
  rcases List.mem_append.mp queued with waiting | asked
  · -- objects arrive only when no command waits
    obtain ⟨c, v, rfl, vacant⟩ := forestalls.vacant r keep (inside _ waiting)
    refine ⟨c, v, rfl, fun q o pointer held => ?_⟩
    rcases forestalls.toAttends.held_before later step held with before | ⟨none, _⟩
    · exact vacant q o (lawful.pointer_before (Or.inl before) grown pointer) before
    · rw [none] at inside
      cases inside _ waiting
  · -- a filter of this step answers the reaching of its method, which was not reachable before
    obtain ⟨x, listed, asked⟩ := List.mem_flatMap.mp asked
    rw [same] at record
    have member : x ∈ t.record := record ▸ List.mem_append_right _ listed
    obtain ⟨sound, above⟩ := later.settles.good.sound x member
    obtain ⟨id, c, m, v, event, known, rfl, mentions⟩ := prompt.filters _ _ _ sound.sane sound.rules
      sound.named (later.settles.good.ready x member) r keep asked
    refine ⟨c, v, rfl, fun q o pointer held => ?_⟩
    obtain ⟨old, reachable, method⟩ := forestalls.hosts prompt.strict later step held pointer mentions
    have equal := Table.get?_inj (above.methods _ _ known) (grown.methods _ _ method)
    exact forestalls.toAttends.unreached later record listed event (equal ▸ reachable)

theorem Solves.chronicle (solved : Solves cx.watched Policy.callsFirst heap (first, []) t) (prompt : R.Prompt)
    (opens : R.Opens heap first) (good : R.Good { heap } first) (sane : Facts.Sane { heap } cx.program R.law) :
    Chronicle cx.program R.law R.rules t.record t.toFacts := by
  obtain ⟨s, run, finishes⟩ := solved
  have forestalls : Forestalls R first prompt.sleeps s := run.induct (Forestalls R first prompt.sleeps)
    (Forestalls.start prompt opens good sane) fun _ _ forestalls step => forestalls.step prompt step
  exact forestalls.toAttends.chronicle finishes

end Solver

end PointsTo
