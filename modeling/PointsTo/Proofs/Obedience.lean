import PointsTo.Proofs.Filtering
import PointsTo.Proofs.Promptness

/-!
What becomes of commands where handlers filter. A filter that was asked for is put on before any object
comes to its variable, and what was asked to be at a pointer is there in the end unless such a filter
keeps it away.
-/
namespace PointsTo

def Facts.Guards (f : Facts) (c : ContextId) (v : VarId) (keep : Obj → Bool) : Prop :=
  ∃ q, f.elements.pointer? q = some (.var c v) ∧ keep ∈ f.elements.filters q

def Forbids {σ : Type u} (cx : Setup σ) (record : List (Moment σ)) (c : ContextId) (v : VarId) (obj : Obj) :
    Prop :=
  ∃ x ∈ record, ∃ keep, Command.addFilter (.var c v) keep ∈ x.commands cx ∧ keep obj = false

namespace Solver

open State

section Steps

variable {σ : Type u} {cx : Setup σ} {policy : Policy} {s t : State σ} {c : ContextId} {v : VarId}
  {keep : Obj → Bool} {q : PointerId}

theorem Step.attached (step : Step cx policy s t) (attached : keep ∈ t.elements.filters q) :
    keep ∈ s.elements.filters q ∨ ∃ r, .addFilter r keep ∈ s.queue ∧
      ∀ c v, r = .var c v → t.elements.pointer? q = some (.var c v) := by
  cases step with
  | command queue =>
    rename_i d rest
    by_cases filter : ∃ r other, d = .addFilter r other
    · obtain ⟨r, other, rfl⟩ := filter
      have facts := addFilter_facts (s.popping rest) cx r other
      rw [facts] at attached ⊢
      rcases Elements.mem_filters_addFilter_inv attached with old | ⟨rfl, rfl⟩
      · rw [(resolvePointer_hush (s.popping rest) r).filters q] at old
        exact Or.inl old
      · rw [queue]
        refine Or.inr ⟨r, List.mem_cons_self, ?_⟩
        rintro c v rfl
        exact Elements.pointer?_internPointer_self s.elements (.var c v)
    · have spares : (s.popping rest).Spares ((s.popping rest).apply cx d) := by
        cases d with
        | addFilter r other => exact absurd ⟨r, other, rfl⟩ filter
        | addEntryPoint entry => exact enter_spares _ cx entry
        | _ => exact (apply_mute _ cx _ (by simp) (by simp)).spares
      rw [spares.filters q] at attached
      exact Or.inl attached
  | call queue allowed taken =>
    rw [(processCall_spares _ cx _).filters q] at attached
    exact Or.inl attached
  | points queue allowed taken =>
    rw [processPoints_filters] at attached
    exact Or.inl attached
  | phase queue idle more =>
    rw [endPhase_filters] at attached
    exact Or.inl attached

theorem Step.guards {R : Regime cx} (step : Step cx policy s t) (lawful : s.Lawful R)
    (waits : .addFilter (.var c v) keep ∈ s.queue) :
    .addFilter (.var c v) keep ∈ t.queue ∨ t.Guards c v keep := by
  rcases step.carried lawful waits with later | ⟨rest, queue, rfl⟩
  · exact Or.inl later
  · have known : PointerRef.Known (s.popping rest).toFacts (.var c v) := trivial
    refine Or.inr ⟨(s.internPointer (.var c v)).2, ?_, addFilter_attaches known⟩
    rw [addFilter_facts]
    exact Elements.pointer?_internPointer_self s.elements (.var c v)

end Steps

variable {σ : Type u} {cx : Setup σ} {R : Regime cx} {first : σ} {sleeps : R.Sleeps} {s t : State (Watched σ)}
  {q : PointerId} {o : CsObjId} {c : ContextId} {v : VarId} {obj : Obj} {heap : Heap}

/-- Every command was asked for at some moment, and every filter is one of those. A filter waits until it is
on its variable. -/
structure Heeds (R : Regime cx) (first : σ) (sleeps : R.Sleeps) (s : State (Watched σ)) : Prop
    extends Forestalls R first sleeps s where
  filtered : s.Filtered
  asked : ∀ d ∈ s.queue, ∃ x ∈ s.record, d ∈ x.commands cx
  attached : ∀ q, ∀ keep ∈ s.elements.filters q, ∃ c v, s.elements.pointer? q = some (.var c v) ∧
    ∃ x ∈ s.record, .addFilter (.var c v) keep ∈ x.commands cx
  guarded : ∀ x ∈ s.record, ∀ c v keep, .addFilter (.var c v) keep ∈ x.commands cx →
    .addFilter (.var c v) keep ∈ s.queue ∨ s.Guards c v keep

theorem Heeds.start (prompt : R.Prompt) (opens : R.Opens heap first) (good : R.Good { heap } first)
    (sane : Facts.Sane { heap } cx.program R.law) : Heeds R first sleeps (start cx.watched heap (first, [])) where
  toForestalls := Forestalls.start prompt opens good sane
  filtered := by
    rintro q o ⟨set, found, _⟩
    simp [Solver.start, State.notify, Elements.pts?] at found
  asked := by
    intro d queued
    exact ⟨_, List.mem_singleton_self _, queued⟩
  attached := by
    intro q keep attached
    simp [Solver.start, State.notify, Elements.filters] at attached
  guarded := by
    intro x listed c v keep asked
    cases List.mem_singleton.mp listed
    exact Or.inl asked

theorem Heeds.step (heeds : Heeds R first sleeps s) (prompt : R.Prompt)
    (step : Step cx.watched Policy.callsFirst s t) : Heeds R first sleeps t := by
  have lawful := heeds.settles.toLawful
  have keeps := (step.lawful lawful).2
  have known : ∀ d ∈ s.queue, d.Known s.toFacts := fun d queued =>
    (lawful.obeys (.command d) queued).known
  obtain ⟨u, near, same, inside, ⟨new, record, queue, _⟩, _⟩ := step.voices lawful
  rw [same] at record
  -- moments of the past stay in the record, and what a new one asks for is queued
  have past : ∀ {x}, x ∈ s.record → x ∈ t.record := fun listed =>
    record ▸ List.mem_append_left _ listed
  have fresh : ∀ {x}, x ∈ new → ∀ d ∈ x.commands cx, d ∈ t.queue := fun listed d asked =>
    queue ▸ List.mem_append_right _ (List.mem_flatMap.mpr ⟨_, listed, asked⟩)
  refine ⟨heeds.toForestalls.step prompt step, (step.filtered known lawful.handles heeds.filtered).2,
    fun d queued => ?_, fun q keep attached => ?_, fun x listed c v keep asked => ?_⟩
  · rw [queue] at queued
    rcases List.mem_append.mp queued with waiting | answer
    · obtain ⟨x, listed, asked⟩ := heeds.asked d (inside d waiting)
      exact ⟨x, past listed, asked⟩
    · obtain ⟨x, listed, asked⟩ := List.mem_flatMap.mp answer
      exact ⟨x, record ▸ List.mem_append_right _ listed, asked⟩
  · rcases step.attached attached with before | ⟨r, waiting, pointer⟩
    · obtain ⟨c, v, pointer, x, listed, asked⟩ := heeds.attached q keep before
      exact ⟨c, v, keeps.grown.pointers _ _ pointer, x, past listed, asked⟩
    · obtain ⟨c, v, rfl, _⟩ := heeds.vacant r keep waiting
      obtain ⟨x, listed, asked⟩ := heeds.asked _ waiting
      exact ⟨c, v, pointer c v rfl, x, past listed, asked⟩
  · rw [record] at listed
    rcases List.mem_append.mp listed with before | after
    · rcases heeds.guarded x before c v keep asked with waiting | ⟨q, pointer, attached⟩
      · exact step.guards lawful waiting
      · exact Or.inr ⟨q, keeps.grown.pointers _ _ pointer, step.filters attached⟩
    · exact Or.inl (fresh after _ asked)

/-- What a filter was asked for to keep away is not there, in whatever state. -/
theorem Heeds.absent (heeds : Heeds R first sleeps s) (forbids : Forbids cx s.record c v obj)
    (pointer : s.elements.pointer? q = some (.var c v)) (known : s.obj? o = some obj) : ¬ s.Holds q o := by
  intro held
  obtain ⟨x, listed, keep, asked, refuses⟩ := forbids
  rcases heeds.guarded x listed c v keep asked with waiting | ⟨q', pointer', attached⟩
  · -- as long as the filter waits, nothing has come to the variable
    obtain ⟨c', v', ⟨rfl, rfl⟩, vacant⟩ := heeds.vacant _ _ waiting
    exact vacant q o pointer held
  · obtain rfl := Table.get?_inj pointer' pointer
    have late := heeds.filtered q' o held ⟨obj, known, keep, attached, refuses⟩
    rw [heeds.coherent.inTime] at late
    cases late

theorem Visits.heeds (visited : Visits cx.watched (start cx.watched heap (first, [])) s) (prompt : R.Prompt)
    (opens : R.Opens heap first) (good : R.Good { heap } first) (sane : Facts.Sane { heap } cx.program R.law) :
    Heeds R first prompt.sleeps s := by
  induction visited with
  | here => exact Heeds.start prompt opens good sane
  | next _ stepped ih => exact ih.step prompt (step_running stepped)

variable (heeds : Heeds R first sleeps s) (finishes : Finishes cx.watched s t)

include heeds finishes

theorem Heeds.finish : t.toFacts = s.toFacts ∧ t.handler = s.handler := by
  have trimmed : s.trimmed = (s.toFacts, 0) := by
    simp [State.trimmed, State.lateRemovals, heeds.coherent.inTime, Facts.removeAll]
  have still := sleeps s.trimmed.2 s.trimmed.1 s.handler.1 (trimmed.symm ▸ heeds.settles.good.good)
  have asleep : cx.watched.handlers.phaseEnd s.trimmed.1 s.trimmed.2 s.handler = { state := s.handler } := by
    simp only [Setup.watched, Handlers.watched, still, Reaction.map]
  obtain ⟨facts, _, handler⟩ := endPhase_asleep s cx.watched asleep
  rw [finishes.last, facts, trimmed]
  exact ⟨rfl, handler⟩

theorem Heeds.halts : s.Halts (R.watched first sleeps) :=
  ⟨heeds.settles.toLawful, heeds.flows, finishes.queue, finishes.idle⟩

theorem Heeds.chronicle : Chronicle cx.program R.law R.rules s.record s.toFacts := by
  obtain ⟨facts, handler⟩ := heeds.finish finishes
  have chronicle := heeds.toForestalls.toAttends.chronicle finishes
  rw [facts, show t.record = s.record from congrArg Prod.snd handler] at chronicle
  exact chronicle

theorem Heeds.story {keep : Obj → Prop} (sifts : s.Sifts (R.watched first sleeps) keep) :
    Story cx.program cx.selector R.law R.rules keep cx.handlers.react first s.record s.toFacts := by
  refine ⟨heeds.chronicle finishes, sifts.clean, fun past x rest cut c asked => ?_⟩
  rw [← heeds.settles.good.past past x rest cut] at asked
  exact sifts.answers (heeds.served_all finishes (x := x) (by simp [cut]) asked)

theorem Heeds.delivered (delivered : s.Delivered q o) :
    s.Holds q o ∨ ∃ c v obj, s.elements.pointer? q = some (.var c v) ∧
      s.obj? o = some obj ∧ Forbids cx s.record c v obj := by
  rcases delivered with held | pending | ⟨obj, known, keep, attached, refuses⟩
  · exact Or.inl held
  · exact absurd pending (WorkQueue.not_pending finishes.idle)
  · obtain ⟨c, v, pointer, y, told, filter⟩ := heeds.attached q keep attached
    exact Or.inr ⟨c, v, obj, pointer, known, y, told, keep, filter, refuses⟩

/-- What was asked to be at a cell is found there in the end, or a filter was asked for that keeps it
away. -/
theorem Heeds.outcome {x : Moment σ} (listed : x ∈ s.record) {d : Command} (asked : d ∈ x.commands cx)
    {cell : Cell} {i : Item} (asks : x.facts.Asks cx.program d (.points cell i)) :
    s.Found (.points cell i) ∨ ∃ c v frame, cell = .var frame v ∧ s.FrameOf c frame ∧
      Forbids cx s.record c v i.obj := by
  have due : s.Due (.points cell i) :=
    (heeds.served_all finishes listed asked).due ((heeds.settles.good.sound x listed).2.asks asks)
  obtain ⟨q, o, place, item, delivered⟩ := due
  rcases heeds.delivered finishes delivered with held | ⟨c, v, obj, pointer, known, forbids⟩
  · exact Or.inl ⟨q, o, place, item, held⟩
  · obtain ⟨ptr, known', is⟩ := place
    cases known'.symm.trans pointer
    obtain ⟨_, described, _⟩ := item
    cases (Facts.obj?_of_describe? described).symm.trans known
    cases cell with
    | var frame w =>
      obtain ⟨named, rfl⟩ := is
      exact Or.inr ⟨c, v, frame, rfl, named, forbids⟩
    | _ => exact is.elim

end Solver

end PointsTo
