import Mathlib.Data.List.Induction
import PointsTo.Proofs.Record

/-!
A handler hears of everything that a run finds, and of nothing twice, provided that nothing found is
taken away again: no handler asks for a removal, and no filter is put on a pointer that holds objects.
-/
namespace PointsTo

namespace Solver

variable {σ : Type u} {cx : Setup σ} {s t : State (Watched σ)}

theorem Step.coherent {policy : Policy} (step : Step cx.watched policy s t)
    (known : ∀ q o, s.Pending q o → s.Knows q ∧ ∃ d, s.describe? o = some d)
    (inTime : ∀ c ∈ s.queue.head?, c.InTime s)
    (nothing : (cx.handlers.phaseEnd s.trimmed.1 s.trimmed.2 s.handler.1).removals = [])
    (coherent : s.Coherent cx.program []) : t.Coherent cx.program [] ∧ s.toFacts.Below t.toFacts := by
  cases step with
  | command queue =>
    rename_i c rest
    have popped : (s.popping rest).Coherent cx.program [] := { coherent with }
    have next : c ∈ s.queue.head? := by rw [queue]; rfl
    exact popped.apply ((inTime c next).popping rest)
  | call queue allowed taken =>
    rename_i e worklist
    have left : (s.taking worklist).Coherent cx.program [] :=
      { coherent with enlisted := fun d waiting => coherent.enlisted d (taken.calls_before waiting) }
    exact left.processCall (coherent.enlisted e taken.calls_call.1).2
  | points queue allowed taken =>
    rename_i q set worklist
    have left : (s.taking worklist).Coherent cx.program [] :=
      { coherent with enlisted := fun d waiting => coherent.enlisted d (taken.calls_before waiting) }
    exact left.processPoints fun o member => known q o (taken.pending_set member)
  | phase queue idle more => exact coherent.endPhase nothing

theorem step_plain (stepped : step cx.watched s = .running t) : step cx s.plain = .running t.plain := by
  rw [← plain_step, stepped]
  rfl

theorem Visits.plain {first : State (Watched σ)} (visited : Visits cx.watched first s) :
    Visits cx first.plain s.plain := by
  induction visited with
  | here => exact Visits.here
  | next _ stepped ih => exact ih.next (step_plain stepped)

/-- A run whose handlers name no handle they were not given, take nothing away and filter only what
is empty. -/
structure Tame (cx : Setup σ) (heap : Heap) (handler : σ) : Prop where
  known : ∀ s, Visits cx (start cx heap handler) s → ∀ c ∈ s.queue, c.Known s.toFacts
  inTime : ∀ s, Visits cx (start cx heap handler) s → ∀ c ∈ s.queue.head?, c.InTime s
  nothing : ∀ s, Visits cx (start cx heap handler) s →
    ∀ f n, (cx.handlers.phaseEnd f n s.handler).removals = []

section Runs

variable {heap : Heap} {handler : σ} {s t : State (Watched σ)} {first : State τ}

theorem inTime_plain {c : Command} (inTime : c.InTime s.plain) : c.InTime s := by
  cases c with
  | addFilter pointer keep =>
    have same : s.plain.resolvePointer pointer =
        ((s.resolvePointer pointer).1.plain, (s.resolvePointer pointer).2) :=
      State.map_resolvePointer Prod.fst s pointer
    simp only [Command.InTime, same] at inTime
    exact inTime
  | _ => exact trivial

theorem Visits.coherent_step (tame : Tame cx heap handler)
    (visited : Visits cx.watched (start cx.watched heap (handler, [])) s)
    (coherent : s.Coherent cx.program []) :
    (∀ t, step cx.watched s = .running t → t.Coherent cx.program [] ∧ s.toFacts.Below t.toFacts) ∧
      ((s.endPhase cx.watched).Coherent cx.program [] ∧
        s.toFacts.Below (s.endPhase cx.watched).toFacts) := by
  have alone : ∀ {t}, Visits cx.watched (start cx.watched heap (handler, [])) t →
      Visits cx (start cx heap handler) t.plain := fun there => there.plain
  have handles : s.Handles :=
    (visited.delivers (fun u there => tame.known u.plain (alone there))
      fun u there => tame.nothing u.plain (alone there)).1
  refine ⟨fun t stepped => (step_running stepped).coherent ?_ ?_ (tame.nothing _ (alone visited) _ _) coherent,
    coherent.endPhase (tame.nothing _ (alone visited) _ _)⟩
  · exact handles.pending
  · exact fun c next => inTime_plain (tame.inTime _ (alone visited) c next)

theorem Visits.coherent (tame : Tame cx heap handler)
    (visited : Visits cx.watched (start cx.watched heap (handler, [])) s) :
    s.Coherent cx.program [] := by
  induction visited with
  | here => exact State.Coherent.start cx heap handler
  | next before stepped ih => exact ((before.coherent_step tame ih).1 _ stepped).1

theorem Visits.trans {cx : Setup τ} {s t : State τ} (before : Visits cx first s) (after : Visits cx s t) :
    Visits cx first t := by
  induction after with
  | here => exact before
  | next _ stepped ih => exact ih.next stepped

theorem Visits.keeps (tame : Tame cx heap handler)
    (before : Visits cx.watched (start cx.watched heap (handler, [])) s)
    (after : Visits cx.watched s t) : s.toFacts.Below t.toFacts := by
  induction after with
  | here => exact Facts.Below.refl _
  | next between stepped ih =>
    have visited := before.trans between
    exact ih.trans ((visited.coherent_step tame (visited.coherent tame)).1 _ stepped).2

theorem Visits.watched {first : State (Watched σ)} {u : State σ} (visited : Visits cx first.plain u) :
    ∃ w, Visits cx.watched first w ∧ w.plain = u := by
  induction visited with
  | here => exact ⟨first, Visits.here, rfl⟩
  | next _ stepped ih =>
    obtain ⟨w, before, rfl⟩ := ih
    rw [← plain_step] at stepped
    cases next : step cx.watched w with
    | finished v =>
      rw [next] at stepped
      cases stepped
    | running v =>
      rw [next] at stepped
      cases stepped
      exact ⟨v, before.next next, rfl⟩

theorem Visits.run {cx : Setup τ} {fuel : Nat} {s t : State τ} (ends : run cx fuel first = some t)
    (visited : Visits cx first s) : ∃ n, Solver.run cx n s = some t := by
  induction visited with
  | here => exact ⟨fuel, ends⟩
  | next _ stepped ih =>
    obtain ⟨n, later⟩ := ih
    cases n with
    | zero => cases later
    | succ n =>
      rw [Solver.run, stepped] at later
      exact ⟨n, later⟩

end Runs

end Solver

/-- A record accounts for facts: it tells of all of them, and of each once. -/
structure Accounts (p : Program) (record : List (Moment σ)) (facts : Facts) : Prop where
  /-- What was seen at one moment is there at every later one, and at the end. -/
  kept : record.Pairwise (fun x y => x.facts.Below y.facts) ∧ ∀ x ∈ record, x.facts.Below facts
  /-- The objects told of are new, and were there when they were told of. -/
  arrived : ∀ x ∈ record, ∀ q delta, x.event = .arrived q delta →
    delta.isEmpty = false ∧ ∀ o ∈ delta, x.facts.elements.Holds q o
  disjoint : ∀ q, (told (Event.delta? q) record).Pairwise fun a b => ∀ o ∈ b, o ∉ a
  union : ∀ q o, facts.elements.Holds q o ↔ ∃ delta ∈ told (Event.delta? q) record, o ∈ delta
  methods : (told Event.method? record).Nodup ∧ ∀ m, m ∈ told Event.method? record ↔
    ∃ id ∈ facts.calls.reachable, ∃ c, facts.elements.method? id = some (c, m)
  stmts : (told Event.stmt? record).Nodup ∧ ∀ site, site ∈ told Event.stmt? record ↔
    site.method ∈ told Event.method? record ∧ ∃ stmt, p.stmt? site = some stmt
  csMethods : (told Event.csMethod? record).Nodup ∧ ∀ id, id ∈ told Event.csMethod? record ↔
    id ∈ facts.calls.reachable
  /-- A method and its statements come before the method in any context. -/
  ordered : ∀ past x rest id c m, record = past ++ x :: rest → x.event = .csMethodReached id →
    facts.elements.method? id = some (c, m) → m ∈ told Event.method? past ∧
      ∀ site stmt, site.method = m → p.stmt? site = some stmt → site ∈ told Event.stmt? past
  calls : (told Event.call? record).Nodup ∧ ∀ e, e ∈ told Event.call? record ↔ e ∈ facts.calls.edges
  callees : ∀ x ∈ record, ∀ e, x.event = .called e → e.callee ∈ x.facts.calls.reachable

section Proper

variable {σ : Type u} {p : Program} {record : List (Moment σ)} {x : Moment σ}

theorem Proper.fits (proper : Proper p record) (member : x ∈ record) : ∃ past, x.Fits p past := by
  obtain ⟨past, rest, split⟩ := List.append_of_mem member
  exact ⟨past, (proper past x rest split).1⟩

theorem Proper.init (proper : Proper p (record ++ [x])) : Proper p record :=
  fun past y rest split => proper past y (rest ++ [x]) (by simp [split])

theorem Proper.pairwise (proper : Proper p record) :
    record.Pairwise fun x y => x.facts.Below y.facts := by
  induction record using List.reverseRecOn with
  | nil => exact List.Pairwise.nil
  | append_singleton record x ih =>
    refine List.pairwise_append.mpr ⟨ih proper.init, List.pairwise_singleton _ _, fun y member z last => ?_⟩
    rw [List.mem_singleton.mp last]
    exact (proper record x [] rfl).2 y member

theorem Proper.disjoint (proper : Proper p record) (q : PointerId) :
    (told (Event.delta? q) record).Pairwise fun a b => ∀ o ∈ b, o ∉ a := by
  induction record using List.reverseRecOn with
  | nil => exact List.Pairwise.nil
  | append_singleton record x ih =>
    rw [told_append]
    refine List.pairwise_append.mpr ⟨ih proper.init, ?_, fun old before delta last => ?_⟩
    · cases tells : x.event.delta? q <;> simp [told, tells]
    · have fits := (proper record x [] rfl).1
      have tells : x.event = .arrived q delta := Event.delta?_eq_some.mp (by simpa [told] using last)
      exact (fits.of_event tells).2.2.1 old before

end Proper

namespace State.Coherent

variable {σ : Type u} {cx : Setup σ} {s : State (Watched σ)} {m : MethodId}

variable (coherent : s.Coherent cx.program [])

include coherent

theorem ordered {past rest : List (Moment σ)} {x : Moment σ} {id : CsMethodId} {c : ContextId}
    (split : s.record = past ++ x :: rest) (tells : x.event = .csMethodReached id)
    (known : s.elements.method? id = some (c, m)) :
    m ∈ told Event.method? past ∧ ∀ site stmt, site.method = m → cx.program.stmt? site = some stmt →
      site ∈ told Event.stmt? past := by
  have fits := (coherent.proper past x rest split).1
  obtain ⟨_, c', m', before, method, each, _⟩ := fits.of_event tells
  have later := (coherent.below x (by simp [split])).methods _ _ before
  obtain ⟨rfl, rfl⟩ : c' = c ∧ m' = m := by simpa using later.symm.trans known
  refine ⟨method, fun site stmt here there => ?_⟩
  exact each (site, stmt) (Program.mem_stmtRefs.mpr ⟨here, there⟩)

theorem mem_told_stmt {site : StmtRef} :
    site ∈ told Event.stmt? s.record ↔
      site.method ∈ told Event.method? s.record ∧ ∃ stmt, cx.program.stmt? site = some stmt := by
  rw [coherent.told_stmt, coherent.told_method, List.mem_flatMap]
  constructor
  · rintro ⟨m, registered, member⟩
    obtain ⟨⟨_, stmt⟩, place, rfl⟩ := List.mem_map.mp member
    obtain ⟨rfl, known⟩ := Program.mem_stmtRefs.mp place
    exact ⟨registered, stmt, known⟩
  · rintro ⟨registered, stmt, known⟩
    refine ⟨_, registered, List.mem_map.mpr ⟨(site, stmt), ?_, rfl⟩⟩
    exact Program.mem_stmtRefs.mpr ⟨rfl, known⟩

theorem mem_told_method :
    m ∈ told Event.method? s.record ↔
      ∃ id ∈ s.calls.reachable, ∃ c, s.elements.method? id = some (c, m) := by
  rw [coherent.told_method]
  refine ⟨coherent.reached m, ?_⟩
  rintro ⟨id, reached, c, known⟩
  rw [← coherent.told_csMethod] at reached
  obtain ⟨x, member, tells⟩ := List.mem_filterMap.mp reached
  obtain ⟨past, rest, split⟩ := List.append_of_mem member
  rw [← coherent.told_method, split, told_append]
  exact List.mem_append_left _ (coherent.ordered split (Event.csMethod?_eq_some.mp tells) known).1

theorem accounts : Accounts cx.program s.record s.toFacts := by
  obtain ⟨seen, reachable, edges⟩ := coherent.once
  refine ⟨⟨coherent.proper.pairwise, coherent.below⟩, ?_, coherent.proper.disjoint, ?_,
    ⟨?_, fun m => coherent.mem_told_method⟩, ⟨?_, fun site => coherent.mem_told_stmt⟩, ⟨?_, ?_⟩,
    fun past x rest id c m split tells known => coherent.ordered split tells known, ⟨?_, ?_⟩, ?_⟩
  · intro x member q delta tells
    obtain ⟨past, fits⟩ := coherent.proper.fits member
    obtain ⟨some_, there, _⟩ := fits.of_event tells
    exact ⟨some_, there⟩
  · intro q o
    rw [show s.elements.Holds q o ↔ _ from coherent.held q o, heard, List.filterMap_nil, List.append_nil]
  · rw [coherent.told_method]
    exact seen
  · rw [coherent.told_stmt]
    exact cx.program.sites_nodup seen
  · rw [coherent.told_csMethod]
    exact reachable
  · intro id
    rw [coherent.told_csMethod]
  · rw [coherent.told_call]
    exact edges
  · intro e
    rw [coherent.told_call]
  · intro x member e tells
    obtain ⟨past, fits⟩ := coherent.proper.fits member
    exact (fits.of_event tells).2

end State.Coherent

namespace Solver

variable {σ : Type u} {cx : Setup σ} {heap : Heap} {handler : σ}

/-- In a run whose handlers take nothing away and filter only what is empty, nothing found is ever
lost, and the handler is told of everything that is found, and of nothing twice. -/
theorem solve_accounts (tame : Tame cx heap handler) {fuel : Nat} {t : State σ}
    (solved : solve cx fuel heap handler = some t) :
    (∀ u v, Visits cx (start cx heap handler) u → Visits cx u v →
      u.toFacts.Below v.toFacts ∧ v.toFacts.Below t.toFacts) ∧
    ∃ w, solve cx.watched fuel heap (handler, []) = some w ∧ w.plain = t ∧
      Accounts cx.program w.record t.toFacts := by
  rw [← plain_solve] at solved
  obtain ⟨w, watched, rfl⟩ := Option.map_eq_some_iff.mp solved
  -- the run ends from every state on the way, with the end of a phase that takes nothing away
  have last : ∀ v, Visits cx.watched (start cx.watched heap (handler, [])) v →
      w.Coherent cx.program [] ∧ v.toFacts.Below w.toFacts := by
    intro v visited
    obtain ⟨n, ends⟩ := visited.run watched
    obtain ⟨u, between, finishes⟩ := run_some ends
    have before := visited.trans between
    rw [finishes.last]
    obtain ⟨coherent, below⟩ := (before.coherent_step tame (before.coherent tame)).2
    exact ⟨coherent, (visited.keeps tame between).trans below⟩
  refine ⟨fun u v first second => ?_, w, watched, rfl, (last _ Visits.here).1.accounts⟩
  obtain ⟨u', before, rfl⟩ :
      ∃ w, Visits cx.watched (start cx.watched heap (handler, [])) w ∧ w.plain = u := first.watched
  obtain ⟨v', after, rfl⟩ := second.watched
  exact ⟨before.keeps tame after, (last v' (before.trans after)).2⟩

theorem watchedBoxes_accounts :
    Tame watchedBoxes (Heap.ofProgram boxes true) () ∧
    ∃ t, solve watchedBoxes 100 (Heap.ofProgram boxes true) () = some t ∧
      ∃ w, solve watchedBoxes.watched 100 (Heap.ofProgram boxes true) ((), []) = some w ∧ w.plain = t ∧
        Accounts boxes w.record t.toFacts := by
  have tested : always watchedBoxes (fun s => decide (∀ c ∈ s.queue, c.Known s.toFacts) &&
      decide (∀ c ∈ s.queue.head?, c.InTime s)) 100
      (start watchedBoxes (Heap.ofProgram boxes true) ()) = true := by decide +kernel
  have tame : Tame watchedBoxes (Heap.ofProgram boxes true) () := by
    refine ⟨fun s visited => ?_, fun s visited => ?_, fun _ _ _ _ => rfl⟩
    · exact of_decide_eq_true (Bool.and_eq_true_iff.mp (visited.test tested)).1
    · exact of_decide_eq_true (Bool.and_eq_true_iff.mp (visited.test tested)).2
  have ends : (solve watchedBoxes 100 (Heap.ofProgram boxes true) ()).isSome = true := by decide +kernel
  obtain ⟨t, solved⟩ := Option.isSome_iff_exists.mp ends
  exact ⟨tame, t, solved, (solve_accounts tame solved).2⟩

end Solver

end PointsTo
