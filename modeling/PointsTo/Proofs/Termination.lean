import Mathlib.Data.Prod.Lex
import Mathlib.Order.WellFounded
import PointsTo.Proofs.Confinement

/-!
Confined runs end. A step that takes the next command or item either settles a deed that was open, or
leaves one command less, or leaves all commands as they are and one item less. A world has room for
finitely many deeds, so this cannot go on forever.
-/
namespace PointsTo

deriving instance DecidableEq for Deed

theorem CallKind.mem_all (kind : CallKind) : kind ∈ CallKind.all := by cases kind <;> decide

namespace World

variable {p : Program} {sel : Selector} {rules : HeapRules} (W : World p sel rules)

def deeds : Finset Deed :=
  (Finset.range W.csMethods.card).image .reached ∪
    (Finset.range W.pointers.card ×ˢ Finset.range W.csObjs.card).image (fun x => .held x.1 x.2) ∪
    (CallKind.all.toFinset ×ˢ Finset.range W.csSites.card ×ˢ Finset.range W.csMethods.card).image
      fun x => .recorded ⟨x.1, x.2.1, x.2.2⟩

theorem reached_mem {id : CsMethodId} : .reached id ∈ W.deeds ↔ id < W.csMethods.card := by
  simp [deeds]

theorem held_mem {q : PointerId} {o : CsObjId} :
    .held q o ∈ W.deeds ↔ q < W.pointers.card ∧ W.HasObj o := by
  simp [deeds, HasObj]

theorem recorded_mem {e : CallEdge} :
    .recorded e ∈ W.deeds ↔ e.site < W.csSites.card ∧ e.callee < W.csMethods.card := by
  obtain ⟨kind, site, callee⟩ := e
  simp [deeds, CallKind.mem_all]

end World

theorem Worklist.Takes.length_lt {w rest : Worklist} {item : WorkItem} (taken : w.Takes item rest) :
    rest.calls.length + rest.order.length < w.calls.length + w.order.length := by
  cases taken with
  | call before after e calls left order =>
    simp only [calls, left, order, List.length_append, List.length_cons]
    omega
  | points q set found calls order =>
    have queued : q ∈ w.order := (w.agrees.2 q).mpr (by simp [found])
    have some := List.length_pos_of_mem queued
    rw [calls, order, List.length_erase_of_mem queued]
    omega

namespace State

variable {σ : Type u} {cx : Setup σ} {s t : State σ}

theorem settled_of_below (below : s.toFacts.Below t.toFacts) {x : Deed} (settled : s.Settled x) :
    t.Settled x := by
  cases x with
  | reached id => exact below.reachable id settled
  | held q o => exact below.holds q o settled
  | recorded e => exact below.calls e settled

theorem reach_below (s : State σ) (cx : Setup σ) (id : CsMethodId) :
    s.toFacts.Below (s.reach cx id).toFacts ∧ id ∈ (s.reach cx id).calls.reachable := by
  have rest : (s.marking id).toFacts.Below (s.reach cx id).toFacts :=
    reach_induct (P := fun t => (s.marking id).toFacts.Below t.toFacts) (Facts.Below.refl _)
      (fun _ _ there => there) (fun t e there => there.trans (notify_quiet t cx e).below)
      fun t c site stmt there => there.trans (runStmt_safe t cx c site stmt).toQuiet.below
  exact ⟨(marking_below s id).trans rest, rest.reachable id (mem_marking.mpr (Or.inr rfl))⟩

theorem processCall_below (s : State σ) (cx : Setup σ) (e : CallEdge) :
    s.toFacts.Below (s.processCall cx e).toFacts ∧ e ∈ (s.processCall cx e).calls.edges := by
  by_cases before : e ∈ s.calls.edges
  · rw [processCall_known before]
    exact ⟨Facts.Below.refl _, before⟩
  rw [processCall_new before]
  have rest := ((reach_below (s.recording e) cx e.callee).1.trans (passing_safe _ cx e).toQuiet.below).trans
    (notify_quiet _ cx (.called e)).below
  exact ⟨(recording_below s e).trans rest, rest.calls e (mem_recording.mpr (Or.inr rfl))⟩

theorem processPoints_below (cx : Setup σ) {q : PointerId} {set : ObjSet}
    (known : ∀ o ∈ set, s.Knows q) :
    s.toFacts.Below (s.processPoints cx q set).toFacts ∧
      ∀ o ∈ s.news q set, (s.processPoints cx q set).Holds q o := by
  have filled : s.toFacts.Below (s.filled q set).toFacts :=
    ⟨filled_grown s q set, fun _ _ held => (holds_filled known).mpr (Or.inl held)⟩
  have inside : ∀ o ∈ s.news q set, (s.filled q set).Holds q o := fun o member =>
    (holds_filled known).mpr (Or.inr ⟨rfl, (mem_news.mp member).1⟩)
  rw [processPoints_eq]
  split
  · exact ⟨filled, inside⟩
  · have rest := ((sendAll_quiet (p := cx.program) (s.filled q set) q (s.news q set)).trans
      (applying_quiet _ cx q (s.news q set))).trans (notify_quiet _ cx (.arrived q (s.news q set)))
    exact ⟨filled.trans rest.below, fun o member => rest.below.holds q o (inside o member)⟩

theorem enter_below (s : State σ) (cx : Setup σ) (entry : EntryPoint) :
    s.toFacts.Below (s.enter cx entry).toFacts ∧
      (s.internMethod ContextTable.emptyId entry.method).2 ∈ (s.enter cx entry).calls.reachable := by
  have noted : s.toFacts.Below (s.noting entry.method).toFacts :=
    ⟨(noting_keeps s entry.method).grown, fun _ _ held => held⟩
  obtain ⟨below, reached⟩ := reach_below (s.noting entry.method) cx
    (s.internMethod ContextTable.emptyId entry.method).2
  have seeded := (enter_hush s cx entry).below
  exact ⟨(noted.trans below).trans seeded, seeded.reachable _ reached⟩

theorem addFilter_below (s : State σ) (cx : Setup σ) (pointer : PointerRef) (keep : Obj → Bool) :
    s.toFacts.Below (s.apply cx (.addFilter pointer keep)).toFacts ∧
      (s.apply cx (.addFilter pointer keep)).queue = s.queue := by
  have resolved := resolvePointer_hush s pointer
  have attached : (s.resolvePointer pointer).1.toFacts.Below
      ((s.resolvePointer pointer).1.attaching (s.resolvePointer pointer).2 keep).toFacts := by
    refine ⟨{ Facts.Extends.refl _ with }, fun q o held => ?_⟩
    obtain ⟨set, found, member⟩ := held
    exact ⟨set, (Elements.pts?_addFilter _ _ _ _).trans found, member⟩
  have whole := resolved.below.trans attached
  simp only [State.apply]
  split
  · split
    · exact ⟨whole, resolved.asks⟩
    · exact ⟨whole, resolved.asks⟩
  · exact ⟨whole, resolved.asks⟩

section Measure

variable {rules : HeapRules} (C : Confinement cx rules) {x : Deed}

open Classical in
noncomputable def openDeeds (s : State σ) : Nat := (C.world.deeds.filter fun x => ¬ s.Settled x).card

theorem openDeeds_le (below : s.toFacts.Below t.toFacts) : t.openDeeds C ≤ s.openDeeds C := by
  classical
  refine Finset.card_le_card (Finset.monotone_filter_right _ ?_)
  exact fun x _ still settled => still (settled_of_below below settled)

theorem openDeeds_lt (below : s.toFacts.Below t.toFacts) (member : x ∈ C.world.deeds) (before : ¬ s.Settled x)
    (after : t.Settled x) : t.openDeeds C < s.openDeeds C := by
  classical
  refine Finset.card_lt_card ⟨?_, fun all => ?_⟩
  · refine Finset.monotone_filter_right _ ?_
    exact fun x _ still settled => still (settled_of_below below settled)
  · exact (Finset.mem_filter.mp (all (Finset.mem_filter.mpr ⟨member, before⟩))).2 after

def work (s : State σ) : Nat := s.worklist.calls.length + s.worklist.order.length

/-- What a run has before it: open deeds count most, then commands, then items. -/
noncomputable def ahead (s : State σ) : ℕ ×ₗ ℕ ×ₗ ℕ :=
  toLex (s.openDeeds C, toLex (s.queue.length, s.work))

theorem ahead_lt_iff : t.ahead C < s.ahead C ↔ t.openDeeds C < s.openDeeds C ∨
    t.openDeeds C = s.openDeeds C ∧ (t.queue.length < s.queue.length ∨
      t.queue.length = s.queue.length ∧ t.work < s.work) := by
  unfold ahead
  rw [Prod.Lex.toLex_lt_toLex, Prod.Lex.toLex_lt_toLex]

theorem ahead_lt_of_command (below : s.toFacts.Below t.toFacts)
    (fewer : t.queue.length < s.queue.length) : t.ahead C < s.ahead C := by
  have deeds := openDeeds_le C below
  rw [ahead_lt_iff]
  omega

theorem ahead_lt_of_item (below : s.toFacts.Below t.toFacts) (queue : t.queue = s.queue)
    (fewer : t.work < s.work) : t.ahead C < s.ahead C := by
  have deeds := openDeeds_le C below
  rw [ahead_lt_iff, queue]
  omega

theorem ahead_lt_of_deed (below : s.toFacts.Below t.toFacts) (member : x ∈ C.world.deeds) (before : ¬ s.Settled x)
    (after : t.Settled x) : t.ahead C < s.ahead C :=
  (ahead_lt_iff C).mpr (Or.inl (openDeeds_lt C below member before after))

end Measure

namespace Confined

variable {rules : HeapRules} {C : Confinement cx rules} {rest : Worklist}

section

variable (confined : s.Confined C)

include confined

theorem apply_ahead {c : Command} {rest : List Command} (queue : s.queue = c :: rest) :
    ((s.popping rest).apply cx c).Confined C ∧ ((s.popping rest).apply cx c).ahead C < s.ahead C := by
  have takes : ∀ d ∈ c :: rest, C.world.Takes d := queue ▸ confined.queue
  have popped : (s.popping rest).Confined C :=
    { confined with queue := fun d member => takes d (List.mem_cons_of_mem _ member) }
  refine ⟨popped.apply (takes c List.mem_cons_self), ?_⟩
  have fewer : ∀ t : State σ, t.queue = rest → t.queue.length < s.queue.length := by
    intro t same
    rw [same, queue]
    exact Nat.lt_succ_self _
  have mutely : (s.popping rest).Mute ((s.popping rest).apply cx c) →
      ((s.popping rest).apply cx c).ahead C < s.ahead C :=
    fun mute => ahead_lt_of_command C mute.below (fewer _ mute.asks)
  cases c with
  | addEntryPoint entry =>
    obtain ⟨below, reached⟩ := enter_below (s.popping rest) cx entry
    by_cases before : (s.internMethod ContextTable.emptyId entry.method).2 ∈ s.calls.reachable
    · refine ahead_lt_of_command C below (fewer _ ?_)
      have known : (s.internMethod ContextTable.emptyId entry.method).2 ∈
          ((s.popping rest).noting entry.method).calls.reachable :=
        (calls_noting entry.method).1.symm ▸ before
      have muted := enter_hush (s.popping rest) cx entry
      rw [show ((s.popping rest).internMethod ContextTable.emptyId entry.method).2 =
        (s.internMethod ContextTable.emptyId entry.method).2 from rfl, reach_known known] at muted
      exact muted.asks
    · have bound := (confined.internMethod C.world.hasContext_empty
        (takes _ List.mem_cons_self).method).2
      exact ahead_lt_of_deed C below (C.world.reached_mem.mpr bound) before reached
  | addFilter pointer keep =>
    obtain ⟨below, same⟩ := addFilter_below (s.popping rest) cx pointer keep
    exact ahead_lt_of_command C below (fewer _ same)
  | _ => exact mutely (apply_mute _ cx _ (by simp) (by simp))

theorem taking {item : WorkItem} (taken : s.worklist.Takes item rest) : (s.taking rest).Confined C :=
  { confined with
    waiting := fun d member => confined.waiting d (taken.calls_before member)
    pending := fun q o pending => confined.pending q o (taken.pending_before pending) }

theorem processCall_ahead {e : CallEdge} (taken : s.worklist.Takes (.call e) rest) :
    ((s.taking rest).processCall cx e).Confined C ∧
      ((s.taking rest).processCall cx e).ahead C < s.ahead C := by
  refine ⟨(confined.taking taken).processCall e, ?_⟩
  obtain ⟨below, recorded⟩ := processCall_below (s.taking rest) cx e
  by_cases before : e ∈ (s.taking rest).calls.edges
  · rw [processCall_known before]
    exact ahead_lt_of_item C (Facts.Below.refl _) rfl taken.length_lt
  · have member := C.world.recorded_mem.mpr (confined.waiting e taken.calls_call.1)
    exact ahead_lt_of_deed C below member before recorded

theorem processPoints_ahead {q : PointerId} {set : ObjSet} (taken : s.worklist.Takes (.points q set) rest) :
    ((s.taking rest).processPoints cx q set).Confined C ∧
      ((s.taking rest).processPoints cx q set).ahead C < s.ahead C := by
  have arrives : ∀ o ∈ set, (s.taking rest).Knows q ∧ C.world.HasObj o := fun o member =>
    confined.pending q o (taken.pending_set member)
  refine ⟨(confined.taking taken).processPoints arrives, ?_⟩
  obtain ⟨below, held⟩ := processPoints_below cx fun o member => (arrives o member).1
  cases none : ((s.taking rest).news q set).isEmpty with
  | true =>
    have filled : (s.taking rest).processPoints cx q set = (s.taking rest).filled q set := by
      rw [processPoints_eq, if_pos none]
    rw [filled] at below ⊢
    exact ahead_lt_of_item C below rfl taken.length_lt
  | false =>
    obtain ⟨o, member⟩ : ∃ o, o ∈ (s.taking rest).news q set := by
      by_contra nothing
      rw [ObjSet.isEmpty_iff.mpr fun o member => nothing ⟨o, member⟩] at none
      cases none
    obtain ⟨admitted, before⟩ := mem_news.mp member
    obtain ⟨⟨ptr, known⟩, bound⟩ := arrives o (subset_of_admitted admitted)
    have inside := C.world.held_mem.mpr ⟨confined.pointers.lt known, bound⟩
    exact ahead_lt_of_deed C below inside before (held o member)

/-- A step ends the run, or stays in the world and comes closer to the end. -/
theorem step :
    (∃ t, Solver.step cx s = .finished t) ∨
      ∃ t, Solver.step cx s = .running t ∧ t.Confined C ∧ t.ahead C < s.ahead C := by
  cases stepped : Solver.step cx s with
  | finished t => exact Or.inl ⟨t, rfl⟩
  | running t =>
    refine Or.inr ⟨t, rfl, ?_⟩
    cases Solver.step_running stepped with
    | command queue => exact confined.apply_ahead queue
    | call _ _ taken => exact confined.processCall_ahead taken
    | points _ _ taken => exact confined.processPoints_ahead taken
    | phase queue _ more =>
      -- handlers are silent at the end of a phase, so it brings no commands
      refine absurd ?_ more
      have silent := C.phaseEnd s.trimmed.2 s.trimmed.1 s.handler confined.good
      have asked : (s.endPhase cx).queue = s.queue ++
        (cx.handlers.phaseEnd s.trimmed.1 s.trimmed.2 s.handler).commands := rfl
      rw [asked, silent, queue]
      rfl

theorem run : ∃ n t, ∀ fuel, n ≤ fuel → Solver.run cx fuel s = some t := by
  induction ahead : s.ahead C using WellFoundedLT.induction generalizing s with
  | ind _ ih =>
    subst ahead
    rcases confined.step with ⟨t, finished⟩ | ⟨t, running, confined', closer⟩
    · refine ⟨1, t, fun fuel enough => ?_⟩
      obtain ⟨rest, rfl⟩ := Nat.exists_eq_add_of_le' enough
      rw [Solver.run, finished]
    · obtain ⟨n, u, ends⟩ := ih _ closer confined' rfl
      refine ⟨n + 1, u, fun fuel enough => ?_⟩
      obtain ⟨rest, rfl⟩ := Nat.exists_eq_add_of_le' enough
      rw [show rest + (n + 1) = (rest + n) + 1 from rfl, Solver.run, running]
      exact ends _ (Nat.le_add_left n rest)

theorem visits (visited : Solver.Visits cx s t) : t.Confined C := by
  induction visited with
  | here => exact confined
  | next _ stepped ih =>
    rcases ih.step with ⟨u, finished⟩ | ⟨u, running, confined', _⟩
    · rw [stepped] at finished
      cases finished
    · rw [stepped] at running
      cases running
      exact confined'

theorem endPhase_trims : s.toFacts.Trims (s.endPhase cx).toFacts := by
  have silent := C.phaseEnd s.trimmed.2 s.trimmed.1 s.handler confined.good
  rw [(endPhase_asleep s cx silent).1]
  exact lateRemovals_trims s

end

theorem blank {heap : Heap} {handler : σ} (same : heap.rules = rules)
    (empty : heap.objects = Table.empty) (good : C.Good handler) :
    State.Confined C { heap, handler } where
  rules := same
  objects := empty ▸ Table.within_empty
  contexts := Table.within_empty.intern (mem_sequences.mpr ⟨Nat.zero_le _, List.forall_mem_nil _⟩)
  objs := Table.within_empty
  sites := Table.within_empty
  methods := Table.within_empty
  pointers := Table.within_empty
  held := fun q o held => by
    obtain ⟨set, found, _⟩ := held
    simp [Elements.pts?] at found
  pending := fun q o pending => by
    obtain ⟨set, member, _⟩ := pending
    cases member
  edges := fun id e edge => by simp [EdgeStore.edge?] at edge
  waiting := List.forall_mem_nil _
  queue := List.forall_mem_nil _
  good := good
  allocated := fun id o found => by
    rw [Heap.get?, empty] at found
    cases found

end Confined

end State

namespace Solver

variable {σ : Type u} {cx : Setup σ} {rules : HeapRules} {heap : Heap} {handler : σ}

theorem start_confined (C : Confinement cx rules) (same : heap.rules = rules) (empty : heap.objects = Table.empty)
    (good : C.Good handler) : (start cx heap handler).Confined C :=
  (State.Confined.blank same empty good).notify .started fun _ _ same => by cases same

theorem solve_ends (C : Confinement cx rules) (same : heap.rules = rules) (empty : heap.objects = Table.empty)
    (good : C.Good handler) :
    ∃ n t, (∀ fuel, n ≤ fuel → solve cx fuel heap handler = some t) ∧
      t.worklist.isEmpty = true ∧ t.queue = [] := by
  have started := start_confined C same empty good
  obtain ⟨n, t, ends⟩ := started.run
  obtain ⟨u, _, finishes⟩ := run_some (ends n (Nat.le_refl n))
  refine ⟨n, t, ends, ?_, finishes.quiet⟩
  rw [finishes.last]
  exact finishes.idle

/-- What a run with confined handlers ends with lies in the world, but for what filters took away. -/
theorem solve_confined (C : Confinement cx rules) {fuel : Nat} {t : State σ} (same : heap.rules = rules)
    (empty : heap.objects = Table.empty) (good : C.Good handler) (solved : solve cx fuel heap handler = some t) :
    ∃ s : State σ, s.Confined C ∧ s.toFacts.Trims t.toFacts ∧ t.seen = s.seen := by
  have started := start_confined C same empty good
  obtain ⟨s, visited, finishes⟩ := run_some solved
  have confined := started.visits visited
  refine ⟨s, confined, ?_, ?_⟩
  · rw [finishes.last]
    exact confined.endPhase_trims
  · rw [finishes.last]
    rfl

end Solver

end PointsTo
