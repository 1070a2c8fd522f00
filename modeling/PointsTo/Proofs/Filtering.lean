import PointsTo.Proofs.Account

/-!
Filters hold when a run is over, whenever they came: one that finds its pointer empty is asked about
every object that arrives, and one that finds objects there has its turn at the end of the phase.
-/
namespace PointsTo

namespace Facts

/-- Objects have been taken out of points-to sets, and nothing else has changed. -/
structure Shrinks (f g : Facts) : Prop where
  grown : f.Extends g
  obj? : ∀ o, g.obj? o = f.obj? o
  filters : ∀ q, g.elements.filters q = f.elements.filters q
  flow : g.flow = f.flow
  inside : ∀ q o, g.elements.Holds q o → f.elements.Holds q o

theorem Shrinks.refl (f : Facts) : f.Shrinks f :=
  ⟨Extends.refl f, fun _ => rfl, fun _ => rfl, rfl, fun _ _ held => held⟩

theorem Shrinks.trans {f g h : Facts} (first : f.Shrinks g) (second : g.Shrinks h) : f.Shrinks h :=
  ⟨first.grown.trans second.grown, fun o => (second.obj? o).trans (first.obj? o),
    fun q => (second.filters q).trans (first.filters q), second.flow.trans first.flow,
    fun q o held => first.inside q o (second.inside q o held)⟩

theorem remove_shrinks (f : Facts) (r : Removal) :
    f.Shrinks (f.remove r).1 ∧
      ∀ o, (f.remove r).1.elements.Holds r.pointer o → f.objSatisfies r.drop o = false := by
  unfold remove
  split
  · next nothing =>
    refine ⟨Shrinks.refl f, ?_⟩
    rintro o ⟨set, found, _⟩
    rw [nothing] at found
    cases found
  · next pts found =>
    dsimp only
    split
    · obtain ⟨ptr, known⟩ := Elements.known_of_pts? found
      have self := Elements.pts?_setPts_self (pts.removeIf (f.objSatisfies r.drop)).1 known
      refine ⟨⟨{ Extends.refl f with }, fun _ => rfl, fun _ => Elements.filters_setPts _ _ _ _, rfl,
        ?_⟩, ?_⟩
      · rintro q o ⟨set, located, member⟩
        by_cases same : q = r.pointer
        · subst same
          rw [self] at located
          cases located
          exact ⟨pts, found, (ObjSet.mem_removeIf.mp member).1⟩
        · rw [Elements.pts?_setPts_ne _ same] at located
          exact ⟨set, located, member⟩
      · rintro o ⟨set, located, member⟩
        rw [self] at located
        cases located
        exact (ObjSet.mem_removeIf.mp member).2
    · next none =>
      refine ⟨Shrinks.refl f, ?_⟩
      rintro o ⟨set, located, member⟩
      rw [found] at located
      cases located
      exact Bool.eq_false_iff.mpr fun doomed => none (List.any_eq_true.mpr ⟨o, member, doomed⟩)

theorem removeAll_cons (f : Facts) (r : Removal) (rest : List Removal) :
    (f.removeAll (r :: rest)).1 = ((f.remove r).1.removeAll rest).1 := by
  have counts : ∀ (g : Facts) (n k : Nat),
      (rest.foldl (fun x r => ((x.1.remove r).1, x.2 + (x.1.remove r).2)) (g, n)).1 =
        (rest.foldl (fun x r => ((x.1.remove r).1, x.2 + (x.1.remove r).2)) (g, k)).1 := by
    induction rest with
    | nil => exact fun _ _ _ => rfl
    | cons r rest ih => exact fun g n k => ih _ _ _
  exact counts _ _ _

theorem removeAll_shrinks (f : Facts) (rs : List Removal) :
    f.Shrinks (f.removeAll rs).1 ∧
      ∀ r ∈ rs, ∀ o, (f.removeAll rs).1.elements.Holds r.pointer o → f.objSatisfies r.drop o = false := by
  induction rs generalizing f with
  | nil => exact ⟨Shrinks.refl f, fun r member => absurd member List.not_mem_nil⟩
  | cons r rest ih =>
    obtain ⟨first, gone⟩ := remove_shrinks f r
    obtain ⟨later, others⟩ := ih (f.remove r).1
    rw [removeAll_cons]
    refine ⟨first.trans later, fun r' member o held => ?_⟩
    rcases List.mem_cons.mp member with rfl | inRest
    · exact gone o (later.inside _ o held)
    · have spared := others r' inRest o held
      rwa [objSatisfies, first.obj?] at spared

end Facts

namespace State

variable {σ : Type u} {cx : Setup σ} {s t u : State σ} {q : PointerId} {keep : Obj → Bool} {o : CsObjId}
  {pointer : PointerRef}

/-- An object that a filter refuses has been there before the filter, which still has its turn. -/
def Filtered (s : State σ) : Prop := ∀ q o, s.Holds q o → s.Refuses q o → q ∈ s.refilter

/-- A change to neither points-to sets nor filters. -/
structure Spares (s t : State σ) : Prop where
  grown : s.toFacts.Extends t.toFacts
  pts : ∀ q, t.elements.pts? q = s.elements.pts? q
  filters : ∀ q, t.elements.filters q = s.elements.filters q
  refilter : t.refilter = s.refilter

theorem Quiet.spares (quiet : s.Quiet t) : s.Spares t :=
  ⟨quiet.grown, quiet.pts, quiet.filters, quiet.refilter⟩

theorem Spares.trans (first : s.Spares t) (second : t.Spares u) : s.Spares u :=
  ⟨first.grown.trans second.grown, fun q => (second.pts q).trans (first.pts q),
    fun q => (second.filters q).trans (first.filters q), second.refilter.trans first.refilter⟩

theorem Spares.mem_filters (spares : s.Spares t) (attached : keep ∈ s.elements.filters q) :
    keep ∈ t.elements.filters q := by
  rw [spares.filters]
  exact attached

theorem refuses_before (grown : s.toFacts.Extends t.toFacts) {d : ContextId × Obj}
    (known : s.describe? o = some d) (filters : ∀ keep ∈ t.elements.filters q, keep ∈ s.elements.filters q)
    (refused : t.Refuses q o) : s.Refuses q o := by
  obtain ⟨obj, object, keep, attached, refusal⟩ := refused
  rw [Facts.obj?_of_describe? (grown.describe? known)] at object
  cases object
  exact ⟨d.2, Facts.obj?_of_describe? known, keep, filters keep attached, refusal⟩

theorem Spares.filtered (spares : s.Spares t) (handles : s.Handles) (filtered : s.Filtered) :
    t.Filtered := by
  intro q o held refused
  have before : s.Holds q o := by
    rw [Holds, Elements.Holds, spares.pts] at held
    exact held
  obtain ⟨d, known⟩ := handles.held q o before
  rw [spares.refilter]
  refine filtered q o before (refuses_before spares.grown known (fun keep attached => ?_) refused)
  exact spares.filters q ▸ attached

section

variable (s : State σ) (cx : Setup σ)

theorem reach_spares (id : CsMethodId) : s.Spares (s.reach cx id) :=
  reach_induct (P := s.Spares) ⟨(marking_keeps s id).grown, fun _ => rfl, fun _ => rfl, rfl⟩
    (fun _ _ there => there.trans ⟨Facts.Extends.refl _, fun _ => rfl, fun _ => rfl, rfl⟩)
    (fun t e there => there.trans (notify_quiet t cx e).spares)
    fun t c site stmt there => there.trans (runStmt_safe t cx c site stmt).toQuiet.spares

theorem processCall_spares (e : CallEdge) : s.Spares (s.processCall cx e) := by
  by_cases before : e ∈ s.calls.edges
  · rw [processCall_known before]
    exact (Quiet.refl s).spares
  rw [processCall_new before]
  have recorded : s.Spares (s.recording e) :=
    ⟨(recording_keeps s e).grown, fun _ => rfl, fun _ => rfl, rfl⟩
  have reached := recorded.trans (reach_spares _ cx e.callee)
  exact (reached.trans (passing_safe _ cx e).toQuiet.spares).trans (notify_quiet _ cx (.called e)).spares

theorem enter_spares (entry : EntryPoint) : s.Spares (s.enter cx entry) := by
  have noted : s.Spares (s.noting entry.method) :=
    ⟨(noting_keeps s entry.method).grown, fun _ => rfl, fun _ => rfl, rfl⟩
  exact (noted.trans (reach_spares _ cx _)).trans (enter_hush s cx entry).spares

theorem addFilter_facts (pointer : PointerRef) (keep : Obj → Bool) :
    (s.apply cx (.addFilter pointer keep)).toFacts =
      ((s.resolvePointer pointer).1.attaching (s.resolvePointer pointer).2 keep).toFacts := by
  simp only [apply]
  split
  · split <;> rfl
  · rfl

end

theorem addFilter_refilter
    (awaits : q ∈ (s.resolvePointer pointer).1.refilter ∨ (q = (s.resolvePointer pointer).2 ∧
      ∃ o, (s.resolvePointer pointer).1.Holds (s.resolvePointer pointer).2 o)) :
    q ∈ (s.apply cx (.addFilter pointer keep)).refilter := by
  simp only [apply, Elements.pts?_addFilter]
  generalize s.resolvePointer pointer = r at awaits ⊢
  split
  · next pts found =>
    split
    · next none =>
      rcases awaits with old | ⟨_, o, set, located, member⟩
      · exact old
      · rw [found] at located
        cases located
        exact absurd member (ObjSet.isEmpty_iff.mp none o)
    · rcases awaits with old | ⟨rfl, _⟩
      · exact List.mem_append_left _ old
      · exact List.mem_append_right _ (List.mem_singleton.mpr rfl)
  · next nothing =>
    rcases awaits with old | ⟨_, o, set, located, _⟩
    · exact old
    · rw [nothing] at located
      cases located

theorem addFilter_filtered (s : State σ) (cx : Setup σ) (pointer : PointerRef) (keep : Obj → Bool)
    (filtered : (s.resolvePointer pointer).1.Filtered) : (s.apply cx (.addFilter pointer keep)).Filtered := by
  intro q o held refused
  rw [Holds, addFilter_facts] at held
  rw [Refuses, addFilter_facts] at refused
  obtain ⟨set, located, member⟩ := held
  have before : (s.resolvePointer pointer).1.Holds q o :=
    ⟨set, (Elements.pts?_addFilter _ _ _ _).symm.trans located, member⟩
  obtain ⟨obj, object, other, attached, refusal⟩ := refused
  -- an old filter waits for its turn already, the new one belongs to this pointer
  rcases Elements.mem_filters_addFilter_inv attached with old | ⟨rfl, _⟩
  · exact addFilter_refilter (Or.inl (filtered q o before ⟨obj, object, other, old, refusal⟩))
  · exact addFilter_refilter (Or.inr ⟨rfl, o, before⟩)

theorem apply_filtered (s : State σ) (cx : Setup σ) (c : Command) (handles : s.Handles)
    (filtered : s.Filtered) : (s.apply cx c).Filtered := by
  cases c with
  | addEntryPoint entry => exact (enter_spares s cx entry).filtered handles filtered
  | addFilter pointer keep =>
    refine addFilter_filtered s cx pointer keep ?_
    exact (resolvePointer_hush s pointer).spares.filtered handles filtered
  | _ => exact (apply_mute s cx _ (by simp) (by simp)).spares.filtered handles filtered

theorem apply_filters (s : State σ) (cx : Setup σ) (c : Command) (attached : keep ∈ s.elements.filters q) :
    keep ∈ (s.apply cx c).elements.filters q := by
  cases c with
  | addEntryPoint entry => exact (enter_spares s cx entry).mem_filters attached
  | addFilter pointer other =>
    have resolved := (resolvePointer_hush s pointer).spares.mem_filters attached
    rw [addFilter_facts]
    exact Elements.mem_filters_addFilter resolved
  | _ => exact (apply_mute s cx _ (by simp) (by simp)).spares.mem_filters attached

theorem resolvePointer_popping (s : State σ) (rest : List Command) (pointer : PointerRef) :
    ((s.popping rest).resolvePointer pointer).2 = (s.resolvePointer pointer).2 := by
  cases pointer with
  | field base f => cases base <;> rfl
  | element array => cases array <;> rfl
  | _ => rfl

theorem addFilter_attaches (known : pointer.Known s.toFacts) :
    keep ∈ (s.apply cx (.addFilter pointer keep)).elements.filters (s.resolvePointer pointer).2 := by
  obtain ⟨ptr, there⟩ := resolvePointer_knows known
  rw [addFilter_facts]
  exact Elements.mem_filters_addFilter_self keep there

theorem processPoints_safe {set : ObjSet} (described : s.Describes set) :
    (s.filled q set).Safe cx.program (s.processPoints cx q set) := by
  rw [processPoints_eq]
  split
  · exact Safe.refl _
  · have sent : (s.filled q set).Safe cx.program
        ((s.filled q set).sendAll cx.program q (s.news q set)) :=
      sendAll_safe _ q _ fun o member => described o (subset_of_admitted (mem_news.mp member).1)
    refine (sent.trans ?_).trans (notify_safe _ cx _)
    unfold applying
    split
    · next context v found => exact useDelta_safe _ cx context v q _ ⟨_, found⟩
    · exact Safe.refl _

theorem processPoints_filters (s : State σ) (cx : Setup σ) (q : PointerId) (set : ObjSet) (r : PointerId) :
    (s.processPoints cx q set).elements.filters r = s.elements.filters r := by
  have filled : (s.filled q set).elements.filters r = s.elements.filters r :=
    Elements.filters_setPts _ _ _ _
  rw [processPoints_eq]
  split
  · exact filled
  · have rest := ((sendAll_quiet (p := cx.program) (s.filled q set) q (s.news q set)).trans
      (applying_quiet _ cx q (s.news q set))).trans (notify_quiet _ cx (.arrived q (s.news q set)))
    exact (rest.filters r).trans filled

theorem Filtered.filled {set : ObjSet} (filtered : s.Filtered) (known : ∀ o ∈ set, s.Knows q)
    (described : s.Describes set) : (s.filled q set).Filtered := by
  intro r o held refused
  have refusal := refuses_filled.mp refused
  rcases (holds_filled known).mp held with before | ⟨rfl, admitted⟩
  · exact filtered r o before refusal
  · have member := subset_of_admitted admitted
    exact absurd refusal ((mem_admitted (described o member)).mp admitted).2

/-- What the end of a phase does to the facts: late filters, then removals, then new objects. -/
theorem endPhase_shrinks (s : State σ) (cx : Setup σ) :
    ∃ g created, s.trimmed.1.Shrinks g ∧
      (s.endPhase cx).toFacts = { g with heap := g.heap.internAll created } :=
  ⟨_, _, (Facts.removeAll_shrinks s.trimmed.1 _).1, rfl⟩

theorem endPhase_handles (cx : Setup σ) (handles : s.Handles) : (s.endPhase cx).Handles := by
  obtain ⟨g, created, removed, facts⟩ := endPhase_shrinks s cx
  have shrunk := (Facts.removeAll_shrinks s.toFacts s.lateRemovals).1.trans removed
  have grown : s.toFacts.Extends (s.endPhase cx).toFacts := by
    rw [facts]
    exact shrunk.grown.trans { Facts.Extends.refl g with objects := Table.le_internAll _ _ }
  have flow : (s.endPhase cx).flow = s.flow := by
    rw [facts]
    exact shrunk.flow
  refine ⟨fun q o held => ?_, fun q o pending => ?_, fun id e edge => ?_, ?_⟩
  · rw [Holds, facts] at held
    obtain ⟨d, known⟩ := handles.held q o (shrunk.inside q o held)
    exact ⟨d, grown.describe? known⟩
  · obtain ⟨⟨ptr, pointer⟩, d, known⟩ := handles.pending q o pending
    exact ⟨⟨ptr, grown.pointers _ _ pointer⟩, d, grown.describe? known⟩
  · rw [flow] at edge
    obtain ⟨⟨a, source⟩, b, target⟩ := handles.edges id e edge
    exact ⟨⟨a, grown.pointers _ _ source⟩, b, grown.pointers _ _ target⟩
  · rw [flow]
    exact handles.receivers

theorem endPhase_filters (s : State σ) (cx : Setup σ) (q : PointerId) :
    (s.endPhase cx).elements.filters q = s.elements.filters q := by
  obtain ⟨g, created, removed, facts⟩ := endPhase_shrinks s cx
  rw [facts]
  exact ((Facts.removeAll_shrinks s.toFacts s.lateRemovals).1.trans removed).filters q

theorem endPhase_accepts (cx : Setup σ) (handles : s.Handles) (filtered : s.Filtered)
    (held : (s.endPhase cx).Holds q o) : ¬ (s.endPhase cx).Refuses q o := by
  intro refused
  obtain ⟨g, created, removed, facts⟩ := endPhase_shrinks s cx
  obtain ⟨late, gone⟩ := Facts.removeAll_shrinks s.toFacts s.lateRemovals
  have grown : s.toFacts.Extends (s.endPhase cx).toFacts := by
    rw [facts]
    exact (late.trans removed).grown.trans
      { Facts.Extends.refl g with objects := Table.le_internAll _ _ }
  rw [Holds, facts] at held
  have stayed := removed.inside q o held
  have before := late.inside q o stayed
  obtain ⟨d, known⟩ := handles.held q o before
  have refusal := refuses_before grown known (fun keep attached => endPhase_filters s cx q ▸ attached) refused
  have awaits : q ∈ (s.refilter.eraseDups).mergeSort (· ≤ ·) :=
    List.mem_mergeSort.mpr (List.mem_eraseDups.mpr (filtered q o before refusal))
  have spared := gone _ (List.mem_map.mpr ⟨q, awaits, rfl⟩) o stayed
  obtain ⟨obj, object, keep, attached, fails⟩ := refusal
  simp only [Facts.objSatisfies, object, Bool.not_eq_false', List.all_eq_true] at spared
  rw [spared keep attached] at fails
  cases fails

end State

namespace Solver

variable {σ : Type u} {cx : Setup σ} {policy : Policy} {s t : State σ}

theorem Step.filtered (step : Step cx policy s t) (known : ∀ c ∈ s.queue, c.Known s.toFacts)
    (handles : s.Handles) (filtered : s.Filtered) : t.Handles ∧ t.Filtered := by
  cases step with
  | command queue =>
    rename_i c rest
    have named : c.Known s.toFacts := known c (by rw [queue]; exact List.mem_cons_self)
    have popped : (s.popping rest).Handles := { handles with }
    exact ⟨(State.apply_delivers (s.popping rest) cx c named).handles popped,
      State.apply_filtered (s.popping rest) cx c popped filtered⟩
  | call queue allowed taken =>
    rename_i e worklist
    have left := handles.taking taken
    exact ⟨(State.processCall_delivers (s.taking worklist) cx e).handles left,
      (State.processCall_spares (s.taking worklist) cx e).filtered left filtered⟩
  | points queue allowed taken =>
    rename_i q set worklist
    have named : ∀ o ∈ set, (s.taking worklist).Knows q :=
      fun o member => (handles.pending _ o (taken.pending_set member)).1
    have described : (s.taking worklist).Describes set :=
      fun o member => (handles.pending _ o (taken.pending_set member)).2
    have safe : ((s.taking worklist).filled q set).Safe cx.program
        ((s.taking worklist).processPoints cx q set) := State.processPoints_safe described
    have filled := (handles.taking taken).filled named described
    have sieved : ((s.taking worklist).filled q set).Filtered :=
      State.Filtered.filled (s := s.taking worklist) filtered named described
    exact ⟨safe.handles filled, safe.toQuiet.spares.filtered filled sieved⟩
  | phase queue idle more =>
    refine ⟨State.endPhase_handles cx handles, fun q o held refused => ?_⟩
    exact absurd refused (State.endPhase_accepts cx handles filtered held)

theorem Step.filters (step : Step cx policy s t) {q : PointerId} {keep : Obj → Bool}
    (attached : keep ∈ s.elements.filters q) : keep ∈ t.elements.filters q := by
  cases step with
  | command queue => exact State.apply_filters _ cx _ attached
  | call queue allowed taken => exact (State.processCall_spares _ cx _).mem_filters attached
  | points queue allowed taken => exact (State.processPoints_filters _ cx _ _ q).symm ▸ attached
  | phase queue idle more => exact (State.endPhase_filters s cx q).symm ▸ attached

theorem step_command {c : Command} {rest : List Command} (queue : s.queue = c :: rest) :
    step cx s = .running ((s.popping rest).apply cx c) := by
  unfold step
  rw [queue]
  rfl

section Runs

variable {heap : Heap} {handler : σ}

theorem Visits.filtered (known : ∀ t, Visits cx (start cx heap handler) t → ∀ c ∈ t.queue, c.Known t.toFacts)
    (visited : Visits cx (start cx heap handler) s) : s.Handles ∧ s.Filtered := by
  induction visited with
  | here =>
    refine ⟨State.start_handles cx heap handler, ?_⟩
    rintro q o ⟨set, found, _⟩
    simp [start, State.notify, Elements.pts?] at found
  | next visited stepped ih => exact (step_running stepped).filtered (known _ visited) ih.1 ih.2

theorem Visits.filters (visited : Visits cx s t) {q : PointerId} {keep : Obj → Bool}
    (attached : keep ∈ s.elements.filters q) : keep ∈ t.elements.filters q := by
  induction visited with
  | here => exact attached
  | next _ stepped ih => exact (step_running stepped).filters ih

/-- When a run is over, every filter that was ever attached to a pointer is attached to it, and every
object in a points-to set passes all filters of its pointer. -/
theorem solve_respects_filters {fuel : Nat}
    (known : ∀ t, Visits cx (start cx heap handler) t → ∀ c ∈ t.queue, c.Known t.toFacts)
    (solved : solve cx fuel heap handler = some s) :
    (∀ t pointer keep rest, Visits cx (start cx heap handler) t →
      t.queue = .addFilter pointer keep :: rest →
        keep ∈ s.elements.filters (t.resolvePointer pointer).2) ∧
      ∀ q set o keep, s.elements.pts? q = some set → o ∈ set → keep ∈ s.elements.filters q →
        s.objSatisfies keep o = true := by
  obtain ⟨u, visited, finishes⟩ := run_some solved
  obtain ⟨handles, filtered⟩ := visited.filtered known
  constructor
  · intro t pointer keep rest there next
    have named := known t there _ (next ▸ List.mem_cons_self)
    obtain ⟨n, later⟩ := there.run solved
    cases n with
    | zero => cases later
    | succ n =>
      rw [run, step_command next] at later
      obtain ⟨v, onward, last⟩ := run_some later
      rw [last.last, State.endPhase_filters]
      refine onward.filters ?_
      rw [← State.resolvePointer_popping t rest]
      exact State.addFilter_attaches named
  · intro q set o keep found member attached
    have held : s.Holds q o := ⟨set, found, member⟩
    rw [finishes.last] at held attached ⊢
    obtain ⟨d, described⟩ := (State.endPhase_handles cx handles).held q o held
    have object := Facts.obj?_of_describe? described
    have accepts := State.endPhase_accepts cx handles filtered held
    cases passes : keep d.2 with
    | true => simp [Facts.objSatisfies, object, passes]
    | false => exact absurd ⟨d.2, object, keep, attached, passes⟩ accepts

end Runs

end Solver

/-- A handler that filters one variable before and another after it has received objects, and at the end
of the first phase empties a parameter and shuts a third variable. -/
def strictBoxes : Setup Nat where
  program := boxes
  selector := .limited .insensitive
  handlers := {
    react := fun e _ phases =>
      { state := phases
        commands := match e with
          | .started => [.addFilter (.var ContextTable.emptyId 4) fun o => o.ty == .cls 0,
              .addEntryPoint { method := 1 }]
          | .arrived q _ => if q = 1 then [.addFilter (.interned q) fun o => o.ty == .cls 0] else []
          | _ => [] }
    phaseEnd := fun _ _ phases =>
      { state := phases + 1
        commands := if phases = 0 then [.addFilter (.var ContextTable.emptyId 5) fun _ => false] else []
        removals := if phases = 0 then [⟨6, fun _ => true⟩] else [] } }

namespace Solver

theorem strictBoxes_respect_filters :
    ∃ s set keep, solve strictBoxes 100 (Heap.ofProgram boxes true) 0 = some s ∧
      s.stats.phases = 2 ∧ s.stats.filteredOut = 3 ∧ s.elements.pts? 0 = some set ∧ 1 ∈ set ∧
      keep ∈ s.elements.filters 0 ∧ s.objSatisfies keep 1 = true := by
  have tested : always strictBoxes (fun t => decide (∀ c ∈ t.queue, c.Known t.toFacts)) 100
      (start strictBoxes (Heap.ofProgram boxes true) 0) = true := by decide +kernel
  have ends : (solve strictBoxes 100 (Heap.ofProgram boxes true) 0).any (fun s =>
      decide (s.stats.phases = 2 ∧ s.stats.filteredOut = 3) &&
        ((s.elements.pts? 0).any (·.contains 1) && !(s.elements.filters 0).isEmpty)) = true := by
    decide +kernel
  obtain ⟨s, solved, passed⟩ := (Option.any_eq_true _ _).mp ends
  obtain ⟨counts, passed⟩ := Bool.and_eq_true_iff.mp passed
  obtain ⟨held, some_⟩ := Bool.and_eq_true_iff.mp passed
  obtain ⟨set, found, member⟩ := (Option.any_eq_true _ _).mp held
  obtain ⟨keep, attached⟩ := List.exists_mem_of_ne_nil (s.elements.filters 0) (by simpa using some_)
  obtain ⟨phases, dropped⟩ := of_decide_eq_true counts
  have inside := ObjSet.contains_iff.mp member
  refine ⟨s, set, keep, solved, phases, dropped, found, inside, attached, ?_⟩
  refine (solve_respects_filters (fun t visited => ?_) solved).2 0 set 1 keep found inside attached
  exact of_decide_eq_true (visited.test tested)

end Solver

end PointsTo
