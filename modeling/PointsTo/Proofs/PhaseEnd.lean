import PointsTo.Proofs.Delivery

/-!
The end of a phase. Filters that came late take their effect on the sets they were attached to.
-/
namespace PointsTo

/-- Objects have been taken out of points-to sets, but only such as a filter refuses. -/
structure Facts.Trims (f g : Facts) : Prop where
  heap : g.heap = f.heap
  contexts : g.contexts = f.contexts
  objs : g.elements.objs = f.elements.objs
  sites : g.elements.sites = f.elements.sites
  methods : g.elements.methods = f.elements.methods
  pointers : g.elements.pointers = f.elements.pointers
  filters : ∀ p, g.elements.filters p = f.elements.filters p
  flow : g.flow = f.flow
  calls : g.calls = f.calls
  inside : ∀ p o, g.elements.Holds p o → f.elements.Holds p o
  kept : ∀ p o, f.elements.Holds p o → g.elements.Holds p o ∨
    ∃ obj, f.obj? o = some obj ∧ ∃ keep ∈ f.elements.filters p, keep obj = false

namespace Facts

variable {f g : Facts}

theorem Trims.refl (f : Facts) : f.Trims f :=
  ⟨rfl, rfl, rfl, rfl, rfl, rfl, fun _ => rfl, rfl, rfl, fun _ _ held => held,
    fun _ _ held => Or.inl held⟩

theorem Trims.obj? (trim : f.Trims g) (o : CsObjId) : g.obj? o = f.obj? o := by
  unfold Facts.obj? Elements.obj?
  rw [trim.heap, trim.objs]

theorem Trims.trans {h : Facts} (first : f.Trims g) (second : g.Trims h) : f.Trims h where
  heap := second.heap.trans first.heap
  contexts := second.contexts.trans first.contexts
  objs := second.objs.trans first.objs
  sites := second.sites.trans first.sites
  methods := second.methods.trans first.methods
  pointers := second.pointers.trans first.pointers
  filters := fun p => (second.filters p).trans (first.filters p)
  flow := second.flow.trans first.flow
  calls := second.calls.trans first.calls
  inside := fun p o held => first.inside p o (second.inside p o held)
  kept := by
    intro p o held
    rcases first.kept p o held with still | refused
    · rcases second.kept p o still with last | refused
      · exact Or.inl last
      · rw [first.obj?, first.filters] at refused
        exact Or.inr refused
    · exact Or.inr refused

theorem Trims.extends (trim : f.Trims g) : f.Extends g := by
  obtain ⟨_, _, ⟨_, _, _, _, _, _⟩, _, _⟩ := f
  obtain ⟨_, _, ⟨_, _, _, _, _, _⟩, _, _⟩ := g
  obtain ⟨rfl, rfl, rfl, rfl, rfl, rfl, _, rfl, rfl, _, _⟩ := trim
  exact { Extends.refl _ with }

theorem remove_trims (f : Facts) (r : Removal)
    (refused : ∀ obj, r.drop obj = true → ∃ keep ∈ f.elements.filters r.pointer, keep obj = false) :
    f.Trims (f.remove r).1 := by
  unfold remove
  split
  · exact Trims.refl f
  · next pts found =>
    dsimp only
    split
    · obtain ⟨ptr, known⟩ := Elements.known_of_pts? found
      refine ⟨rfl, rfl, rfl, rfl, rfl, rfl, fun _ => Elements.filters_setPts _ _ _ _, rfl, rfl,
        ?_, ?_⟩
      · rintro p o ⟨set, located, member⟩
        by_cases same : p = r.pointer
        · subst same
          rw [Elements.pts?_setPts_self _ known] at located
          cases located
          exact ⟨pts, found, (ObjSet.mem_removeIf.mp member).1⟩
        · rw [Elements.pts?_setPts_ne _ same] at located
          exact ⟨set, located, member⟩
      · rintro p o ⟨set, located, member⟩
        by_cases same : p = r.pointer
        · subst same
          rw [found] at located
          cases located
          cases doomed : f.objSatisfies r.drop o with
          | false =>
            exact Or.inl ⟨_, Elements.pts?_setPts_self _ known,
              ObjSet.mem_removeIf.mpr ⟨member, doomed⟩⟩
          | true =>
            unfold objSatisfies at doomed
            split at doomed
            · next obj object => exact Or.inr ⟨obj, object, refused obj doomed⟩
            · cases doomed
        · exact Or.inl ⟨set, (Elements.pts?_setPts_ne _ same).trans located, member⟩
    · exact Trims.refl f

theorem removeAll_trims (f : Facts) (rs : List Removal)
    (refused : ∀ r ∈ rs, ∀ obj, r.drop obj = true →
      ∃ keep ∈ f.elements.filters r.pointer, keep obj = false) : f.Trims (f.removeAll rs).1 := by
  refine List.foldlRecOn (motive := fun acc : Facts × Nat => f.Trims acc.1) rs _ (Trims.refl f) ?_
  rintro ⟨g, count⟩ trim r member
  refine trim.trans (remove_trims g r fun obj doomed => ?_)
  rw [trim.filters]
  exact refused r member obj doomed

end Facts

namespace State

variable {σ : Type u} {p : Program}

/-- The removals that filters ask for which came to their pointer after objects did. -/
def lateRemovals (s : State σ) : List Removal :=
  ((s.refilter.eraseDups).mergeSort (· ≤ ·)).map fun q =>
    ⟨q, fun o => !(s.elements.filters q).all fun keep => keep o⟩

/-- The facts that a handler sees at the end of a phase, and how many objects filters took away. -/
def trimmed (s : State σ) : Facts × Nat := s.toFacts.removeAll s.lateRemovals

theorem lateRemovals_trims (s : State σ) : s.toFacts.Trims s.trimmed.1 := by
  refine Facts.removeAll_trims _ _ fun r member obj doomed => ?_
  obtain ⟨q, _, rfl⟩ := List.mem_map.mp member
  simpa using doomed

theorem endPhase_reacts (s : State σ) (cx : Setup σ) {r : PhaseReaction σ}
    (answer : cx.handlers.phaseEnd s.trimmed.1 s.trimmed.2 s.handler = r) :
    (s.endPhase cx).toFacts = { (s.trimmed.1.removeAll r.removals).1 with
        heap := (s.trimmed.1.removeAll r.removals).1.heap.internAll r.created } ∧
      (s.endPhase cx).queue = s.queue ++ r.commands ∧ (s.endPhase cx).handler = r.state := by
  subst answer
  exact ⟨rfl, rfl, rfl⟩

/-- Late filters take their effect, and the handler may make objects; nothing else happens to the
facts where no handler takes objects away. -/
theorem endPhase_facts (s : State σ) (cx : Setup σ)
    (nothing : (cx.handlers.phaseEnd s.trimmed.1 s.trimmed.2 s.handler).removals = []) :
    ∃ created, (s.endPhase cx).toFacts =
      { s.trimmed.1 with heap := s.trimmed.1.heap.internAll created } := by
  obtain ⟨facts, _, _⟩ := endPhase_reacts s cx rfl
  rw [nothing] at facts
  exact ⟨_, facts⟩

theorem endPhase_asleep (s : State σ) (cx : Setup σ)
    (asleep : cx.handlers.phaseEnd s.trimmed.1 s.trimmed.2 s.handler = { state := s.handler }) :
    (s.endPhase cx).toFacts = s.trimmed.1 ∧ (s.endPhase cx).queue = s.queue ∧
      (s.endPhase cx).handler = s.handler := by
  obtain ⟨facts, queue, handler⟩ := endPhase_reacts s cx asleep
  exact ⟨facts, queue.trans (List.append_nil _), handler⟩

theorem trims_delivers {s : State σ} {g : Facts} (trim : s.toFacts.Trims g) :
    s.Delivers p { s with toFacts := g } := by
  have grown := trim.extends
  refine ⟨grown, fun known => ⟨?_, ?_, ?_, ?_⟩, fun known flows => ?_⟩
  · intro q o held
    obtain ⟨d, described⟩ := known.held q o (trim.inside q o held)
    exact ⟨d, grown.describe? described⟩
  · intro q o pending
    obtain ⟨⟨ptr, pointer⟩, d, described⟩ := known.pending q o pending
    exact ⟨⟨ptr, grown.pointers _ _ pointer⟩, d, grown.describe? described⟩
  · intro id e edge
    dsimp only at edge
    rw [trim.flow] at edge
    obtain ⟨⟨a, source⟩, b, target⟩ := known.edges id e edge
    exact ⟨⟨a, grown.pointers _ _ source⟩, b, grown.pointers _ _ target⟩
  · dsimp only
    rw [trim.flow]
    exact known.receivers
  · intro id e o edge held d crosses
    dsimp only at edge crosses
    rw [trim.flow] at edge
    have before := trim.inside _ o held
    obtain ⟨c, described⟩ := known.held _ o before
    rw [crossing?_eq_of_extends grown described (by rw [trim.flow]; exact fun admitted => admitted)]
      at crosses
    obtain ⟨o', meaning, delivered⟩ := flows id e o edge before d crosses
    refine ⟨o', grown.describe? meaning, ?_⟩
    have refuses : ∀ {obj}, s.obj? o' = some obj →
        (∃ keep ∈ s.elements.filters e.target, keep obj = false) →
        State.Refuses { s with toFacts := g } e.target o' := by
      intro obj object refusal
      refine ⟨obj, (trim.obj? o').trans object, ?_⟩
      dsimp only
      rw [trim.filters]
      exact refusal
    rcases delivered with there | pending | ⟨obj, object, refusal⟩
    · -- if the end of the phase took it away, a filter of the target refuses it
      rcases trim.kept _ o' there with still | ⟨obj, object, refusal⟩
      · exact Or.inl still
      · exact Or.inr (Or.inr (refuses object refusal))
    · exact Or.inr (Or.inl pending)
    · exact Or.inr (Or.inr (refuses object refusal))

theorem endPhase_delivers (s : State σ) (cx : Setup σ)
    (nothing : (cx.handlers.phaseEnd s.trimmed.1 s.trimmed.2 s.handler).removals = []) :
    s.Delivers p (s.endPhase cx) := by
  obtain ⟨created, facts⟩ := endPhase_facts s cx nothing
  have trimmed := trims_delivers (p := p) (lateRemovals_trims s)
  generalize s.trimmed.1 = g at trimmed facts
  have made : State.Delivers p { s with toFacts := g }
      { s with toFacts := { g with heap := g.heap.internAll created } } := by
    have quiet : State.Quiet { s with toFacts := g }
        { s with toFacts := { g with heap := g.heap.internAll created } } :=
      { Quiet.refl _ with
        grown := { Facts.Extends.refl g with objects := Table.le_internAll _ _ } }
    exact (quiet.safe rfl fun _ _ _ pending => Or.inl pending).delivers
  refine trimmed.trans (made.trans (delivers_of_same ?_ ?_ ?_ ?_ rfl))
  all_goals rw [facts]
  exact Facts.Extends.refl _

end State

end PointsTo
