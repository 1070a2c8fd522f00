import PointsTo.Proofs.Contract
import PointsTo.Proofs.Landing

/-!
Exceptions under a law. Every object that the handler has in hand is thrown where it says, by the facts
of the law: at the statement itself, or out of a call of it.
-/
namespace PointsTo.Exceptions

variable {s : Exceptions} {f g : Facts} {p : Program} {sel : Selector} {holds : Fact → Prop} {t : Throw}

def Escapes (p : Program) (holds : Fact → Prop) (c : Frame) (m : MethodId) (i : Item) : Prop :=
  ∃ site : StmtRef, site.method = m ∧ Thrown p holds c site i ∧
    catcher? p m site.index i.obj.ty = none

/-- The object of a handle leaves the method of a handle. -/
def Leaves (p : Program) (holds : Fact → Prop) (f : Facts) (id : CsMethodId) (o : CsObjId) : Prop :=
  ∃ c m i, f.MethodOf id c m ∧ f.ItemOf o i ∧ Escapes p holds c m i

/-- The objects of a throw are thrown at its statement. -/
def Throwable (p : Program) (holds : Fact → Prop) (f : Facts) (t : Throw) : Prop :=
  ∃ c, f.MethodOf t.method c t.site.method ∧ ∀ o ∈ t.objs, ∃ i, f.ItemOf o i ∧ Thrown p holds c t.site i

structure Remembers (p : Program) (holds : Fact → Prop) (f : Facts) (s : Exceptions) : Prop where
  satisfied : Satisfied p holds
  sites : ∀ x ∈ s.throwSites, p.stmt? x.2 = some (.throw x.1)
  uncaught : ∀ x ∈ s.uncaught, Leaves p holds f x.1 x.2
  thrown : ∀ x ∈ s.thrown, Throwable p holds f ⟨x.1, x.2.1, [x.2.2]⟩

theorem Throwable.later (throwable : Throwable p holds f t) (grown : f.Extends g) : Throwable p holds g t := by
  obtain ⟨c, method, objs⟩ := throwable
  refine ⟨c, grown.methodOf method, fun o listed => ?_⟩
  obtain ⟨i, item, thrown⟩ := objs o listed
  exact ⟨i, grown.itemOf item, thrown⟩

theorem Remembers.later (remembers : s.Remembers p holds f) (grown : f.Extends g) :
    s.Remembers p holds g := by
  refine ⟨remembers.satisfied, remembers.sites, fun x member => ?_,
    fun x member => (remembers.thrown x member).later grown⟩
  obtain ⟨c, m, i, method, item, escapes⟩ := remembers.uncaught x member
  exact ⟨c, m, i, grown.methodOf method, grown.itemOf item, escapes⟩

theorem throwable_caller (sane : f.Sane p (Law.only p holds)) {e : CallEdge} (recorded : e ∈ f.calls.edges)
    {context : ContextId} {site : StmtRef} {caller : CsMethodId} {objs : List CsObjId}
    (place : f.elements.site? e.site = some (context, site))
    (found : f.elements.findMethod? context site.method = some caller)
    (leave : ∀ o ∈ objs, Leaves p holds f e.callee o) : Throwable p holds f ⟨caller, site, objs⟩ := by
  obtain ⟨c, site', d, m, ⟨⟨context', place', frame⟩, to_⟩, called⟩ := sane.calls e recorded
  obtain ⟨rfl, rfl⟩ := Prod.mk.inj (Option.some.inj (place.symm.trans place'))
  refine ⟨c, ⟨context, Table.find?_eq_some_iff.mp found, frame⟩, fun o member => ?_⟩
  obtain ⟨d', m', i, method, item, inner, rfl, thrown, free⟩ := leave o member
  obtain ⟨rfl, rfl⟩ := method.unique to_
  exact ⟨i, item, .through thrown free called⟩

section Step

variable {t : Throw} {context : ContextId} {c : Frame} {m : MethodId} {o : CsObjId}
  {escaped : List CsObjId} {next : Exceptions} {commands : List Command} {more : List Throw}

theorem taker?_of_item {i : Item} (item : f.ItemOf o i) :
    taker? p f m t o = catcher? p m t.site.index i.obj.ty := by
  obtain ⟨_, described, _⟩ := id item
  rw [taker?, Facts.obj?_of_describe? described, Option.bind_some]

theorem mentions_taker {h : CatchHandler} (takes : taker? p f m t o = some h) : p.Mentions m h.var := by
  obtain ⟨obj, _, caught⟩ := Option.bind_eq_some_iff.mp takes
  exact Program.mentions_catch caught

section

variable (throws : Throws p f s t context t.site.method escaped next commands more)

include throws

theorem Throws.leaves (named : f.MethodOf t.method c t.site.method)
    (thrown : ∀ o ∈ t.objs, ∃ i, f.ItemOf o i ∧ Thrown p holds c t.site i) :
    ∀ o ∈ escaped, Leaves p holds f t.method o := by
  intro o listed
  obtain ⟨new, free, _⟩ := (throws.leaving o).mp listed
  obtain ⟨i, item, here⟩ := thrown o (mem_fresh.mp new).1
  rw [taker?_of_item item] at free
  exact ⟨c, _, i, named, item, t.site, rfl, here, free⟩

theorem Throws.remembers (remembers : s.Remembers p holds f) (named : f.MethodOf t.method c t.site.method)
    (thrown : ∀ o ∈ t.objs, ∃ i, f.ItemOf o i ∧ Thrown p holds c t.site i) : next.Remembers p holds f := by
  refine ⟨remembers.satisfied, throws.sites ▸ remembers.sites, fun x member => ?_, fun x member => ?_⟩
  · rw [throws.uncaught] at member
    rcases List.mem_append.mp member with old | new
    · exact remembers.uncaught x old
    · obtain ⟨o, listed, rfl⟩ := List.mem_map.mp new
      exact throws.leaves named thrown o listed
  · rcases (throws.thrown x).mp member with old | ⟨o, listed, rfl⟩
    · exact remembers.thrown x old
    · exact ⟨c, named, List.forall_mem_singleton.mpr (thrown o listed)⟩

theorem Throws.permitted (sel : Selector) (sane : f.Sane p (Law.only p holds)) (declared : p.Scoped)
    (satisfied : Satisfied p holds) (known : f.elements.method? t.method = some (context, t.site.method))
    (frame : f.FrameOf context c) (thrown : ∀ o ∈ t.objs, ∃ i, f.ItemOf o i ∧ Thrown p holds c t.site i) :
    ∀ d ∈ commands, f.Permits p sel (Law.only p holds) d := by
  intro d asked
  obtain ⟨v, os, rfl, filled, only⟩ := throws.only d asked
  -- something is taken in the variable, so it is a variable of the method
  have mentions : p.Mentions t.site.method v := by
    obtain ⟨o, first⟩ := List.exists_mem_of_ne_nil os filled
    obtain ⟨_, h, takes, rfl⟩ := only o first
    exact mentions_taker takes
  refine sane.permits_points declared ⟨_, ⟨_, known⟩, mentions⟩ fun r ref => ?_
  obtain ⟨o, inside, rfl⟩ := List.mem_map.mp ref
  obtain ⟨new, h, takes, rfl⟩ := only o inside
  obtain ⟨i, item, here⟩ := thrown o (mem_fresh.mp new).1
  rw [taker?_of_item item] at takes
  exact ⟨c, i, frame, item, satisfied c t.site i h here takes⟩

end

theorem throwOne_proper (sel : Selector) (remembers : s.Remembers p holds f)
    (sane : f.Sane p (Law.only p holds)) (declared : p.Scoped) (throwable : Throwable p holds f t) :
    (throwOne p f s t).1.Remembers p holds f ∧
      (∀ d ∈ (throwOne p f s t).2.1, f.Permits p sel (Law.only p holds) d) ∧
      ∀ u ∈ (throwOne p f s t).2.2, Throwable p holds f u := by
  obtain ⟨c, ⟨context, known, frame⟩, thrown⟩ := throwable
  have throws := throwOne_throws (p := p) (s := s) known
  refine ⟨throws.remembers remembers ⟨context, known, frame⟩ thrown,
    throws.permitted sel sane declared remembers.satisfied known frame thrown, fun u listed => ?_⟩
  obtain ⟨e, recorded, callee, objs, _, place, method⟩ := mem_callers.mp (throws.caller listed)
  refine throwable_caller sane recorded place method fun o inside => ?_
  rw [callee]
  exact throws.leaves ⟨context, known, frame⟩ thrown o (objs ▸ inside)

end Step

theorem mem_escapedFrom {m : CsMethodId} {o : CsObjId} :
    o ∈ s.escapedFrom m ↔ (m, o) ∈ s.uncaught := by
  refine Iff.trans ObjSet.mem_ofList ?_
  rw [List.mem_filterMap]
  refine ⟨?_, fun leaves => ⟨_, leaves, if_pos rfl⟩⟩
  rintro ⟨⟨n, o'⟩, leaves, same⟩
  dsimp only at same
  split at same
  · next here =>
    cases same
    exact here ▸ leaves
  · cases same

theorem react_proper (remembers : s.Remembers p holds f) (sane : f.Sane p (Law.only p holds))
    (declared : p.Scoped) {e : Event} (named : e = .started ∨ e.Named f) :
    (s.react p f e).Proper f p sel holds (Remembers p holds f) := by
  refine Reaction.Meets.proper (react_meets
    (fun _ _ remembers throwable => throwOne_proper sel remembers sane declared throwable) remembers ?_ ?_ ?_)
  · exact fun site v stmt => { remembers with
      sites := List.forall_mem_append.mpr ⟨remembers.sites, List.forall_mem_singleton.mpr stmt⟩ }
  · rintro q delta context v rfl known t listed
    obtain ⟨⟨w, site⟩, here, found⟩ := List.mem_filterMap.mp listed
    obtain ⟨thrower, same⟩ := List.mem_filter.mp here
    obtain rfl : w = v := beq_iff_eq.mp same
    obtain ⟨m, method, rfl⟩ := Option.map_eq_some_iff.mp found
    have known' := Table.find?_eq_some_iff.mp method
    obtain ⟨c, frame, _⟩ := sane.methods _ _ _ known'
    refine ⟨c, ⟨context, known', frame⟩, fun o member => ?_⟩
    obtain ⟨c', i, frame', item, inLaw⟩ := sane.suits known (named.resolve_left Event.noConfusion o member)
    obtain rfl := frame.unique frame'
    exact ⟨i, item, .here (remembers.sites _ thrower) inLaw⟩
  · rintro edge c site caller rfl place found
    exact throwable_caller sane (named.resolve_left Event.noConfusion) place found
      fun o listed => remembers.uncaught _ (mem_escapedFrom.mp listed)

end PointsTo.Exceptions
