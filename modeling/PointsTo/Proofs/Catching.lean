import Mathlib.Algebra.GroupWithZero.Nat
import PointsTo.Proofs.Fulfilment

/-!
What a run finds satisfies the handler of exceptions: all that is thrown lands in the variable that
takes it or leaves the method, and is then thrown again at every call of it. The steps that are allowed
for a throw suffice.
-/
namespace PointsTo.Exceptions

variable {s : Exceptions} {f t : Facts} {p : Program} {sel : Selector} {keep : Obj → Prop}

/-- An object that is thrown at a statement lands in the variable that takes it, or leaves the method. -/
def Alights (p : Program) (t : Facts) (keep : Obj → Prop) (s : Exceptions) (id : CsMethodId) (site : StmtRef)
    (o : CsObjId) : Prop :=
  ∀ c i, t.MethodOf id c site.method → t.ItemOf o i →
    (∀ h, catcher? p site.method site.index i.obj.ty = some h → keep i.obj →
      t.Upholds keep (.points (.var c h.var) i)) ∧
    (catcher? p site.method site.index i.obj.ty = none → (id, o) ∈ s.uncaught)

/-- An object has been thrown at a statement, or is about to be. -/
def Arises (s : Exceptions) (stack : List Throw) (id : CsMethodId) (site : StmtRef) (o : CsObjId) : Prop :=
  (id, site, o) ∈ s.thrown ∨ ∃ u ∈ stack, u.method = id ∧ u.site = site ∧ o ∈ u.objs

/-- What was thrown has landed, and what left a method arises at the calls of it. -/
structure Settled (p : Program) (t : Facts) (keep : Obj → Prop) (edges : List CallEdge) (stack : List Throw)
    (s : Exceptions) : Prop where
  landed : ∀ id site o, (id, site, o) ∈ s.thrown → s.Alights p t keep id site o
  passed : ∀ e ∈ edges, ∀ o, (e.callee, o) ∈ s.uncaught → ∀ context site,
    t.elements.site? e.site = some (context, site) → ∃ caller,
      t.elements.method? caller = some (context, site.method) ∧ s.Arises stack caller site o

/-- A throw names a method that is known and objects that are. -/
structure KnownThrow (f : Facts) (u : Throw) : Prop where
  method : ∃ context, f.elements.method? u.method = some (context, u.site.method)
  objs : ∀ o ∈ u.objs, ∃ i, f.ItemOf o i

variable {holds : Fact → Prop} {edges : List CallEdge} {stack rest throws : List Throw} {u : Throw}
  {context : ContextId} {escaped objs : List CsObjId} {next : Exceptions} {commands : List Command}
  {more : List Throw} {e : CallEdge} {α : Type} {site : StmtRef} {c : Frame} {i : Item}

theorem caller_known (sane : f.Sane p (Law.only p holds)) (recorded : e ∈ f.calls.edges) :
    ∃ context site caller, f.elements.site? e.site = some (context, site) ∧
      f.elements.findMethod? context site.method = some caller := by
  obtain ⟨_, site, _, _, ⟨⟨context, place, _⟩, _⟩, _⟩ := sane.calls e recorded
  obtain ⟨caller, known⟩ := Facts.placed_only (sane.sites e.site context site place)
  exact ⟨context, site, caller, place, Table.find?_eq_some_iff.mpr known⟩

theorem Throws.known (throws : Throws p f s u context u.site.method escaped next commands more)
    (known : KnownThrow f u) : ∀ v ∈ more, KnownThrow f v ∧ ∀ o ∈ v.objs, o ∈ u.objs := by
  intro v listed
  obtain ⟨_, _, _, objs, _, _, method⟩ := mem_callers.mp (throws.caller listed)
  have among : ∀ o ∈ v.objs, o ∈ u.objs := objs ▸ throws.among
  exact ⟨⟨⟨_, Table.find?_eq_some_iff.mp method⟩, fun o member => known.objs o (among o member)⟩, among⟩

theorem Throws.landed (throws : Throws p f s u context u.site.method escaped next commands more)
    (landed : ∀ id site o, (id, site, o) ∈ s.thrown → s.Alights p t keep id site o) (grown : f.Extends t)
    (method : f.elements.method? u.method = some (context, u.site.method)) (known : KnownThrow f u)
    (answers : ∀ d ∈ commands, t.Answers keep p sel d) :
    ∀ id site o, (id, site, o) ∈ next.thrown → next.Alights p t keep id site o := by
  intro id site o member c i named item
  by_cases before : (id, site, o) ∈ s.thrown
  · obtain ⟨caught, free⟩ := landed id site o before c i named item
    exact ⟨caught, fun none => throws.kept _ (free none)⟩
  obtain ⟨o', listed, same⟩ := ((throws.thrown _).mp member).resolve_left before
  cases same
  -- the object behind the handle decides which handler takes it
  obtain ⟨i', item'⟩ := known.objs o listed
  obtain rfl := item.unique (grown.itemOf item')
  have taker : taker? p f u.site.method u o = _ := taker?_of_item item'
  have new := mem_fresh.mpr ⟨listed, before⟩
  refine ⟨fun h taken kept => ?_, fun free => ?_⟩
  · obtain ⟨os, inside, asked⟩ := throws.lands o new h (taker.trans taken)
    obtain ⟨context', method', frame⟩ := named
    cases (grown.methods _ _ method).symm.trans method'
    exact (answers _ asked).points frame (List.mem_map_of_mem inside) item kept
  · by_cases left : (u.method, o) ∈ s.uncaught
    · exact throws.kept _ left
    · rw [throws.uncaught]
      refine List.mem_append_right _ (List.mem_map_of_mem ?_)
      exact (throws.leaving o).mpr ⟨new, taker.trans free, left⟩

theorem Throws.passed (throws : Throws p f s u context u.site.method escaped next commands more)
    (settled : s.Settled p t keep edges (u :: rest)) (grown : f.Extends t) (sane : f.Sane p (Law.only p holds))
    (inside : ∀ e ∈ edges, e ∈ f.calls.edges) : ∀ e ∈ edges, ∀ o, (e.callee, o) ∈ next.uncaught →
      ∀ context site, t.elements.site? e.site = some (context, site) → ∃ caller,
        t.elements.method? caller = some (context, site.method) ∧
          next.Arises (more.reverse ++ rest) caller site o := by
  intro e listed o member context' site place
  rw [throws.uncaught] at member
  rcases List.mem_append.mp member with before | new
  · obtain ⟨caller, known, thrown | ⟨v, waiting, rfl, rfl, among⟩⟩ :=
      settled.passed e listed o before context' site place
    · exact ⟨caller, known, Or.inl ((throws.thrown _).mpr (Or.inl thrown))⟩
    · refine ⟨v.method, known, ?_⟩
      rcases List.mem_cons.mp waiting with rfl | later
      · exact Or.inl ((throws.thrown _).mpr (Or.inr ⟨o, among, rfl⟩))
      · exact Or.inr ⟨v, List.mem_append_right _ later, rfl, rfl, among⟩
  · obtain ⟨o', leaves, same⟩ := List.mem_map.mp new
    obtain ⟨callee, rfl⟩ := Prod.mk.inj same
    obtain ⟨context₁, site₁, caller, place₁, found⟩ := caller_known sane (inside e listed)
    cases (grown.sites _ _ place₁).symm.trans place
    refine ⟨caller, grown.methods _ _ (Table.find?_eq_some_iff.mp found), Or.inr
      ⟨⟨caller, site, escaped⟩, List.mem_append_left _ (List.mem_reverse.mpr ?_), rfl, rfl, leaves⟩⟩
    rw [throws.further, if_neg (by rw [List.isEmpty_iff]; exact List.ne_nil_of_mem leaves)]
    exact mem_callers.mpr ⟨e, inside e listed, callee.symm, rfl, _, place₁, found⟩

/-- How often a call edge may still be taken by an object that leaves its callee. -/
def toThrow (f : Facts) (objs : List CsObjId) (s : Exceptions) : Nat :=
  (objs.map fun o => f.calls.edges.countP fun e => !s.uncaught.contains (e.callee, o)).sum

theorem toThrow_le (objs : List CsObjId) : toThrow f objs s ≤ objs.length * f.calls.edges.length := by
  induction objs with
  | nil => simp [toThrow]
  | cons o rest ih =>
    have first : (f.calls.edges.countP fun e => !s.uncaught.contains (e.callee, o)) ≤ f.calls.edges.length :=
      List.countP_le_length
    have whole : toThrow f (o :: rest) s =
        (f.calls.edges.countP fun e => !s.uncaught.contains (e.callee, o)) + toThrow f rest s := by
      simp [toThrow]
    rw [whole, List.length_cons, Nat.succ_mul]
    omega

theorem countP_add_le {after gone before : α → Bool} (l : List α) (kept : ∀ a, after a = true → before a = true)
    (lost : ∀ a, gone a = true → before a = true) (disjoint : ∀ a, after a = true → gone a = false) :
    l.countP after + l.countP gone ≤ l.countP before := by
  induction l with
  | nil => exact Nat.le_refl 0
  | cons a rest ih =>
    have here : (if after a = true then 1 else 0) + (if gone a = true then 1 else 0) ≤
        if before a = true then 1 else 0 := by
      by_cases still : after a = true
      · simp [still, kept a still, disjoint a still]
      · by_cases left : gone a = true
        · simp [still, left, lost a left]
        · simp [still, left]
    simp only [List.countP_cons]
    omega

theorem sum_add_le {after before : α → Nat} {l : List α} {a : α} {n : Nat} (member : a ∈ l)
    (all : ∀ b, after b ≤ before b) (one : after a + n ≤ before a) :
    (l.map after).sum + n ≤ (l.map before).sum := by
  have fewer : ∀ l : List α, (l.map after).sum ≤ (l.map before).sum := by
    intro l
    induction l with
    | nil => exact Nat.le_refl 0
    | cons b rest ih =>
      simp only [List.map_cons, List.sum_cons]
      exact Nat.add_le_add (all b) ih
  induction l with
  | nil => cases member
  | cons b rest ih =>
    simp only [List.map_cons, List.sum_cons]
    rcases List.mem_cons.mp member with rfl | later
    · have := fewer rest
      omega
    · have := ih later
      have := all b
      omega

theorem toThrow_add_le {m : CsMethodId} {o : CsObjId} (listed : o ∈ objs) (new : (m, o) ∉ s.uncaught)
    (left : (m, o) ∈ next.uncaught) (kept : ∀ x ∈ s.uncaught, x ∈ next.uncaught) :
    toThrow f objs next + (f.calls.edgesInto m).length ≤ toThrow f objs s := by
  have older : ∀ x, (!next.uncaught.contains x) = true → (!s.uncaught.contains x) = true := by
    intro x
    simpa using fun fresh before => fresh (kept x before)
  refine sum_add_le listed (fun o => List.countP_mono_left fun e _ => older _) ?_
  rw [CallGraph.edgesInto, ← List.countP_eq_length_filter]
  refine countP_add_le _ (fun e => older _) (fun e into => ?_) fun e fresh => ?_
  · rw [beq_iff_eq.mp into]
    simpa using new
  · by_contra into
    rw [Bool.not_eq_false, beq_iff_eq] at into
    rw [into] at fresh
    simp [left] at fresh

theorem Throws.fewer (throws : Throws p f s u context u.site.method escaped next commands more)
    (within : ∀ o ∈ u.objs, o ∈ objs) : more.length + toThrow f objs next ≤ toThrow f objs s := by
  rw [throws.further]
  cases escaped with
  | nil =>
    have same : next.uncaught = s.uncaught := by simpa using throws.uncaught
    rw [toThrow, same]
    simp [toThrow]
  | cons o others =>
    have listed := throws.among o List.mem_cons_self
    obtain ⟨_, _, new⟩ := (throws.leaving o).mp List.mem_cons_self
    have left : (u.method, o) ∈ next.uncaught := by simp [throws.uncaught]
    have fewer := toThrow_add_le (f := f) (within o listed) new left throws.kept
    have short : (callers f u.method (o :: others)).length ≤ (f.calls.edgesInto u.method).length :=
      List.length_filterMap_le _ _
    simp only [List.isEmpty_cons, Bool.false_eq_true, if_false]
    omega

/-- The throws of a list have been performed: nothing is left to do on account of them. -/
structure Performs (p : Program) (f t : Facts) (keep : Obj → Prop) (edges : List CallEdge) (s : Exceptions)
    (throws : List Throw) (next : Exceptions) : Prop where
  settled : next.Settled p t keep edges []
  sites : next.throwSites = s.throwSites
  items : (∀ x ∈ s.uncaught, ∃ i, f.ItemOf x.2 i) → ∀ x ∈ next.uncaught, ∃ i, f.ItemOf x.2 i
  kept : ∀ x ∈ s.thrown, x ∈ next.thrown
  thrown : ∀ u ∈ throws, ∀ o ∈ u.objs, (u.method, u.site, o) ∈ next.thrown

theorem performs_nil (settled : s.Settled p t keep edges []) : Performs p f t keep edges s [] s :=
  ⟨settled, rfl, fun items => items, fun _ member => member, nofun⟩

theorem throwAll_performs (grown : f.Extends t) (sane : f.Sane p (Law.only p holds))
    (inside : ∀ e ∈ edges, e ∈ f.calls.edges) (n : Nat) (enough : stack.length + toThrow f objs s ≤ n)
    (settled : s.Settled p t keep edges stack) (known : ∀ u ∈ stack, KnownThrow f u ∧ ∀ o ∈ u.objs, o ∈ objs)
    (answers : ∀ d ∈ (throwAll p f n s stack).2, t.Answers keep p sel d) :
    Performs p f t keep edges s stack (throwAll p f n s stack).1 := by
  induction n generalizing s stack with
  | zero =>
    obtain rfl : stack = [] := List.eq_nil_of_length_eq_zero (by omega)
    exact performs_nil settled
  | succ n ih =>
    cases stack with
    | nil => exact performs_nil settled
    | cons u rest =>
      obtain ⟨⟨known', within⟩, others⟩ := List.forall_mem_cons.mp known
      obtain ⟨context, method⟩ := known'.method
      have throws := throwOne_throws (p := p) (s := s) method
      rw [throwAll] at answers ⊢
      generalize throwOne p f s u = r at answers throws ⊢
      obtain ⟨first, later⟩ := List.forall_mem_append.mp answers
      have fewer := throws.fewer within
      have shorter : (r.2.2.reverse ++ rest).length + toThrow f objs r.1 ≤ n := by
        rw [List.length_cons] at enough
        rw [List.length_append, List.length_reverse]
        omega
      have good : ∀ v ∈ r.2.2.reverse ++ rest, KnownThrow f v ∧ ∀ o ∈ v.objs, o ∈ objs := by
        refine List.forall_mem_append.mpr ⟨fun v new => ?_, others⟩
        obtain ⟨good, fewer⟩ := throws.known known' v (List.mem_reverse.mp new)
        exact ⟨good, fun o among => within o (fewer o among)⟩
      have performs := ih shorter ⟨throws.landed settled.landed grown method known' first,
        throws.passed settled grown sane inside⟩ good later
      refine ⟨performs.settled, performs.sites.trans throws.sites, fun items => performs.items ?_,
        fun x member => ?_, ?_⟩
      · rw [throws.uncaught]
        refine List.forall_mem_append.mpr ⟨items, fun x new => ?_⟩
        obtain ⟨o, leaves, rfl⟩ := List.mem_map.mp new
        exact known'.objs o (throws.among o leaves)
      · exact performs.kept x ((throws.thrown x).mpr (Or.inl member))
      · refine List.forall_mem_cons.mpr ⟨fun o among => ?_, fun v waiting => ?_⟩
        · exact performs.kept _ ((throws.thrown _).mpr (Or.inr ⟨o, among, rfl⟩))
        · exact performs.thrown v (List.mem_append_right _ waiting)

theorem throwAt_performs (grown : f.Extends t) (sane : f.Sane p (Law.only p holds))
    (inside : ∀ e ∈ edges, e ∈ f.calls.edges) (settled : s.Settled p t keep edges [u]) (known : KnownThrow f u)
    (answers : ∀ d ∈ (throwAt p f s u).2, t.Answers keep p sel d) :
    Performs p f t keep edges s [u] (throwAt p f s u).1 := by
  have most : toThrow f u.objs s ≤ u.objs.length * f.calls.edges.length := toThrow_le u.objs
  have spare : u.objs.length * f.calls.edges.length ≤
      (f.calls.edges.length + 1) * u.objs.length * f.calls.edges.length :=
    Nat.mul_le_mul_right _ (Nat.le_mul_of_pos_left _ (Nat.succ_pos _))
  have enough : [u].length + toThrow f u.objs s ≤ throwBound f u := by
    simp only [throwBound, List.length_singleton]
    omega
  exact throwAll_performs grown sane inside _ enough settled
    (List.forall_mem_singleton.mpr ⟨known, fun _ member => member⟩) answers

theorem Settled.early (settled : s.Settled p t keep edges []) : s.Settled p t keep edges stack := by
  refine ⟨settled.landed, fun e listed o left context site place => ?_⟩
  obtain ⟨caller, known, thrown | ⟨_, none, _⟩⟩ := settled.passed e listed o left context site place
  · exact ⟨caller, known, Or.inl thrown⟩
  · cases none

theorem Settled.spent {id : CsMethodId} (settled : s.Settled p t keep edges [⟨id, site, []⟩]) :
    s.Settled p t keep edges [] := by
  refine ⟨settled.landed, fun e listed o left context site place => ?_⟩
  obtain ⟨caller, known, thrown | ⟨_, waiting, _, _, among⟩⟩ :=
    settled.passed e listed o left context site place
  · exact ⟨caller, known, Or.inl thrown⟩
  · rw [List.mem_singleton.mp waiting] at among
    cases among

theorem throwEach_performs (grown : f.Extends t) (sane : f.Sane p (Law.only p holds))
    (inside : ∀ e ∈ edges, e ∈ f.calls.edges) (settled : s.Settled p t keep edges [])
    (known : ∀ u ∈ throws, KnownThrow f u) (answers : ∀ d ∈ (throwEach p f s throws).2, t.Answers keep p sel d) :
    Performs p f t keep edges s throws (throwEach p f s throws).1 := by
  induction throws generalizing s with
  | nil => exact performs_nil settled
  | cons u rest ih =>
    obtain ⟨good, others⟩ := List.forall_mem_cons.mp known
    obtain ⟨first, later⟩ := List.forall_mem_append.mp answers
    have one := throwAt_performs grown sane inside settled.early good first
    have all := ih one.settled others later
    refine ⟨all.settled, all.sites.trans one.sites, fun items => all.items (one.items items),
      fun x member => all.kept x (one.kept x member), ?_⟩
    refine List.forall_mem_cons.mpr ⟨fun o among => all.kept _ ?_, all.thrown⟩
    exact one.thrown u (List.mem_singleton_self u) o among

variable {σ : Type u} {rules : HeapRules} {record : List (Moment σ)} {past rest : List (Moment σ)}
  {x : Moment σ}

/-- What the handler has come to know: the throwing statements, and everything thrown there. -/
structure Knows (p : Program) (t : Facts) (keep : Obj → Prop) (past : List (Moment σ)) (s : Exceptions) :
    Prop where
  sites : ∀ site ∈ told Event.stmt? past, ∀ v, p.stmt? site = some (.throw v) → (v, site) ∈ s.throwSites
  thrown : ∀ x ∈ past, ∀ q delta c v o site, x.event = .arrived q delta →
    x.facts.elements.pointer? q = some (.var c v) → o ∈ delta → p.stmt? site = some (.throw v) →
    ∃ id, t.elements.method? id = some (c, site.method) ∧ (id, site, o) ∈ s.thrown
  items : ∀ left ∈ s.uncaught, ∃ x ∈ past, ∃ i, x.facts.ItemOf left.2 i
  settled : s.Settled p t keep (told Event.call? past) []

theorem Knows.snoc (knows : Knows p t keep past s) (calls : told Event.call? (past ++ [x]) = edges)
    (performs : Performs p x.facts t keep edges s throws next) (below : ∀ y ∈ past, y.facts.Below x.facts)
    (other : x.event.stmt? = none) (new : ∀ q delta c v o site, x.event = .arrived q delta →
      x.facts.elements.pointer? q = some (.var c v) → o ∈ delta → p.stmt? site = some (.throw v) →
      ∃ id, t.elements.method? id = some (c, site.method) ∧ (id, site, o) ∈ next.thrown) :
    Knows p t keep (past ++ [x]) next where
  sites := by
    intro site tells v stmt
    rw [told_snoc, other, List.mem_append] at tells
    rw [performs.sites]
    exact knows.sites site (tells.resolve_right nofun) v stmt
  thrown := by
    intro y member q delta c v o site event known among stmt
    rcases List.mem_append.mp member with before | here
    · obtain ⟨id, method, thrown⟩ := knows.thrown y before q delta c v o site event known among stmt
      exact ⟨id, method, performs.kept _ thrown⟩
    · cases List.mem_singleton.mp here
      exact new q delta c v o site event known among stmt
  items := by
    intro left member
    refine ⟨x, by simp, performs.items (fun left before => ?_) left member⟩
    obtain ⟨y, listed, i, item⟩ := knows.items left before
    exact ⟨i, (below y listed).toExtends.itemOf item⟩
  settled := by
    rw [calls]
    exact performs.settled

theorem Knows.still (knows : Knows p t keep past s) (calls : x.event.call? = none) (stmts : x.event.stmt? = none)
    (below : ∀ y ∈ past, y.facts.Below x.facts)
    (elsewhere : ∀ q delta c v, x.event = .arrived q delta →
      x.facts.elements.pointer? q ≠ some (.var c v)) : Knows p t keep (past ++ [x]) s := by
  have tells : told Event.call? (past ++ [x]) = told Event.call? past := by simp [told_snoc, calls]
  exact knows.snoc tells (performs_nil knows.settled) below stmts
    fun q delta c v o site event known => absurd known (elsewhere q delta c v event)

theorem Knows.stmtReached (knows : Knows p t keep past s) {sites : List (VarId × StmtRef)}
    (event : x.event = .stmtReached site) (kept : ∀ y ∈ s.throwSites, y ∈ sites)
    (new : ∀ v, p.stmt? site = some (.throw v) → (v, site) ∈ sites) :
    Knows p t keep (past ++ [x]) { s with throwSites := sites } where
  sites := by
    intro site' tells v stmt
    rw [told_snoc, event, List.mem_append] at tells
    rcases tells with before | here
    · exact kept _ (knows.sites site' before v stmt)
    · obtain rfl : site' = site := List.mem_singleton.mp here
      exact new v stmt
  thrown := by
    intro y member q delta c w o site' event' known among stmt'
    rcases List.mem_append.mp member with before | here
    · exact knows.thrown y before q delta c w o site' event' known among stmt'
    · cases List.mem_singleton.mp here
      cases event.symm.trans event'
  items := by
    intro left member
    obtain ⟨y, listed, item⟩ := knows.items left member
    exact ⟨y, List.mem_append_left _ listed, item⟩
  settled := by
    have tells : told Event.call? (past ++ [x]) = told Event.call? past := by
      simp [told_snoc, event, Event.call?]
    rw [tells]
    exact ⟨knows.settled.landed, knows.settled.passed⟩

theorem told_recorded (chronicle : Chronicle p (Law.only p holds) rules record t)
    (cut : record = past ++ x :: rest) : ∀ e ∈ told Event.call? past, e ∈ x.facts.calls.edges := by
  intro e tells
  obtain ⟨before, y, between, rfl, picked⟩ := mem_told.mp tells
  have cut' : record = before ++ y :: (between ++ x :: rest) := by simpa using cut
  exact (chronicle.earlier cut (by simp)).calls e (chronicle.recorded cut' (Event.call?_eq_some.mp picked))

theorem Knows.arrived {q : PointerId} {delta : ObjSet} {v : VarId}
    (chronicle : Chronicle p (Law.only p holds) rules record t) (cut : record = past ++ x :: rest)
    (knows : Knows p t keep past s) (event : x.event = .arrived q delta)
    (known : x.facts.elements.pointer? q = some (.var context v))
    (answers : ∀ d ∈ (throwEach p x.facts s (s.throwsOf x.facts context v delta)).2, t.Answers keep p sel d) :
    Knows p t keep (past ++ [x]) (throwEach p x.facts s (s.throwsOf x.facts context v delta)).1 := by
  have sound := chronicle.soundAt cut
  have grown := (chronicle.below cut).toExtends
  have items : ∀ o ∈ delta, ∃ i, x.facts.ItemOf o i := by
    intro o among
    have held := (chronicle.accounts.arrived x (by simp [cut]) q delta event).2 o among
    obtain ⟨_, i, _, item, _⟩ := sound.sane.held q o held
    exact ⟨i, item⟩
  have good : ∀ u ∈ s.throwsOf x.facts context v delta, KnownThrow x.facts u := by
    intro u listed
    obtain ⟨⟨w, site⟩, _, found⟩ := List.mem_filterMap.mp listed
    obtain ⟨m, method, rfl⟩ := Option.map_eq_some_iff.mp found
    exact ⟨⟨context, Table.find?_eq_some_iff.mp method⟩, items⟩
  have performs := throwEach_performs grown sound.sane (told_recorded chronicle cut) knows.settled good answers
  have tells : told Event.call? (past ++ [x]) = told Event.call? past := by
    simp [told_snoc, event, Event.call?]
  refine knows.snoc tells performs (fun y listed => chronicle.earlier cut listed) (by rw [event]; rfl) ?_
  intro q' delta' c w o site event' known' among stmt
  cases event.symm.trans event'
  cases known.symm.trans known'
  -- the method of the variable was told before, so the statement is known
  have mentions : p.Mentions site.method v :=
    Program.mentions_of_stmt stmt (Or.inl (List.mem_singleton_self v))
  obtain ⟨_, stmts⟩ := chronicle.timely past x rest cut q delta context v _ event known mentions
  have thrower := knows.sites site (stmts (site, _) (Program.mem_stmtRefs.mpr ⟨rfl, stmt⟩)) v stmt
  obtain ⟨m, method⟩ := sound.sane.interned known mentions
  refine ⟨m, grown.methods _ _ method, performs.thrown ⟨m, site, delta.toList⟩ ?_ o among⟩
  refine List.mem_filterMap.mpr ⟨(v, site), List.mem_filter.mpr ⟨thrower, beq_self_eq_true _⟩, ?_⟩
  exact Option.map_eq_some_iff.mpr ⟨m, Table.find?_eq_some_iff.mpr method, rfl⟩

theorem Knows.called (chronicle : Chronicle p (Law.only p holds) rules record t)
    (cut : record = past ++ x :: rest) (knows : Knows p t keep past s) (event : x.event = .called e)
    (answers : ∀ d ∈ (s.react p x.facts (.called e)).commands, t.Answers keep p sel d) :
    Knows p t keep (past ++ [x]) (s.react p x.facts (.called e)).state := by
  have sound := chronicle.soundAt cut
  have grown := (chronicle.below cut).toExtends
  have below : ∀ y ∈ past, y.facts.Below x.facts := fun y listed => chronicle.earlier cut listed
  have recorded : e ∈ x.facts.calls.edges := by
    have here := sound.named
    rw [event] at here
    exact here.resolve_left Event.noConfusion
  have inside : ∀ d ∈ told Event.call? past ++ [e], d ∈ x.facts.calls.edges :=
    List.forall_mem_append.mpr ⟨told_recorded chronicle cut, List.forall_mem_singleton.mpr recorded⟩
  have tells : told Event.call? (past ++ [x]) = told Event.call? past ++ [e] := by
    rw [told_snoc, event]
    rfl
  have other : x.event.stmt? = none := by rw [event]; rfl
  have elsewhere : ∀ q delta c v o site, x.event = .arrived q delta →
      x.facts.elements.pointer? q = some (.var c v) → o ∈ delta → p.stmt? site = some (.throw v) →
      ∃ id, t.elements.method? id = some (c, site.method) ∧
        (id, site, o) ∈ (s.react p x.facts (.called e)).state.thrown :=
    fun _ _ _ _ _ _ event' => by cases event.symm.trans event'
  obtain ⟨context, site, caller, place, found⟩ := caller_known sound.sane recorded
  have later := grown.methods _ _ (Table.find?_eq_some_iff.mp found)
  -- the call owes a throw of all that has left the callee
  have settled : s.Settled p t keep (told Event.call? past ++ [e]) [⟨caller, site, s.escapedFrom e.callee⟩] := by
    refine ⟨knows.settled.landed, List.forall_mem_append.mpr ⟨knows.settled.early.passed, ?_⟩⟩
    refine List.forall_mem_singleton.mpr fun o left context' site' place' => ?_
    cases (grown.sites _ _ place).symm.trans place'
    exact ⟨caller, later, Or.inr ⟨_, List.mem_singleton_self _, rfl, rfl, mem_escapedFrom.mpr left⟩⟩
  revert answers elsewhere
  cases left : s.escapedFrom e.callee with
  | nil =>
    rw [left] at settled
    simp only [react, left]
    exact fun _ elsewhere => knows.snoc tells (performs_nil settled.spent) below other elsewhere
  | cons o others =>
    have good : KnownThrow x.facts ⟨caller, site, s.escapedFrom e.callee⟩ := by
      refine ⟨⟨context, Table.find?_eq_some_iff.mp found⟩, fun o among => ?_⟩
      obtain ⟨y, listed, i, item⟩ := knows.items _ (mem_escapedFrom.mp among)
      exact ⟨i, (below y listed).toExtends.itemOf item⟩
    rw [left] at settled good
    simp only [react, left, place, found]
    exact fun answers elsewhere => knows.snoc tells
      (throwAt_performs grown sound.sane inside settled good answers) below other elsewhere

theorem knows_replay
    (story : Story p sel (Law.only p holds) rules keep (fun e f s => Exceptions.react p s f e) {} record t)
    (past rest : List (Moment σ)) (cut : record = past ++ rest) :
    Knows p t keep past (replay (fun e f s => Exceptions.react p s f e) {} past) := by
  refine replay_induct (Knows p t keep) ?_ (fun past x rest cut knows => ?_) past rest cut
  · exact ⟨nofun, nofun, nofun, nofun, nofun⟩
  have below : ∀ y ∈ past, y.facts.Below x.facts := fun y listed => story.earlier cut listed
  have answers := story.answers past x rest cut
  generalize replay (fun e f s => Exceptions.react p s f e) {} past = s at knows answers ⊢
  cases event : x.event with
  | stmtReached site =>
    simp only [react]
    split
    · next v stmt =>
      refine knows.stmtReached event (fun _ known => List.mem_append_left _ known) fun w stmt' => ?_
      cases stmt.symm.trans stmt'
      exact List.mem_append_right _ (List.mem_singleton_self _)
    · next other =>
      exact knows.stmtReached event (fun _ known => known) fun v stmt => (other v stmt).elim
  | arrived q delta =>
    rw [event] at answers
    revert answers
    simp only [react]
    split
    · next context v known => exact knows.arrived story.toChronicle cut event known
    · next elsewhere =>
      refine fun _ => knows.still (by rw [event]; rfl) (by rw [event]; rfl) below ?_
      intro q' delta' c v event' known
      cases event.symm.trans event'
      exact elsewhere c v known
  | called e =>
    rw [event] at answers
    exact knows.called story.toChronicle cut event answers
  | _ =>
    refine knows.still (by rw [event]; rfl) (by rw [event]; rfl) below fun _ _ _ _ event' => ?_
    cases event.symm.trans event'

theorem Knows.all (knows : Knows p t keep record s) (chronicle : Chronicle p (Law.only p holds) rules record t)
    (thrown : Thrown p t.Found c site i) :
    ∃ id o, t.MethodOf id c site.method ∧ t.ItemOf o i ∧ (id, site, o) ∈ s.thrown := by
  induction thrown with
  | here stmt points =>
    obtain ⟨past, x, rest, q, delta, o, context, cut, event, new, known, named, item⟩ :=
      chronicle.arrivalAt points
    have grown := (chronicle.below cut).toExtends
    obtain ⟨id, method, there⟩ :=
      knows.thrown x (by simp [cut]) q delta context _ o _ event known new stmt
    exact ⟨id, o, ⟨context, method, grown.frameOf named⟩, grown.itemOf item, there⟩
  | through inner free called ih =>
    obtain ⟨id, o, method, item, there⟩ := ih
    have left := (knows.settled.landed _ _ _ there _ _ method item).2 free
    obtain ⟨e, recorded, _, ⟨⟨context, place, frame⟩, callee⟩⟩ := called
    obtain rfl := callee.inj method
    obtain ⟨caller, known, thrown | ⟨_, none, _⟩⟩ := knows.settled.passed e
      ((chronicle.accounts.calls.2 e).mpr recorded) o left context _ place
    · exact ⟨caller, o, ⟨context, known, frame⟩, item, thrown⟩
    · cases none

theorem thrown_kept (thrown : Thrown p (t.Upholds keep) c site i) : Thrown p t.Found c site i ∧ keep i.obj := by
  induction thrown with
  | here stmt points => exact ⟨.here stmt points.1, points.2 _ rfl⟩
  | through _ free called ih => exact ⟨.through ih.1 free called.1, ih.2⟩

theorem satisfied
    (story : Story p sel (Law.only p holds) rules keep (fun e f s => Exceptions.react p s f e) {} record t) :
    Satisfied p (t.Upholds keep) := by
  intro c site i h thrown taken
  have knows := knows_replay story record [] (List.append_nil _).symm
  obtain ⟨found, kept⟩ := thrown_kept thrown
  obtain ⟨id, o, method, item, there⟩ := knows.all story.toChronicle found
  exact (knows.settled.landed _ _ _ there c i method item).1 h taken kept

end PointsTo.Exceptions
