import PointsTo.Handlers.Exceptions

/-!
One throw. The objects that are new at a statement are taken by the first entry of the exception table
that takes their type, or leave the method; what leaves is thrown again by the callers.
-/
namespace PointsTo.Exceptions

variable {p : Program} {f : Facts} {s : Exceptions} {u : Throw} {m : MethodId} {context : ContextId} {o : CsObjId}
  {v : VarId}

def Caught (caught : List (VarId × List CsObjId)) (v : VarId) (o : CsObjId) : Prop :=
  ∃ os, (v, os) ∈ caught ∧ o ∈ os

section Caught

variable {caught rest : List (VarId × List CsObjId)} {v w : VarId} {o o' : CsObjId} {os : List CsObjId}

@[simp] theorem not_caught_nil : ¬ Caught [] v o := nofun

@[simp] theorem caught_cons : Caught ((w, os) :: rest) v o ↔ v = w ∧ o ∈ os ∨ Caught rest v o := by
  constructor
  · rintro ⟨os', member, inside⟩
    rcases List.mem_cons.mp member with here | later
    · cases here
      exact Or.inl ⟨rfl, inside⟩
    · exact Or.inr ⟨os', later, inside⟩
  · rintro (⟨rfl, inside⟩ | ⟨os', later, inside⟩)
    · exact ⟨os, List.mem_cons_self, inside⟩
    · exact ⟨os', List.mem_cons_of_mem _ later, inside⟩

theorem caught_addCaught : Caught (addCaught v o caught) w o' ↔ Caught caught w o' ∨ w = v ∧ o' = o := by
  induction caught with
  | nil => simp [addCaught]
  | cons head rest ih =>
    obtain ⟨x, os⟩ := head
    unfold addCaught
    split
    · next same =>
      -- the variable has a row already, which gets the object at its end
      subst same
      simp only [caught_cons, List.mem_append, List.mem_singleton, and_or_left]
      exact or_right_comm
    · simp only [caught_cons, ih, or_assoc]

theorem addCaught_filled (filled : ∀ x ∈ caught, x.2 ≠ []) : ∀ x ∈ addCaught v o caught, x.2 ≠ [] := by
  induction caught with
  | nil => simp [addCaught]
  | cons head rest ih =>
    obtain ⟨first, others⟩ := List.forall_mem_cons.mp filled
    unfold addCaught
    split
    · exact List.forall_mem_cons.mpr ⟨by simp, others⟩
    · exact List.forall_mem_cons.mpr ⟨first, ih others⟩

end Caught

def fresh (s : Exceptions) (u : Throw) : List CsObjId :=
  u.objs.filter fun o => !s.thrown.contains (u.method, u.site, o)

def taker? (p : Program) (f : Facts) (m : MethodId) (u : Throw) (o : CsObjId) : Option CatchHandler :=
  (f.obj? o).bind fun obj => catcher? p m u.site.index obj.ty

def landing (p : Program) (f : Facts) (m : MethodId) (s : Exceptions) (u : Throw) :
    List (CsObjId × Option CatchHandler) :=
  (fresh s u).map fun o => (o, taker? p f m u o)

/-- The new objects that are taken, by the variables that they are taken in. -/
def taken (p : Program) (f : Facts) (m : MethodId) (s : Exceptions) (u : Throw) :
    List (VarId × List CsObjId) :=
  (landing p f m s u).foldl (fun vars (o, h) =>
    match h with
    | some h => addCaught h.var o vars
    | none => vars) []

/-- The new objects that leave the method and have not left it before. -/
def escaped (p : Program) (f : Facts) (m : MethodId) (s : Exceptions) (u : Throw) : List CsObjId :=
  ((landing p f m s u).filterMap fun (o, h) => if h.isNone then some o else none).filter fun o =>
    !s.uncaught.contains (u.method, o)

theorem throwOne_unknown (unknown : f.elements.method? u.method = none) :
    throwOne p f s u = (s, [], []) := by
  unfold throwOne
  simp only [unknown]

theorem throwOne_known (known : f.elements.method? u.method = some (context, m)) :
    throwOne p f s u = ({ s with
      thrown := s.thrown ++ (fresh s u).map fun o => (u.method, u.site, o)
      uncaught := s.uncaught ++ (escaped p f m s u).map fun o => (u.method, o) },
      (taken p f m s u).map fun (v, os) => .addPointsTo (.var context v) (os.map ObjRef.interned),
      if (escaped p f m s u).isEmpty then [] else callers f u.method (escaped p f m s u)) := by
  unfold throwOne
  simp only [known]
  rfl

theorem mem_fresh : o ∈ fresh s u ↔ o ∈ u.objs ∧ (u.method, u.site, o) ∉ s.thrown := by
  simp [fresh]

theorem mem_landing {h : Option CatchHandler} :
    (o, h) ∈ landing p f m s u ↔ o ∈ fresh s u ∧ taker? p f m u o = h := by
  simp only [landing, List.mem_map, Prod.mk.injEq]
  constructor
  · rintro ⟨o, new, rfl, takes⟩
    exact ⟨new, takes⟩
  · rintro ⟨new, takes⟩
    exact ⟨o, new, rfl, takes⟩

theorem mem_escaped : o ∈ escaped p f m s u ↔
    o ∈ fresh s u ∧ taker? p f m u o = none ∧ (u.method, o) ∉ s.uncaught := by
  simp [escaped, landing, and_assoc]

theorem caught_foldl {landing : List (CsObjId × Option CatchHandler)} (caught : List (VarId × List CsObjId)) :
    Caught (landing.foldl (fun vars (o, h) =>
      match h with
      | some h => addCaught h.var o vars
      | none => vars) caught) v o ↔ Caught caught v o ∨ ∃ h, (o, some h) ∈ landing ∧ h.var = v := by
  induction landing generalizing caught with
  | nil => simp
  | cons head rest ih =>
    obtain ⟨o', h⟩ := head
    cases h with
    | none => simp [ih]
    | some h =>
      simp only [List.foldl_cons, ih, caught_addCaught, or_assoc, List.mem_cons, Prod.mk.injEq,
        Option.some.injEq, or_and_right, exists_or]
      refine or_congr_right (or_congr_left ?_)
      constructor
      · rintro ⟨rfl, rfl⟩
        exact ⟨h, ⟨rfl, rfl⟩, rfl⟩
      · rintro ⟨_, ⟨rfl, rfl⟩, rfl⟩
        exact ⟨rfl, rfl⟩

theorem caught_taken : Caught (taken p f m s u) v o ↔
    o ∈ fresh s u ∧ ∃ h, taker? p f m u o = some h ∧ h.var = v := by
  simp [taken, caught_foldl, mem_landing, and_assoc]

theorem taken_filled : ∀ x ∈ taken p f m s u, x.2 ≠ [] := by
  unfold taken
  refine List.foldlRecOn (motive := fun vars : List (VarId × List CsObjId) => ∀ x ∈ vars, x.2 ≠ []) _ _
    (List.forall_mem_nil _) ?_
  rintro vars filled ⟨o, h⟩ _
  cases h with
  | none => exact filled
  | some h => exact addCaught_filled filled

/-- One throw: the objects thrown, those that escape, the commands for those that are caught, and the
throws it leads to. -/
structure Throws (p : Program) (f : Facts) (s : Exceptions) (u : Throw) (context : ContextId)
    (m : MethodId) (escaped : List CsObjId) (next : Exceptions) (commands : List Command)
    (more : List Throw) : Prop where
  sites : next.throwSites = s.throwSites
  thrown : ∀ x, x ∈ next.thrown ↔ x ∈ s.thrown ∨ ∃ o ∈ u.objs, x = (u.method, u.site, o)
  uncaught : next.uncaught = s.uncaught ++ escaped.map fun o => (u.method, o)
  leaving : ∀ o, o ∈ escaped ↔
    o ∈ fresh s u ∧ taker? p f m u o = none ∧ (u.method, o) ∉ s.uncaught
  lands : ∀ o ∈ fresh s u, ∀ h, taker? p f m u o = some h →
    ∃ os : List CsObjId, o ∈ os ∧ .addPointsTo (.var context h.var) (os.map .interned) ∈ commands
  only : ∀ d ∈ commands, ∃ v os, d = .addPointsTo (.var context v) (os.map .interned) ∧ os ≠ [] ∧
    ∀ o ∈ os, o ∈ fresh s u ∧ ∃ h, taker? p f m u o = some h ∧ h.var = v
  further : more = if escaped.isEmpty then [] else callers f u.method escaped

theorem throwOne_throws (known : f.elements.method? u.method = some (context, m)) :
    Throws p f s u context m (escaped p f m s u) (throwOne p f s u).1 (throwOne p f s u).2.1
      (throwOne p f s u).2.2 := by
  rw [throwOne_known known]
  refine ⟨rfl, fun x => ?_, rfl, fun o => mem_escaped, fun o new h takes => ?_, fun d asked => ?_, rfl⟩
  · rw [List.mem_append, List.mem_map]
    constructor
    · rintro (old | ⟨o, new, rfl⟩)
      · exact Or.inl old
      · exact Or.inr ⟨o, (mem_fresh.mp new).1, rfl⟩
    · rintro (old | ⟨o, member, rfl⟩)
      · exact Or.inl old
      · by_cases before : (u.method, u.site, o) ∈ s.thrown
        · exact Or.inl before
        · exact Or.inr ⟨o, mem_fresh.mpr ⟨member, before⟩, rfl⟩
  · obtain ⟨os, listed, inside⟩ := caught_taken.mpr ⟨new, h, takes, rfl⟩
    exact ⟨os, inside, List.mem_map.mpr ⟨_, listed, rfl⟩⟩
  · obtain ⟨⟨v, os⟩, listed, rfl⟩ := List.mem_map.mp asked
    exact ⟨v, os, rfl, taken_filled _ listed, fun o inside => caught_taken.mp ⟨os, listed, inside⟩⟩

theorem mem_callers {v : Throw} {id : CsMethodId} {objs : List CsObjId} : v ∈ callers f id objs ↔
    ∃ e ∈ f.calls.edges, e.callee = id ∧ v.objs = objs ∧ ∃ c,
      f.elements.site? e.site = some (c, v.site) ∧
        f.elements.findMethod? c v.site.method = some v.method := by
  simp only [callers, CallGraph.edgesInto, List.mem_filterMap, List.mem_filter, beq_iff_eq, and_assoc]
  refine exists_congr fun e => and_congr_right fun _ => and_congr_right fun _ => ?_
  constructor
  · intro made
    split at made
    · cases made
    · next c site place =>
      obtain ⟨caller, found, rfl⟩ := Option.map_eq_some_iff.mp made
      exact ⟨rfl, c, place, found⟩
  · rintro ⟨rfl, c, place, found⟩
    simp only [place, found, Option.map_some]

namespace Throws

variable {escaped : List CsObjId} {next : Exceptions} {commands : List Command} {more : List Throw}

variable (throws : Throws p f s u context m escaped next commands more)

include throws

theorem caller {v : Throw} (listed : v ∈ more) : v ∈ callers f u.method escaped := by
  rw [throws.further] at listed
  split at listed
  · cases listed
  · exact listed

theorem among : ∀ o ∈ escaped, o ∈ u.objs :=
  fun o leaves => (mem_fresh.mp ((throws.leaving o).mp leaves).1).1

theorem kept : ∀ x ∈ s.uncaught, x ∈ next.uncaught := by
  rw [throws.uncaught]
  exact fun x member => List.mem_append_left _ member

end Throws

end PointsTo.Exceptions
