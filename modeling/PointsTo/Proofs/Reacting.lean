import PointsTo.Registry
import PointsTo.Proofs.Landing
import PointsTo.Proofs.ObjSet

/-!
What handlers answer. For a handler one lemma says what its answer to an event may be, so that a property
of all answers is proved for each kind of answer and not along the code.
-/
namespace PointsTo

/-- The memory, the objects and the commands of an answer have a property each. -/
structure Reaction.Meets {σ : Type u} (good : σ → Prop) (makes : Obj → Prop) (asks : Command → Prop)
    (r : Reaction σ) : Prop where
  state : good r.state
  created : ∀ o ∈ r.created, makes o
  commands : ∀ c ∈ r.commands, asks c

theorem Command.forall_pointsTo {asks : Command → Prop} {pointer : PointerRef} {objs : List ObjRef}
    (asked : asks (.addPointsTo pointer objs)) : ∀ d ∈ pointsTo pointer objs, asks d := by
  unfold pointsTo
  split
  · exact List.forall_mem_nil _
  · exact List.forall_mem_singleton.mpr asked

section

variable {p : Program} {f : Facts} {e : Event} {makes : Obj → Prop} {asks : Command → Prop}

namespace Reaction

variable {σ : Type u} {good : σ → Prop} {s : σ}

theorem meets_silent (remembers : good s) : Meets good makes asks { state := s } :=
  ⟨remembers, List.forall_mem_nil _, List.forall_mem_nil _⟩

theorem meets_varObjs (remembers : good s) {c : ContextId} {made : List (VarId × Obj)}
    (each : ∀ x ∈ made, makes x.2 ∧ asks (.varObj c x.1 x.2)) : Meets good makes asks
      { state := s, created := made.map (·.2), commands := made.map fun x => .varObj c x.1 x.2 } := by
  refine ⟨remembers, fun o member => ?_, fun d member => ?_⟩
  · obtain ⟨x, listed, rfl⟩ := List.mem_map.mp member
    exact (each x listed).1
  · obtain ⟨x, listed, rfl⟩ := List.mem_map.mp member
    exact (each x listed).2

end Reaction

namespace Threads

variable {good : Threads → Prop} {s : Threads}

theorem react_meets (remembers : good s)
    (starts : s.methods.implicit = true → (s.start f.heap.rules).Meets good makes asks)
    (launches : ∀ q delta c v, e = .arrived q delta → f.elements.pointer? q = some (.var c v) →
      s.methods.startThis = some v → (s.launch delta).Meets good makes asks)
    (answers : ∀ id c m v, s.methods.current = some (m, v) → f.elements.method? id = some (c, m) →
      (s.ask c v).Meets good makes asks) : (s.react f e).Meets good makes asks := by
  have silent : Reaction.Meets good makes asks { state := s } := Reaction.meets_silent remembers
  cases e with
  | started =>
    simp only [react]
    split
    · next implicit => exact starts implicit
    · exact silent
  | arrived q delta =>
    simp only [react]
    split
    · next c v known =>
      split
      · next there => exact launches q delta c v rfl known there
      · exact silent
    · exact silent
  | csMethodReached id =>
    simp only [react]
    split
    · next m v c n current known =>
      split
      · next same => exact answers id c m v current (same ▸ known)
      · exact silent
    · exact silent
  | _ => exact silent

end Threads

theorem CallModels.mem_of_eraseDupsBy {α : Type} {same : α → α → Bool} {a : α} (l : List α)
    (member : a ∈ l.eraseDupsBy same) : a ∈ l := by
  match l with
  | [] => exact member
  | b :: rest =>
    rw [List.eraseDupsBy_cons] at member
    rcases List.mem_cons.mp member with rfl | later
    · exact List.mem_cons_self
    · exact List.mem_cons_of_mem _ (List.mem_filter.mp (mem_of_eraseDupsBy _ later)).1
termination_by l.length
decreasing_by exact Nat.lt_succ_of_le (List.length_filter_le _ _)

namespace Natives

variable {good : Natives → Prop} {s : Natives} {c : ModeledCall NativeModel} {context : ContextId}
  {arg source target : VarId} {sources targets : ObjSet}

/-- An object that a variable holds, or that has just come there. -/
def Present (f : Facts) (e : Event) (context : ContextId) (v : VarId) (o : CsObjId) : Prop :=
  (∃ pts, f.varPts? context v = some pts ∧ o ∈ pts) ∨
    ∃ q delta, e = .arrived q delta ∧ f.elements.pointer? q = some (.var context v) ∧ o ∈ delta

/-- What is asked for on account of a modelled call. -/
inductive Asks (p : Program) (f : Facts) (e : Event) (c : ModeledCall NativeModel) : Command → Prop
  | copy {id : CsMethodId} {context : ContextId} {result : VarId} {copy : Obj}
      (known : f.elements.method? id = some (context, c.site.method)) (key : c.key = .copyOf)
      (answer : c.call.result = some result) (made : copyObj? p c = some copy) :
      Asks p f e c (.varObj context result copy)
  | clone {id : CsMethodId} {context : ContextId} {base result : VarId}
      (known : f.elements.method? id = some (context, c.site.method)) (key : c.key = .clone)
      (on : c.call.base = some base) (answer : c.call.result = some result) :
      Asks p f e c (.addFlow (.plain .localAssign) (.var context base) (.var context result))
  | copied {context : ContextId} {arg : VarId} {o : CsObjId} {copy : Obj} (key : c.key = .copyOf)
      (first : c.call.args.head? = some arg) (there : Present f e context arg o)
      (made : copyObj? p c = some copy) :
      Asks p f e c (elementFlow "native-copyof" c.site (.interned o) (.plain copy))
  | crossed {context : ContextId} {source target : VarId} {o o' : CsObjId} (key : c.key = .arrayCopy)
      (first : c.call.args.head? = some source) (third : c.call.args[2]? = some target)
      (there : Present f e context source o) (there' : Present f e context target o') :
      Asks p f e c (elementFlow "native-arraycopy" c.site (.interned o) (.interned o'))

/-- One modelled call makes the copy at most, and asks for nothing else. -/
def Part (p : Program) (f : Facts) (e : Event) (c : ModeledCall NativeModel)
    (part : List Obj × List Command) : Prop :=
  (∀ o ∈ part.1, copyObj? p c = some o) ∧ ∀ d ∈ part.2, Asks p f e c d

theorem part_nothing : Part p f e c ([], []) := ⟨List.forall_mem_nil _, List.forall_mem_nil _⟩

theorem part_copyElements (key : c.key = .copyOf) (first : c.call.args.head? = some arg)
    (there : ∀ o ∈ sources, Present f e context arg o) : Part p f e c (copyElements p c sources) := by
  unfold copyElements
  split
  · exact part_nothing
  · next copy made =>
    refine ⟨List.forall_mem_singleton.mpr made, fun d listed => ?_⟩
    obtain ⟨o, member, rfl⟩ := List.mem_map.mp listed
    exact .copied key first (there o member) made

theorem part_crossElements (key : c.key = .arrayCopy) (first : c.call.args.head? = some source)
    (third : c.call.args[2]? = some target) (there : ∀ o ∈ sources, Present f e context source o)
    (there' : ∀ o ∈ targets, Present f e context target o) :
    Part p f e c ([], crossElements c sources targets) := by
  refine ⟨List.forall_mem_nil _, fun d listed => ?_⟩
  obtain ⟨o, member, listed⟩ := List.mem_flatMap.mp listed
  obtain ⟨o', member', rfl⟩ := List.mem_map.mp listed
  exact .crossed key first third (there o member) (there' o' member')

theorem part_enterCall {id : CsMethodId} (known : f.elements.method? id = some (context, c.site.method)) :
    Part p f e c (enterCall p f context c) := by
  unfold enterCall
  cases answer : c.call.result with
  | none => exact part_nothing
  | some result =>
    cases key : c.key with
    | arrayCopy => exact part_nothing
    | clone =>
      refine ⟨List.forall_mem_nil _, fun d listed => ?_⟩
      obtain ⟨base, on, rfl⟩ := List.mem_map.mp listed
      exact .clone known key (Option.mem_toList.mp on) answer
    | copyOf =>
      have answered : ∀ part, Part p f e c part → Part p f e c ((copyObj? p c).toList ++ part.1,
          (copyObj? p c).toList.map (Command.varObj context result) ++ part.2) := by
        intro part flows
        refine ⟨List.forall_mem_append.mpr ⟨fun o made => Option.mem_toList.mp made, flows.1⟩,
          List.forall_mem_append.mpr ⟨fun d listed => ?_, flows.2⟩⟩
        obtain ⟨o, made, rfl⟩ := List.mem_map.mp listed
        exact .copy known key answer (Option.mem_toList.mp made)
      cases found : c.call.args.head?.bind (f.varPts? context) with
      | none => exact answered _ part_nothing
      | some sources =>
        obtain ⟨arg, first, held⟩ := Option.bind_eq_some_iff.mp found
        exact answered _ (part_copyElements key first fun o member => Or.inl ⟨sources, held, member⟩)

theorem part_updateCall {q : PointerId} {delta : ObjSet} {v : VarId} {position : Nat}
    (known : f.elements.pointer? q = some (.var context v)) (place : c.call.args[position]? = some v) :
    Part p f (.arrived q delta) c (updateCall p f context c position delta) := by
  have new : ∀ o ∈ delta, Present f (.arrived q delta) context v o :=
    fun o member => Or.inr ⟨q, delta, rfl, known, member⟩
  have old : ∀ w, ∀ o ∈ (f.varPts? context w).getD ObjSet.empty, Present f (.arrived q delta) context w o := by
    intro w o member
    cases held : f.varPts? context w with
    | none => simp [held] at member
    | some pts => exact Or.inl ⟨pts, held, by simpa [held] using member⟩
  unfold updateCall
  split
  · next key => exact part_copyElements key (List.head?_eq_getElem? ▸ place) new
  · next key =>
    split
    · exact part_nothing
    · next target third =>
      exact part_crossElements key (List.head?_eq_getElem? ▸ place) third new (old target)
  · next key =>
    split
    · exact part_nothing
    · next source first => exact part_crossElements key first place (old source) new
  · exact part_nothing

theorem react_meets (remembers : good s) (records : ∀ m, good ⟨s.models.recordMethod p m⟩)
    (made : ∀ c ∈ s.models.recorded, ∀ o, copyObj? p c = some o → makes o)
    (asked : ∀ c ∈ s.models.recorded, ∀ d, Asks p f e c d → asks d) :
    (s.react p f e).Meets good makes asks := by
  have silent : Reaction.Meets good makes asks { state := s } := Reaction.meets_silent remembers
  have meets : ∀ parts : List (List Obj × List Command),
      (∀ part ∈ parts, ∃ c ∈ s.models.recorded, Part p f e c part) → Reaction.Meets good makes asks
        { state := s, created := parts.flatMap (·.1), commands := parts.flatMap (·.2) } := by
    intro parts each
    refine ⟨remembers, fun o member => ?_, fun d member => ?_⟩
    · obtain ⟨part, listed, inside⟩ := List.mem_flatMap.mp member
      obtain ⟨c, recorded, objs, _⟩ := each part listed
      exact made c recorded o (objs o inside)
    · obtain ⟨part, listed, inside⟩ := List.mem_flatMap.mp member
      obtain ⟨c, recorded, _, commands⟩ := each part listed
      exact asked c recorded d (commands d inside)
  cases e with
  | methodReached m => exact Reaction.meets_silent (records m)
  | csMethodReached id =>
    simp only [react]
    split
    · exact silent
    · next context method known =>
      refine meets _ fun part listed => ?_
      obtain ⟨c, here, rfl⟩ := List.mem_map.mp listed
      obtain ⟨recorded, same⟩ := List.mem_filter.mp here
      exact ⟨c, recorded, part_enterCall (known.trans (by rw [beq_iff_eq.mp same]))⟩
  | arrived q delta =>
    simp only [react]
    split
    · next context v known =>
      refine meets _ fun part listed => ?_
      obtain ⟨c, watched, listed⟩ := List.mem_flatMap.mp listed
      have recorded := (List.mem_filter.mp (CallModels.mem_of_eraseDupsBy _ watched)).1
      split at listed
      · cases listed
      · obtain ⟨⟨arg, position⟩, place, answer⟩ := List.mem_filterMap.mp listed
        dsimp only at answer
        split at answer
        · next same =>
          cases answer
          subst same
          exact ⟨c, recorded, part_updateCall known (List.mem_zipIdx_iff_getElem?.mp place)⟩
        · cases answer
    · exact silent
  | _ => exact silent

end Natives

namespace Exceptions

variable {good : Exceptions → Prop} {may : Throw → Prop} {s : Exceptions} {throws : List Throw}
  (one : ∀ s t, good s → may t → good (throwOne p f s t).1 ∧
    (∀ d ∈ (throwOne p f s t).2.1, asks d) ∧ ∀ u ∈ (throwOne p f s t).2.2, may u)

include one

/-- What one throw preserves, all throws preserve; those that one leads to are served before those that wait. -/
theorem throwAll_meets (n : Nat) (remembers : good s) (all : ∀ t ∈ throws, may t) :
    good (throwAll p f n s throws).1 ∧ ∀ d ∈ (throwAll p f n s throws).2, asks d := by
  induction n generalizing s throws with
  | zero => exact ⟨remembers, List.forall_mem_nil _⟩
  | succ n ih =>
    cases throws with
    | nil => exact ⟨remembers, List.forall_mem_nil _⟩
    | cons t rest =>
      obtain ⟨first, others⟩ := List.forall_mem_cons.mp all
      obtain ⟨remembers', caught, further⟩ := one s t remembers first
      have left : ∀ u ∈ (throwOne p f s t).2.2.reverse ++ rest, may u :=
        List.forall_mem_append.mpr ⟨fun u new => further u (List.mem_reverse.mp new), others⟩
      obtain ⟨last, later⟩ := ih remembers' left
      exact ⟨last, List.forall_mem_append.mpr ⟨caught, later⟩⟩

theorem throwEach_meets (remembers : good s) (all : ∀ t ∈ throws, may t) :
    good (throwEach p f s throws).1 ∧ ∀ d ∈ (throwEach p f s throws).2, asks d := by
  induction throws generalizing s with
  | nil => exact ⟨remembers, List.forall_mem_nil _⟩
  | cons t rest ih =>
    obtain ⟨first, others⟩ := List.forall_mem_cons.mp all
    obtain ⟨remembers', caught⟩ := throwAll_meets one (throwBound f t) remembers
      (List.forall_mem_singleton.mpr first)
    obtain ⟨last, later⟩ := ih remembers' others
    exact ⟨last, List.forall_mem_append.mpr ⟨caught, later⟩⟩

theorem react_meets (remembers : good s)
    (records : ∀ site v, p.stmt? site = some (.throw v) →
      good { s with throwSites := s.throwSites ++ [(v, site)] })
    (arrives : ∀ q delta c v, e = .arrived q delta → f.elements.pointer? q = some (.var c v) →
      ∀ t ∈ s.throwsOf f c v delta, may t)
    (passes : ∀ edge c site caller, e = .called edge → f.elements.site? edge.site = some (c, site) →
      f.elements.findMethod? c site.method = some caller → may ⟨caller, site, s.escapedFrom edge.callee⟩) :
    (s.react p f e).Meets good makes asks := by
  have silent : Reaction.Meets good makes asks { state := s } := Reaction.meets_silent remembers
  cases e with
  | stmtReached site =>
    simp only [react]
    split
    · next v stmt => exact Reaction.meets_silent (records site v stmt)
    · exact silent
  | arrived q delta =>
    simp only [react]
    split
    · next c v known =>
      obtain ⟨last, asked⟩ := throwEach_meets one remembers (arrives q delta c v rfl known)
      exact ⟨last, List.forall_mem_nil _, asked⟩
    · exact silent
  | called edge =>
    simp only [react]
    split
    · exact silent
    · next c site place _ =>
      split
      · next caller found =>
        obtain ⟨last, asked⟩ := throwAll_meets one (throwBound f ⟨caller, site, s.escapedFrom edge.callee⟩)
          remembers (List.forall_mem_singleton.mpr (passes edge c site caller rfl place found))
        exact ⟨last, List.forall_mem_nil _, asked⟩
      · exact silent
    · exact silent
  | _ => exact silent

end Exceptions

namespace Reflection

variable {good : Reflection → Prop} {s : Reflection} {c : ModeledCall ReflectionModel} {context : ContextId}
  {v : VarId} {objs : List Obj} {calls : List (ModeledCall ReflectionModel)}

/-- What a modelled call does when objects come to a variable: nothing, unless it uses the variable. -/
inductive Updates (p : Program) (f : Facts) (s : Reflection) (context : ContextId) (v : VarId)
    (objs : List Obj) (c : ModeledCall ReflectionModel) : Reaction Reflection → Prop
  | looks {result : VarId} (answer : c.call.result = some result) (key : c.key = .forName)
      (first : c.call.args.head? = some v) :
      Updates p f s context v objs c (s.lookUp p f context c result objs)
  | makes {result : VarId} (answer : c.call.result = some result) (key : c.key = .newInstance)
      (on : c.call.base = some v) : Updates p f s context v objs c
        { state := s
          created := ((objs.filterMap (instantiable? p)).map (instantiate p context c result)).map (·.1)
          commands := ((objs.filterMap (instantiable? p)).map (instantiate p context c result)).flatMap (·.2) }
  | classes {result : VarId} (answer : c.call.result = some result) (key : c.key = .getClass)
      (on : c.call.base = some v) : Updates p f s context v objs c
        { state := s
          created := objs.filterMap (classObj? f.heap.rules)
          commands := Command.pointsTo (.var context result)
            ((objs.filterMap (classObj? f.heap.rules)).map ObjRef.plain) }
  | idle (unused : ∀ result, c.call.result = some result →
        (c.key = .forName → c.call.args.head? ≠ some v) ∧
        (c.key = .newInstance → c.call.base ≠ some v) ∧ (c.key = .getClass → c.call.base ≠ some v)) :
      Updates p f s context v objs c { state := s }

theorem update_updates : Updates p f s context v objs c (s.update p f context v objs c) := by
  unfold update
  cases answer : c.call.result with
  | none => exact .idle (by simp [answer])
  | some result =>
    cases key : c.key with
    | forName =>
      dsimp only
      split
      · next first => exact .looks answer key first
      · next other => exact .idle (by simp [key, other])
    | newInstance =>
      dsimp only
      split
      · next on => exact .makes answer key on
      · next other => exact .idle (by simp [key, other])
    | getClass =>
      dsimp only
      split
      · next on => exact .classes answer key on
      · next other => exact .idle (by simp [key, other])
    | methodInvoke => exact .idle (by simp [key])
    | constructorNewInstance => exact .idle (by simp [key])

theorem Updates.state (updates : Updates p f s context v objs c r) :
    ∃ initialized, r.state = { s with initialized } := by
  cases updates with
  | looks => exact ⟨_, rfl⟩
  | makes | classes | idle => exact ⟨s.initialized, rfl⟩

theorem updateAll_meets (remembers : good s)
    (updates : ∀ u initialized c r, good u → u = { s with initialized } → c ∈ calls →
      Updates p f u context v objs c r → r.Meets good makes asks) :
    (updateAll p f context v objs s calls).Meets good makes asks := by
  induction calls generalizing s with
  | nil => exact Reaction.meets_silent remembers
  | cons c rest ih =>
    have here : Updates p f s context v objs c _ := update_updates
    have first := updates s s.initialized c _ remembers rfl List.mem_cons_self here
    obtain ⟨_, same⟩ := here.state
    have later := ih first.state fun u initialized c r good same' listed =>
      updates u initialized c r good (by rw [same', same]) (List.mem_cons_of_mem _ listed)
    exact ⟨later.state, List.forall_mem_append.mpr ⟨first.created, later.created⟩,
      List.forall_mem_append.mpr ⟨first.commands, later.commands⟩⟩

theorem react_meets (remembers : good s)
    (records : ∀ m, e = .methodReached m → good { s with models := s.models.recordMethod p m })
    (unknown : ∀ id context c result, f.elements.method? id = some (context, c.site.method) →
      c ∈ s.models.recorded → c.key.isUnknown = true → c.call.result = some result →
      makes (unknownObj c.site s.objectTy) ∧ asks (.varObj context result (unknownObj c.site s.objectTy)))
    (updates : ∀ q delta context v u initialized c r, e = .arrived q delta →
      f.elements.pointer? q = some (.var context v) → good u → u = { s with initialized } →
      c ∈ s.models.watching v → Updates p f u context v (delta.toList.filterMap f.obj?) c r →
      r.Meets good makes asks) : (s.react p f e).Meets good makes asks := by
  have silent : Reaction.Meets good makes asks { state := s } := Reaction.meets_silent remembers
  cases e with
  | methodReached m => exact Reaction.meets_silent (records m rfl)
  | csMethodReached id =>
    simp only [react]
    split
    · exact silent
    · next context method known =>
      refine Reaction.meets_varObjs remembers fun x listed => ?_
      obtain ⟨c, here, found⟩ := List.mem_filterMap.mp listed
      obtain ⟨recorded, same⟩ := List.mem_filter.mp here
      split at found
      · next key =>
        obtain ⟨result, answer, rfl⟩ := Option.map_eq_some_iff.mp found
        exact unknown id context c result (known.trans (by rw [beq_iff_eq.mp same])) recorded key answer
      · cases found
  | arrived q delta =>
    simp only [react]
    split
    · next context v known =>
      exact updateAll_meets remembers fun u initialized c r =>
        updates q delta context v u initialized c r rfl known
    · exact silent
  | _ => exact silent

end Reflection

namespace LiteralAssigns

variable {good : LiteralAssigns → Prop} {s : LiteralAssigns} {accepts : Literal → Bool}
  {obj? : VarId → Literal → Option Obj}

theorem mem_inMethod {m : MethodId} {v : VarId} {value : Literal} :
    (v, value) ∈ s.inMethod m ↔ (m, v, value) ∈ s.assigns := by
  unfold inMethod
  rw [List.mem_filterMap]
  constructor
  · rintro ⟨⟨n, w, given⟩, assigned, here⟩
    dsimp only at here
    split at here
    · next same =>
      cases here
      exact same ▸ assigned
    · cases here
  · exact fun assigned => ⟨_, assigned, if_pos rfl⟩

theorem react_meets (remembers : good s) (records : ∀ site, good (s.record p accepts site))
    (places : ∀ id c m v value o, f.elements.method? id = some (c, m) → (m, v, value) ∈ s.assigns →
      obj? v value = some o → makes o ∧ asks (.varObj c v o)) :
    (react p accepts obj? s f e).Meets good makes asks := by
  have silent : Reaction.Meets good makes asks { state := s } := Reaction.meets_silent remembers
  cases e with
  | stmtReached site => exact Reaction.meets_silent (records site)
  | csMethodReached id =>
    simp only [react]
    split
    · exact silent
    · next c m known =>
      refine Reaction.meets_varObjs remembers fun x listed => ?_
      obtain ⟨⟨v, value⟩, here, found⟩ := List.mem_filterMap.mp listed
      obtain ⟨o, made, rfl⟩ := Option.map_eq_some_iff.mp found
      exact places id c m v value o known (mem_inMethod.mp here) made
  | _ => exact silent

end LiteralAssigns

end

end PointsTo
