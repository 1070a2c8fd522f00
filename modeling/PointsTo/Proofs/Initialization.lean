import Mathlib.Data.Finset.Card
import PointsTo.Proofs.Fulfilment

/-!
Static initialisers and reflection. A class is initialised once, with all classes above it; since the
classes above a class have no others above them, whatever is skipped later has been initialised before.
-/
namespace PointsTo

namespace Program

variable {p : Program} {c d e : ClassId}

def climb? (p : Program) : Nat → ClassId → Option ClassId
  | 0, c => some c
  | n + 1, c => (p.superclass? c).bind (p.climb? n)

theorem climb?_add (i j : Nat) (c : ClassId) : p.climb? (i + j) c = (p.climb? i c).bind (p.climb? j) := by
  induction i generalizing c with
  | zero => simp [climb?]
  | succ i ih =>
    rw [Nat.succ_add, climb?, climb?, Option.bind_assoc]
    exact congrArg _ (funext ih)

theorem mem_superChain {n : Nat} : d ∈ p.superChain n c ↔ ∃ k < n, p.climb? k c = some d := by
  induction n generalizing c with
  | zero => simp [superChain]
  | succ n ih =>
    rw [superChain, List.mem_cons]
    constructor
    · rintro (rfl | above)
      · exact ⟨0, Nat.succ_pos n, rfl⟩
      · cases next : p.superclass? c with
        | none => simp [next] at above
        | some b =>
          rw [next] at above
          obtain ⟨k, less, climbs⟩ := ih.mp above
          exact ⟨k + 1, Nat.succ_lt_succ less, by rw [climb?, next]; exact climbs⟩
    · rintro ⟨k, less, climbs⟩
      cases k with
      | zero => exact Or.inl (Option.some.inj climbs).symm
      | succ k =>
        obtain ⟨b, next, climbs⟩ := Option.bind_eq_some_iff.mp climbs
        right
        rw [next]
        exact ih.mpr ⟨k, Nat.lt_of_succ_lt_succ less, climbs⟩

theorem lt_of_superclass? (above : p.superclass? c = some d) : c < p.classes.size := by
  by_contra out
  simp [superclass?, Array.getElem?_eq_none (Nat.le_of_not_lt out)] at above

theorem lt_of_declared? {signature : String} {m : MethodId} (declares : p.declared? c signature = some m) :
    c < p.classes.size := by
  by_contra out
  simp [declared?, Array.getElem?_eq_none (Nat.le_of_not_lt out)] at declares

/-- A class that the program has is fewer steps up than the program has classes: on the shortest way to it
no class comes twice. -/
theorem climb?_bounded {k : Nat} (climbs : p.climb? k c = some d) (inside : d < p.classes.size) :
    ∃ n < p.classes.size, p.climb? n c = some d := by
  induction k using Nat.strongRecOn with | ind k ih => ?_
  by_cases shorter : ∃ j < k, p.climb? j c = some d
  · obtain ⟨j, less, climbs⟩ := shorter
    exact ih j less climbs
  refine ⟨k, ?_, climbs⟩
  -- the classes on the way
  have way : ∀ i ≤ k, ∃ b < p.classes.size, p.climb? i c = some b := by
    intro i le
    rw [← Nat.add_sub_cancel' le, climb?_add] at climbs
    obtain ⟨b, here, rest⟩ := Option.bind_eq_some_iff.mp climbs
    refine ⟨b, ?_, here⟩
    cases gap : k - i with
    | zero =>
      rw [gap] at rest
      exact (Option.some.inj rest) ▸ inside
    | succ j =>
      rw [gap] at rest
      obtain ⟨_, next, _⟩ := Option.bind_eq_some_iff.mp rest
      exact lt_of_superclass? next
  have distinct : ∀ i j, i < j → j ≤ k → p.climb? i c ≠ p.climb? j c := by
    intro i j less le same
    refine shorter ⟨i + (k - j), by omega, ?_⟩
    rw [climb?_add, same, ← climb?_add, Nat.add_sub_cancel' le, climbs]
  have count : (Finset.range (k + 1)).card ≤ (Finset.range p.classes.size).card := by
    refine Finset.card_le_card_of_injOn (fun i => (p.climb? i c).getD 0) (fun i member => ?_)
      fun i first j second same => ?_
    · obtain ⟨b, less, climbs⟩ := way i (Nat.lt_succ_iff.mp (Finset.mem_range.mp member))
      simpa [climbs] using less
    · have le := Nat.lt_succ_iff.mp (Finset.mem_range.mp first)
      have le' := Nat.lt_succ_iff.mp (Finset.mem_range.mp second)
      obtain ⟨b, _, climbs⟩ := way i le
      obtain ⟨b', _, climbs'⟩ := way j le'
      have equal : p.climb? i c = p.climb? j c := by
        rw [climbs, climbs']
        simpa [climbs, climbs'] using same
      rcases Nat.lt_trichotomy i j with less | rfl | less
      · exact absurd equal (distinct i j less le')
      · rfl
      · exact absurd equal.symm (distinct j i less le)
  rw [Finset.card_range, Finset.card_range] at count
  exact count

theorem superclasses_trans (above : d ∈ p.superclasses c) (higher : e ∈ p.superclasses d)
    (inside : e < p.classes.size) : e ∈ p.superclasses c := by
  obtain ⟨i, _, first⟩ := mem_superChain.mp above
  obtain ⟨j, _, second⟩ := mem_superChain.mp higher
  refine mem_superChain.mpr (climb?_bounded (k := i + j) ?_ inside)
  rw [climb?_add, first, Option.bind_some, second]

theorem self_mem_superclasses (inside : c < p.classes.size) : c ∈ p.superclasses c :=
  mem_superChain.mpr ⟨0, Nat.zero_lt_of_lt inside, rfl⟩

end Program

namespace Initialized

variable {p : Program} {t : Initialized} {c d : ClassId} {m : MethodId} {asked : MethodId → Prop}
  {classes : List ClassId}

theorem own_initializer (declares : p.declared? c initializerSubsignature = some m) :
    m ∈ initializersOf p c :=
  mem_initializersOf.mpr ⟨c, Program.self_mem_superclasses (Program.lt_of_declared? declares), declares⟩

theorem initializersOf_above (above : d ∈ p.superclasses c) (member : m ∈ initializersOf p d) :
    m ∈ initializersOf p c := by
  obtain ⟨e, higher, declares⟩ := mem_initializersOf.mp member
  exact mem_initializersOf.mpr
    ⟨e, Program.superclasses_trans above higher (Program.lt_of_declared? declares), declares⟩

/-- All initialisers of the classes in the table have been asked for. -/
def Covers (p : Program) (asked : MethodId → Prop) (t : Initialized) : Prop :=
  ∀ c ∈ t.classes, ∀ m ∈ initializersOf p c, asked m

/-- After a chain all its classes are in the table, and what they declare is in the answer if they are new. -/
theorem initializeChain_spec (declares : ClassId → Option MethodId) (classes : List ClassId)
    (t : Initialized) :
    (∀ c ∈ (t.initializeChain (classes.map fun c => (c, declares c))).1.classes,
      c ∈ t.classes ∨ c ∈ classes) ∧
    ∀ c ∈ classes, c ∈ t.classes ∨
      ∀ m ∈ declares c, m ∈ (t.initializeChain (classes.map fun c => (c, declares c))).2 := by
  induction classes generalizing t with
  | nil => exact ⟨fun _ member => Or.inl member, nofun⟩
  | cons c rest ih =>
    rw [List.map_cons, initializeChain]
    by_cases known : t.has c = true
    · rw [if_pos known]
      obtain ⟨added, answered⟩ := ih t
      refine ⟨fun d member => (added d member).imp_right (List.mem_cons_of_mem c), fun d member => ?_⟩
      rcases List.mem_cons.mp member with rfl | later
      · exact Or.inl (List.contains_iff_mem.mp known)
      · exact answered d later
    · rw [if_neg known]
      obtain ⟨added, answered⟩ := ih ⟨t.classes ++ [c]⟩
      refine ⟨fun d member => ?_, fun d member => ?_⟩
      · rcases added d member with old | later
        · rcases List.mem_append.mp old with before | here
          · exact Or.inl before
          · exact Or.inr (List.mem_singleton.mp here ▸ List.mem_cons_self)
        · exact Or.inr (List.mem_cons_of_mem c later)
      · by_cases here : d = c
        · subst here
          exact Or.inr fun m declared => List.mem_append_left _ (Option.mem_toList.mpr declared)
        · rcases answered d ((List.mem_cons.mp member).resolve_left here) with old | given
          · rcases List.mem_append.mp old with before | same
            · exact Or.inl before
            · exact absurd (List.mem_singleton.mp same) here
          · exact Or.inr fun m declared => List.mem_append_right _ (given m declared)

theorem Covers.require (covers : t.Covers p asked) (given : ∀ m ∈ (t.require p c).2, asked m) :
    (t.require p c).1.Covers p asked ∧ ∀ m ∈ initializersOf p c, asked m := by
  unfold Initialized.require at given ⊢
  by_cases known : t.has c = true
  · rw [if_pos known]
    exact ⟨covers, covers c (List.contains_iff_mem.mp known)⟩
  · rw [if_neg known] at given ⊢
    obtain ⟨added, answered⟩ := initializeChain_spec
      (fun d => p.declared? d initializerSubsignature) (p.superclasses c).reverse t
    have all : ∀ m ∈ initializersOf p c, asked m := by
      intro m member
      obtain ⟨d, above, declares⟩ := mem_initializersOf.mp member
      rcases answered d (List.mem_reverse.mpr above) with before | listed
      · exact covers d before m (own_initializer declares)
      · exact given m (listed m declares)
    refine ⟨fun d member m initializes => ?_, all⟩
    rcases added d member with before | above
    · exact covers d before m initializes
    · exact all m (initializersOf_above (List.mem_reverse.mp above) initializes)

theorem Covers.initializeAll (covers : t.Covers p asked) (given : ∀ m ∈ (t.initializeAll p classes).2, asked m) :
    (t.initializeAll p classes).1.Covers p asked ∧
      ∀ c ∈ classes, ∀ m ∈ initializersOf p c, asked m := by
  induction classes generalizing t with
  | nil => exact ⟨covers, nofun⟩
  | cons c rest ih =>
    obtain ⟨first, later⟩ := List.forall_mem_append.mp given
    obtain ⟨covers', here⟩ := covers.require first
    obtain ⟨covers'', there⟩ := ih covers' later
    exact ⟨covers'', List.forall_mem_cons.mpr ⟨here, there⟩⟩

variable {σ : Type u} {sel : Selector} {law : Law} {rules : HeapRules} {keep : Obj → Prop}
  {record : List (Moment σ)} {f : Facts}

theorem covers_methods
    (answers : ∀ d ∈ ((t.initializeAll p classes).2.map fun m => Command.addEntryPoint { method := m }),
      f.Answers keep p sel d) : ∀ m ∈ (t.initializeAll p classes).2, f.Upholds keep (.reached [] m) :=
  fun _ listed => (answers _ (List.mem_map_of_mem listed)).method

section

variable
  (given : ∀ past x rest, record = past ++ x :: rest → ∀ m, .addEntryPoint { method := m } ∈
    (react p (replay (fun e _ s => react p s e) {} past) x.event).commands → asked m)

include given

/-- If whatever the handler asks for is granted, then the initialisers of all classes in its table are. -/
theorem covers_replay (past rest : List (Moment σ)) (cut : record = past ++ rest) :
    Covers p asked (replay (fun e _ s => react p s e) {} past) := by
  refine replay_induct (fun _ => Covers p asked) (fun _ none => by cases none) ?_ past rest cut
  intro past x rest cut covers
  have given := given past x rest cut
  cases event : x.event with
  | methodReached m =>
    rw [event] at given
    exact (covers.initializeAll fun i listed => given i (List.mem_map_of_mem listed)).1
  | _ => exact covers

theorem covers_needed {past rest : List (Moment σ)} {x : Moment σ} (cut : record = past ++ x :: rest)
    (event : x.event = .methodReached m) : ∀ d ∈ neededClasses p m, ∀ i ∈ initializersOf p d, asked i := by
  have covers := covers_replay given past (x :: rest) cut
  have given := given past x rest cut
  rw [event] at given
  exact (covers.initializeAll fun i listed => given i (List.mem_map_of_mem listed)).2

end

theorem satisfied (story : Story p sel law rules keep (fun e _ s => Initialized.react p s e) {} record f) :
    Satisfied p (f.Upholds keep) := by
  intro c m d i reached needed initializes
  obtain ⟨past, x, rest, cut, event⟩ := story.registration reached.1
  have given (past x rest) (cut : record = past ++ x :: rest) (m) (asked : .addEntryPoint { method := m } ∈
      (react p (replay (fun e _ s => react p s e) {} past) x.event).commands) : f.Upholds keep (.reached [] m) :=
    (story.answers past x rest cut _ asked).method
  exact covers_needed given cut event d needed i initializes

end Initialized

namespace Reflection

variable {σ : Type u} {p : Program} {sel : Selector} {holds : Fact → Prop} {rules : HeapRules} {keep : Obj → Prop}
  {record : List (Moment σ)} {f t : Facts} {s : Reflection} {c : ModeledCall ReflectionModel}
  {context : ContextId} {frame : Frame} {v result : VarId} {objs : List Obj}

/-- A modelled call has been applied to an object at one of its variables. -/
def Applied (p : Program) (sel : Selector) (rules : HeapRules) (holds : Fact → Prop) (s : Reflection)
    (c : ModeledCall ReflectionModel) (frame : Frame) (v : VarId) (o : Obj) : Prop :=
  ∀ result, c.call.result = some result →
    match c.key with
    | .forName => c.call.args.head? = some v →
      holds (.points (.var frame result) ⟨[], s.lookedUp p rules c.site o⟩) ∧
        ∀ cls ∈ namedClass? p o, ∀ m ∈ initializersOf p cls, holds (.reached [] m)
    | .newInstance => c.call.base = some v → ∀ cls ∈ instantiable? p o,
      holds (.points (.var frame result) ⟨[], instance_ c.site cls⟩) ∧
      ∀ init ∈ p.declared? cls "void <init>()",
        let callee := sel.calleeFrame p frame c.site (some ⟨[], instance_ c.site cls⟩) init
        holds (.called .other frame c.site callee init) ∧
          ∀ this ∈ p.this? init, holds (.points (.var callee this) ⟨[], instance_ c.site cls⟩)
    | .getClass => c.call.base = some v → ∀ k ∈ classObj? rules o,
      holds (.points (.var frame result) ⟨[], k⟩)
    | .methodInvoke | .constructorNewInstance => True

structure Knows (p : Program) (t : Facts) (keep : Obj → Prop) (first : Reflection) (past : List (Moment σ))
    (s : Reflection) : Prop where
  models : s.models.Knows p first.models past
  classTy : s.classTy = first.classTy
  objectTy : s.objectTy = first.objectTy
  covers : s.initialized.Covers p fun m => t.Upholds keep (.reached [] m)

theorem lookedUp_clean {site : StmtRef} {o : Obj} : (s.lookedUp p rules site o).isTaint = false := by
  unfold lookedUp
  split
  · exact HeapRules.constant_clean _ _
  · rfl

theorem lookUp_applied {arg : VarId} (clean : ∀ o : Obj, o.isTaint = false → keep o)
    (named : t.FrameOf context frame) (key : c.key = .forName) (answer : c.call.result = some result)
    (covers : s.initialized.Covers p fun m => t.Upholds keep (.reached [] m))
    (answers : ∀ d ∈ (s.lookUp p f context c result objs).commands, t.Answers keep p sel d) :
    (s.lookUp p f context c result objs).state.initialized.Covers p (fun m => t.Upholds keep (.reached [] m)) ∧
      ∀ o ∈ objs, s.Applied p sel f.heap.rules (t.Upholds keep) c frame arg o := by
  obtain ⟨entries, points⟩ := List.forall_mem_append.mp answers
  obtain ⟨covers', all⟩ := covers.initializeAll (Initialized.covers_methods entries)
  refine ⟨covers', fun o listed result' answer' => ?_⟩
  obtain rfl : result = result' := Option.some.inj (answer.symm.trans answer')
  rw [key]
  refine fun _ => ⟨?_, fun cls names => all cls ?_⟩
  · refine Facts.answers_pointsTo points named ?_ (t.objRefIs_plain _) (clean _ lookedUp_clean)
    refine List.mem_map.mpr ⟨_, List.mem_map.mpr ⟨_, List.mem_map_of_mem listed, rfl⟩, ?_⟩
    unfold lookedUp
    cases namedClass? p o <;> rfl
  · exact List.mem_filterMap.mpr ⟨_, List.mem_map_of_mem listed, names⟩

theorem instantiate_applied {cls : ClassId} (clean : ∀ o : Obj, o.isTaint = false → keep o)
    (named : t.FrameOf context frame)
    (answers : ∀ d ∈ (instantiate p context c result cls).2, t.Answers keep p sel d) :
    t.Upholds keep (.points (.var frame result) ⟨[], instance_ c.site cls⟩) ∧
      ∀ init ∈ p.declared? cls "void <init>()",
        let callee := sel.calleeFrame p frame c.site (some ⟨[], instance_ c.site cls⟩) init
        t.Upholds keep (.called .other frame c.site callee init) ∧
          ∀ this ∈ p.this? init, t.Upholds keep (.points (.var callee this) ⟨[], instance_ c.site cls⟩) := by
  obtain ⟨points, calls⟩ := List.forall_mem_cons.mp answers
  have kept : keep (instance_ c.site cls) := clean _ rfl
  refine ⟨points.varObj named kept, fun init declares => ?_⟩
  obtain ⟨frame', i, named', is, called, receives⟩ :=
    calls _ (List.mem_map_of_mem (Option.mem_toList.mpr declares))
  obtain rfl := named.unique named'
  obtain rfl := is.unique (t.objRefIs_plain _)
  refine ⟨Facts.upholds_of_found (called nofun) rfl, fun this this? => ?_⟩
  exact Facts.upholds_points.mpr ⟨receives this this? (by rintro _ ⟨⟩; exact kept), kept⟩

theorem Updates.applied {r : Reaction Reflection} (updates : Updates p f s context v objs c r)
    (clean : ∀ o : Obj, o.isTaint = false → keep o) (named : t.FrameOf context frame)
    (covers : s.initialized.Covers p fun m => t.Upholds keep (.reached [] m))
    (answers : ∀ d ∈ r.commands, t.Answers keep p sel d) :
    r.state.initialized.Covers p (fun m => t.Upholds keep (.reached [] m)) ∧
      ∀ o ∈ objs, s.Applied p sel f.heap.rules (t.Upholds keep) c frame v o := by
  cases updates with
  | looks answer key first => exact lookUp_applied clean named key answer covers answers
  | @makes result answer key on =>
    refine ⟨covers, fun o listed result' answer' => ?_⟩
    obtain rfl : result = result' := Option.some.inj (answer.symm.trans answer')
    rw [key]
    refine fun _ cls makes => instantiate_applied clean named fun d asked => answers d ?_
    exact List.mem_flatMap.mpr ⟨_, List.mem_map_of_mem (List.mem_filterMap.mpr ⟨o, listed, makes⟩), asked⟩
  | @classes result answer key on =>
    refine ⟨covers, fun o listed result' answer' => ?_⟩
    obtain rfl : result = result' := Option.some.inj (answer.symm.trans answer')
    rw [key]
    refine fun _ k has => Facts.answers_pointsTo answers named ?_ (t.objRefIs_plain k)
      (clean k (classObj?_clean has))
    exact List.mem_map_of_mem (List.mem_filterMap.mpr ⟨o, listed, has⟩)
  | idle unused =>
    refine ⟨covers, fun o _ result answer => ?_⟩
    obtain ⟨looks, makes, classes⟩ := unused result answer
    cases key : c.key with
    | forName => exact fun first => absurd first (looks key)
    | newInstance => exact fun on => absurd on (makes key)
    | getClass => exact fun on => absurd on (classes key)
    | methodInvoke => trivial
    | constructorNewInstance => trivial

theorem updateAll_applied {calls : List (ModeledCall ReflectionModel)}
    (clean : ∀ o : Obj, o.isTaint = false → keep o) (named : t.FrameOf context frame)
    (covers : s.initialized.Covers p fun m => t.Upholds keep (.reached [] m))
    (answers : ∀ d ∈ (updateAll p f context v objs s calls).commands, t.Answers keep p sel d) :
    (∃ initialized, (updateAll p f context v objs s calls).state = { s with initialized } ∧
      initialized.Covers p fun m => t.Upholds keep (.reached [] m)) ∧
    ∀ c ∈ calls, ∀ o ∈ objs, s.Applied p sel f.heap.rules (t.Upholds keep) c frame v o := by
  induction calls generalizing s with
  | nil => exact ⟨⟨s.initialized, rfl, covers⟩, nofun⟩
  | cons c rest ih =>
    obtain ⟨first, later⟩ := List.forall_mem_append.mp answers
    have updates : Updates p f s context v objs c _ := update_updates
    obtain ⟨covers', applied⟩ := updates.applied clean named covers first
    obtain ⟨initialized, same⟩ := updates.state
    rw [same] at covers' later
    obtain ⟨⟨final, equal, covers''⟩, others⟩ := ih covers' later
    refine ⟨⟨final, ?_, covers''⟩, List.forall_mem_cons.mpr ⟨applied, others⟩⟩
    rw [updateAll, same]
    exact equal

variable {first : Reflection}

variable
  (story : Story p sel (Law.only p holds) rules keep (fun e f s => Reflection.react p s f e) first record t)

include story

theorem watching {past rest : List (Moment σ)} {x : Moment σ} (cut : record = past ++ x :: rest) {q : PointerId}
    {delta : ObjSet} (event : x.event = .arrived q delta)
    (known : x.facts.elements.pointer? q = some (.var context v)) (named : x.facts.FrameOf context frame)
    (covers : s.initialized.Covers p fun m => t.Upholds keep (.reached [] m))
    (state : replay (fun e f s => Reflection.react p s f e) first past = s) :
    (∃ initialized, (Reflection.react p s x.facts x.event).state = { s with initialized } ∧
      initialized.Covers p fun m => t.Upholds keep (.reached [] m)) ∧
    ∀ c ∈ s.models.watching v, ∀ o ∈ delta.toList.filterMap x.facts.obj?,
      s.Applied p sel rules (t.Upholds keep) c frame v o := by
  have answers := story.answers past x rest cut
  rw [state, event] at answers
  rw [event]
  simp only [react, known] at answers ⊢
  rw [← (story.soundAt cut).rules]
  exact updateAll_applied story.clean ((story.below cut).toExtends.frameOf named) covers answers

theorem knows_replay (fresh : first.models.recorded = []) (none : first.initialized.classes = [])
    (past rest : List (Moment σ)) (cut : record = past ++ rest) :
    Knows p t keep first past (replay (fun e f s => Reflection.react p s f e) first past) := by
  refine replay_induct (Knows p t keep first) ?_ (fun past x rest cut knows => ?_) past rest cut
  · refine ⟨⟨rfl, ?_, nofun⟩, rfl, rfl, fun c member => ?_⟩
    · rw [CallModels.Remembers, fresh]
      exact List.forall_mem_nil _
    · rw [none] at member
      cases member
  · generalize state : replay (fun e f s => Reflection.react p s f e) first past = s at knows ⊢
    cases event : x.event with
    | methodReached m => exact { knows with models := knows.models.recordMethod event }
    | csMethodReached id =>
      have still : Knows p t keep first (past ++ [x]) s :=
        { knows with models := knows.models.still (by rw [event]; rfl) }
      simp only [react]
      split <;> exact still
    | arrived q delta =>
      have still : Knows p t keep first (past ++ [x]) s :=
        { knows with models := knows.models.still (by rw [event]; rfl) }
      cases known : x.facts.elements.pointer? q with
      | none =>
        simp only [react, known]
        exact still
      | some ptr =>
        cases ptr with
        | var context v =>
          obtain ⟨⟨frame, named⟩, _⟩ := (story.soundAt cut).sane.vars q context v known
          obtain ⟨⟨initialized, same, covers⟩, _⟩ := watching story cut event known named knows.covers state
          rw [event] at same
          rw [same]
          exact { still with covers }
        | _ =>
          simp only [react, known]
          exact still
    | _ => exact { knows with models := knows.models.still (by rw [event]; rfl) }

theorem applied (fresh : first.models.recorded = []) (none : first.initialized.classes = [])
    (made : first.models.Models p c) (used : c.call.base = some v ∨ v ∈ c.call.args) {i : Item}
    (points : t.Found (.points (.var frame v) i)) :
    first.Applied p sel rules (t.Upholds keep) c frame v i.obj := by
  obtain ⟨past, x, rest, q, delta, o, context, cut, event, new, known, named, item⟩ := story.arrivalAt points
  have knows := knows_replay story fresh none past (x :: rest) cut
  have mentions : p.Mentions c.site.method v := by
    rcases used with base | arg
    · exact Program.mentions_base made.invoke? base
    · exact Program.mentions_arg made.invoke? arg
  obtain ⟨method, _⟩ := story.timely past x rest cut q delta context v _ event known mentions
  generalize state : replay (fun e f s => Reflection.react p s f e) first past = s at knows
  obtain ⟨_, each⟩ := watching story cut event known named knows.covers state
  obtain ⟨_, described, _⟩ := item
  have applied := each c (knows.models.watched made method used) i.obj
    (List.mem_filterMap.mpr ⟨o, new, Facts.obj?_of_describe? described⟩)
  have same : ∀ site o, s.lookedUp p rules site o = first.lookedUp p rules site o := by
    intro site o
    rw [lookedUp, lookedUp, knows.classTy]
  simp only [Applied, same] at applied
  exact applied

theorem satisfied (fresh : first.models.recorded = []) (none : first.initialized.classes = []) :
    first.Satisfied p sel rules (t.Upholds keep) where
  lookUp := by
    intro c made key arg result passed answer frame i points
    have applied := applied story fresh none made (Or.inr (List.mem_of_mem_head? passed)) points.1 result answer
    rw [key] at applied
    exact applied passed
  makes := by
    intro c made key base result on answer frame i points cls makes
    have applied := applied story fresh none made (Or.inl on) points.1 result answer
    rw [key] at applied
    exact (applied on cls makes).1
  constructs := by
    intro c made key base result on answer frame i points cls makes
    have applied := applied story fresh none made (Or.inl on) points.1 result answer
    rw [key] at applied
    exact (applied on cls makes).2
  classes := by
    intro c made key base result on answer frame i points
    have applied := applied story fresh none made (Or.inl on) points.1 result answer
    rw [key] at applied
    exact applied on
  unknown := by
    intro c made unknown result answer frame reached
    obtain ⟨past, x, rest, id, context, cut, event, known, named, method, _⟩ := story.entry reached.1
    have knows := knows_replay story fresh none past (x :: rest) cut
    have answers := story.answers past x rest cut
    generalize replay (fun e f s => Reflection.react p s f e) first past = s at knows answers
    rw [event] at answers
    simp only [react, known, knows.objectTy] at answers
    refine (answers (Command.varObj context result (unknownObj c.site first.objectTy)) ?_).varObj
      ((story.below cut).toExtends.frameOf named) (story.clean _ rfl)
    refine List.mem_map.mpr ⟨(result, unknownObj c.site first.objectTy), ?_, rfl⟩
    refine List.mem_filterMap.mpr ⟨c, knows.models.site made method, ?_⟩
    rw [if_pos unknown, answer]
    rfl

end Reflection

end PointsTo
