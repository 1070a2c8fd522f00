import PointsTo.Proofs.Reacting
import PointsTo.Proofs.Vouching

/-!
Handlers that know nothing of taint. All but the taint handler make only objects of their own kinds, and
their edges pass objects on as they are.
-/
namespace PointsTo

variable {σ : Type u} {o : Obj} {p : Program} {v : VarId} {value : Literal}

/-- Brings no taint, and turns no object into another. -/
structure Command.Clean (c : Command) : Prop where
  objs : ∀ o ∈ c.objs, o.isTaint = false
  edge : ∀ info, c.label? = some (.other info) → info.transfer = none

structure Reaction.Clean {σ : Type u} (r : Reaction σ) : Prop where
  created : ∀ o ∈ r.created, o.isTaint = false
  commands : ∀ c ∈ r.commands, c.Clean

theorem Reaction.clean_silent (s : σ) : Reaction.Clean { state := s } :=
  ⟨List.forall_mem_nil _, List.forall_mem_nil _⟩

theorem Reaction.Clean.map {τ : Type v} {r : Reaction σ} (clean : r.Clean) (f : σ → τ) :
    (r.map f).Clean := ⟨clean.created, clean.commands⟩

theorem Reaction.Meets.clean {r : Reaction σ} (meets : r.Meets (fun _ => True) (·.isTaint = false) Command.Clean) :
    r.Clean :=
  ⟨meets.created, meets.commands⟩

theorem Obj.site?_eq_none {d : Descriptor} (made : o.descriptor? = some d) : o.site? = none := by
  unfold descriptor? at made
  split at made
  · next origin => simp [site?, origin]
  · cases made

namespace Command

variable {pointer : PointerRef}

theorem clean_plain {made : List Obj} (bare : pointer.objs = []) (clean : ∀ o ∈ made, o.isTaint = false) :
    (addPointsTo pointer (made.map ObjRef.plain)).Clean := by
  refine ⟨fun o listed => clean o ?_, nofun⟩
  simpa [objs, bare, List.flatMap_map, ObjRef.plain, ObjRef.objs] using listed

theorem clean_interned (bare : pointer.objs = []) (ids : List CsObjId) :
    (addPointsTo pointer (ids.map ObjRef.interned)).Clean := by
  refine ⟨fun o listed => ?_, nofun⟩
  simp [objs, bare, List.flatMap_map, ObjRef.objs] at listed

theorem clean_varObj (c : ContextId) (v : VarId) (clean : o.isTaint = false) : (varObj c v o).Clean := by
  have single : ∀ x ∈ [o], x.isTaint = false := List.forall_mem_singleton.mpr clean
  exact clean_plain rfl single

theorem clean_method (m : MethodId) : (addEntryPoint { method := m }).Clean :=
  ⟨fun o listed => by simp [objs, EntryPoint.objs] at listed, nofun⟩

end Command

namespace Entries

variable {p : Program} {m : MethodId}

theorem mockThis_descriptor : ∀ o ∈ mockThis p m, o.descriptor? = some .entryPoint := by
  intro o listed
  unfold mockThis at listed
  split at listed
  · split at listed
    · cases listed
    · cases List.mem_singleton.mp listed
      rfl
  · cases listed

theorem mockParam_descriptor {q : MockParam} (listed : q ∈ MockParam.ofMethod p m) :
    ∀ o ∈ q.obj :: q.elem.toList, o.descriptor? = some .entryPoint := by
  unfold MockParam.ofMethod at listed
  split at listed
  · obtain ⟨⟨ty, i⟩, _, found⟩ := List.mem_filterMap.mp listed
    dsimp only at found
    unfold MockParam.ofTy? at found
    split at found
    · cases found
      refine List.forall_mem_cons.mpr ⟨rfl, fun o elem => ?_⟩
      obtain ⟨_, _, rfl⟩ := Option.map_eq_some_iff.mp (Option.mem_toList.mp elem)
      rfl
    · cases found
  · cases listed

theorem mockedObjs_descriptor : ∀ o ∈ EntryPoint.mockedObjs p m, o.descriptor? = some .entryPoint := by
  intro o made
  rcases List.mem_append.mp made with this | param
  · exact mockThis_descriptor o this
  · obtain ⟨q, known, inside⟩ := List.mem_flatMap.mp param
    exact mockParam_descriptor known o inside

theorem mocked_objs : ∀ o ∈ (EntryPoint.mocked p m).objs, o ∈ EntryPoint.mockedObjs p m := by
  have param : ∀ q ∈ MockParam.ofMethod p m, ∀ o ∈ q.obj :: q.elem.toList,
      o ∈ EntryPoint.mockedObjs p m := by
    intro q listed o inside
    exact List.mem_append_right _ (List.mem_flatMap.mpr ⟨q, listed, inside⟩)
  refine EntryPoint.forall_mem_objs.mpr ⟨fun o this => List.mem_append_left _ this, fun x given => ?_,
    List.forall_mem_nil _, fun x given => ?_⟩
  · obtain ⟨q, listed, rfl⟩ := List.mem_map.mp given
    exact param q listed _ List.mem_cons_self
  · obtain ⟨q, listed, found⟩ := List.mem_filterMap.mp given
    obtain ⟨e, elem, rfl⟩ := Option.map_eq_some_iff.mp found
    exact ⟨param q listed _ List.mem_cons_self,
      param q listed e (List.mem_cons_of_mem _ (Option.mem_toList.mpr elem))⟩

theorem mockedObjs_clean : ∀ o ∈ EntryPoint.mockedObjs p m, o.isTaint = false := by
  intro o made
  rw [Obj.isTaint, mockedObjs_descriptor o made]
  rfl

theorem mocked_site? : ∀ o ∈ (EntryPoint.mocked p m).objs, o.site? = none := by
  intro o given
  exact Obj.site?_eq_none (mockedObjs_descriptor o (mocked_objs o given))

theorem react_clean (p : Program) (s : Entries) (e : Event) : (s.react p e).Clean := by
  cases e with
  | started =>
    refine ⟨fun o listed => ?_, List.forall_mem_append.mpr ⟨fun c listed => ?_, fun c listed => ?_⟩⟩
    · obtain ⟨m, _, made⟩ := List.mem_flatMap.mp listed
      exact mockedObjs_clean o made
    · obtain ⟨m, _, rfl⟩ := List.mem_map.mp listed
      exact ⟨fun o given => mockedObjs_clean o (mocked_objs o given), nofun⟩
    · obtain ⟨m, _, rfl⟩ := List.mem_map.mp listed
      exact Command.clean_method m
  | _ => exact Reaction.clean_silent s

end Entries

theorem Initialized.react_clean (p : Program) (s : Initialized) (e : Event) : (s.react p e).Clean := by
  cases e with
  | methodReached m =>
    refine ⟨List.forall_mem_nil _, fun c listed => ?_⟩
    obtain ⟨n, _, rfl⟩ := List.mem_map.mp listed
    exact Command.clean_method n
  | _ => exact Reaction.clean_silent s

namespace Threads

variable {rules : HeapRules} {s : Threads}

def Clean (s : Threads) : Prop := ∀ o ∈ s.mainThread, o.isTaint = false

theorem start_objs {c : Command} (listed : c ∈ (s.start rules).commands) :
    ∃ entry, c = .addEntryPoint entry ∧ ∀ o ∈ entry.objs, o ∈ (s.start rules).created := by
  simp only [start, List.mem_append, List.mem_map, Option.mem_toList] at listed
  rcases listed with (⟨m, _, rfl⟩ | ⟨m, _, rfl⟩) | ⟨m, _, rfl⟩
  all_goals exact ⟨_, rfl, EntryPoint.forall_mem_objs.mpr (by simp [start])⟩

theorem start_site? : ∀ o ∈ (s.start rules).created, o.site? = none := by
  simp only [start, List.forall_mem_cons]
  exact ⟨rfl, rfl, rfl, rfl, List.forall_mem_nil _⟩

theorem start_clean (rules : HeapRules) (s : Threads) : (s.start rules).Clean := by
  have created : ∀ o ∈ (s.start rules).created, o.isTaint = false := by
    simp only [start, List.forall_mem_cons]
    exact ⟨rfl, rfl, rfl, rfl, List.forall_mem_nil _⟩
  refine ⟨created, fun c listed => ?_⟩
  obtain ⟨entry, rfl, given⟩ := start_objs listed
  exact ⟨fun o member => created o (given o member), nofun⟩

theorem react_clean (clean : s.Clean) (f : Facts) (e : Event) :
    (s.react f e).Clean ∧ (s.react f e).state.Clean := by
  have meets : (s.react f e).Meets Clean (·.isTaint = false) Command.Clean := by
    refine react_meets clean (fun _ => ?_) (fun q delta _ _ _ _ _ => ?_) fun id c m v _ _ => ?_
    · have begun := start_clean f.heap.rules s
      exact ⟨by rintro o ⟨⟩; rfl, begun.created, begun.commands⟩
    · refine ⟨clean, List.forall_mem_nil _, fun d listed => ?_⟩
      unfold launch at listed
      dsimp only at listed
      split at listed
      · cases listed
      · obtain ⟨c, _, listed⟩ := List.mem_flatMap.mp listed
        exact Command.forall_pointsTo (Command.clean_interned rfl _) d listed
    · refine ⟨clean, List.forall_mem_nil _, Command.forall_pointsTo ⟨fun o listed => ?_, nofun⟩⟩
      simp only [Command.objs, PointerRef.objs, running, List.nil_append, List.flatMap_append,
        List.mem_append, List.mem_flatMap] at listed
      rcases listed with ⟨r, main, inside⟩ | ⟨r, started, inside⟩
      · obtain ⟨thread, known, rfl⟩ := Option.map_eq_some_iff.mp (Option.mem_toList.mp main)
        rw [List.mem_singleton.mp inside]
        exact clean thread known
      · obtain ⟨id, _, rfl⟩ := List.mem_map.mp started
        cases inside
  exact ⟨⟨meets.created, meets.commands⟩, meets.state⟩

end Threads

namespace Natives

variable {c : ModeledCall NativeModel}

theorem elementFlow_clean (origin : String) (site : StmtRef) {source target : ObjRef}
    (clean : ∀ o ∈ source.objs ++ target.objs, o.isTaint = false) :
    (elementFlow origin site source target).Clean := by
  refine ⟨clean, fun info same => ?_⟩
  cases same
  rfl

theorem copyObj_clean (made : copyObj? p c = some o) : o.isTaint = false := by
  obtain ⟨decl, _, rfl⟩ := Option.map_eq_some_iff.mp made
  rfl

theorem Asks.clean {f : Facts} {e : Event} {d : Command} (asks : Asks p f e c d) : d.Clean := by
  cases asks with
  | copy _ _ _ made => exact Command.clean_varObj _ _ (copyObj_clean made)
  | clone => exact ⟨List.forall_mem_nil _, nofun⟩
  | copied _ _ _ made => exact elementFlow_clean _ _ (List.forall_mem_singleton.mpr (copyObj_clean made))
  | crossed => exact elementFlow_clean _ _ (List.forall_mem_nil _)

theorem react_clean (p : Program) (s : Natives) (f : Facts) (e : Event) : (s.react p f e).Clean :=
  Reaction.Meets.clean (react_meets trivial (fun _ => trivial)
    (fun _ _ _ made => copyObj_clean made) fun _ _ _ asks => asks.clean)

end Natives

theorem Exceptions.react_clean (p : Program) (s : Exceptions) (f : Facts) (e : Event) : (s.react p f e).Clean := by
  have one : ∀ (s : Exceptions) (t : Throw), True → True → True ∧
      (∀ d ∈ (throwOne p f s t).2.1, d.Clean) ∧ ∀ u ∈ (throwOne p f s t).2.2, True := by
    refine fun s t _ _ => ⟨trivial, fun d asked => ?_, fun _ _ => trivial⟩
    cases known : f.elements.method? t.method with
    | none =>
      rw [throwOne_unknown known] at asked
      cases asked
    | some method =>
      obtain ⟨v, os, rfl, _⟩ := (throwOne_throws known).only d asked
      exact Command.clean_interned rfl os
  exact Reaction.Meets.clean (react_meets one trivial (fun _ _ _ => trivial) (fun _ _ _ _ _ _ _ _ => trivial)
    fun _ _ _ _ _ _ _ => trivial)

namespace Reflection

variable {rules : HeapRules} {o k : Obj}

theorem lookUp_clean (p : Program) (f : Facts) (s : Reflection) (context : ContextId)
    (c : ModeledCall ReflectionModel) (result : VarId) (names : List Obj) :
    (s.lookUp p f context c result names).Clean := by
  have found : ∀ g : Option ClassId → Obj, (∀ cls, (g cls).isTaint = false) →
      ∀ o ∈ (names.map (namedClass? p)).map g, o.isTaint = false := by
    intro g clean o listed
    obtain ⟨cls, _, rfl⟩ := List.mem_map.mp listed
    exact clean cls
  refine ⟨found _ fun cls => ?_, List.forall_mem_append.mpr ⟨fun d listed => ?_,
    Command.forall_pointsTo (Command.clean_plain rfl (found _ fun cls => ?_))⟩⟩
  · cases cls <;> rfl
  · obtain ⟨m, _, rfl⟩ := List.mem_map.mp listed
    exact Command.clean_method m
  · cases cls <;> rfl

theorem classObj?_eq_some (has : classObj? rules o = some k) : k = rules.constant (.cls o.ty) := by
  unfold classObj? at has
  split at has
  · exact (Option.some.inj has).symm
  · exact (Option.some.inj has).symm
  · cases has

theorem classObj?_clean (has : classObj? rules o = some k) : k.isTaint = false :=
  classObj?_eq_some has ▸ rules.constant_clean _

theorem Updates.clean {f : Facts} {s : Reflection} {context : ContextId} {objs : List Obj}
    {c : ModeledCall ReflectionModel} {r : Reaction Reflection} (updates : Updates p f s context v objs c r) :
    r.Clean := by
  cases updates with
  | looks => exact lookUp_clean p f s context c _ objs
  | makes =>
    refine ⟨fun o listed => ?_, fun d listed => ?_⟩
    · obtain ⟨x, made, rfl⟩ := List.mem_map.mp listed
      obtain ⟨cls, _, rfl⟩ := List.mem_map.mp made
      rfl
    · obtain ⟨x, made, listed⟩ := List.mem_flatMap.mp listed
      obtain ⟨cls, _, rfl⟩ := List.mem_map.mp made
      rcases List.mem_cons.mp listed with rfl | calls
      · exact Command.clean_varObj _ _ rfl
      · obtain ⟨init, _, rfl⟩ := List.mem_map.mp calls
        exact ⟨List.forall_mem_singleton.mpr rfl, nofun⟩
  | classes =>
    have classes : ∀ o ∈ objs.filterMap (classObj? f.heap.rules), o.isTaint = false := by
      intro o listed
      obtain ⟨receiver, _, found⟩ := List.mem_filterMap.mp listed
      exact classObj?_clean found
    exact ⟨classes, Command.forall_pointsTo (Command.clean_plain rfl classes)⟩
  | idle => exact Reaction.clean_silent s

theorem react_clean (p : Program) (s : Reflection) (f : Facts) (e : Event) : (s.react p f e).Clean :=
  Reaction.Meets.clean (react_meets trivial (fun _ _ => trivial)
    (fun _ _ _ _ _ _ _ _ => ⟨rfl, Command.clean_varObj _ _ rfl⟩)
    fun _ _ _ _ _ _ _ _ _ _ _ _ _ updates => ⟨trivial, updates.clean.created, updates.clean.commands⟩)

end Reflection

theorem numberObj?_clean (made : numberObj? p v value = some o) : o.isTaint = false := by
  obtain ⟨decl, _, rfl⟩ := Option.map_eq_some_iff.mp made
  rfl

theorem numberObj?_site? (made : numberObj? p v value = some o) : o.site? = none := by
  obtain ⟨decl, _, rfl⟩ := Option.map_eq_some_iff.mp made
  rfl

theorem LiteralAssigns.react_clean (p : Program) (accepts : Literal → Bool)
    {obj? : VarId → Literal → Option Obj} (clean : ∀ v value o, obj? v value = some o → o.isTaint = false)
    (s : LiteralAssigns) (f : Facts) (e : Event) : (react p accepts obj? s f e).Clean :=
  Reaction.Meets.clean (react_meets trivial (fun _ => trivial)
    fun _ _ _ v value o _ _ made => ⟨clean v value o made, Command.clean_varObj _ _ (clean v value o made)⟩)

theorem Warnings.react_clean (p : Program) (s : Warnings) (f : Facts) (e : Event) :
    (s.react p f e).Clean := by
  cases e with
  | unresolved receiver context site =>
    simp only [react]
    split
    · exact Reaction.clean_silent _
    · exact Reaction.clean_silent _
  | _ => exact Reaction.clean_silent _

/-- What handlers other than taint remember is no taint; of scripts nothing can be said. -/
def Handler.Clean : Handler → Prop
  | threads s => s.Clean
  | taint _ | script _ => False
  | _ => True

theorem Handler.react_clean {h : Handler} (clean : h.Clean) (p : Program) (e : Event) (f : Facts) :
    (h.react p e f).Clean ∧ (h.react p e f).state.Clean := by
  cases h with
  | timer => exact ⟨Reaction.clean_silent _, trivial⟩
  | entries s | initializers s => exact ⟨(s.react_clean p e).map _, trivial⟩
  | threads s => exact ⟨(Threads.react_clean clean f e).1.map _, (Threads.react_clean clean f e).2⟩
  | natives s | exceptions s | reflection s | warnings s => exact ⟨(s.react_clean p f e).map _, trivial⟩
  | taint s => exact clean.elim
  | nulls s =>
    refine ⟨(LiteralAssigns.react_clean p _ (fun v value o made => ?_) s f e).map _, trivial⟩
    cases made
    rfl
  | numbers s =>
    exact ⟨(LiteralAssigns.react_clean p _ (fun _ _ _ => numberObj?_clean) s f e).map _, trivial⟩
  | script s => exact clean.elim

end PointsTo
