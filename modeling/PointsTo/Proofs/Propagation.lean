import PointsTo.Proofs.Growth

/-!
Objects that lie at the source of a flow edge and may cross it have been sent to its target: they
are there, or on their way, or refused by a filter. Every rule of the solver keeps this, whatever
handlers ask for, as long as the handles in a state stand for something.
-/
namespace PointsTo

/-- What an object becomes when it crosses an edge; none where it does not cross. -/
def Facts.crossing? (f : Facts) (p : Program) (id : EdgeId) (label : FlowLabel) (o : CsObjId) :
    Option (ContextId × Obj) :=
  (f.describe? o).bind fun d =>
    match label with
    | .cast ty => if p.isSubtype d.2.ty ty then some d else none
    | .plain .thisPassing => if f.flow.admits id o then some d else none
    | .other info =>
      match info.transfer with
      | some t => t d.1 d.2
      | none => some d
    | .plain _ => some d

namespace State

variable {σ : Type u} {s t u : State σ} {q base : PointerId} {o receiver : CsObjId} {d : ContextId × Obj}
  {e : FlowEdge} {rest os : List CsObjId}

/-- All handles in sets and on the way stand for something, and edges join known pointers. -/
structure Handles (s : State σ) : Prop where
  held : ∀ p o, s.Holds p o → ∃ d, s.describe? o = some d
  pending : ∀ p o, s.Pending p o →
    (∃ ptr, s.elements.pointer? p = some ptr) ∧ ∃ d, s.describe? o = some d
  edges : ∀ id e, s.flow.edge? id = some e →
    (∃ ptr, s.elements.pointer? e.source = some ptr) ∧ ∃ ptr, s.elements.pointer? e.target = some ptr
  receivers : ∀ r ∈ s.flow.receivers, r.1 < s.flow.size

/-- Every handle in a set stands for something. -/
def Describes (s : State σ) (set : ObjSet) : Prop :=
  ∀ o ∈ set, ∃ d, s.describe? o = some d

def Refuses (s : State σ) (p : PointerId) (o : CsObjId) : Prop :=
  ∃ obj, s.obj? o = some obj ∧ ∃ keep ∈ s.elements.filters p, keep obj = false

def Delivered (s : State σ) (p : PointerId) (o : CsObjId) : Prop :=
  s.Holds p o ∨ s.Pending p o ∨ s.Refuses p o

/-- What `o` becomes on an edge has been delivered. -/
def Carries (p : Program) (s : State σ) (id : EdgeId) (e : FlowEdge) (o : CsObjId) : Prop :=
  ∀ d, s.crossing? p id e.label o = some d → ∃ o', s.describe? o' = some d ∧ s.Delivered e.target o'

def Flows (p : Program) (s : State σ) : Prop :=
  ∀ id e o, s.flow.edge? id = some e → s.Holds e.source o → s.Carries p id e o

theorem Quiet.refuses (quiet : s.Quiet t) (refused : s.Refuses q o) : t.Refuses q o := by
  obtain ⟨obj, known, keep, attached, refusal⟩ := refused
  obtain ⟨c, described⟩ := Facts.describe?_of_obj? known
  refine ⟨obj, Facts.obj?_of_describe? (quiet.grown.describe? described), keep, ?_, refusal⟩
  rw [quiet.filters q]
  exact attached

theorem Quiet.delivered (quiet : s.Quiet t) (delivered : s.Delivered q o) : t.Delivered q o := by
  rcases delivered with held | pending | refused
  · exact Or.inl (quiet.holds_iff.mpr held)
  · exact Or.inr (Or.inl (quiet.pending q o pending))
  · exact Or.inr (Or.inr (quiet.refuses refused))

/-- A known object becomes the same on an edge later on, unless it is admitted in between. -/
theorem crossing?_eq_of_extends {f g : Facts} (grown : f.Extends g) {p : Program} {id : EdgeId}
    {label : FlowLabel} (known : f.describe? o = some d)
    (admission : g.flow.admits id o = true → f.flow.admits id o = true) :
    g.crossing? p id label o = f.crossing? p id label o := by
  have same : g.flow.admits id o = f.flow.admits id o := by
    rw [Bool.eq_iff_iff]
    constructor
    · exact admission
    · intro before
      exact EdgeStore.admits_iff.mpr (grown.receivers _ (EdgeStore.admits_iff.mp before))
  unfold Facts.crossing?
  rw [known, grown.describe? known, same]

theorem Quiet.carries (quiet : s.Quiet t) {p : Program} {id : EdgeId} (known : s.describe? o = some d)
    (admission : t.flow.admits id o = true → s.flow.admits id o = true) (carried : s.Carries p id e o) :
    t.Carries p id e o := by
  intro become crosses
  rw [crossing?_eq_of_extends quiet.grown known admission] at crosses
  obtain ⟨o', described, delivered⟩ := carried become crosses
  exact ⟨o', quiet.grown.describe? described, quiet.delivered delivered⟩

/-- A quiet change that keeps handles meaningful and objects flowing. -/
structure Safe (p : Program) (s t : State σ) : Prop extends s.Quiet t where
  handles : s.Handles → t.Handles
  flows : s.Handles → s.Flows p → t.Flows p

variable {p : Program}

theorem Safe.refl (s : State σ) : s.Safe p s := ⟨Quiet.refl s, id, fun _ flows => flows⟩

theorem Safe.trans (first : s.Safe p t) (second : t.Safe p u) : s.Safe p u :=
  ⟨first.toQuiet.trans second.toQuiet, fun known => second.handles (first.handles known),
    fun known flows => second.flows (first.handles known) (first.flows known flows)⟩

theorem foldl_safe {α : Type v} {f : State σ → α → State σ} (items : List α) (s : State σ)
    (each : ∀ t, s.Quiet t → ∀ a ∈ items, t.Safe p (f t a)) : s.Safe p (items.foldl f s) := by
  refine List.foldlRecOn items f (Safe.refl s) fun t safe a member => ?_
  exact safe.trans (each t safe.toQuiet a member)

theorem Quiet.handles (quiet : s.Quiet t) (known : s.Handles) (sent : ∀ q o, t.Pending q o → s.Pending q o ∨
      ((∃ ptr, t.elements.pointer? q = some ptr) ∧ ∃ d, t.describe? o = some d))
    (edges : ∀ id e, t.flow.edge? id = some e → s.flow.edge? id = some e ∨
      ((∃ ptr, t.elements.pointer? e.source = some ptr) ∧
        ∃ ptr, t.elements.pointer? e.target = some ptr)) (receivers : ∀ r ∈ t.flow.receivers, r.1 < t.flow.size) :
    t.Handles where
  held := by
    intro q o held
    obtain ⟨d, described⟩ := known.held q o (quiet.holds_iff.mp held)
    exact ⟨d, quiet.grown.describe? described⟩
  pending := by
    intro q o pending
    rcases sent q o pending with before | new
    · obtain ⟨⟨ptr, pointer⟩, d, described⟩ := known.pending q o before
      exact ⟨⟨ptr, quiet.grown.pointers _ _ pointer⟩, d, quiet.grown.describe? described⟩
    · exact new
  edges := by
    intro id e edge
    rcases edges id e edge with before | new
    · obtain ⟨⟨a, source⟩, b, target⟩ := known.edges id e before
      exact ⟨⟨a, quiet.grown.pointers _ _ source⟩, b, quiet.grown.pointers _ _ target⟩
    · exact new
  receivers := receivers

theorem Quiet.flows (quiet : s.Quiet t) (known : s.Handles) (flows : s.Flows p)
    (news : ∀ id e o, t.flow.edge? id = some e → s.Holds e.source o →
      (s.flow.edge? id = some e ∧ (t.flow.admits id o = true → s.flow.admits id o = true)) ∨
        t.Carries p id e o) : t.Flows p := by
  intro id e o edge held
  have before := quiet.holds_iff.mp held
  rcases news id e o edge before with ⟨old, admission⟩ | carried
  · obtain ⟨d, described⟩ := known.held _ o before
    exact quiet.carries described admission (flows id e o old before)
  · exact carried

theorem Quiet.safe (quiet : s.Quiet t) (flow : t.flow = s.flow)
    (sent : s.Handles → ∀ q o, t.Pending q o → s.Pending q o ∨
      ((∃ ptr, t.elements.pointer? q = some ptr) ∧ ∃ d, t.describe? o = some d)) : s.Safe p t where
  toQuiet := quiet
  handles := by
    intro known
    refine quiet.handles known (sent known) ?_ ?_
    · intro id e edge
      rw [flow] at edge
      exact Or.inl edge
    · rw [flow]
      exact known.receivers
  flows := by
    intro known flows
    refine quiet.flows known flows fun id e o edge _ => Or.inl ?_
    rw [flow] at edge ⊢
    exact ⟨edge, fun admitted => admitted⟩

section

variable (s : State σ)

theorem internObj_safe (o : Obj) : s.Safe p (s.internObj o).1 :=
  (internObj_quiet s o).safe rfl fun _ _ _ pending => Or.inl pending

theorem internCsObj_safe (c : ContextId) (o : ObjId) : s.Safe p (s.internCsObj c o).1 :=
  (internCsObj_quiet s c o).safe rfl fun _ _ _ pending => Or.inl pending

theorem internSite_safe (c : ContextId) (site : StmtRef) : s.Safe p (s.internSite c site).1 :=
  (internSite_quiet s c site).safe rfl fun _ _ _ pending => Or.inl pending

theorem enlist_safe (c : ContextId) (m : MethodId) (kind : CallKind) (site : CsSiteId) :
    s.Safe p ((s.internMethod c m).1.pushCall ⟨kind, site, (s.internMethod c m).2⟩) :=
  (enlist_quiet s c m kind site).safe rfl fun _ _ _ pending => Or.inl pending

theorem internPointer_safe (ptr : Pointer) : s.Safe p (s.internPointer ptr).1 :=
  (internPointer_quiet s ptr).safe rfl fun _ _ _ pending => Or.inl pending

theorem internDescribed_safe (c : ContextId) (o : Obj) : s.Safe p (s.internDescribed c o).1 :=
  (internDescribed_quiet s c o).safe rfl fun _ _ _ pending => Or.inl pending

theorem selectCallee_safe (cx : Setup σ) (caller : ContextId) (site : StmtRef) (receiver : Option Receiver)
    (callee : MethodId) : s.Safe p (s.selectCallee cx caller site receiver callee).1 :=
  (selectCallee_quiet s cx caller site receiver callee).safe rfl fun _ _ _ pending => Or.inl pending

theorem selectHeap_safe (cx : Setup σ) (c : ContextId) (m : MethodId) : s.Safe p (s.selectHeap cx c m).1 :=
  (selectHeap_quiet s cx c m).safe rfl fun _ _ _ pending => Or.inl pending

theorem notify_safe (cx : Setup σ) (e : Event) : s.Safe p (s.notify cx e) :=
  (notify_quiet s cx e).safe rfl fun _ _ _ pending => Or.inl pending

theorem pushPoints_safe (q : PointerId) (set : ObjSet)
    (known : s.Handles → ∀ o ∈ set, (∃ ptr, s.elements.pointer? q = some ptr) ∧ ∃ d, s.describe? o = some d) :
    s.Safe p (s.pushPoints q set) := by
  refine (pushPoints_quiet s q set).safe rfl fun handles r o pending => ?_
  rcases Worklist.pending_pushPoints.mp pending with before | ⟨rfl, member⟩
  · exact Or.inl before
  · exact Or.inr (known handles o member)

end

theorem pending_pushPoints_self {set : ObjSet} (member : o ∈ set) : (s.pushPoints q set).Pending q o :=
  Worklist.pending_pushPoints.mpr (Or.inr ⟨rfl, member⟩)

/-- A quiet change that touches neither the flow graph nor the work. -/
structure Still (s t : State σ) : Prop extends s.Quiet t where
  flow : t.flow = s.flow
  worklist : t.worklist = s.worklist

theorem Still.trans (first : s.Still t) (second : t.Still u) : s.Still u :=
  ⟨first.toQuiet.trans second.toQuiet, second.flow.trans first.flow,
    second.worklist.trans first.worklist⟩

theorem Still.safe (still : s.Still t) : s.Safe p t := by
  refine still.toQuiet.safe still.flow fun _ q o pending => Or.inl ?_
  unfold Pending at pending ⊢
  rw [← still.worklist]
  exact pending

theorem transferAll_cons {t : Transfer} (known : s.describe? o = some d) :
    s.transferAll t (o :: rest) =
      match t d.1 d.2 with
      | some made =>
        let next := (s.internDescribed made.1 made.2).1.transferAll t rest
        (next.1, (s.internDescribed made.1 made.2).2 :: next.2)
      | none => s.transferAll t rest := by
  obtain ⟨id, entry, _⟩ := Facts.describe?_eq_some.mp known
  have object := Facts.obj?_of_describe? known
  simp only [transferAll, entry, object]
  cases t d.1 d.2 <;> rfl

theorem transferAll_cons_unknown {t : Transfer} (unknown : s.describe? o = none) :
    s.transferAll t (o :: rest) = s.transferAll t rest := by
  have object : s.obj? o = none := by
    cases found : s.obj? o with
    | none => rfl
    | some obj =>
      obtain ⟨c, described⟩ := Facts.describe?_of_obj? found
      rw [unknown] at described
      cases described
  simp only [transferAll, object]
  cases s.elements.obj? o <;> rfl

/-- What interning the images of described objects keeps, a transfer keeps. -/
theorem transferAll_keeps {P : State σ → Prop} {t : Transfer}
    (keeps : ∀ s o d made, P s → s.describe? o = some d → t d.1 d.2 = some made →
      P (s.internDescribed made.1 made.2).1) (os : List CsObjId) (start : P s) : P (s.transferAll t os).1 := by
  induction os generalizing s with
  | nil => exact start
  | cons o rest ih =>
    cases known : s.describe? o with
    | none =>
      rw [transferAll_cons_unknown known]
      exact ih start
    | some d =>
      rw [transferAll_cons known]
      cases made : t d.1 d.2 with
      | none => exact ih start
      | some _ => exact ih (keeps s o d _ start known made)

/-- Only a transfer changes the state when objects cross an edge. -/
theorem flowOver_keeps {P : State σ → Prop} {id : EdgeId} (set : ObjSet) (start : P s)
    (makes : ∀ e info t, s.flow.edge? id = some e → e.label = .other info → info.transfer = some t →
      ∀ u o d made, P u → u.describe? o = some d → t d.1 d.2 = some made →
        P (u.internDescribed made.1 made.2).1) : P (s.flowOver p id set).1 := by
  unfold flowOver
  split
  · exact start
  · exact start
  · next info label =>
    obtain ⟨e, edge, same⟩ := Option.map_eq_some_iff.mp label
    split
    · next t transfer => exact transferAll_keeps (makes e info t edge same transfer) _ start
    · exact start
  · exact start
  · exact start

theorem send_keeps {P : State σ → Prop} {id : EdgeId} {set : ObjSet} (crossed : P (s.flowOver p id set).1)
    (pushes : ∀ u q out, P u → P (u.pushPoints q out)) : P (s.send p set id) := by
  unfold send
  dsimp only
  split
  · exact pushes _ _ _ crossed
  · exact crossed

theorem transferAll_still (s : State σ) (t : Transfer) (os : List CsObjId) :
    s.Still (s.transferAll t os).1 :=
  transferAll_keeps (fun u _ _ made still _ _ =>
    still.trans ⟨internDescribed_quiet u made.1 made.2, rfl, rfl⟩) os ⟨Quiet.refl s, rfl, rfl⟩

theorem transferAll_origin {t : Transfer} (known : ∀ o ∈ os, ∃ d, s.describe? o = some d) {o' : CsObjId}
    (member : o' ∈ (s.transferAll t os).2) :
    ∃ o ∈ os, ∃ d made, s.describe? o = some d ∧ t d.1 d.2 = some made ∧
      (s.transferAll t os).1.describe? o' = some made := by
  induction os generalizing s with
  | nil => cases member
  | cons o rest ih =>
    obtain ⟨d, described⟩ := known o List.mem_cons_self
    have later : ∀ o ∈ rest, ∃ d, s.describe? o = some d :=
      fun o inRest => known o (List.mem_cons_of_mem _ inRest)
    rw [transferAll_cons described] at member ⊢
    cases crossed : t d.1 d.2 with
    | none =>
      rw [crossed] at member
      obtain ⟨o, inRest, e, made, fact⟩ := ih later member
      exact ⟨o, List.mem_cons_of_mem _ inRest, e, made, fact⟩
    | some made =>
      rw [crossed] at member
      -- what the rest of the list makes is interned after the first object, and keeps its handle
      have grown := (internDescribed_quiet s made.1 made.2).grown
      rcases List.mem_cons.mp member with first | others
      · subst first
        refine ⟨o, List.mem_cons_self, d, made, described, crossed, ?_⟩
        exact (transferAll_still _ t rest).grown.describe? (describe?_internDescribed s made.1 made.2)
      · have stillKnown : ∀ o ∈ rest, ∃ d, (s.internDescribed made.1 made.2).1.describe? o = some d :=
          fun o inRest => (later o inRest).imp fun _ before => grown.describe? before
        obtain ⟨o, inRest, e, result, after, fact⟩ := ih stillKnown others
        obtain ⟨e', before⟩ := later o inRest
        have same := grown.describe? before
        rw [after] at same
        exact ⟨o, List.mem_cons_of_mem _ inRest, e', result, before, Option.some.inj same ▸ fact⟩

theorem transferAll_complete {t : Transfer} {made : ContextId × Obj} (member : o ∈ os)
    (known : s.describe? o = some d) (crossed : t d.1 d.2 = some made) :
    ∃ o' ∈ (s.transferAll t os).2, (s.transferAll t os).1.describe? o' = some made := by
  induction os generalizing s with
  | nil => cases member
  | cons first rest ih =>
    cases described : s.describe? first with
    | none =>
      rw [transferAll_cons_unknown described]
      rcases List.mem_cons.mp member with same | later
      · subst same
        rw [known] at described
        cases described
      · exact ih later known
    | some e =>
      rw [transferAll_cons described]
      rcases List.mem_cons.mp member with same | later
      · subst same
        rw [known] at described
        cases described
        rw [crossed]
        exact ⟨_, List.mem_cons_self,
          (transferAll_still _ t rest).grown.describe? (describe?_internDescribed s made.1 made.2)⟩
      · cases t e.1 e.2 with
        | none => exact ih later known
        | some other =>
          have after := (internDescribed_quiet s other.1 other.2).grown.describe? known
          obtain ⟨o', inRest, fact⟩ := ih later after
          exact ⟨o', List.mem_cons_of_mem _ inRest, fact⟩

/-- A set has crossed an edge: `out` holds what its members have become, in the state `t`. -/
structure Crossed (p : Program) (s : State σ) (id : EdgeId) (label : FlowLabel) (set : ObjSet)
    (t : State σ) (out : ObjSet) : Prop extends s.Still t where
  origin : ∀ o' ∈ out, ∃ o ∈ set, ∃ d, s.crossing? p id label o = some d ∧ t.describe? o' = some d
  complete : ∀ o ∈ set, ∀ d, s.crossing? p id label o = some d → ∃ o' ∈ out, t.describe? o' = some d

theorem Crossed.of_subset {id : EdgeId} {label : FlowLabel} {set out : ObjSet}
    (known : s.Describes set) (through : ∀ o ∈ set, ∀ d, s.describe? o = some d →
      (o ∈ out ∧ s.crossing? p id label o = some d) ∨ (o ∉ out ∧ s.crossing? p id label o = none))
    (inside : ∀ o ∈ out, o ∈ set) : Crossed p s id label set s out where
  toStill := ⟨Quiet.refl s, rfl, rfl⟩
  origin := by
    intro o member
    obtain ⟨d, described⟩ := known o (inside o member)
    rcases through o (inside o member) d described with ⟨_, crosses⟩ | ⟨absent, _⟩
    · exact ⟨o, inside o member, d, crosses, described⟩
    · exact absurd member absent
  complete := by
    intro o member d crosses
    obtain ⟨e, described⟩ := known o member
    rcases through o member e described with ⟨passed, same⟩ | ⟨_, blocked⟩
    · rw [crosses] at same
      exact ⟨o, passed, (Option.some.inj same) ▸ described⟩
    · rw [crosses] at blocked
      cases blocked

theorem flowOver_crossed {id : EdgeId} {set : ObjSet} (edge : s.flow.edge? id = some e)
    (known : s.Describes set) :
    Crossed p s id e.label set (s.flowOver p id set).1 (s.flowOver p id set).2 := by
  unfold flowOver
  rw [edge, Option.map_some]
  -- only a transfer makes objects; every other label lets a part of the set through
  cases e.label with
  | cast ty =>
    refine Crossed.of_subset known ?_ fun o passed => (ObjSet.mem_filter.mp passed).1
    intro o member d described
    have object := Facts.obj?_of_describe? described
    by_cases fits : p.isSubtype d.2.ty ty = true
    · refine Or.inl ⟨ObjSet.mem_filter.mpr ⟨member, ?_⟩, by simp [Facts.crossing?, described, fits]⟩
      simp [Facts.objSatisfies, object, fits]
    · refine Or.inr ⟨?_, by simp [Facts.crossing?, described, fits]⟩
      intro passed
      have satisfied := (ObjSet.mem_filter.mp passed).2
      simp [Facts.objSatisfies, object] at satisfied
      exact fits satisfied
  | other info =>
    cases transfer : info.transfer with
    | none =>
      simp only [transfer]
      refine Crossed.of_subset known ?_ fun o passed => passed
      intro o member d described
      exact Or.inl ⟨member, by simp [Facts.crossing?, described, transfer]⟩
    | some t =>
      simp only [transfer]
      refine ⟨transferAll_still s t set.toList, ?_, ?_⟩
      · intro o' member
        obtain ⟨o, inside, d, made, described, crossed, fact⟩ :=
          transferAll_origin known (ObjSet.mem_ofList.mp member)
        exact ⟨o, inside, made, by simp [Facts.crossing?, described, transfer, crossed], fact⟩
      · intro o member made crosses
        obtain ⟨d, described⟩ := known o member
        simp only [Facts.crossing?, described, transfer, Option.bind_some] at crosses
        obtain ⟨o', inside, fact⟩ := transferAll_complete member described crosses
        exact ⟨o', ObjSet.mem_ofList.mpr inside, fact⟩
  | plain kind =>
    by_cases guarded : kind = .thisPassing
    · subst guarded
      refine Crossed.of_subset known ?_ fun o passed => (ObjSet.mem_filter.mp passed).1
      intro o member d described
      by_cases admitted : s.flow.admits id o = true
      · exact Or.inl ⟨ObjSet.mem_filter.mpr ⟨member, admitted⟩,
          by simp [Facts.crossing?, described, admitted]⟩
      · exact Or.inr ⟨fun passed => admitted (ObjSet.mem_filter.mp passed).2,
          by simp [Facts.crossing?, described, admitted]⟩
    · have whole : Crossed p s id (.plain kind) set s set := by
        refine Crossed.of_subset known ?_ fun o passed => passed
        intro o member d described
        refine Or.inl ⟨member, ?_⟩
        cases kind <;> first | exact absurd rfl guarded | simp [Facts.crossing?, described]
      cases kind <;> first | exact absurd rfl guarded | exact whole

theorem send_eq {id : EdgeId} {set : ObjSet} (edge : s.flow.edge? id = some e)
    (known : s.Describes set) :
    s.send p set id = (s.flowOver p id set).1.pushPoints e.target (s.flowOver p id set).2 := by
  have after : (s.flowOver p id set).1.flow.edge? id = some e := by
    rw [(flowOver_crossed (p := p) edge known).flow]
    exact edge
  unfold send
  dsimp only
  rw [after]

theorem send_missing {id : EdgeId} {set : ObjSet} (missing : s.flow.edge? id = none) : s.send p set id = s := by
  simp [send, flowOver, missing]

theorem send_safe (s : State σ) (id : EdgeId) (set : ObjSet)
    (known : s.Describes set) : s.Safe p (s.send p set id) := by
  cases edge : s.flow.edge? id with
  | none =>
    rw [send_missing edge]
    exact Safe.refl s
  | some e =>
    have crossed := flowOver_crossed (p := p) edge known
    rw [send_eq edge known]
    refine crossed.toStill.safe.trans (pushPoints_safe _ _ _ fun handles o member => ?_)
    obtain ⟨_, _, d, _, described⟩ := crossed.origin o member
    refine ⟨(handles.edges id e ?_).2, d, described⟩
    rw [crossed.flow]
    exact edge

theorem send_flow (s : State σ) (id : EdgeId) (set : ObjSet)
    (known : s.Describes set) : (s.send p set id).flow = s.flow := by
  cases edge : s.flow.edge? id with
  | none => rw [send_missing edge]
  | some e =>
    rw [send_eq edge known]
    exact (flowOver_crossed (p := p) edge known).flow

theorem send_carries {id : EdgeId} {set : ObjSet} (edge : s.flow.edge? id = some e)
    (known : s.Describes set) (member : o ∈ set) : (s.send p set id).Carries p id e o := by
  have crossed := flowOver_crossed (p := p) edge known
  have safe := send_safe (p := p) s id set known
  intro d crosses
  obtain ⟨_, described⟩ := known o member
  have admitted : (s.send p set id).flow.admits id o = true → s.flow.admits id o = true := by
    rw [send_flow s id set known]
    exact fun held => held
  rw [crossing?_eq_of_extends safe.grown described admitted] at crosses
  obtain ⟨o', passed, fact⟩ := crossed.complete o member d crosses
  rw [send_eq edge known]
  exact ⟨o', fact, Or.inr (Or.inl (pending_pushPoints_self passed))⟩

theorem foldl_send (ids : List EdgeId) {set : ObjSet} (known : s.Describes set) :
    s.Safe p (ids.foldl (fun s id => s.send p set id) s) ∧
      (ids.foldl (fun s id => s.send p set id) s).flow = s.flow ∧
      ∀ id ∈ ids, ∀ e, s.flow.edge? id = some e → ∀ o ∈ set,
        (ids.foldl (fun s id => s.send p set id) s).Carries p id e o := by
  induction ids generalizing s with
  | nil => exact ⟨Safe.refl s, rfl, fun _ member => absurd member List.not_mem_nil⟩
  | cons first rest ih =>
    have sent := send_safe (p := p) s first set known
    have flow := send_flow (p := p) s first set known
    have later : (s.send p set first).Describes set :=
      fun o member => (known o member).imp fun _ before => sent.grown.describe? before
    obtain ⟨safe, same, carried⟩ := ih later
    refine ⟨sent.trans safe, same.trans flow, ?_⟩
    intro id member e edge o inside
    have after : (s.send p set first).flow.edge? id = some e := by
      rw [flow]
      exact edge
    rcases List.mem_cons.mp member with equal | inRest
    · -- what was sent over the first edge stays delivered while the others are served
      subst equal
      obtain ⟨d, described⟩ := later o inside
      refine safe.toQuiet.carries described ?_ (send_carries edge known inside)
      rw [same]
      exact fun admitted => admitted
    · exact carried id inRest e after o inside

theorem sendAll_safe (s : State σ) (q : PointerId) (set : ObjSet)
    (known : s.Describes set) : s.Safe p (s.sendAll p q set) :=
  (foldl_send _ known).1

theorem sendAll_flow (s : State σ) (q : PointerId) (set : ObjSet)
    (known : s.Describes set) : (s.sendAll p q set).flow = s.flow :=
  (foldl_send _ known).2.1

theorem sendAll_carries {set : ObjSet} (known : s.Describes set) {id : EdgeId}
    (edge : s.flow.edge? id = some e) (source : e.source = q) (member : o ∈ set) :
    (s.sendAll p q set).Carries p id e o :=
  (foldl_send _ known).2.2 id (s.flow.agrees.mem_outEdges.mpr ⟨e, edge, source⟩) e edge o member

theorem send_quiet (s : State σ) (id : EdgeId) (set : ObjSet) : s.Quiet (s.send p set id) :=
  send_keeps (flowOver_keeps set (Quiet.refl s) fun _ _ _ _ _ _ _ _ _ _ quiet _ _ =>
    quiet.trans (internDescribed_quiet _ _ _)) fun _ _ _ quiet => quiet.trans (pushPoints_quiet _ _ _)

theorem Safe.of_handles (quiet : s.Quiet t) (safe : s.Handles → s.Safe p t) : s.Safe p t :=
  ⟨quiet, fun known => (safe known).handles known, fun known => (safe known).flows known⟩

/-- A new edge stands in the graph, and nothing has crossed it yet. -/
def pushEdge (s : State σ) (e : FlowEdge) : State σ := { s with flow := (s.flow.add e).1 }

theorem pushEdge_quiet (s : State σ) (e : FlowEdge) : s.Quiet (s.pushEdge e) :=
  { Quiet.refl s with
    grown := { Facts.Extends.refl s.toFacts with
      edges := fun _ _ known => EdgeStore.edge?_add_old known
      receivers := fun _ member => (FlowGraph.receivers_add s.flow e).symm ▸ member } }

theorem Handles.receivers_later (known : s.Handles) (grown : s.toFacts.Extends t.toFacts) {r : EdgeId × CsObjId}
    (member : r ∈ s.flow.receivers) : r.1 < t.flow.size := by
  have bound := known.receivers r member
  exact EdgeStore.edge?_lt (grown.edges r.1 _ (Array.getElem?_eq_getElem bound))

theorem Handles.pushEdge (known : s.Handles) (source : ∃ ptr, s.elements.pointer? e.source = some ptr)
    (target : ∃ ptr, s.elements.pointer? e.target = some ptr) : (s.pushEdge e).Handles := by
  refine (pushEdge_quiet s e).handles known (fun q o pending => Or.inl pending) ?_ ?_
  · intro id d edge
    rcases EdgeStore.edge?_add_inv edge with old | ⟨_, rfl⟩
    · exact Or.inl old
    · exact Or.inr ⟨source, target⟩
  · intro r member
    exact known.receivers_later (pushEdge_quiet s e).grown (FlowGraph.receivers_add s.flow e ▸ member)

theorem Flows.pushEdge (known : s.Handles) (flows : s.Flows p) (quiet : (s.pushEdge e).Quiet t)
    (flow : t.flow = (s.pushEdge e).flow) (carried : ∀ o, s.Holds e.source o → t.Carries p s.flow.size e o) :
    t.Flows p := by
  refine ((pushEdge_quiet s e).trans quiet).flows known flows fun id d o edge held => ?_
  rw [flow] at edge ⊢
  rcases EdgeStore.edge?_add_inv edge with old | ⟨rfl, rfl⟩
  · refine Or.inl ⟨old, fun admitted => ?_⟩
    rw [EdgeStore.admits_iff] at admitted ⊢
    exact FlowGraph.receivers_add s.flow e ▸ admitted
  · exact Or.inr (carried o held)

/-- What adding an edge comes to: a repetition sends again, if it sends at all, and a new edge
sends what its source holds. -/
theorem addFlow_cases (s : State σ) (e : FlowEdge) :
    (∃ id old, s.flow.edge? id = some old ∧ old.identity = e.identity ∧
        (s.addFlow p e = s ∨
          ∃ pts, s.elements.pts? e.source = some pts ∧ s.addFlow p e = s.send p pts id)) ∨
      ((s.pushEdge e).flow.edge? s.flow.size = some e ∧
        ((s.addFlow p e = s.pushEdge e ∧ ∀ o, ¬ s.Holds e.source o) ∨
          ∃ pts, s.elements.pts? e.source = some pts ∧
            s.addFlow p e = (s.pushEdge e).send p pts s.flow.size)) := by
  rcases FlowGraph.add_cases s.flow e with ⟨id, old, edge, same, added⟩ | ⟨added, pushed⟩
  · refine Or.inl ⟨id, old, edge, same, ?_⟩
    unfold addFlow
    rw [added]
    -- a repeated edge is served again only if it may carry another transfer
    by_cases other : e.kind = .other
    · cases found : s.elements.pts? e.source with
      | none => simp [other, found]
      | some pts => cases none : pts.isEmpty <;> simp [other, found, none]
    · simp [other]
  · refine Or.inr ⟨EdgeStore.edge?_push_new pushed, ?_⟩
    unfold addFlow
    dsimp only
    rw [added]
    cases found : s.elements.pts? e.source with
    | none =>
      refine Or.inl ⟨by simp [pushEdge], ?_⟩
      rintro o ⟨pts, held, _⟩
      rw [found] at held
      cases held
    | some pts =>
      cases none : pts.isEmpty with
      | false => exact Or.inr ⟨pts, rfl, by simp [none, pushEdge]⟩
      | true =>
        refine Or.inl ⟨by simp [none, pushEdge], ?_⟩
        rintro o ⟨set, held, member⟩
        rw [found] at held
        cases held
        exact ObjSet.isEmpty_iff.mp none o member

theorem addFlow_keeps {P : State σ → Prop} (start : P s) (added : P (s.pushEdge e))
    (sends : ∀ u id pts, P u → s.elements.pts? e.source = some pts → P (u.send p pts id)) :
    P (s.addFlow p e) := by
  rcases addFlow_cases (p := p) s e with
    ⟨id, _, _, _, same | ⟨pts, found, sent⟩⟩ | ⟨_, ⟨made, _⟩ | ⟨pts, found, sent⟩⟩
  · rw [same]
    exact start
  · rw [sent]
    exact sends s id pts start found
  · rw [made]
    exact added
  · rw [sent]
    exact sends _ _ pts added found

theorem addFlow_safe (s : State σ) (e : FlowEdge)
    (source : ∃ ptr, s.elements.pointer? e.source = some ptr)
    (target : ∃ ptr, s.elements.pointer? e.target = some ptr) : s.Safe p (s.addFlow p e) := by
  rcases addFlow_cases s e with ⟨id, _, _, _, unchanged | ⟨pts, found, sent⟩⟩ | ⟨edge, ⟨made, nothing⟩ |
    ⟨pts, found, made⟩⟩
  · rw [unchanged]
    exact Safe.refl s
  · rw [sent]
    refine Safe.of_handles (send_quiet s id pts) fun known => send_safe s id pts ?_
    exact fun o member => known.held e.source o ⟨pts, found, member⟩
  · rw [made]
    refine ⟨pushEdge_quiet s e, fun known => known.pushEdge source target, fun known flows => ?_⟩
    exact flows.pushEdge known (Quiet.refl _) rfl fun o held => absurd held (nothing o)
  · rw [made]
    have quiet := send_quiet (p := p) (s.pushEdge e) s.flow.size pts
    have held : s.Handles → (s.pushEdge e).Describes pts :=
      fun known o member => known.held e.source o ⟨pts, found, member⟩
    refine ⟨(pushEdge_quiet s e).trans quiet, fun known => ?_, fun known flows => ?_⟩
    · exact (send_safe _ _ _ (held known)).handles (known.pushEdge source target)
    · refine flows.pushEdge known quiet (send_flow _ _ _ (held known)) ?_
      rintro o ⟨set, found', member⟩
      rw [found] at found'
      cases found'
      exact send_carries edge (held known) member

theorem link_safe (s : State σ) (kind : FlowKind) (a b : Pointer) : s.Safe p (s.link p kind a b) := by
  have first := internPointer_safe (p := p) s a
  have second := internPointer_safe (p := p) (s.internPointer a).1 b
  refine (first.trans second).trans (addFlow_safe _ _ ?_ ?_)
  · exact ⟨a, second.grown.pointers _ _ (Elements.pointer?_internPointer_self s.elements a)⟩
  · exact ⟨b, Elements.pointer?_internPointer_self _ b⟩

/-- A receiver may cross an edge from now on. -/
def admitting (s : State σ) (id : EdgeId) (o : CsObjId) : State σ :=
  { s with flow := { s.flow with receivers := (id, o) :: s.flow.receivers } }

theorem passReceiver_eq (s : State σ) (base this : PointerId) (receiver : CsObjId) :
    ∃ id e, (s.pushEdge (FlowEdge.plain .thisPassing base this)).flow.edge? id = some e ∧
      e.Joins (.plain .thisPassing) base this ∧
      ((s.flow.admits id receiver = true ∧ s.passReceiver base this receiver =
          s.pushEdge (FlowEdge.plain .thisPassing base this)) ∨
        (s.flow.admits id receiver = false ∧ s.passReceiver base this receiver =
          ((s.pushEdge (FlowEdge.plain .thisPassing base this)).admitting id receiver).pushPoints this
            (ObjSet.singleton receiver))) := by
  obtain ⟨id, chosen, e, edge, joins⟩ := FlowGraph.thisPassing_edge s.flow base this
  have same : (s.flow.add (FlowEdge.plain .thisPassing base this)).1.admits id receiver =
      s.flow.admits id receiver := by
    unfold EdgeStore.admits
    rw [FlowGraph.receivers_add]
  refine ⟨id, e, edge, joins, ?_⟩
  unfold passReceiver
  dsimp only
  rw [chosen, ← same]
  rcases FlowGraph.allow_cases (s.flow.add (FlowEdge.plain .thisPassing base this)).1 id receiver with
    ⟨admitted, allowed⟩ | ⟨admitted, allowed⟩
  · exact Or.inl ⟨admitted, by simp [allowed, pushEdge]⟩
  · exact Or.inr ⟨admitted, by simp [allowed, pushEdge, admitting]⟩

theorem mem_receivers_passReceiver {this : PointerId} {id : EdgeId}
    (admitted : (s.passReceiver base this receiver).flow.admits id o = true) :
    s.flow.admits id o = true ∨ (o = receiver ∧
      (∃ e, (s.passReceiver base this receiver).flow.edge? id = some e ∧
        e.Joins (.plain .thisPassing) base this) ∧
      (s.passReceiver base this receiver).Pending this receiver) := by
  have before : ∀ {r}, r ∈ (s.pushEdge (FlowEdge.plain .thisPassing base this)).flow.receivers →
      s.flow.admits r.1 r.2 = true :=
    fun member => EdgeStore.admits_iff.mpr (FlowGraph.receivers_add s.flow _ ▸ member)
  obtain ⟨j, e, edge, joins, ⟨_, equal⟩ | ⟨_, equal⟩⟩ := passReceiver_eq s base this receiver
  · rw [equal] at admitted
    exact Or.inl (before (EdgeStore.admits_iff.mp admitted))
  · rw [equal] at admitted ⊢
    rcases List.mem_cons.mp (EdgeStore.admits_iff.mp admitted) with new | old
    · obtain ⟨rfl, rfl⟩ := Prod.mk.inj new
      exact Or.inr ⟨rfl, ⟨e, edge, joins⟩, pending_pushPoints_self (by simp)⟩
    · exact Or.inl (before old)

theorem passReceiver_keeps {P : State σ → Prop} {this : PointerId}
    (added : P (s.pushEdge (FlowEdge.plain .thisPassing base this)))
    (sent : ∀ id, P (((s.pushEdge (FlowEdge.plain .thisPassing base this)).admitting id receiver).pushPoints
      this (ObjSet.singleton receiver))) : P (s.passReceiver base this receiver) := by
  obtain ⟨id, _, _, _, ⟨_, equal⟩ | ⟨_, equal⟩⟩ := passReceiver_eq s base this receiver
  · rw [equal]
    exact added
  · rw [equal]
    exact sent id

theorem edge?_passReceiver (s : State σ) (base this : PointerId) (receiver : CsObjId) (id : EdgeId) :
    (s.passReceiver base this receiver).flow.edge? id =
      (s.flow.add (FlowEdge.plain .thisPassing base this)).1.edge? id :=
  passReceiver_keeps (P := fun t => t.flow.edge? id = _) rfl fun _ => rfl

theorem passReceiver_quiet (s : State σ) (base this : PointerId) (receiver : CsObjId) :
    s.Quiet (s.passReceiver base this receiver) := by
  have added := pushEdge_quiet s (FlowEdge.plain .thisPassing base this)
  refine passReceiver_keeps added fun _ => Quiet.trans ?_ (pushPoints_quiet _ _ _)
  exact { added with
    grown := { added.grown with
      receivers := fun r member => List.mem_cons_of_mem _ (added.grown.receivers r member) } }

theorem pending_passReceiver {this : PointerId} :
    (s.passReceiver base this receiver).Pending q o → s.Pending q o ∨ (q = this ∧ o = receiver) := by
  refine passReceiver_keeps (P := fun t => t.Pending q o → _) Or.inl fun _ pending => ?_
  rcases Worklist.pending_pushPoints.mp pending with before | ⟨same, member⟩
  · exact Or.inl before
  · exact Or.inr ⟨same, ObjSet.mem_singleton.mp member⟩

theorem passReceiver_safe (s : State σ) (base this : PointerId) (receiver : CsObjId)
    (source : ∃ ptr, s.elements.pointer? base = some ptr)
    (target : ∃ ptr, s.elements.pointer? this = some ptr)
    (described : ∃ d, s.describe? receiver = some d) :
    s.Safe p (s.passReceiver base this receiver) := by
  have quiet := passReceiver_quiet s base this receiver
  have later : ∀ {q}, (∃ ptr, s.elements.pointer? q = some ptr) →
      ∃ ptr, (s.passReceiver base this receiver).elements.pointer? q = some ptr :=
    fun known => known.imp fun _ before => quiet.grown.pointers _ _ before
  have meaning : ∃ d, (s.passReceiver base this receiver).describe? receiver = some d :=
    described.imp fun _ before => quiet.grown.describe? before
  refine ⟨quiet, fun known => ?_, fun known flows => ?_⟩
  · refine quiet.handles known ?_ ?_ ?_
    · intro q o pending
      rcases pending_passReceiver pending with before | ⟨rfl, rfl⟩
      · exact Or.inl before
      · exact Or.inr ⟨later target, meaning⟩
    · intro id e edge
      rw [edge?_passReceiver] at edge
      rcases EdgeStore.edge?_add_inv edge with old | ⟨_, rfl⟩
      · exact Or.inl old
      · exact Or.inr ⟨later source, later target⟩
    · rintro ⟨id, o⟩ member
      rcases mem_receivers_passReceiver (EdgeStore.admits_iff.mpr member) with old | ⟨_, ⟨_, edge, _⟩, _⟩
      · exact known.receivers_later quiet.grown (EdgeStore.admits_iff.mp old)
      · exact EdgeStore.edge?_lt edge
  · refine quiet.flows known flows fun id e o edge held => ?_
    by_cases admitted : (s.passReceiver base this receiver).flow.admits id o = true
    · rcases mem_receivers_passReceiver admitted with old | ⟨rfl, ⟨_, same, joins⟩, pending⟩
      · -- receivers of old stand at old edges only
        have bound := known.receivers _ (EdgeStore.admits_iff.mp old)
        rw [edge?_passReceiver] at edge
        rcases EdgeStore.edge?_add_inv edge with before | ⟨rfl, _⟩
        · exact Or.inl ⟨before, fun _ => old⟩
        · exact absurd bound (Nat.lt_irrefl _)
      · -- the receiver is admitted at this edge just now, and on its way to `this`
        rw [edge] at same
        cases same
        refine Or.inr fun d crosses => ⟨o, ?_, Or.inr (Or.inl (joins.target ▸ pending))⟩
        obtain ⟨d', known⟩ := meaning
        simp only [Facts.crossing?, joins.label, known, Option.bind_some,
          Option.ite_none_right_eq_some, Option.some.injEq] at crosses
        exact crosses.2 ▸ known
    · rw [edge?_passReceiver] at edge
      rcases EdgeStore.edge?_add_inv edge with before | ⟨rfl, rfl⟩
      · exact Or.inl ⟨before, fun now => absurd now admitted⟩
      · -- nothing that is not admitted crosses the new edge
        refine Or.inr fun d crosses => ?_
        cases known : (s.passReceiver base this receiver).describe? o with
        | none => simp [Facts.crossing?, known] at crosses
        | some d' => simp [Facts.crossing?, known, admitted] at crosses

end State

end PointsTo
