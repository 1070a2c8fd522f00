import PointsTo.Proofs.Closure

/-!
What becomes of commands. A command waits in the queue until it is carried out; from then on what it
asks for is due and what it links is linked, so that all of it is found when the run is over.
-/
namespace PointsTo

namespace Facts

variable {f g : Facts} {p : Program} {sel : Selector} {due due' : Fact → Prop}
  {carries carries' : FlowLabel → Cell → Cell → Prop}

/-- A command is served: the facts it asks for are due, and the cells it links carry over. -/
def Serves (f : Facts) (p : Program) (sel : Selector) (due : Fact → Prop)
    (carries : FlowLabel → Cell → Cell → Prop) : Command → Prop
  | .addPointsTo pointer objs => ∃ x, f.PointerRefIs pointer x ∧
      ∀ r ∈ objs, ∃ i, f.ObjRefIs r i ∧ due (.points x i)
  | .addEntryPoint entry => ∀ x, entry.Gives p x → due x
  | .addFlow label source target => ∃ x y, f.PointerRefIs source x ∧ f.PointerRefIs target y ∧
      carries label x y
  | .addCall kind context site callee none => ∃ c, f.FrameOf context c ∧
      due (.called kind c site (sel.calleeFrame p c site none callee) callee)
  | .addCall kind context site callee (some r) => ∃ c i, f.FrameOf context c ∧ f.ObjRefIs r i ∧
      due (.called kind c site (sel.calleeFrame p c site (some i) callee) callee) ∧
      ∀ this, p.this? callee = some this →
        due (.points (.var (sel.calleeFrame p c site (some i) callee) this) i)
  | .addFilter _ _ | .propagate _ => True

theorem Serves.mono {c : Command} (serves : f.Serves p sel due carries c) (grown : f.Extends g)
    (still : ∀ x, due x → due' x) (carried : ∀ label x y, carries label x y → carries' label x y) :
    g.Serves p sel due' carries' c := by
  cases c with
  | addPointsTo pointer objs =>
    obtain ⟨x, named, items⟩ := serves
    refine ⟨x, grown.pointerRefIs named, fun r member => ?_⟩
    obtain ⟨i, is, there⟩ := items r member
    exact ⟨i, grown.objRefIs is, still _ there⟩
  | addEntryPoint entry => exact fun x gives => still x (serves x gives)
  | addFlow label source target =>
    obtain ⟨x, y, from_, to_, linked⟩ := serves
    exact ⟨x, y, grown.pointerRefIs from_, grown.pointerRefIs to_, carried label x y linked⟩
  | addCall kind context site callee receiver =>
    cases receiver with
    | none =>
      obtain ⟨c, named, called⟩ := serves
      exact ⟨c, grown.frameOf named, still _ called⟩
    | some r =>
      obtain ⟨c, i, named, is, called, receives⟩ := serves
      exact ⟨c, i, grown.frameOf named, grown.objRefIs is, still _ called,
        fun this this? => still _ (receives this this?)⟩
  | addFilter pointer keep => trivial
  | propagate pointer => trivial

/-- Found, unless it is about an object that need not be kept. -/
def Brings (f : Facts) (keep : Obj → Prop) (x : Fact) : Prop := (∀ i ∈ x.held?, keep i.obj) → f.Found x

/-- What flows is kept over an edge that is there. -/
structure Carries (f : Facts) (keep : Obj → Prop) (label : FlowLabel) (x y : Cell) : Prop where
  linked : f.Linked label x y
  flows : label.isOpen = true → ∀ i, keep i.obj → f.Found (.points x i) → f.Found (.points y i)

/-- What a command asks for is found and what it links flows, as far as objects are to be kept. -/
def Answers (f : Facts) (keep : Obj → Prop) (p : Program) (sel : Selector) (c : Command) : Prop :=
  f.Serves p sel (f.Brings keep) (f.Carries keep) c

end Facts

namespace State

variable {σ : Type u} {cx : Setup σ} {R : Regime cx} {s t : State σ} {c : Command}

def Served (cx : Setup σ) (s : State σ) (c : Command) : Prop :=
  s.Serves cx.program cx.selector s.Due s.Linked c

theorem Keeps.served (keeps : s.Keeps t) (served : s.Served cx c) : t.Served cx c :=
  Facts.Serves.mono served keeps.grown (fun _ due => keeps.due due) fun _ _ _ => keeps.grown.linked

theorem Served.due (served : s.Served cx c) {x : Fact} (asks : s.Asks cx.program c x) : s.Due x := by
  cases c with
  | addPointsTo pointer objs =>
    cases x with
    | points y i =>
      obtain ⟨named, r, member, is⟩ := asks
      obtain ⟨y', named', items⟩ := served
      obtain ⟨i', is', due⟩ := items r member
      rw [named.unique named', is.unique is']
      exact due
    | _ => exact asks.elim
  | addEntryPoint entry => exact served x asks
  | _ => exact asks.elim

theorem Lawful.serve (lawful : s.Lawful R)
    (permitted : s.Permits cx.program cx.selector R.law c) :
    (s.apply cx c).Served cx c := by
  have grown := (lawful.apply permitted).2.1.grown
  cases c with
  | addPointsTo pointer objs =>
    obtain ⟨x, named, items, _⟩ := id permitted
    refine ⟨x, grown.pointerRefIs named, fun r member => ?_⟩
    obtain ⟨i, is, _⟩ := items r member
    exact ⟨i, grown.objRefIs is, (lawful.addPointsTo permitted).2 (.points x i) ⟨named, r, member, is⟩⟩
  | addEntryPoint entry => exact (lawful.enter permitted).2.2
  | addFlow label source target =>
    obtain ⟨x, y, from_, to_, _⟩ := id permitted
    exact ⟨x, y, grown.pointerRefIs from_, grown.pointerRefIs to_,
      (lawful.addFlowRef permitted).2 x y from_ to_⟩
  | addCall kind context site callee receiver =>
    cases receiver with
    | none =>
      obtain ⟨c, named, interned, inLaw⟩ := permitted
      obtain ⟨_, _, _, due⟩ := lawful.callTo named (lives_of_interned R.law interned)
        (show s.ReceiverIs none none from trivial) inLaw
      exact ⟨c, grown.frameOf named, due⟩
    | some r =>
      obtain ⟨c, i, named, interned, is, inLaw, receives⟩ := permitted
      have resolved := (resolveObj_still s r).grown
      obtain ⟨lawful₁, item⟩ := lawful.resolveObj is
      obtain ⟨_, called, there⟩ := lawful₁.addCall (resolved.frameOf named) (resolved.interned interned)
        item inLaw receives
      exact ⟨c, i, grown.frameOf named, grown.objRefIs is, called, there⟩
  | addFilter pointer keep => trivial
  | propagate pointer => trivial

theorem Sifts.answers {keep : Obj → Prop} (sifts : s.Sifts R keep) (served : s.Served cx c) :
    s.Answers keep cx.program cx.selector c :=
  Facts.Serves.mono served (Facts.Extends.refl _) (fun _ due => sifts.found due)
    fun _ _ _ linked => ⟨linked, fun opens _ kept found => sifts.linked linked opens found kept⟩

end State

theorem Solver.Step.served {σ : Type u} {cx : Setup σ} {R : Regime cx} {policy : Policy} {s t : State σ}
    (step : Step cx policy s t) (lawful : s.Lawful R) {c : Command} (queued : c ∈ s.queue) :
    c ∈ t.queue ∨ t.Served cx c := by
  rcases step.carried lawful queued with waits | ⟨rest, queue, rfl⟩
  · exact Or.inl waits
  · exact Or.inr ((lawful.popping queue).serve (lawful.permitted queue))

end PointsTo
