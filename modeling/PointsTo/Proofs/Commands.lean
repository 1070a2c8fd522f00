import PointsTo.Proofs.Progress

/-!
Commands that the law permits keep states lawful, and what they ask for is due from then on.
-/
namespace PointsTo

namespace Facts

variable {f : Facts}

theorem ObjRefIs.unique {r : ObjRef} {i j : Item} (first : f.ObjRefIs r i) (second : f.ObjRefIs r j) :
    i = j := by
  cases r with
  | interned o => exact ItemOf.unique first second
  | described c o => exact first.2.trans second.2.symm

theorem PointerRefIs.unique {r : PointerRef} {x y : Cell} (first : f.PointerRefIs r x)
    (second : f.PointerRefIs r y) : x = y := by
  cases r <;> cases x <;> first | exact first.elim | skip
  all_goals cases y <;> first | exact second.elim | skip
  · rw [← first.2, ← second.2, first.1.unique second.1]
  · rw [← first.2, ← second.2, first.1.unique second.1]
  · rw [ObjRefIs.unique first second]
  · rw [← show _ = _ from first, ← show _ = _ from second]

end Facts

namespace State

variable {σ : Type u} {cx : Setup σ} {R : Regime cx} {s t : State σ} {i : Item} {x : Cell} {o : Obj}
  {m : MethodId}

theorem Lawful.resolveObj (lawful : s.Lawful R) {r : ObjRef} (named : s.ObjRefIs r i) :
    (s.resolveObj r).1.Lawful R ∧ (s.resolveObj r).1.ItemOf (s.resolveObj r).2 i := by
  cases r with
  | interned o => exact ⟨lawful, named⟩
  | described c o =>
    obtain ⟨frame, rfl⟩ := named
    exact ⟨lawful.internDescribed o frame, itemOf_internDescribed o frame⟩

theorem Lawful.resolveObjs (lawful : s.Lawful R) {rs : List ObjRef}
    (named : ∀ r ∈ rs, ∃ i, s.ObjRefIs r i) :
    (s.resolveObjs rs).1.Lawful R ∧
      (∀ o ∈ (s.resolveObjs rs).2, ∃ r ∈ rs, ∀ i, s.ObjRefIs r i → (s.resolveObjs rs).1.ItemOf o i) ∧
      ∀ r ∈ rs, ∃ o ∈ (s.resolveObjs rs).2, ∀ i, s.ObjRefIs r i → (s.resolveObjs rs).1.ItemOf o i := by
  induction rs generalizing s with
  | nil => exact ⟨lawful, fun _ member => absurd member List.not_mem_nil,
      fun _ member => absurd member List.not_mem_nil⟩
  | cons r rest ih =>
    have first := resolveObj_still s r
    have later := resolveObjs_still (s.resolveObj r).1 rest
    obtain ⟨i, is⟩ := named r List.mem_cons_self
    have head : ∀ i, s.ObjRefIs r i →
        ((s.resolveObj r).1.resolveObjs rest).1.ItemOf (s.resolveObj r).2 i :=
      fun i is => later.grown.itemOf (lawful.resolveObj is).2
    obtain ⟨lawful', from_, to_⟩ := ih (lawful.resolveObj is).1 fun r' member =>
      (named r' (List.mem_cons_of_mem _ member)).imp fun _ known => first.grown.objRefIs known
    refine ⟨lawful', fun o member => ?_, fun r' member => ?_⟩
    · rcases List.mem_cons.mp member with rfl | others
      · exact ⟨r, List.mem_cons_self, head⟩
      · obtain ⟨r', inside, known⟩ := from_ o others
        exact ⟨r', List.mem_cons_of_mem _ inside, fun i is => known i (first.grown.objRefIs is)⟩
    · rcases List.mem_cons.mp member with rfl | others
      · exact ⟨_, List.mem_cons_self, head⟩
      · obtain ⟨o, inside, known⟩ := to_ r' others
        exact ⟨o, List.mem_cons_of_mem _ inside, fun i is => known i (first.grown.objRefIs is)⟩

theorem Lawful.resolvePointer (lawful : s.Lawful R) {r : PointerRef} (named : s.PointerRefIs r x)
    (placed : ∀ c v, r = .var c v → ∀ m, cx.program.Mentions m v → s.Placed R.law c m) :
    (s.resolvePointer r).1.Lawful R ∧ (s.resolvePointer r).1.CellOf (s.resolvePointer r).2 x := by
  cases r with
  | interned q => exact named.elim
  | var c v =>
    cases x with
    | var frame w =>
      have is : s.PointerIs (.var c v) (.var frame w) := named
      exact ⟨lawful.internPointer is fun _ _ same => by cases same; exact placed c v rfl,
        cellOf_internPointer is⟩
    | _ => exact named.elim
  | static f =>
    cases x with
    | static g =>
      have is : s.PointerIs (.static f) (.static g) := named
      exact ⟨lawful.internPointer is nofun, cellOf_internPointer is⟩
    | _ => exact named.elim
  | field base f =>
    cases x with
    | field i g =>
      obtain ⟨lawful', item⟩ := lawful.resolveObj named.1
      have is : (s.resolveObj base).1.PointerIs (.field (s.resolveObj base).2 f) (.field i g) :=
        ⟨item, named.2⟩
      exact ⟨lawful'.internPointer is nofun, cellOf_internPointer is⟩
    | _ => exact named.elim
  | element array =>
    cases x with
    | element i =>
      obtain ⟨lawful', item⟩ := lawful.resolveObj (r := array) named
      have is : (s.resolveObj array).1.PointerIs (.element (s.resolveObj array).2) (.element i) := item
      exact ⟨lawful'.internPointer is nofun, cellOf_internPointer is⟩
    | _ => exact named.elim

theorem Lawful.pushResolved (lawful : s.Lawful R) {q : PointerId} (rs : List ObjRef) (cell : s.CellOf q x)
    (items : ∀ r ∈ rs, ∃ i, s.ObjRefIs r i ∧ R.law.holds (.points x i) ∧
      (s.Ready cx.program q ∨ R.law.injected (.points x i))) :
    let t := (s.resolveObjs rs).1.pushPoints q (ObjSet.ofList (s.resolveObjs rs).2)
    t.Lawful R ∧ ∀ r ∈ rs, ∀ i, s.ObjRefIs r i → t.Due (.points x i) := by
  have quiet := (resolveObjs_still s rs).toQuiet
  obtain ⟨lawful', from_, to_⟩ := lawful.resolveObjs fun r member =>
    (items r member).imp fun _ known => known.1
  have cell' := quiet.grown.cellOf cell
  refine ⟨lawful'.pushPoints fun o member => ?_, fun r member i is => ?_⟩
  · obtain ⟨r, inside, known⟩ := from_ o (ObjSet.mem_ofList.mp member)
    obtain ⟨i, is, inLaw, place⟩ := items r inside
    obtain ⟨ptr, found, _⟩ := cell
    exact ⟨x, i, cell', known i is, inLaw, place.imp_left (quiet.grows.ready found)⟩
  · obtain ⟨o, inside, known⟩ := to_ r member
    exact pushPoints_due cell' (known i is) (ObjSet.mem_ofList.mpr inside)

theorem Lawful.seedAt (lawful : s.Lawful R) {ptr : Pointer} (o : Obj) (meets : s.Meets cx.program R.law ptr x)
    (inLaw : R.law.holds (.points x ⟨[], o⟩)) :
    ((s.internPointer ptr).1.seed (s.internPointer ptr).2 o).Lawful R ∧
      ((s.internPointer ptr).1.seed (s.internPointer ptr).2 o).Due (.points x ⟨[], o⟩) := by
  have met := internPointer_quiet s ptr
  have lawful₁ := lawful.meet meets
  have cell := cellOf_internPointer meets.named
  have place : (s.internPointer ptr).1.elements.pointer? (s.internPointer ptr).2 = some ptr :=
    Elements.pointer?_internPointer_self _ _
  have ready := (met.grows.meets meets).ready place
  generalize s.internPointer ptr = r at lawful₁ cell ready place ⊢
  obtain ⟨s₁, q⟩ := r
  dsimp only at lawful₁ cell ready place ⊢
  have made := internDescribed_quiet s₁ ContextTable.emptyId o
  have item := itemOf_internDescribed o s₁.frameOf_empty
  have cell' := made.grown.cellOf cell
  unfold State.seed
  dsimp only
  refine ⟨(lawful₁.internDescribed o s₁.frameOf_empty).pushPoints fun o' member => ?_, ?_⟩
  · cases ObjSet.mem_singleton.mp member
    exact ⟨x, _, cell', item, inLaw, Or.inl (made.grows.ready place ready)⟩
  · exact pushPoints_due cell' item (ObjSet.mem_singleton.mpr rfl)

variable {entry : EntryPoint} {body : Body}

section

variable (lawful : s.Lawful R) (code : cx.program.body? entry.method = some body)
  (interned : s.Interned ContextTable.emptyId entry.method)
  (inLaw : ∀ x, entry.Gives cx.program x → R.law.holds x)

include lawful code interned inLaw

theorem Lawful.seedThis :
    (s.seedThis body entry.thisObjs).Lawful R ∧ ∀ this o, body.this = some this →
      o ∈ entry.thisObjs → (s.seedThis body entry.thisObjs).Due (.points (.var [] this) ⟨[], o⟩) := by
  unfold State.seedThis
  split
  · next none => exact ⟨lawful, fun this o some => by rw [none] at some; cases some⟩
  · next this receives =>
    have mentions : cx.program.Mentions entry.method this :=
      Program.mentions_this (by simp [Program.this?, code, receives])
    have meets := meets_var R.declared s.frameOf_empty mentions (lives_of_interned R.law interned)
    have met := internPointer_quiet s (.var ContextTable.emptyId this)
    have ready := (met.grows.meets meets).ready (Elements.pointer?_internPointer_self _ _)
    have plain : ∀ o, (s.internPointer (.var ContextTable.emptyId this)).1.ObjRefIs (.plain o) ⟨[], o⟩ :=
      fun o => ⟨Facts.frameOf_empty _, rfl⟩
    obtain ⟨lawful', due⟩ := (lawful.meet meets).pushResolved (entry.thisObjs.map ObjRef.plain)
      (cellOf_internPointer meets.named) fun r member => by
        obtain ⟨o, given, rfl⟩ := List.mem_map.mp member
        exact ⟨_, plain o, inLaw _ (.this code receives given), Or.inl ready⟩
    refine ⟨lawful', fun this' o receives' given => ?_⟩
    cases Option.some.inj (receives.symm.trans receives')
    exact due _ (List.mem_map.mpr ⟨o, given, rfl⟩) _ (plain o)

theorem Lawful.seedParam {i : Nat} (given : (i, o) ∈ entry.params) :
    (s.seedParam body i o).Lawful R ∧ ∀ param, body.params[i]? = some param →
      (s.seedParam body i o).Due (.points (.var [] param) ⟨[], o⟩) := by
  unfold State.seedParam
  split
  · next none => exact ⟨lawful, fun param some => by rw [none] at some; cases some⟩
  · next param place =>
    have meets := meets_var R.declared s.frameOf_empty
      (Program.mentions_param code (List.mem_of_getElem? place)) (lives_of_interned R.law interned)
    obtain ⟨lawful', due⟩ := lawful.seedAt o meets (inLaw _ (.param code place given))
    refine ⟨lawful', fun param' place' => ?_⟩
    cases Option.some.inj (place.symm.trans place')
    exact due

end

theorem Lawful.seedField (lawful : s.Lawful R) {base : Obj} {f : FieldId}
    (inLaw : R.law.holds (.points (.field ⟨[], base⟩ f) ⟨[], o⟩)) :
    (s.seedField base f o).Lawful R ∧
      (s.seedField base f o).Due (.points (.field ⟨[], base⟩ f) ⟨[], o⟩) :=
  (lawful.internDescribed base s.frameOf_empty).seedAt o
    (meets_field (itemOf_internDescribed base s.frameOf_empty) f) inLaw

theorem Lawful.seedElement (lawful : s.Lawful R) {array : Obj}
    (inLaw : R.law.holds (.points (.element ⟨[], array⟩) ⟨[], o⟩)) :
    (s.seedElement array o).Lawful R ∧
      (s.seedElement array o).Due (.points (.element ⟨[], array⟩) ⟨[], o⟩) :=
  (lawful.internDescribed array s.frameOf_empty).seedAt o
    (meets_element (itemOf_internDescribed array s.frameOf_empty)) inLaw

theorem foldl_due {α : Type v} {f : State σ → α → State σ} (owes : α → Fact → Prop) (items : List α)
    (lawful : s.Lawful R)
    (step : ∀ t : State σ, t.Lawful R → s.Quiet t → ∀ a ∈ items,
      (f t a).Lawful R ∧ t.Quiet (f t a) ∧ ∀ x, owes a x → (f t a).Due x) :
    (items.foldl f s).Lawful R ∧ s.Quiet (items.foldl f s) ∧
      ∀ a ∈ items, ∀ x, owes a x → (items.foldl f s).Due x := by
  have all := foldl_done (f := f) (fun t => t.Lawful R ∧ s.Quiet t)
    (fun t a => ∀ x, owes a x → t.Due x) items ?_
    (fun _ _ _ keeps done x owed => keeps.due (done x owed)) ⟨lawful, Quiet.refl s⟩
  · exact ⟨all.1.1, all.1.2, all.2.2⟩
  · rintro t ⟨lawful', quiet⟩ a member
    obtain ⟨lawful'', stepped, due⟩ := step t lawful' quiet a member
    exact ⟨⟨lawful'', quiet.trans stepped⟩, stepped.keeps, due⟩

theorem Lawful.seedAll (lawful : s.Lawful R) (code : cx.program.body? entry.method = some body)
    (interned : s.Interned ContextTable.emptyId entry.method)
    (inLaw : ∀ x, entry.Gives cx.program x → R.law.holds x) :
    (s.seedAll body entry).Lawful R ∧ s.Quiet (s.seedAll body entry) ∧
      ∀ x, entry.Gives cx.program x → x = .reached [] entry.method ∨ (s.seedAll body entry).Due x := by
  unfold State.seedAll
  have quiet₁ := (seedThis_safe (p := cx.program) s body entry.thisObjs).toQuiet
  obtain ⟨lawful₁, this⟩ := lawful.seedThis code interned inLaw
  generalize s.seedThis body entry.thisObjs = s₁ at quiet₁ lawful₁ this ⊢
  obtain ⟨lawful₂, quiet₂, params⟩ := foldl_due (f := fun t (a : Nat × Obj) => t.seedParam body a.1 a.2)
    (fun a x => ∃ param, body.params[a.1]? = some param ∧ x = .points (.var [] param) ⟨[], a.2⟩)
    entry.params lawful₁ fun t lawful' quiet a given => by
      obtain ⟨lawful'', due⟩ := lawful'.seedParam code
        ((quiet₁.trans quiet).grown.interned interned) inLaw given
      refine ⟨lawful'', (seedParam_safe (p := cx.program) t body a.1 a.2).toQuiet, ?_⟩
      rintro x ⟨param, place, rfl⟩
      exact due param place
  obtain ⟨lawful₃, quiet₃, fields⟩ := foldl_due
    (f := fun t (a : Obj × FieldId × Obj) => t.seedField a.1 a.2.1 a.2.2)
    (fun a x => x = .points (.field ⟨[], a.1⟩ a.2.1) ⟨[], a.2.2⟩)
    entry.fields lawful₂ fun t lawful' _ a given => by
      obtain ⟨lawful'', due⟩ := lawful'.seedField (inLaw _ (.field code given))
      refine ⟨lawful'', Safe.toQuiet (p := cx.program)
        ((internDescribed_safe t _ _).trans (seedAt_safe _ _ _)), ?_⟩
      rintro x rfl
      exact due
  obtain ⟨lawful₄, quiet₄, elements⟩ := foldl_due
    (f := fun t (a : Obj × Obj) => t.seedElement a.1 a.2)
    (fun a x => x = .points (.element ⟨[], a.1⟩) ⟨[], a.2⟩)
    entry.elements lawful₃ fun t lawful' _ a given => by
      obtain ⟨lawful'', due⟩ := lawful'.seedElement (inLaw _ (.element code given))
      refine ⟨lawful'', Safe.toQuiet (p := cx.program)
        ((internDescribed_safe t _ _).trans (seedAt_safe _ _ _)), ?_⟩
      rintro x rfl
      exact due
  -- what an earlier fold put on its way is still due after the later ones
  refine ⟨lawful₄, ((quiet₁.trans quiet₂).trans quiet₃).trans quiet₄, fun x gives => ?_⟩
  cases gives with
  | reached => exact Or.inl rfl
  | this code' receives given =>
    cases Option.some.inj (code.symm.trans code')
    exact Or.inr (((quiet₂.trans quiet₃).trans quiet₄).keeps.due (this _ _ receives given))
  | param code' place given =>
    cases Option.some.inj (code.symm.trans code')
    exact Or.inr ((quiet₃.trans quiet₄).keeps.due (params _ given _ ⟨_, place, rfl⟩))
  | field _ given => exact Or.inr (quiet₄.keeps.due (fields _ given _ rfl))
  | element _ given => exact Or.inr (elements _ given _ rfl)

theorem noting_keeps (s : State σ) (m : MethodId) : s.Keeps (s.noting m) := by
  have grown := (internMethod_grown s ContextTable.emptyId m).trans
    (Facts.extends_addEntry (s.internMethod ContextTable.emptyId m).1.toFacts
      (s.internMethod ContextTable.emptyId m).2)
  exact ⟨⟨grown, fun _ member => member⟩, fun _ _ there => there,
    fun e there => there.imp_left (grown.calls e)⟩

theorem calls_noting (m : MethodId) : (s.noting m).calls.reachable = s.calls.reachable ∧
    (s.noting m).calls.edges = s.calls.edges := by
  unfold noting
  rcases CallGraph.addEntry_cases s.calls (s.internMethod ContextTable.emptyId m).2 with
    ⟨_, equal⟩ | ⟨_, equal⟩ <;> rw [equal] <;> exact ⟨rfl, rfl⟩

theorem mem_noting {id : CsMethodId} : id ∈ (s.noting m).calls.entries ↔
    id ∈ s.calls.entries ∨ id = (s.internMethod ContextTable.emptyId m).2 := by
  unfold noting
  rcases CallGraph.addEntry_cases s.calls (s.internMethod ContextTable.emptyId m).2 with
    ⟨before, equal⟩ | ⟨_, equal⟩
  · rw [equal]
    exact ⟨Or.inl, fun known => known.elim (fun old => old) fun same => same ▸ before⟩
  · rw [equal]
    simp

theorem Lawful.noting (lawful : s.Lawful R) (inLaw : R.law.holds (.reached [] m)) : (s.noting m).Lawful R := by
  refine (lawful.internMethod s.frameOf_empty inLaw).grow ⟨Facts.extends_addEntry _ _,
    fun _ member => member⟩ rfl (fun _ => rfl) rfl fun x has => ?_
  cases x with
  | reachable id =>
    rw [Has, (calls_noting m).1] at has
    exact Or.inl has
  | call e =>
    rw [Has, (calls_noting m).2] at has
    exact Or.inl has
  | start id =>
    rcases mem_noting.mp has with old | rfl
    · exact Or.inl old
    · exact Or.inr ⟨m, Table.get?_intern_self _ _⟩
  | _ => exact Or.inl has

theorem Lawful.start (lawful : s.Lawful R) (inLaw : R.law.holds (.reached [] m)) :
    let t := (s.noting m).reach cx (s.internMethod ContextTable.emptyId m).2
    t.Lawful R ∧ s.Proceeds R t ∧ t.Interned ContextTable.emptyId m ∧ t.Due (.reached [] m) := by
  have noted := noting_keeps s m
  have known : (s.noting m).elements.method? (s.internMethod ContextTable.emptyId m).2 =
      some (ContextTable.emptyId, m) := Table.get?_intern_self _ _
  obtain ⟨lawful', proceeds, reachable⟩ := (lawful.noting inLaw).reach known
  have known' := proceeds.grown.methods _ _ known
  refine ⟨lawful', ⟨noted.trans proceeds.toKeeps, fun x settled => ?_, fun id awaited => ?_, ?_,
    proceeds.queue, fun id there => ?_⟩, ⟨_, known'⟩, _, ⟨_, known', Facts.frameOf_empty _⟩, reachable⟩
  · rcases proceeds.settled x settled with before | paid
    · cases x with
      | held q o => exact Or.inl before
      | reached id =>
        rw [Settled, (calls_noting m).1] at before
        exact Or.inl before
      | recorded e =>
        rw [Settled, (calls_noting m).2] at before
        exact Or.inl before
    · exact Or.inr paid
  · exact proceeds.awaits id (awaited.imp_left fun old => (calls_noting m).1.symm ▸ old)
  · intro id x found
    rcases proceeds.fresh id x found with before | awaited
    · rcases Table.get?_intern_inv before with old | ⟨_, rfl⟩
      · exact Or.inl old
      · -- the one method that noting makes known is reached at once, so it need not be called
        exact Or.inr (Or.inl reachable)
    · exact Or.inr awaited
  · exact (proceeds.told id there).imp_left fun before => (calls_noting m).1 ▸ before

theorem Lawful.enter (lawful : s.Lawful R) (inLaw : ∀ x, entry.Gives cx.program x → R.law.holds x) :
    (s.enter cx entry).Lawful R ∧ s.Proceeds R (s.enter cx entry) ∧
      ∀ x, entry.Gives cx.program x → (s.enter cx entry).Due x := by
  obtain ⟨lawful₁, proceeds, interned, reached⟩ := lawful.start (inLaw _ .reached)
  cases code : cx.program.body? entry.method with
  | none =>
    rw [enter_bare s code]
    refine ⟨lawful₁, proceeds, fun x gives => ?_⟩
    cases gives with
    | reached => exact reached
    | _ code' =>
      rw [code] at code'
      cases code'
  | some body =>
    rw [enter_body s code]
    obtain ⟨lawful₂, quiet, due⟩ := lawful₁.seedAll code interned inLaw
    refine ⟨lawful₂, proceeds.trans lawful₁ quiet.proceeds, fun x gives => ?_⟩
    rcases due x gives with rfl | there
    · exact quiet.keeps.due reached
    · exact there

theorem Lawful.addCall (lawful : s.Lawful R) {kind : CallKind} {context : ContextId} {c : Frame} {site : StmtRef}
    {callee : MethodId} {o : CsObjId} (named : s.FrameOf context c) (interned : s.Interned context site.method)
    (item : s.ItemOf o i)
    (inLaw : R.law.holds (.called kind c site (cx.selector.calleeFrame cx.program c site (some i) callee) callee))
    (receives : ∀ this, cx.program.this? callee = some this → R.law.holds
      (.points (.var (cx.selector.calleeFrame cx.program c site (some i) callee) this) i)) :
    let t := s.addCall cx kind context site callee (some o)
    t.Lawful R ∧
      t.Due (.called kind c site (cx.selector.calleeFrame cx.program c site (some i) callee) callee) ∧
      ∀ this, cx.program.this? callee = some this →
        t.Due (.points (.var (cx.selector.calleeFrame cx.program c site (some i) callee) this) i) := by
  obtain ⟨h, id, entry, _, receiver⟩ := receiverIs_of_itemOf item
  obtain ⟨lawful₁, frame, known, due⟩ :=
    lawful.callTo named (lives_of_interned R.law interned) receiver inLaw
  have quiet := callTo_quiet s cx kind context site (some ⟨h, id⟩) callee
  unfold State.addCall
  simp only [Option.bind_some, entry, Option.map_some]
  generalize s.callTo cx kind context site (some ⟨h, id⟩) callee = r
    at lawful₁ frame known due quiet ⊢
  obtain ⟨s₁, d⟩ := r
  dsimp only at lawful₁ frame known due quiet ⊢
  split
  · next o' this same this? =>
    cases same
    obtain ⟨lawful₂, there⟩ := lawful₁.place (meets_var R.declared frame (Program.mentions_this this?)
      (lives_of_interned R.law known)) (quiet.grown.itemOf item) (receives this this?)
    have placed := (internPointer_quiet s₁ (.var d this)).trans
      (pushPoints_quiet _ (s₁.internPointer (.var d this)).2 (ObjSet.singleton o))
    refine ⟨lawful₂, placed.keeps.due due, fun this' this?' => ?_⟩
    cases Option.some.inj (this?.symm.trans this?')
    exact there
  · next missing => exact ⟨lawful₁, due, fun this this? => absurd this? (missing o this rfl)⟩

end State

def Facts.Asks (f : Facts) (p : Program) : Command → Fact → Prop
  | .addPointsTo pointer objs, .points x i => f.PointerRefIs pointer x ∧ ∃ r ∈ objs, f.ObjRefIs r i
  | .addEntryPoint entry, x => entry.Gives p x
  | _, _ => False

theorem Facts.Extends.asks {f g : Facts} (grown : f.Extends g) {p : Program} {c : Command} {x : Fact}
    (asked : f.Asks p c x) : g.Asks p c x := by
  cases c with
  | addPointsTo pointer objs =>
    cases x with
    | points x i =>
      obtain ⟨named, r, member, is⟩ := asked
      exact ⟨grown.pointerRefIs named, r, member, grown.objRefIs is⟩
    | _ => exact asked.elim
  | addEntryPoint entry => exact asked
  | _ => exact asked.elim

namespace State

variable {σ : Type u} {cx : Setup σ} {R : Regime cx} {s t : State σ} {x y : Cell} {e : FlowEdge}

theorem ready_of_pointerRef {r : PointerRef} (named : s.PointerRefIs r x)
    (known : ∀ c v, r = .var c v → ∀ m, cx.program.Mentions m v → s.Interned c m) :
    (s.resolvePointer r).1.Ready cx.program (s.resolvePointer r).2 := by
  intro c v found m mentions
  have place : ∀ (t : State σ) ptr,
      (t.internPointer ptr).1.elements.pointer? (t.internPointer ptr).2 = some ptr :=
    fun t ptr => Elements.pointer?_internPointer_self _ _
  cases r with
  | interned q => exact named.elim
  | var context w =>
    cases Option.some.inj ((place s _).symm.trans found)
    exact Or.inl ((internPointer_quiet s _).grown.interned (known c v rfl m mentions))
  | static f => cases Option.some.inj ((place s _).symm.trans found)
  | field base f | element array => cases Option.some.inj ((place _ _).symm.trans found)

theorem Lawful.addPointsTo (lawful : s.Lawful R) {pointer : PointerRef} {objs : List ObjRef}
    (permitted : s.Permits cx.program cx.selector R.law (.addPointsTo pointer objs)) :
    (s.apply cx (.addPointsTo pointer objs)).Lawful R ∧
      ∀ x, s.Asks cx.program (.addPointsTo pointer objs) x →
        (s.apply cx (.addPointsTo pointer objs)).Due x := by
  obtain ⟨x, named, items, places⟩ := permitted
  have grown := (resolvePointer_still s pointer).grown
  -- either the method of a variable is known, or all that is put there was injected
  have place : (∀ c v, pointer = .var c v → ∀ m, cx.program.Mentions m v → s.Interned c m) ∨
      ∀ r ∈ objs, ∃ i, s.ObjRefIs r i ∧ R.law.injected (.points x i) := by
    cases pointer with
    | var c v =>
      refine (places c v rfl).imp (fun known c' v' same => ?_) fun given => given.2
      cases same
      exact known
    | _ => exact Or.inl nofun
  obtain ⟨lawful₁, cell⟩ := lawful.resolvePointer named fun c v same m mentions =>
    (places c v same).elim (fun known => Or.inl (known m mentions)) fun given => given.1 m mentions
  obtain ⟨lawful₂, due⟩ := lawful₁.pushResolved objs cell fun r member => by
    obtain ⟨i, is, inLaw⟩ := items r member
    refine ⟨i, grown.objRefIs is, inLaw, place.imp (ready_of_pointerRef named) fun injected => ?_⟩
    obtain ⟨i', is', given⟩ := injected r member
    rw [is.unique is']
    exact given
  refine ⟨lawful₂, fun y asked => ?_⟩
  cases y with
  | points x' i =>
    obtain ⟨named', r, member, is⟩ := asked
    rw [← named.unique named']
    exact due r member i (grown.objRefIs is)
  | _ => exact asked.elim

theorem label_of_identity (R : Regime cx) {x' y' : Cell} {old : FlowEdge} (same : old.identity = e.identity)
    (flows : R.law.Flows cx.program e.label x y) (flows' : R.law.Flows cx.program old.label x' y') :
    old.label = e.label := by
  -- the rules make no edges of handlers
  have handled : ∀ {info x y}, R.law.Flows cx.program (.other info) x y → R.law.edges (.other info) x y :=
    fun flows => flows.resolve_left fun rule => by cases rule
  have labels : old.label.identity = e.label.identity := congrArg EdgeIdentity.label same
  have plain := FlowEdge.label_of_identity same
  generalize e.label = label at flows labels plain ⊢
  cases label with
  | other info =>
    generalize old.label = label' at flows' labels ⊢
    cases label' with
    | plain kind => cases labels
    | cast ty => cases labels
    | other info' =>
      simp only [FlowLabel.identity, LabelIdentity.other.injEq] at labels
      rw [R.exact _ _ _ _ _ _ (handled flows') (handled flows) labels.1 labels.2]
  | _ => exact plain fun _ other => by cases other

theorem Lawful.addFlow_linked (lawful : s.Lawful R) (source : s.CellOf e.source x) (target : s.CellOf e.target y)
    (flows : R.law.Flows cx.program e.label x y) : (s.addFlow cx.program e).Linked e.label x y := by
  refine State.addFlow_linked (fun id old edge same => ?_) source target
  obtain ⟨_, _, _, _, _, _, flows'⟩ := lawful.obeys (.edge id old) edge
  exact label_of_identity R same flows flows'

theorem Lawful.addFlowRef (lawful : s.Lawful R) {label : FlowLabel} {source target : PointerRef}
    (permitted : s.Permits cx.program cx.selector R.law (.addFlow label source target)) :
    (s.apply cx (.addFlow label source target)).Lawful R ∧
      ∀ x y, s.PointerRefIs source x → s.PointerRefIs target y →
        (s.apply cx (.addFlow label source target)).Linked label x y := by
  obtain ⟨x, y, from_, to_, allowed, edge, near, far⟩ := permitted
  have first := resolvePointer_still s source
  obtain ⟨lawful₁, cell⟩ := lawful.resolvePointer from_ fun c v same m mentions =>
    Or.inl (near c v same m mentions)
  have to' := first.grown.pointerRefIs to_
  have far' : ∀ c v, target = .var c v → ∀ m, cx.program.Mentions m v →
      (s.resolvePointer source).1.Interned c m :=
    fun c v same m mentions => first.grown.interned (far c v same m mentions)
  obtain ⟨lawful₂, cell'⟩ := lawful₁.resolvePointer to' fun c v same m mentions =>
    Or.inl (far' c v same m mentions)
  have source' := (resolvePointer_still _ target).grown.cellOf cell
  rw [← label.label_data] at allowed edge
  refine ⟨lawful₂.addFlow source' cell' (ready_of_pointerRef to' far') allowed (Or.inr edge),
    fun x' y' is is' => ?_⟩
  obtain rfl := from_.unique is
  obtain rfl := to_.unique is'
  have linked := lawful₂.addFlow_linked (e := ⟨label, _, _⟩) source' cell' (Or.inr edge)
  rw [FlowEdge.label_mk] at linked
  exact linked

theorem Lawful.attach (lawful : s.Lawful R) (meddles : R.law.meddles) (q : PointerId)
    (keep : Obj → Bool) (late : List PointerId) :
    State.Lawful R { s with elements := s.elements.addFilter q keep, refilter := late } ∧
      s.Proceeds R { s with elements := s.elements.addFilter q keep, refilter := late } := by
  have same : ∀ r o, State.Holds { s with elements := s.elements.addFilter q keep, refilter := late } r o →
      s.Holds r o := by
    rintro r o ⟨set, found, member⟩
    exact ⟨set, (Elements.pts?_addFilter _ _ _ _).symm.trans found, member⟩
  have grows : s.Grows { s with elements := s.elements.addFilter q keep, refilter := late } :=
    ⟨{ Facts.Extends.refl s.toFacts with }, fun _ member => member⟩
  refine ⟨⟨fun x has => grows.obeys (lawful.obeys x ?_), R.mono _ _ _ grows.grown lawful.good,
    fun pure => absurd meddles pure, fun pure => absurd meddles pure, lawful.rules⟩,
    ⟨⟨grows, fun _ _ => delivered_addFilter keep, fun _ there => there⟩, fun x settled => Or.inl ?_,
      fun _ awaited => awaited, fun _ _ known => Or.inl known, fun _ member => member,
      fun _ there => Or.inl there⟩⟩
  · cases x with
    | points r o => exact has.imp_left (same r o)
    | _ => exact has
  · cases x with
    | held r o => exact same r o settled
    | _ => exact settled

theorem Lawful.apply (lawful : s.Lawful R) {command : Command}
    (permitted : s.Permits cx.program cx.selector R.law command) :
    (s.apply cx command).Lawful R ∧ s.Proceeds R (s.apply cx command) ∧
      ∀ x, s.Asks cx.program command x → (s.apply cx command).Due x := by
  cases command with
  | addPointsTo pointer objs =>
    have first := (resolvePointer_still s pointer).toQuiet
    have second := (resolveObjs_still (s.resolvePointer pointer).1 objs).toQuiet
    obtain ⟨lawful', due⟩ := lawful.addPointsTo permitted
    exact ⟨lawful', ((first.trans second).trans (pushPoints_quiet _ _ _)).proceeds, due⟩
  | addEntryPoint entry => exact lawful.enter permitted
  | addFlow label source target =>
    have first := (resolvePointer_still s source).toQuiet
    have second := (resolvePointer_still (s.resolvePointer source).1 target).toQuiet
    exact ⟨(lawful.addFlowRef permitted).1,
      ((first.trans second).trans (addFlow_quiet _ cx.program _)).proceeds, fun _ => False.elim⟩
  | addCall kind context site callee receiver =>
    cases receiver with
    | none =>
      obtain ⟨c, named, interned, inLaw⟩ := permitted
      obtain ⟨lawful', _⟩ := lawful.callTo named (lives_of_interned R.law interned)
        (show s.ReceiverIs none none from trivial) inLaw
      exact ⟨lawful', (callTo_quiet s cx kind context site none callee).proceeds, fun _ => False.elim⟩
    | some r =>
      obtain ⟨c, i, named, interned, is, inLaw, receives⟩ := permitted
      have resolved := (resolveObj_still s r).toQuiet
      obtain ⟨lawful₁, item⟩ := lawful.resolveObj is
      obtain ⟨_, described, _⟩ := id item
      have called := addCall_safe (p := cx.program) (s.resolveObj r).1 cx kind context site callee
        (some (s.resolveObj r).2) fun o same => by cases same; exact ⟨_, described⟩
      exact ⟨(lawful₁.addCall (resolved.grown.frameOf named) (resolved.grown.interned interned) item
        inLaw receives).1, (resolved.trans called.toQuiet).proceeds, fun _ => False.elim⟩
  | addFilter pointer keep =>
    obtain ⟨meddles, ⟨x, named⟩, known⟩ := permitted
    obtain ⟨lawful₁, _⟩ := lawful.resolvePointer named fun c v same m mentions =>
      Or.inl (known c v same m mentions)
    have resolved := (resolvePointer_still s pointer).toQuiet
    have attached : ∀ late, s.Proceeds R _ := fun late =>
      resolved.proceeds.trans lawful₁ (lawful₁.attach meddles (s.resolvePointer pointer).2 keep late).2
    refine ⟨?_, ?_, fun _ => False.elim⟩
    · unfold State.apply
      dsimp only
      split
      · split <;> exact (lawful₁.attach meddles _ keep _).1
      · exact (lawful₁.attach meddles _ keep _).1
    · unfold State.apply
      dsimp only
      split
      · split <;> exact attached _
      · exact attached _
  | propagate pointer => exact permitted.elim

end State

end PointsTo
