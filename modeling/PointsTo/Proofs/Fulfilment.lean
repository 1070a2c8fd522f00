import PointsTo.Proofs.Hearing

/-!
What a run finds satisfies its handlers: entry points, literals, threads and native methods. Whatever a
handler must add on account of a fact, it asks for at the moment at which the last fact it needs is told.
-/
namespace PointsTo

variable {σ : Type u} {p : Program} {sel : Selector} {law : Law} {rules : HeapRules}
  {keep : Obj → Prop} {record : List (Moment σ)} {t : Facts}

theorem cut_cases {α : Type u} {l past past' rest rest' : List α} {x y : α} (first : l = past ++ x :: rest)
    (second : l = past' ++ y :: rest') : x ∈ past' ∨ y ∈ past ∨ (past = past' ∧ x = y) := by
  subst first
  rcases List.append_eq_append_iff.mp second with ⟨between, rfl, same⟩ | ⟨between, rfl, same⟩
  · cases between with
    | nil => exact Or.inr (Or.inr ⟨(List.append_nil _).symm, (List.cons.inj same).1⟩)
    | cons z between =>
      obtain ⟨rfl, _⟩ := List.cons.inj same
      exact Or.inl (by simp)
  · cases between with
    | nil => exact Or.inr (Or.inr ⟨List.append_nil _, (List.cons.inj same).1.symm⟩)
    | cons z between =>
      obtain ⟨rfl, _⟩ := List.cons.inj same
      exact Or.inr (Or.inl (by simp))

theorem Entries.satisfied {s : Entries}
    (story : Story p sel law rules keep (fun e _ s => Entries.react p s e) s record t) :
    s.Satisfied p (t.Upholds keep) := by
  obtain ⟨x, rest, cut, event⟩ := story.began
  have answers := story.answers [] x rest cut
  rw [event] at answers
  refine ⟨fun m listed y gives => ?_, fun m listed => ?_⟩
  · have asked : .addEntryPoint (EntryPoint.mocked p m) ∈ (Entries.react p s .started).commands :=
      List.mem_append_left _ (List.mem_map_of_mem listed)
    exact (answers _ asked).entry
      (fun o made => story.clean o (((s.react_clean p .started).commands _ asked).objs o made)) gives
  · exact (answers (.addEntryPoint { method := m })
      (List.mem_append_right _ (List.mem_map_of_mem listed))).method

namespace LiteralAssigns

variable {accepts : Literal → Bool} {obj? : VarId → Literal → Option Obj} {s : LiteralAssigns}

def Knows (p : Program) (accepts : Literal → Bool) (past : List (Moment σ)) (s : LiteralAssigns) : Prop :=
  ∀ site ∈ told Event.stmt? past, ∀ v value, p.stmt? site = some (.literal v value) →
    accepts value = true → (site.method, v, value) ∈ s.assigns

theorem mem_record {x : MethodId × VarId × Literal} (site : StmtRef) (known : x ∈ s.assigns) :
    x ∈ (s.record p accepts site).assigns := by
  unfold record
  split
  · split
    · exact List.mem_append_left _ known
    · exact known
  · exact known

theorem record_mem {site : StmtRef} {v : VarId} {value : Literal}
    (stmt : p.stmt? site = some (.literal v value)) (accepted : accepts value = true) :
    (site.method, v, value) ∈ (s.record p accepts site).assigns := by
  unfold record
  simp [stmt, accepted]

theorem knows_replay (past rest : List (Moment σ)) (cut : record = past ++ rest) :
    Knows p accepts past (replay (fun e f s => react p accepts obj? s f e) {} past) := by
  refine replay_induct (Knows p accepts) (fun site none => by cases none) ?_ past rest cut
  intro past x rest _ knows site tells v value stmt accepted
  rw [told_snoc, List.mem_append, Option.mem_toList] at tells
  cases event : x.event with
  | stmtReached site' =>
    rw [event] at tells
    rcases tells with before | here
    · exact mem_record site' (knows site before v value stmt accepted)
    · obtain rfl : site' = site := Option.some.inj here
      exact record_mem stmt accepted
  | csMethodReached id =>
    rw [event] at tells
    have before := knows site (tells.resolve_right (by simp [Event.stmt?])) v value stmt accepted
    simp only [react]
    split <;> exact before
  | _ =>
    rw [event] at tells
    exact knows site (tells.resolve_right (by simp [Event.stmt?])) v value stmt accepted

theorem satisfied
    (story : Story p sel law rules keep (fun e f s => react p accepts obj? s f e) {} record t)
    (clean : ∀ v value o, obj? v value = some o → o.isTaint = false) :
    Satisfied p accepts obj? (t.Upholds keep) := by
  intro site v value o stmt accepted made frame reached
  obtain ⟨past, x, rest, id, c, cut, event, known, named, _, stmts⟩ := story.entry reached.1
  have tells := stmts (site, _) (Program.mem_stmtRefs.mpr ⟨rfl, stmt⟩)
  have assigned : (site.method, v, value) ∈
      (replay (fun e f s => react p accepts obj? s f e) {} past).assigns :=
    knows_replay past (x :: rest) cut site tells v value stmt accepted
  have answers := story.answers past x rest cut
  rw [event] at answers
  simp only [react, known] at answers
  refine (answers (Command.varObj c v o) (List.mem_map.mpr ⟨(v, o), ?_, rfl⟩)).varObj
    ((story.below cut).toExtends.frameOf named) (story.clean o (clean v value o made))
  exact List.mem_filterMap.mpr ⟨(v, value), mem_inMethod.mpr assigned, by rw [made]; rfl⟩

end LiteralAssigns

namespace Threads

/-- What the handler has come to know, and that every started thread is current wherever that was asked. -/
structure Knows (t : Facts) (keep : Obj → Prop) (of : ThreadMethods)
    (past : List (Moment σ)) (s : Threads) : Prop where
  methods : s.methods = of
  main : past ≠ [] → of.implicit = true → s.mainThread = some of.mainThread
  asked : ∀ x ∈ past, ∀ id c m v, x.event = .csMethodReached id →
    x.facts.elements.method? id = some (c, m) → of.current = some (m, v) → c ∈ s.askedIn
  started : ∀ x ∈ past, ∀ q delta c v, x.event = .arrived q delta →
    x.facts.elements.pointer? q = some (.var c v) → of.startThis = some v → ∀ o ∈ delta, o ∈ s.started
  crossed : ∀ m v, of.current = some (m, v) → ∀ o ∈ s.started, ∀ c ∈ s.askedIn, ∀ frame i,
    t.FrameOf c frame → t.ItemOf o i → keep i.obj → t.Upholds keep (.points (.var frame v) i)

variable {of : ThreadMethods} {s next : Threads} {past rest : List (Moment σ)} {x : Moment σ} {q : PointerId}
  {delta : ObjSet} {c : ContextId}

theorem Knows.snoc (knows : s.Knows t keep of past) (methods : next.methods = s.methods)
    (main : of.implicit = true → next.mainThread = some of.mainThread)
    (asked : ∀ c ∈ s.askedIn, c ∈ next.askedIn) (started : ∀ o ∈ s.started, o ∈ next.started)
    (asks : ∀ id c m v, x.event = .csMethodReached id → x.facts.elements.method? id = some (c, m) →
      of.current = some (m, v) → c ∈ next.askedIn)
    (starts : ∀ q delta c v, x.event = .arrived q delta →
      x.facts.elements.pointer? q = some (.var c v) → of.startThis = some v → ∀ o ∈ delta, o ∈ next.started)
    (crossed : ∀ m v, of.current = some (m, v) → ∀ o ∈ next.started, ∀ c ∈ next.askedIn, ∀ frame i,
      t.FrameOf c frame → t.ItemOf o i → keep i.obj → t.Upholds keep (.points (.var frame v) i)) :
    next.Knows t keep of (past ++ [x]) where
  methods := methods.trans knows.methods
  main := fun _ => main
  asked := by
    intro y member id c m v event known current
    rcases List.mem_append.mp member with before | here
    · exact asked c (knows.asked y before id c m v event known current)
    · cases List.mem_singleton.mp here
      exact asks id c m v event known current
  started := by
    intro y member q delta c v event known there o new
    rcases List.mem_append.mp member with before | here
    · exact started o (knows.started y before q delta c v event known there o new)
    · cases List.mem_singleton.mp here
      exact starts q delta c v event known there o new
  crossed := crossed

theorem Knows.still (knows : s.Knows t keep of past) (some : past ≠ [])
    (asks : ∀ id c m v, x.event = .csMethodReached id → x.facts.elements.method? id = .some (c, m) →
      of.current = .some (m, v) → False)
    (starts : ∀ q delta c v, x.event = .arrived q delta →
      x.facts.elements.pointer? q = .some (.var c v) → of.startThis = .some v → False) :
    s.Knows t keep of (past ++ [x]) :=
  knows.snoc rfl (knows.main some) (fun _ member => member) (fun _ member => member)
    (fun id c m v event known current => (asks id c m v event known current).elim)
    (fun q delta c v event known there => (starts q delta c v event known there).elim) knows.crossed

theorem Knows.launch (knows : s.Knows t keep of past) (some : past ≠ []) (event : x.event = .arrived q delta)
    (answers : ∀ d ∈ (s.launch delta).commands, t.Answers keep p sel d) :
    (s.launch delta).state.Knows t keep of (past ++ [x]) := by
  refine knows.snoc rfl (knows.main some) (fun _ member => member)
    (fun o member => ObjSet.mem_union_fst.mpr (Or.inl member)) ?_ ?_ ?_
  · intro _ _ _ _ event'
    cases event.symm.trans event'
  · intro q' delta' c v event' _ _ o new
    cases event.symm.trans event'
    exact ObjSet.mem_union_fst.mpr (Or.inr new)
  · intro m v current o member c asked frame i named item kept
    by_cases old : o ∈ s.started
    · exact knows.crossed m v current o old c asked frame i named item kept
    · have new := (ObjSet.mem_union_fst.mp member).resolve_left old
      refine Facts.answers_pointsTo (r := .interned o) (fun d listed => answers d ?_) named
        (List.mem_map_of_mem (ObjSet.mem_union_snd.mpr ⟨new, old⟩)) item kept
      simp only [Threads.launch, knows.methods, current]
      exact List.mem_flatMap.mpr ⟨c, asked, listed⟩

theorem mem_ask {d : ContextId} {result : VarId} :
    d ∈ (s.ask c result).state.askedIn ↔ d ∈ s.askedIn ∨ d = c := by
  simp only [ask]
  split
  · next known => exact ⟨Or.inl, fun either => either.elim id fun same => same ▸ List.contains_iff_mem.mp known⟩
  · rw [List.mem_append, List.mem_singleton]

theorem Knows.ask (knows : s.Knows t keep of past) (some : past ≠ []) {id : CsMethodId} {m : MethodId} {v : VarId}
    (event : x.event = .csMethodReached id) (known : x.facts.elements.method? id = .some (c, m))
    (current : of.current = .some (m, v)) (answers : ∀ d ∈ (s.ask c v).commands, t.Answers keep p sel d) :
    (s.ask c v).state.Knows t keep of (past ++ [x]) := by
  refine knows.snoc rfl (knows.main some) (fun _ member => mem_ask.mpr (Or.inl member))
    (fun _ member => member) ?_ ?_ ?_
  · intro id' c' m' v' event' known' _
    cases event.symm.trans event'
    cases known.symm.trans known'
    exact mem_ask.mpr (Or.inr rfl)
  · intro _ _ _ _ event'
    cases event.symm.trans event'
  · intro m' v' current' o member d asked frame i named item kept
    rcases mem_ask.mp asked with before | rfl
    · exact knows.crossed m' v' current' o member d before frame i named item kept
    · cases current.symm.trans current'
      refine Facts.answers_pointsTo (r := .interned o) answers named ?_ item kept
      exact List.mem_append_right _ (List.mem_map_of_mem member)

theorem Knows.begins (knows : s.Knows t keep of past) (event : x.event = .started) :
    (s.react x.facts .started).state.Knows t keep of (past ++ [x]) := by
  have silent : ∀ {next : Threads}, next.methods = s.methods → next.started = s.started →
      next.askedIn = s.askedIn → (of.implicit = true → next.mainThread = some of.mainThread) →
      next.Knows t keep of (past ++ [x]) := fun methods started asked main =>
    knows.snoc methods main (fun _ member => asked ▸ member) (fun _ member => started ▸ member)
      (fun _ _ _ _ event' => by cases event.symm.trans event')
      (fun _ _ _ _ event' => by cases event.symm.trans event') (started ▸ asked ▸ knows.crossed)
  simp only [react]
  split
  · exact silent rfl rfl rfl fun _ => congrArg (some ∘ ThreadMethods.mainThread) knows.methods
  · next explicit => exact silent rfl rfl rfl fun implicit => absurd (knows.methods ▸ implicit) explicit

theorem Knows.arrives (knows : s.Knows t keep of past) (some : past ≠ []) (event : x.event = .arrived q delta)
    (answers : ∀ d ∈ (s.react x.facts (.arrived q delta)).commands, t.Answers keep p sel d) :
    (s.react x.facts (.arrived q delta)).state.Knows t keep of (past ++ [x]) := by
  have still : (∀ c v, x.facts.elements.pointer? q = .some (.var c v) → of.startThis ≠ .some v) →
      s.Knows t keep of (past ++ [x]) := fun other =>
    knows.still some (fun _ _ _ _ event' => by cases event.symm.trans event')
      fun q' delta' c v event' known there => by
        cases event.symm.trans event'
        exact other c v known there
  revert answers
  simp only [react]
  split
  · next c v known =>
    split
    · exact knows.launch some event
    · next elsewhere =>
      refine fun _ => still fun c' v' known' there => elsewhere ?_
      cases known.symm.trans known'
      rw [knows.methods, there]
  · next elsewhere => exact fun _ => still fun c v known => (elsewhere c v known).elim

theorem Knows.enters (knows : s.Knows t keep of past) (some : past ≠ []) {id : CsMethodId}
    (event : x.event = .csMethodReached id)
    (answers : ∀ d ∈ (s.react x.facts (.csMethodReached id)).commands, t.Answers keep p sel d) :
    (s.react x.facts (.csMethodReached id)).state.Knows t keep of (past ++ [x]) := by
  have still : (∀ c m v, x.facts.elements.method? id = .some (c, m) → of.current ≠ .some (m, v)) →
      s.Knows t keep of (past ++ [x]) := fun other =>
    knows.still some (fun id' c m v event' known current => by
      cases event.symm.trans event'
      exact other c m v known current) fun _ _ _ _ event' => by cases event.symm.trans event'
  revert answers
  simp only [react, knows.methods]
  split
  · next current result c method asks known =>
    split
    · next same =>
      subst same
      exact knows.ask some event known asks
    · next other =>
      refine fun _ => still fun c' m v known' asks' => other ?_
      cases known.symm.trans known'
      cases asks.symm.trans asks'
      rfl
  · next other => exact fun _ => still fun c m v known asks => other m v c m asks known

theorem knows_replay
    (story : Story p sel law rules keep (fun e f s => Threads.react s f e) { methods := of } record t)
    (past rest : List (Moment σ)) (cut : record = past ++ rest) :
    Knows t keep of past (replay (fun e f s => Threads.react s f e) { methods := of } past) := by
  refine replay_induct (Knows t keep of) ?_ (fun past x rest cut knows => ?_) past rest cut
  · exact ⟨rfl, fun none => absurd rfl none, nofun, nofun,
      fun _ _ _ o member => absurd member (ObjSet.not_mem_empty o)⟩
  have answers := story.answers past x rest cut
  have later : x.event ≠ .started → past ≠ [] := by
    rintro other rfl
    obtain ⟨y, after, start, event⟩ := story.began
    obtain ⟨rfl, _⟩ := List.cons.inj (start.symm.trans cut)
    exact other event
  cases event : x.event with
  | started => exact knows.begins event
  | arrived q delta =>
    rw [event] at answers later
    exact knows.arrives (later nofun) event answers
  | csMethodReached id =>
    rw [event] at answers later
    exact knows.enters (later nofun) event answers
  | _ =>
    refine knows.still (later (by rw [event]; nofun)) (fun _ _ _ _ event' => ?_) fun _ _ _ _ event' => ?_
    · cases event.symm.trans event'
    · cases event.symm.trans event'

theorem satisfied
    (story : Story p sel law rules keep (fun e f s => Threads.react s f e) { methods := of } record t) :
    of.Satisfied p rules (t.Upholds keep) where
  starts := by
    intro implicit entry listed y gives
    obtain ⟨x, rest, cut, event⟩ := story.began
    have answers := story.answers [] x rest cut
    have same := (story.sound x (by simp [cut])).rules
    rw [event] at answers
    simp only [replay, List.foldl_nil, react, implicit, if_true, same] at answers
    exact (answers _ listed).entry
      (fun o made => story.clean o (((start_clean rules _).commands _ listed).objs o made)) gives
  main := by
    intro implicit m v current frame reached
    obtain ⟨past, x, rest, id, c, cut, event, known, named, method, _⟩ := story.entry reached.1
    have knows := knows_replay story past (x :: rest) cut
    have answers := story.answers past x rest cut
    generalize replay (fun e f s => Threads.react s f e) { methods := of } past = s at knows answers
    rw [event] at answers
    simp only [react, knows.methods, current, known, if_true] at answers
    have some : past ≠ [] := fun none => by
      rw [none] at method
      cases method
    refine Facts.answers_pointsTo answers ((story.below cut).toExtends.frameOf named) ?_
      (t.objRefIs_plain of.mainThread) (story.clean _ rfl)
    refine List.mem_append_left _ ?_
    rw [knows.main some implicit]
    exact List.mem_singleton_self _
  started := by
    intro w m v there current c d i points reached
    have knows := knows_replay story record [] (List.append_nil _).symm
    obtain ⟨past, x, rest, q, delta, o, context, cut, event, new, known, _, item⟩ :=
      story.arrivalAt points.1
    obtain ⟨past', y, rest', id, asker, cut', event', known', named, _, _⟩ := story.entry reached.1
    refine knows.crossed m v current o ?_ asker ?_ d i ((story.below cut').toExtends.frameOf named)
      ((story.below cut).toExtends.itemOf item) (Facts.upholds_points.mp points).2
    · exact knows.started x (by simp [cut]) q delta context w event known there o new
    · exact knows.asked y (by simp [cut']) id asker m v event' known' current

end Threads

namespace CallModels

variable {κ : Type} {u models : CallModels κ} {c : ModeledCall κ} {past rest : List (Moment σ)} {x : Moment σ}

/-- The modelled calls of the methods that were told are recorded, and no others. -/
structure Knows (p : Program) (u models : CallModels κ) (past : List (Moment σ)) : Prop where
  table : u.table = models.table
  remembers : u.Remembers p
  recorded : ∀ c, models.Models p c → c.site.method ∈ told Event.method? past → c ∈ u.recorded

theorem recorded_record (site : StmtRef) (known : c ∈ u.recorded) : c ∈ (u.record p site).1.recorded := by
  unfold CallModels.record
  split
  · exact List.mem_append_left _ known
  · exact known

theorem record_recorded (models : u.Models p c) : c ∈ (u.record p c.site).1.recorded := by
  unfold CallModels.record
  rw [show u.callAt? p c.site = some c from models]
  exact List.mem_append_right _ (List.mem_singleton_self _)

theorem foldl_recorded (entries : List (StmtRef × Stmt)) (u : CallModels κ) :
    (∀ c ∈ u.recorded, c ∈ (entries.foldl (fun u x => (u.record p x.1).1) u).recorded) ∧
      ∀ c, u.Models p c → (∃ stmt, (c.site, stmt) ∈ entries) →
        c ∈ (entries.foldl (fun u x => (u.record p x.1).1) u).recorded := by
  induction entries generalizing u with
  | nil => exact ⟨fun _ known => known, fun _ _ ⟨_, member⟩ => by cases member⟩
  | cons entry rest ih =>
    obtain ⟨kept, added⟩ := ih (u.record p entry.1).1
    refine ⟨fun c known => kept c (recorded_record entry.1 known), fun c models ⟨stmt, member⟩ => ?_⟩
    rcases List.mem_cons.mp member with rfl | later
    · exact kept c (record_recorded models)
    · exact added c ((models_of_table (table_record entry.1)).mpr models) ⟨stmt, later⟩

theorem Knows.recordMethod (knows : u.Knows p models past) {m : MethodId} (event : x.event = .methodReached m) :
    (u.recordMethod p m).Knows p models (past ++ [x]) where
  table := (table_recordMethod m).trans knows.table
  remembers := knows.remembers.recordMethod m
  recorded := by
    intro c made tells
    obtain ⟨kept, added⟩ := foldl_recorded (p := p) (p.stmtRefs m) u
    rw [told_snoc, event, List.mem_append] at tells
    rcases tells with before | here
    · exact kept c (knows.recorded c made before)
    · have same : c.site.method = m := (Option.some.inj (Option.mem_toList.mp here)).symm
      have there := Program.stmt?_of_invoke? made.invoke?
      exact added c ((models_of_table knows.table).mpr made)
        ⟨_, Program.mem_stmtRefs.mpr ⟨same, there⟩⟩

theorem Knows.still (knows : u.Knows p models past) (other : x.event.method? = none) :
    u.Knows p models (past ++ [x]) where
  table := knows.table
  remembers := knows.remembers
  recorded := by
    intro c made tells
    rw [told_snoc, other, List.mem_append] at tells
    exact knows.recorded c made (tells.resolve_right nofun)

theorem Knows.site (knows : u.Knows p models past) (made : models.Models p c)
    (tells : c.site.method ∈ told Event.method? past) : c ∈ u.sitesIn c.site.method :=
  List.mem_filter.mpr ⟨knows.recorded c made tells, beq_self_eq_true _⟩

/-- A handler that records each method it is told of, and otherwise leaves its table alone, knows all of them. -/
theorem knows_replay {τ : Type w} {react : Event → Facts → τ → Reaction τ} (calls : τ → CallModels κ) {first : τ}
    (records : ∀ m f s, calls (react (.methodReached m) f s).state = (calls s).recordMethod p m)
    (keeps : ∀ e f s, e.method? = none → calls (react e f s).state = calls s)
    (fresh : (calls first).recorded = []) (past : List (Moment σ)) :
    (calls (replay react first past)).Knows p (calls first) past := by
  induction past using List.reverseRecOn with
  | nil =>
    refine ⟨rfl, ?_, fun _ _ none => by cases none⟩
    rw [CallModels.Remembers, replay, List.foldl_nil, fresh]
    exact List.forall_mem_nil _
  | append_singleton past x ih =>
    rw [replay_snoc]
    cases other : x.event.method? with
    | none =>
      rw [keeps _ _ _ other]
      exact ih.still other
    | some m =>
      have event := Event.method?_eq_some.mp other
      rw [event, records]
      exact ih.recordMethod event

theorem exists_mem_eraseDupsBy {α β : Type} [BEq β] [LawfulBEq β] (key : α → β) {a : α} (l : List α)
    (member : a ∈ l) : ∃ b ∈ l.eraseDupsBy fun a b => key a == key b, key b = key a := by
  match l with
  | [] => cases member
  | b :: rest =>
    rw [List.eraseDupsBy_cons]
    by_cases same : key b = key a
    · exact ⟨b, List.mem_cons_self, same⟩
    · have later : a ∈ rest := (List.mem_cons.mp member).resolve_left fun here => same (here ▸ rfl)
      have left : a ∈ rest.filter fun c => (key c == key b) = false :=
        List.mem_filter.mpr ⟨later, by simpa using fun equal : key a = key b => same equal.symm⟩
      obtain ⟨c, kept, equal⟩ := exists_mem_eraseDupsBy key _ left
      exact ⟨c, List.mem_cons_of_mem _ kept, equal⟩
termination_by l.length
decreasing_by exact Nat.lt_succ_of_le (List.length_filter_le _ _)

/-- A recorded call is watched by the variables it uses: no other call stands at its site. -/
theorem Knows.watched (knows : u.Knows p models past) (made : models.Models p c)
    (tells : c.site.method ∈ told Event.method? past) {v : VarId}
    (used : c.call.base = some v ∨ v ∈ c.call.args) : c ∈ u.watching v := by
  have listed : c ∈ u.recorded.filter fun c => c.call.base == some v || c.call.args.contains v := by
    refine List.mem_filter.mpr ⟨knows.recorded c made tells, ?_⟩
    simpa using used
  obtain ⟨d, kept, same⟩ := exists_mem_eraseDupsBy ModeledCall.site _ listed
  have recorded := (List.mem_filter.mp (mem_of_eraseDupsBy _ kept)).1
  have made' : u.callAt? p d.site = some d := knows.remembers d recorded
  rw [same, show u.callAt? p c.site = some c from (models_of_table knows.table).mpr made] at made'
  cases made'
  exact kept

end CallModels

namespace Natives

variable {s : Natives} {c : ModeledCall NativeModel} {past rest : List (Moment σ)}

theorem knows_replay (fresh : s.models.recorded = []) (past : List (Moment σ)) :
    (replay (fun e f s => Natives.react p s f e) s past).models.Knows p s.models past := by
  refine CallModels.knows_replay Natives.models (fun _ _ _ => rfl) (fun e f s other => ?_) fresh past
  cases e with
  | methodReached m => cases other
  | csMethodReached id | arrived q delta =>
    simp only [react]
    split <;> rfl
  | _ => rfl

theorem entering (story : Story p sel law rules keep (fun e f s => Natives.react p s f e) s record t)
    (fresh : s.models.recorded = []) (made : s.models.Models p c) {frame : Frame}
    (reached : t.Found (.reached frame c.site.method)) : ∃ (f : Facts) (context : ContextId),
      t.FrameOf context frame ∧ ∀ d ∈ (enterCall p f context c).2, t.Answers keep p sel d := by
  obtain ⟨past, x, rest, id, context, cut, event, known, named, method, _⟩ := story.entry reached
  have knows := knows_replay (p := p) fresh past
  have answers := story.answers past x rest cut
  rw [event] at answers
  simp only [react, known] at answers
  refine ⟨x.facts, context, (story.below cut).toExtends.frameOf named, fun d asked => answers d ?_⟩
  exact List.mem_flatMap.mpr ⟨_, List.mem_map_of_mem (knows.site made method), asked⟩

theorem updating
    (story : Story p sel (Law.only p holds) rules keep (fun e f s => Natives.react p s f e) s record t)
    (fresh : s.models.recorded = []) (made : s.models.Models p c) (copies : c.key ≠ .clone) {x : Moment σ}
    (cut : record = past ++ x :: rest) {q : PointerId} {delta : ObjSet} (event : x.event = .arrived q delta)
    {context : ContextId} {v : VarId} (known : x.facts.elements.pointer? q = some (.var context v))
    {position : Nat} (place : c.call.args[position]? = some v) :
    ∀ d ∈ (updateCall p x.facts context c position delta).2, t.Answers keep p sel d := by
  intro d asked
  have passed := List.mem_of_getElem? place
  have mentions := Program.mentions_arg made.invoke? passed
  obtain ⟨method, _⟩ := story.timely past x rest cut q delta context v _ event known mentions
  have knows := knows_replay (p := p) fresh past
  have answers := story.answers past x rest cut
  rw [event] at answers
  simp only [react, known] at answers
  refine answers d (List.mem_flatMap.mpr ⟨_, List.mem_flatMap.mpr ⟨c, ?_, ?_⟩, asked⟩)
  · exact knows.watched made method (Or.inr passed)
  · obtain ⟨id, interned⟩ := (story.soundAt cut).sane.interned known mentions
    have there : (x.facts.elements.findMethod? context c.site.method).isNone = false := by
      rw [Elements.findMethod?, Table.find?_eq_some_iff.mpr interned]
      rfl
    rw [if_neg (by simp [copies, there])]
    exact List.mem_filterMap.mpr ⟨(v, position), List.mem_zipIdx_iff_getElem?.mpr place, if_pos rfl⟩

variable
  (story : Story p sel (Law.only p holds) rules keep (fun e f s => Natives.react p s f e) (ofProgram p) record t)

include story

theorem carries {label : FlowLabel} {x y : Cell} (flow : Flow p (t.Upholds keep) label x y) :
    t.Carries keep label x y := by
  have fresh : (ofProgram p).models.recorded = [] := rfl
  cases flow with
  | @copied c copy arg frame i made key copied first points =>
    obtain ⟨past, x, rest, q, delta, o, context, cut, event, new, known, _, item⟩ := story.arrivalAt points.1
    have answers := updating story fresh made (by rw [key]; nofun) cut event known
      (List.head?_eq_getElem? ▸ first)
    simp only [updateCall, key, copyElements, copied] at answers
    exact (answers _ (List.mem_map_of_mem new)).elementFlow ((story.below cut).toExtends.itemOf item)
      (t.objRefIs_plain copy)
  | @cloned c base result frame made key on answer reached =>
    obtain ⟨f, context, named, answers⟩ := entering story fresh made reached.1
    simp only [enterCall, answer, key, on] at answers
    exact Facts.Answers.flow (x := .var frame base) (y := .var frame result)
      (answers _ (List.mem_singleton_self _)) ⟨named, rfl⟩ ⟨named, rfl⟩
  | @crossed c source target frame i j made key first third points points' =>
    obtain ⟨past, x, rest, q, delta, o, context, cut, event, new, known, named, item⟩ :=
      story.arrivalAt points.1
    obtain ⟨past', x', rest', q', delta', o', context', cut', event', new', known', named', item'⟩ :=
      story.arrivalAt points'.1
    have grown := (story.below cut).toExtends
    have grown' := (story.below cut').toExtends
    obtain rfl := (grown.frameOf named).inj (grown'.frameOf named')
    -- the edge is asked for when the second of the two arrays comes to its argument
    suffices edge : t.Answers keep p sel
        (elementFlow "native-arraycopy" c.site (.interned o) (.interned o')) from
      edge.elementFlow (grown.itemOf item) (grown'.itemOf item')
    have copies : c.key ≠ .clone := by rw [key]; nofun
    have atTarget : x ∈ past' ++ [x'] → t.Answers keep p sel
        (elementFlow "native-arraycopy" c.site (.interned o) (.interned o')) := fun until_ => by
      have answers := updating story fresh made copies cut' event' known' third
      simp only [updateCall, key, first] at answers
      exact answers _ (List.mem_flatMap.mpr
        ⟨o, story.seen cut' until_ event known new, List.mem_map_of_mem new'⟩)
    have atSource : x' ∈ past ++ [x] → t.Answers keep p sel
        (elementFlow "native-arraycopy" c.site (.interned o) (.interned o')) := fun until_ => by
      have answers := updating story fresh made copies cut event known (List.head?_eq_getElem? ▸ first)
      simp only [updateCall, key, third] at answers
      exact answers _ (List.mem_flatMap.mpr
        ⟨o, new, List.mem_map_of_mem (story.seen cut until_ event' known' new')⟩)
    rcases cut_cases cut cut' with before | after | ⟨_, rfl⟩
    · exact atTarget (List.mem_append_left _ before)
    · exact atSource (List.mem_append_left _ after)
    · exact atTarget (by simp)

theorem satisfied : (ofProgram p).Satisfied p (t.Upholds keep) := by
  -- whatever is upheld at one end of an open edge is upheld at the other
  have flows : ∀ {label x y i}, Flow p (t.Upholds keep) label x y → label.isOpen = true →
      t.Upholds keep (.points x i) → t.Upholds keep (.points y i) := by
    intro label x y i flow opens there
    obtain ⟨found, kept⟩ := Facts.upholds_points.mp there
    exact Facts.upholds_points.mpr ⟨(carries story flow).flows opens i kept found, kept⟩
  constructor
  · intro c made key copy copied result answer frame reached
    obtain ⟨f, context, named, answers⟩ := entering story rfl made reached.1
    refine (answers (Command.varObj context result copy) ?_).varObj named (story.clean _ (copyObj_clean copied))
    simp only [enterCall, answer, key, copied]
    exact List.mem_append_left _ (List.mem_singleton_self _)
  · intro c made key copy copied arg first frame i j points held
    exact flows (.copied made key copied first points) rfl held
  · intro c made key base result on answer frame i reached points
    exact flows (.cloned made key on answer reached) rfl points
  · intro c made key source target first third frame i j k points points' held
    exact flows (.crossed made key first third points points') rfl held

end Natives

end PointsTo
