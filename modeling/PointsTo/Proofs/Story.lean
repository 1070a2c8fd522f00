import PointsTo.Proofs.Account
import PointsTo.Proofs.Service

/-!
What a run is to its handler: a list of moments, each of which fits what was told before. The answer to
every moment is queued at once and served in the end, and when objects come to a variable, the handler
has been told of the method that the variable belongs to.
-/
namespace PointsTo

variable {α : Type u}

/-- The state of a handler after it was told the events of a record. -/
def replay (react : Event → Facts → τ → Reaction τ) (first : τ) (record : List (Moment σ)) : τ :=
  record.foldl (fun h x => (react x.event x.facts h).state) first

theorem replay_snoc (react : Event → Facts → τ → Reaction τ) (first : τ) (record : List (Moment σ))
    (x : Moment σ) : replay react first (record ++ [x]) =
      (react x.event x.facts (replay react first record)).state := by
  simp [replay]

theorem snoc_cut {l past rest : List α} {x y : α} (cut : l ++ [x] = past ++ y :: rest) :
    (past = l ∧ y = x ∧ rest = []) ∨ ∃ before, l = past ++ y :: before := by
  rcases List.eq_nil_or_concat rest with rfl | ⟨before, last, rfl⟩
  · obtain ⟨rfl, same⟩ := List.append_inj' cut rfl
    exact Or.inl ⟨rfl, (List.singleton_inj.mp same).symm, rfl⟩
  · have cut' : l ++ [x] = (past ++ y :: before) ++ [last] := by simpa using cut
    exact Or.inr ⟨before, (List.append_inj' cut' rfl).1⟩

theorem append_cut {old new past rest : List α} {y : α} (cut : old ++ new = past ++ y :: rest) :
    (∃ before, old = past ++ y :: before) ∨ ∃ between, past = old ++ between ∧ y ∈ new := by
  rcases List.append_eq_append_iff.mp cut with ⟨between, rfl, same⟩ | ⟨before, rfl, same⟩
  · exact Or.inr ⟨between, rfl, by simp [same]⟩
  · cases before with
    | nil => exact Or.inr ⟨[], by simp, by simp [← List.nil_append new ▸ same]⟩
    | cons z before =>
      obtain ⟨rfl, _⟩ := List.cons.inj same
      exact Or.inl ⟨before, rfl⟩

namespace Moment

variable {σ : Type u}

def commands (cx : Setup σ) (x : Moment σ) : List Command :=
  (cx.handlers.react x.event x.facts x.handler).commands

/-- The facts that the handler was shown are in order. -/
structure Sound (p : Program) (law : Law) (rules : HeapRules) (x : Moment σ) : Prop where
  sane : x.facts.Sane p law
  rules : x.facts.heap.rules = rules
  named : x.event = .started ∨ x.event.Named x.facts

/-- Objects come to a variable only after its method was told with all its statements. -/
def Timely (p : Program) (past : List (Moment σ)) (x : Moment σ) : Prop :=
  ∀ q delta c v m, x.event = .arrived q delta → x.facts.elements.pointer? q = some (.var c v) →
    p.Mentions m v → m ∈ told Event.method? past ∧
      ∀ entry ∈ p.stmtRefs m, entry.1 ∈ told Event.stmt? past

end Moment

/-- A handler with the record that led it to where it is. -/
structure Diary {σ : Type u} {cx : Setup σ} (R : Regime cx) (first : σ) (f : Facts) (w : Watched σ) : Prop where
  good : R.Good f w.1
  /-- The handler was where it should be whenever it was told something. -/
  ready : ∀ x ∈ w.2, R.Good x.facts x.handler
  sound : ∀ x ∈ w.2, x.Sound cx.program R.law R.rules ∧ x.facts.Extends f
  present : w.1 = replay cx.handlers.react first w.2
  past : ∀ past x rest, w.2 = past ++ x :: rest → x.handler = replay cx.handlers.react first past

namespace Regime

variable {σ : Type u} {cx : Setup σ} (R : Regime cx) {first : σ}

/-- The handler sleeps through the ends of phases. -/
def Sleeps : Prop := ∀ n f h, R.Good f h → cx.handlers.phaseEnd f n h = { state := h }

theorem diary_snoc {f : Facts} {w : Watched σ} (diary : Diary R first f w) {e : Event}
    (sane : f.Sane cx.program R.law) (rules : f.heap.rules = R.rules) (named : e = .started ∨ e.Named f)
    (good : R.Good f (cx.handlers.react e f w.1).state) :
    Diary R first f ((cx.handlers.react e f w.1).state, w.2 ++ [⟨e, f, w.1⟩]) where
  good := good
  ready := by
    intro x member
    rcases List.mem_append.mp member with before | last
    · exact diary.ready x before
    · rw [List.mem_singleton.mp last]
      exact diary.good
  sound := by
    intro x member
    rcases List.mem_append.mp member with before | last
    · exact diary.sound x before
    · rw [List.mem_singleton.mp last]
      exact ⟨⟨sane, rules, named⟩, Facts.Extends.refl f⟩
  present := by
    rw [replay_snoc, ← diary.present]
  past := by
    intro past x rest cut
    rcases snoc_cut cut with ⟨rfl, rfl, _⟩ | ⟨before, same⟩
    · exact diary.present
    · exact diary.past past x before same

/-- The regime of the watched run, with a diary for a memory. -/
def watched (first : σ) (sleeps : R.Sleeps) : Regime cx.watched where
  law := R.law
  rules := R.rules
  closed := R.closed
  excuse := R.excuse
  exact := R.exact
  declared := R.declared
  Good := Diary R first
  mono := fun f g w grown diary =>
    ⟨R.mono f g w.1 grown diary.good, diary.ready,
      fun x member => ⟨(diary.sound x member).1, (diary.sound x member).2.trans grown⟩,
      diary.present, diary.past⟩
  react := by
    intro e f w sane rules named diary
    obtain ⟨good, permitted⟩ := R.react e f w.1 sane rules named diary.good
    exact ⟨R.diary_snoc diary sane rules (Or.inr named) good, permitted⟩
  phaseEnd := by
    intro n f w sane diary
    obtain ⟨good, permitted, nothing⟩ := R.phaseEnd n f w.1 sane diary.good
    refine ⟨?_, permitted, nothing⟩
    have same := congrArg (·.state) (sleeps n f w.1 diary.good)
    exact ⟨good, diary.ready, diary.sound, same.trans diary.present, diary.past⟩

theorem watched_opens (sleeps : R.Sleeps) {heap : Heap} (opens : R.Opens heap first)
    (good : R.Good { heap } first) (sane : Facts.Sane { heap } cx.program R.law) :
    (R.watched first sleeps).Opens heap (first, []) where
  rules := opens.rules
  good := by
    have blank : Diary R first { heap } (first, []) :=
      ⟨good, List.forall_mem_nil _, List.forall_mem_nil _, rfl, fun past x rest cut => by simp at cut⟩
    exact R.diary_snoc blank sane opens.rules (Or.inl rfl) opens.good
  permitted := opens.permitted

end Regime

namespace State

variable {σ : Type u} {cx : Setup σ} {near : PointerId → Prop} {s t u : State (Watched σ)}

/-- Between two states the handler is told something, objects arrive at certain pointers only, and what
the handler asks for is queued, and nothing else is. -/
def Voices (cx : Setup σ) (near : PointerId → Prop) (s t : State (Watched σ)) : Prop :=
  ∃ new, t.record = s.record ++ new ∧ t.queue = s.queue ++ new.flatMap (Moment.commands cx) ∧
    ∀ x ∈ new, ∀ q delta, x.event = .arrived q delta → near q

theorem voices_of_same (record : t.record = s.record) (queue : t.queue = s.queue) : s.Voices cx near t :=
  ⟨[], record.trans (List.append_nil _).symm, queue.trans (List.append_nil _).symm, List.forall_mem_nil _⟩

theorem Voices.trans (first : s.Voices cx near t) (second : t.Voices cx near u) : s.Voices cx near u := by
  obtain ⟨new, record, queue, fine⟩ := first
  obtain ⟨new', record', queue', fine'⟩ := second
  refine ⟨new ++ new', ?_, ?_, List.forall_mem_append.mpr ⟨fine, fine'⟩⟩
  · rw [record', record, List.append_assoc]
  · rw [queue', queue, List.append_assoc, List.flatMap_append]

theorem Mute.voices (mute : s.Mute t) : s.Voices cx near t :=
  voices_of_same (congrArg Prod.snd mute.handler) mute.asks

theorem notify_voices {e : Event} (arrives : ∀ q delta, e = .arrived q delta → near q) :
    s.Voices cx near (s.notify cx.watched e) := by
  refine ⟨[⟨e, s.toFacts, s.handler.1⟩], rfl, ?_, List.forall_mem_singleton.mpr arrives⟩
  rw [List.flatMap_singleton]
  rfl

theorem foldl_voices {α : Type v} {f : State (Watched σ) → α → State (Watched σ)} (items : List α)
    (s : State (Watched σ)) (each : ∀ t : State (Watched σ), ∀ a ∈ items, t.Voices cx near (f t a)) :
    s.Voices cx near (items.foldl f s) :=
  List.foldlRecOn items f (voices_of_same rfl rfl) fun t voices a member =>
    voices.trans (each t a member)

theorem Murmurs.voices {place : ContextId → StmtRef → Prop} {on : CsObjId → Prop}
    (murmurs : s.Murmurs cx.watched place on t) : s.Voices cx near t := by
  induction murmurs with
  | hush hush => exact hush.voices
  | calls s kind receiver callee => exact (callTo_mute s _ kind _ _ receiver callee).voices
  | unresolved s => exact notify_voices nofun
  | trans _ _ first second => exact first.trans second

theorem registerMethod_voices (m : MethodId) : s.Voices cx near (s.registerMethod cx.watched m) := by
  unfold registerMethod
  split
  · exact voices_of_same rfl rfl
  · have marked : s.Voices cx near { s with seen := s.seen ++ [m] } :=
      voices_of_same rfl rfl
    refine (marked.trans (notify_voices (e := .methodReached m) nofun)).trans ?_
    exact foldl_voices _ _ fun t entry _ => notify_voices nofun

theorem reach_voices {id : CsMethodId} (known : ∃ x, s.elements.method? id = some x) :
    s.Voices cx near (s.reach cx.watched id) := by
  by_cases before : id ∈ s.calls.reachable
  · rw [reach_known before]
    exact voices_of_same rfl rfl
  obtain ⟨⟨c, m⟩, known⟩ := known
  rw [reach_new before known]
  have marked : s.Voices cx near (s.marking id) := voices_of_same rfl rfl
  refine ((marked.trans (registerMethod_voices m)).trans ?_).trans
    (notify_voices nofun)
  exact (runAll_murmurs _ cx.watched c m).voices

theorem processCall_voices {e : CallEdge} (known : ∃ x, s.elements.method? e.callee = some x) :
    s.Voices cx near (s.processCall cx.watched e) := by
  by_cases before : e ∈ s.calls.edges
  · rw [processCall_known before]
    exact voices_of_same rfl rfl
  rw [processCall_new before]
  have recorded : s.Voices cx near (s.recording e) := voices_of_same rfl rfl
  exact ((recorded.trans (reach_voices known)).trans (passing_hush _ _ e).voices).trans
    (notify_voices nofun)

theorem processPoints_voices (q : PointerId) (set : ObjSet) :
    s.Voices cx (fun r => r = q ∧ ∃ o, o ∈ set) (s.processPoints cx.watched q set) := by
  have filled : s.Voices cx (fun r => r = q ∧ ∃ o, o ∈ set) (s.filled q set) :=
    voices_of_same rfl rfl
  rw [processPoints_eq]
  split
  · exact filled
  · next some =>
    refine ((filled.trans (sendAll_hush _ _ _).voices).trans (applying_murmurs _ _ _ _).voices).trans
      (notify_voices ?_)
    rintro r delta ⟨⟩
    obtain ⟨o, new⟩ : ∃ o, o ∈ s.news q set := by
      simpa [ObjSet.isEmpty_iff] using some
    exact ⟨rfl, o, subset_of_admitted (mem_news.mp new).1⟩

theorem apply_voices (c : Command) : s.Voices cx near (s.apply cx.watched c) := by
  cases c with
  | addEntryPoint entry =>
    have noted : s.Voices cx near (s.noting entry.method) := voices_of_same rfl rfl
    exact (noted.trans (reach_voices
      ⟨_, Table.get?_intern_self s.elements.methods (ContextTable.emptyId, entry.method)⟩)).trans
      (enter_hush s cx.watched entry).voices
  | addFilter pointer keep =>
    have resolved := resolvePointer_hush s pointer
    refine resolved.voices.trans ?_
    unfold State.apply
    dsimp only
    split
    · split <;> exact voices_of_same rfl rfl
    · exact voices_of_same rfl rfl
  | _ => exact (apply_mute s _ _ (by simp) (by simp)).voices

end State

/-- The record of a run that ended in `t`, as far as it does not depend on the handler. -/
structure Chronicle {σ : Type u} (p : Program) (law : Law) (rules : HeapRules) (record : List (Moment σ))
    (t : Facts) : Prop where
  accounts : Accounts p record t
  proper : Proper p record
  sound : ∀ x ∈ record, x.Sound p law rules
  timely : ∀ past x rest, record = past ++ x :: rest → x.Timely p past
  began : ∃ x rest, record = x :: rest ∧ x.event = .started

/-- The part of one handler in a run, as far as objects are to be kept. -/
structure Story {σ : Type u} {τ : Type v} (p : Program) (sel : Selector) (law : Law) (rules : HeapRules)
    (keep : Obj → Prop) (react : Event → Facts → τ → Reaction τ) (first : τ) (record : List (Moment σ))
    (t : Facts) : Prop extends Chronicle p law rules record t where
  clean : ∀ o : Obj, o.isTaint = false → keep o
  answers : ∀ past x rest, record = past ++ x :: rest →
    ∀ c ∈ (react x.event x.facts (replay react first past)).commands, t.Answers keep p sel c

namespace Solver

variable {σ : Type u} {cx : Setup σ} {R : Regime cx} {first : σ} {sleeps : R.Sleeps} {s t : State (Watched σ)}
  {heap : Heap} {m : MethodId}

/-- Everything told so far was told in time, and everything asked for so far waits or is served. -/
structure Attends (R : Regime cx) (first : σ) (sleeps : R.Sleeps) (s : State (Watched σ)) : Prop where
  settles : s.Settles (R.watched first sleeps)
  coherent : s.Coherent cx.program []
  timely : ∀ past x rest, s.record = past ++ x :: rest → x.Timely cx.program past
  began : ∃ x rest, s.record = x :: rest ∧ x.event = .started
  served : ∀ x ∈ s.record, ∀ c ∈ x.commands cx, c ∈ s.queue ∨ s.Served cx.watched c
  flows : s.Flows cx.program

theorem Attends.start (opens : R.Opens heap first) (good : R.Good { heap } first)
    (sane : Facts.Sane { heap } cx.program R.law) :
    Attends R first sleeps (start cx.watched heap (first, [])) where
  settles := State.start_settles (R.watched_opens sleeps opens good sane)
  coherent := State.Coherent.start cx heap first
  timely := by
    intro past x rest cut
    rcases snoc_cut (l := []) cut with ⟨_, rfl, _⟩ | ⟨before, same⟩
    · exact nofun
    · simp at same
  began := ⟨_, [], rfl, rfl⟩
  served := by
    intro x member c asked
    cases List.mem_singleton.mp member
    exact Or.inl (List.mem_append_right _ asked)
  flows := State.start_flows cx.watched heap (first, [])

theorem Step.voices (step : Step cx.watched Policy.callsFirst s t)
    (lawful : s.Lawful (R.watched first sleeps)) :
    ∃ (u : State (Watched σ)) (near : PointerId → Prop), u.record = s.record ∧
      (∀ c ∈ u.queue, c ∈ s.queue) ∧ u.Voices cx near t ∧
      ∀ q, near q → s.queue = [] ∧ s.worklist.calls = [] ∧ ∃ o, s.Pending q o := by
  cases step with
  | command queue =>
    rename_i c rest
    refine ⟨s.popping rest, fun _ => False, rfl, fun d waiting => ?_, State.apply_voices c,
      fun _ => False.elim⟩
    rw [queue]
    exact List.mem_cons_of_mem c waiting
  | call queue allowed taken =>
    rename_i e worklist
    obtain ⟨_, _, _, m, ⟨_, context, known, _⟩, _⟩ := lawful.obeys (.call e) (Or.inr taken.calls_call.1)
    exact ⟨s.taking worklist, fun _ => False, rfl, fun _ waiting => waiting,
      State.processCall_voices ⟨_, known⟩, fun _ => False.elim⟩
  | points queue allowed taken =>
    rename_i q set worklist
    refine ⟨s.taking worklist, fun r => r = q ∧ ∃ o, o ∈ set, rfl, fun _ waiting => waiting,
      State.processPoints_voices q set, ?_⟩
    rintro _ ⟨rfl, o, member⟩
    exact ⟨queue, allowed, o, taken.pending_set member⟩
  | phase queue idle more =>
    refine ⟨s, fun _ => False, rfl, fun _ waiting => waiting, State.voices_of_same rfl ?_,
      fun _ => False.elim⟩
    have asleep := sleeps s.trimmed.2 s.trimmed.1 s.handler.1
      (R.mono _ _ _ (State.lateRemovals_trims s).extends lawful.good.good)
    have commands : (s.endPhase cx.watched).queue =
        s.queue ++ (cx.handlers.phaseEnd s.trimmed.1 s.trimmed.2 s.handler.1).commands := rfl
    rw [commands, asleep, List.append_nil]

section

variable (attends : Attends R first sleeps s)

include attends

theorem Attends.told (seen : m ∈ s.seen) :
    m ∈ told Event.method? s.record ∧
      ∀ entry ∈ cx.program.stmtRefs m, entry.1 ∈ PointsTo.told Event.stmt? s.record := by
  rw [attends.coherent.told_method, attends.coherent.told_stmt]
  exact ⟨seen, fun entry member => List.mem_flatMap.mpr ⟨m, seen, List.mem_map_of_mem member⟩⟩

theorem Attends.registered (pure : ∀ x, ¬ R.law.injected x) (none : s.worklist.calls = []) {q : PointerId}
    {o : CsObjId} (pending : s.Pending q o) {c : ContextId} {v : VarId}
    (known : s.elements.pointer? q = some (.var c v)) (mentions : cx.program.Mentions m v) : m ∈ s.seen := by
  obtain ⟨x, i, _, _, _, place⟩ := attends.settles.obeys (.points q o) (Or.inr pending)
  rcases (place.resolve_right (pure _)) c v known m mentions with interned | seen
  · exact attends.settles.registered none interned
  · exact seen

theorem Attends.step (pure : ∀ x, ¬ R.law.injected x) (inTime : ∀ c ∈ s.queue.head?, c.InTime s)
    (step : Step cx.watched Policy.callsFirst s t) : Attends R first sleeps t := by
  have lawful := attends.settles.toLawful
  have settles := step.settles attends.settles
  obtain ⟨_, keeps⟩ := step.lawful lawful
  obtain ⟨u, near, same, _, ⟨new, record, queue, fine⟩, pending⟩ := step.voices lawful
  rw [same] at record
  have coherent := step.coherent lawful.handles.pending inTime lawful.heard.2.2 attends.coherent
  refine ⟨settles, coherent.1, fun past x rest cut => ?_, ?_, fun x member c asked => ?_,
    step.flows lawful attends.flows⟩
  · rw [record] at cut
    rcases append_cut cut with ⟨before, cut⟩ | ⟨between, rfl, after⟩
    · exact attends.timely past x before cut
    · intro q delta c v m event known mentions
      obtain ⟨_, none, o, waiting⟩ := pending q (fine x after q delta event)
      -- the pointer was known before the step, and it is the same in all facts of the run
      obtain ⟨y, i, ⟨ptr, before, _⟩, _⟩ := lawful.obeys (.points q o) (Or.inr waiting)
      have grown : x.facts.Extends t.toFacts := (settles.good.sound x (by
        show x ∈ t.record
        rw [record]
        exact List.mem_append_right _ after)).2
      have later := (keeps.grown.pointers q ptr before).symm.trans (grown.pointers q _ known)
      cases later
      obtain ⟨method, stmts⟩ := attends.told (attends.registered pure none waiting before mentions)
      rw [told_append, told_append]
      exact ⟨List.mem_append_left _ method, fun entry member => List.mem_append_left _ (stmts entry member)⟩
  · obtain ⟨x, rest, start, event⟩ := attends.began
    exact ⟨x, rest ++ new, by rw [record, start, List.cons_append], event⟩
  · rw [record] at member
    rcases List.mem_append.mp member with before | after
    · rcases attends.served x before c asked with queued | served
      · exact step.served lawful queued
      · exact Or.inr (keeps.served served)
    · rw [queue]
      exact Or.inl (List.mem_append_right _ (List.mem_flatMap.mpr ⟨x, after, asked⟩))

theorem Attends.chronicle (finishes : Finishes cx.watched s t) :
    Chronicle cx.program R.law R.rules t.record t.toFacts := by
  have lawful := attends.settles.toLawful
  obtain ⟨coherent, _⟩ := attends.coherent.endPhase lawful.heard.2.2
  have record : t.record = s.record := by rw [finishes.last]; rfl
  rw [← finishes.last] at coherent
  refine ⟨coherent.accounts, coherent.proper, ?_, ?_, ?_⟩
  · rw [record]
    exact fun x member => (lawful.good.sound x member).1
  · rw [record]
    exact attends.timely
  · rw [record]
    exact attends.began

theorem Attends.served_all (finishes : Finishes cx.watched s t) {x : Moment σ} (listed : x ∈ s.record)
    {c : Command} (asked : c ∈ x.commands cx) : s.Served cx.watched c := by
  rcases attends.served x listed c asked with waiting | served
  · rw [finishes.queue] at waiting
    cases waiting
  · exact served

/-- A run that is over has told its handler a story about all that filters spare. -/
theorem Attends.story (finishes : Finishes cx.watched s t) {keep : Obj → Prop}
    (sifts : t.Sifts (R.watched first sleeps) keep) :
    Story cx.program cx.selector R.law R.rules keep cx.handlers.react first t.record t.toFacts := by
  have lawful := attends.settles.toLawful
  have keeps : s.Keeps t := finishes.last ▸ lawful.endPhase_keeps.1
  have record : t.record = s.record := by rw [finishes.last]; rfl
  refine ⟨attends.chronicle finishes, sifts.clean, fun past x rest cut c asked => ?_⟩
  rw [record] at cut
  rw [← lawful.good.past past x rest cut] at asked
  have served := attends.served_all finishes (x := x) (by simp [cut]) asked
  exact sifts.answers (keeps.served served)

theorem Attends.inTime (strict : ¬ R.law.meddles) : ∀ c ∈ s.queue.head?, c.InTime s := by
  intro c next
  obtain ⟨rest, queue⟩ : ∃ rest, s.queue = c :: rest := List.head?_eq_some_iff.mp next
  have permitted := attends.settles.toLawful.permitted queue
  cases c with
  | addFilter pointer keep => exact absurd permitted.1 strict
  | _ => exact trivial

end

theorem Solves.story (solved : Solves cx.watched Policy.callsFirst heap (first, []) t)
    (pure : ∀ x, ¬ R.law.injected x) (sleeps : R.Sleeps) (starts : R.Starts heap first)
    (good : R.Good { heap } first) (sane : Facts.Sane { heap } cx.program R.law) :
    Story cx.program cx.selector R.law R.rules (fun _ => True) cx.handlers.react first t.record
      t.toFacts := by
  have rests := solved.rests ⟨R.watched_opens sleeps starts.toOpens good sane, starts.pure⟩
  obtain ⟨s, run, finishes⟩ := solved
  have attends : Attends R first sleeps s := run.induct (Attends R first sleeps)
    (Attends.start starts.toOpens good sane) fun _ _ attends step =>
      attends.step pure (attends.inTime starts.pure) step
  exact attends.story finishes rests.sifts

end Solver

end PointsTo
