import PointsTo.Proofs.BuiltIn
import PointsTo.Proofs.Cleanness
import PointsTo.Proofs.Story

/-!
Every fact that a run ends with was told at some moment, and what handlers ask for at any moment is found
in the end. The story of a chain is the story of each of its handlers.
-/
namespace PointsTo

variable {p : Program} {σ : Type u} {α τ : Type v} {e : Event} {f : Facts} {chain : Chain}
  {record : List (Moment σ)} {react : Event → Facts → τ → Reaction τ}

theorem EntryPoint.Gives.held {entry : EntryPoint} {x : Fact} (gives : entry.Gives p x) :
    ∀ i ∈ x.held?, i.obj ∈ entry.objs := by
  obtain ⟨this, params, fields, elements⟩ :=
    (EntryPoint.forall_mem_objs (e := entry)).mp fun _ listed => listed
  cases gives with
  | reached => exact nofun
  | this _ _ given =>
    rintro _ ⟨⟩
    exact this _ given
  | param _ _ given =>
    rintro _ ⟨⟩
    exact params _ given
  | field _ given =>
    rintro _ ⟨⟩
    exact (fields _ given).2
  | element _ given =>
    rintro _ ⟨⟩
    exact (elements _ given).2

namespace Facts

variable {f : Facts} {p : Program} {sel : Selector} {c : ContextId} {v : VarId} {frame : Frame}
  {objs : List ObjRef} {r : ObjRef} {i : Item} {keep : Obj → Prop}

theorem Answers.points (answers : f.Answers keep p sel (.addPointsTo (.var c v) objs))
    (named : f.FrameOf c frame) (member : r ∈ objs) (is : f.ObjRefIs r i) (kept : keep i.obj) :
    f.Upholds keep (.points (.var frame v) i) := by
  obtain ⟨x, place, items⟩ := answers
  obtain ⟨j, is', found⟩ := items r member
  obtain rfl := is.unique is'
  obtain rfl : x = .var frame v := place.unique ⟨named, rfl⟩
  exact Facts.upholds_points.mpr ⟨found (by rintro _ ⟨⟩; exact kept), kept⟩

theorem answers_pointsTo (answers : ∀ d ∈ Command.pointsTo (.var c v) objs, f.Answers keep p sel d)
    (named : f.FrameOf c frame) (member : r ∈ objs) (is : f.ObjRefIs r i) (kept : keep i.obj) :
    f.Upholds keep (.points (.var frame v) i) := by
  refine Answers.points (answers (.addPointsTo (.var c v) objs) ?_) named member is kept
  unfold Command.pointsTo
  rw [if_neg (by rw [List.isEmpty_iff]; exact List.ne_nil_of_mem member)]
  exact List.mem_singleton_self _

theorem Answers.varObj {o : Obj} (answers : f.Answers keep p sel (Command.varObj c v o))
    (named : f.FrameOf c frame) (kept : keep o) : f.Upholds keep (.points (.var frame v) ⟨[], o⟩) :=
  Answers.points answers named (List.mem_singleton_self _) (f.objRefIs_plain o) kept

theorem Answers.method {m : MethodId} (answers : f.Answers keep p sel (.addEntryPoint { method := m })) :
    f.Upholds keep (.reached [] m) := Facts.upholds_of_found (answers _ .reached nofun) rfl

theorem Answers.entry {entry : EntryPoint} (answers : f.Answers keep p sel (.addEntryPoint entry))
    (kept : ∀ o ∈ entry.objs, keep o) {x : Fact} (gives : entry.Gives p x) : f.Upholds keep x := by
  have within : ∀ i ∈ x.held?, keep i.obj := fun i held => kept _ (gives.held i held)
  exact ⟨answers x gives within, within⟩

theorem Answers.flow {label : FlowLabel} {source target : PointerRef} {x y : Cell}
    (answers : f.Answers keep p sel (.addFlow label source target)) (from_ : f.PointerRefIs source x)
    (to_ : f.PointerRefIs target y) : f.Carries keep label x y := by
  obtain ⟨x', y', source', target', carries⟩ := answers
  obtain rfl := from_.unique source'
  obtain rfl := to_.unique target'
  exact carries

theorem Answers.elementFlow {origin : String} {site : StmtRef} {source target : ObjRef} {j : Item}
    (answers : f.Answers keep p sel (Natives.elementFlow origin site source target))
    (from_ : f.ObjRefIs source i) (to_ : f.ObjRefIs target j) :
    f.Carries keep (.other { origin, key := site.code }) (.element i) (.element j) :=
  Answers.flow (x := .element i) (y := .element j) answers from_ to_

end Facts

theorem mem_told {pick : Event → Option α} {a : α} :
    a ∈ told pick record ↔ ∃ past x rest, record = past ++ x :: rest ∧ pick x.event = some a := by
  unfold told
  rw [List.mem_filterMap]
  constructor
  · rintro ⟨x, member, picked⟩
    obtain ⟨past, rest, cut⟩ := List.append_of_mem member
    exact ⟨past, x, rest, cut, picked⟩
  · rintro ⟨past, x, rest, rfl, picked⟩
    exact ⟨x, by simp, picked⟩

theorem told_snoc (pick : Event → Option α) (past : List (Moment σ)) (x : Moment σ) :
    told pick (past ++ [x]) = told pick past ++ (pick x.event).toList := by
  rw [told_append]
  cases picked : pick x.event <;> simp [told, picked]

namespace Chronicle

variable {σ : Type u} {p : Program} {law : Law} {rules : HeapRules} {record past rest : List (Moment σ)}
  {t : Facts} {x y : Moment σ} {q : PointerId} {o : CsObjId} {i : Item} {frame : Frame} {v : VarId} {m : MethodId}
  {e : CallEdge}

variable (chronicle : Chronicle p law rules record t)

include chronicle

theorem below (cut : record = past ++ x :: rest) : x.facts.Below t := chronicle.accounts.kept.2 x (by simp [cut])

theorem soundAt (cut : record = past ++ x :: rest) : x.Sound p law rules := chronicle.sound x (by simp [cut])

theorem earlier (cut : record = past ++ x :: rest) (before : y ∈ past) :
    y.facts.Below x.facts := (chronicle.proper past x rest cut).2 y before

theorem came (held : t.elements.Holds q o) :
    ∃ past x rest delta, record = past ++ x :: rest ∧
      x.event = .arrived q delta ∧ o ∈ delta ∧ x.facts.elements.Holds q o := by
  obtain ⟨delta, tells, member⟩ := (chronicle.accounts.union q o).mp held
  obtain ⟨past, x, rest, cut, picked⟩ := mem_told.mp tells
  have event := Event.delta?_eq_some.mp picked
  exact ⟨past, x, rest, delta, cut, event, member,
    (chronicle.accounts.arrived x (by simp [cut]) q delta event).2 o member⟩

theorem arrival {cell : Cell} (found : t.Found (.points cell i)) :
    ∃ past x rest q delta o, record = past ++ x :: rest ∧
      x.event = .arrived q delta ∧ o ∈ delta ∧ x.facts.CellOf q cell ∧ x.facts.ItemOf o i := by
  obtain ⟨q, o, place, item, held⟩ := found
  obtain ⟨past, x, rest, delta, cut, event, member, inside⟩ := chronicle.came held
  -- handles keep their meaning, so the cell and the item are already named at that moment
  obtain ⟨cell', i', place', item', _⟩ := (chronicle.soundAt cut).sane.held q o inside
  have grown := (chronicle.below cut).toExtends
  obtain rfl := place.unique (grown.cellOf place')
  obtain rfl := item.unique (grown.itemOf item')
  exact ⟨past, x, rest, q, delta, o, cut, event, member, place', item'⟩

theorem arrivalAt (found : t.Found (.points (.var frame v) i)) :
    ∃ past x rest q delta o c,
      record = past ++ x :: rest ∧ x.event = .arrived q delta ∧ o ∈ delta ∧
      x.facts.elements.pointer? q = some (.var c v) ∧ x.facts.FrameOf c frame ∧ x.facts.ItemOf o i := by
  obtain ⟨past, x, rest, q, delta, o, cut, event, member, ⟨ptr, known, is⟩, item⟩ := chronicle.arrival found
  cases ptr with
  | var c w =>
    obtain ⟨named, rfl⟩ := is
    exact ⟨past, x, rest, q, delta, o, c, cut, event, member, known, named, item⟩
  | _ => exact is.elim

theorem seen (cut : record = past ++ x :: rest) (until_ : y ∈ past ++ [x]) {delta : ObjSet}
    (event : y.event = .arrived q delta) {c : ContextId} (known : y.facts.elements.pointer? q = some (.var c v))
    (new : o ∈ delta) : o ∈ (x.facts.varPts? c v).getD ObjSet.empty := by
  have below : y.facts.Below x.facts := by
    rcases List.mem_append.mp until_ with before | here
    · exact chronicle.earlier cut before
    · rw [List.mem_singleton.mp here]
      exact Facts.Below.refl _
  have listed : y ∈ record := by
    rw [cut, ← List.singleton_append, ← List.append_assoc]
    exact List.mem_append_left _ until_
  obtain ⟨pts, found, member⟩ :=
    below.holds q o ((chronicle.accounts.arrived y listed q delta event).2 o new)
  have there : x.facts.elements.findPointer? (.var c v) = some q :=
    Table.find?_eq_some_iff.mpr (below.pointers q _ known)
  rw [Facts.varPts?, Elements.varPts?, there, Option.bind_some, found]
  exact member

/-- What is reached was reached at some moment, with its method and its statements told before. -/
theorem entry (found : t.Found (.reached frame m)) :
    ∃ past x rest id c, record = past ++ x :: rest ∧
      x.event = .csMethodReached id ∧ x.facts.elements.method? id = some (c, m) ∧ x.facts.FrameOf c frame ∧
      m ∈ told Event.method? past ∧ ∀ entry ∈ p.stmtRefs m, entry.1 ∈ told Event.stmt? past := by
  obtain ⟨id, named, reachable⟩ := found
  obtain ⟨past, x, rest, cut, picked⟩ := mem_told.mp ((chronicle.accounts.csMethods.2 id).mpr reachable)
  have event := Event.csMethod?_eq_some.mp picked
  have fits := (chronicle.proper past x rest cut).1
  obtain ⟨_, c, n, known, method, stmts, _⟩ := fits.of_event event
  obtain ⟨frame', place, _⟩ := (chronicle.soundAt cut).sane.methods id c n known
  obtain ⟨rfl, rfl⟩ := named.unique ((chronicle.below cut).toExtends.methodOf ⟨c, known, place⟩)
  exact ⟨past, x, rest, id, c, cut, event, known, place, method, stmts⟩

theorem recorded (cut : record = past ++ x :: rest) (event : x.event = .called e) : e ∈ x.facts.calls.edges := by
  have here := (chronicle.soundAt cut).named
  rw [event] at here
  exact here.resolve_left Event.noConfusion

theorem calling (edge : e ∈ t.calls.edges) :
    ∃ past x rest, record = past ++ x :: rest ∧ x.event = .called e ∧
      ∃ c site d m, x.facts.CallOf e c site d m := by
  obtain ⟨past, x, rest, cut, picked⟩ := mem_told.mp ((chronicle.accounts.calls.2 e).mpr edge)
  have event := Event.call?_eq_some.mp picked
  obtain ⟨c, site, d, m, named, _⟩ := (chronicle.soundAt cut).sane.calls e (chronicle.recorded cut event)
  exact ⟨past, x, rest, cut, event, c, site, d, m, named⟩

theorem registration (found : t.Found (.reached frame m)) :
    ∃ past x rest, record = past ++ x :: rest ∧ x.event = .methodReached m := by
  obtain ⟨past, x, rest, _, _, cut, _, _, _, method, _⟩ := chronicle.entry found
  obtain ⟨before, y, between, rfl, picked⟩ := mem_told.mp method
  exact ⟨before, y, between ++ x :: rest, by rw [cut, List.append_assoc, List.cons_append],
    Event.method?_eq_some.mp picked⟩

end Chronicle

/-- What one moment after the other preserves holds of all that a handler comes to. -/
theorem replay_induct {first : τ} (holds : List (Moment σ) → τ → Prop) (start : holds [] first)
    (step : ∀ past x rest, record = past ++ x :: rest → holds past (replay react first past) →
      holds (past ++ [x]) (react x.event x.facts (replay react first past)).state) (past rest : List (Moment σ))
    (cut : record = past ++ rest) : holds past (replay react first past) := by
  induction past using List.reverseRecOn generalizing rest with
  | nil => exact start
  | append_singleton past x ih =>
    have cut' : record = past ++ x :: rest := by simpa using cut
    rw [replay_snoc]
    exact step past x rest cut' (ih _ cut')

theorem replay_wrap {ρ : Type w} {react' : Event → Facts → ρ → Reaction ρ} {wrap : ρ → τ}
    (commutes : ∀ e f s, react e f (wrap s) = (react' e f s).map wrap) (first : ρ) (past : List (Moment σ)) :
    replay react (wrap first) past = wrap (replay react' first past) := by
  induction past using List.reverseRecOn with
  | nil => rfl
  | append_singleton past x ih => rw [replay_snoc, replay_snoc, ih, commutes]; rfl

theorem Chain.replay_eq (p : Program) (chain : Chain) (past : List (Moment σ)) :
    replay (Chain.react p) chain past = chain.map fun h => replay (Handler.react p) h past := by
  induction past using List.reverseRecOn with
  | nil => exact (List.map_id' chain).symm
  | append_singleton past x ih =>
    simp only [replay_snoc, ih, Chain.react_state, List.map_map]
    rfl

theorem Chain.sleeps {sel : Selector} {rules : HeapRules} {holds : Fact → Prop} (declared : p.Scoped)
    (closed : Closed (Rule p sel rules) holds) : (Chain.regime p sel rules declared closed).Sleeps :=
  fun n f _ remembers => phaseEnd_silent (fun h member => (remembers h member).plain) f n

namespace Story

variable {σ : Type u} {τ : Type v} {ρ : Type w} {p : Program} {sel : Selector} {law : Law}
  {rules : HeapRules} {keep : Obj → Prop} {record : List (Moment σ)} {t : Facts}

theorem restrict {react : Event → Facts → τ → Reaction τ} {react' : Event → Facts → ρ → Reaction ρ}
    (wrap : ρ → τ) {first : ρ} (story : Story p sel law rules keep react (wrap first) record t)
    (commutes : ∀ e f s, react e f (wrap s) = (react' e f s).map wrap) :
    Story p sel law rules keep react' first record t := by
  refine ⟨story.toChronicle, story.clean, fun past x rest cut c asked => story.answers past x rest cut c ?_⟩
  rw [replay_wrap commutes, commutes]
  exact asked

theorem member (story : Story p sel law rules keep (Chain.react p) chain record t) {h : Handler}
    (listed : h ∈ chain) : Story p sel law rules keep (Handler.react p) h record t := by
  refine ⟨story.toChronicle, story.clean, fun past x rest cut c asked => story.answers past x rest cut c ?_⟩
  rw [Chain.replay_eq]
  exact Chain.mem_commands.mpr ⟨_, List.mem_map_of_mem listed, asked⟩

end Story

end PointsTo
