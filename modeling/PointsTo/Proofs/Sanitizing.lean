import PointsTo.Proofs.Marking
import PointsTo.Proofs.Obedience
import PointsTo.Proofs.Resolution

/-!
Sanitized parameters. A filter for taint is asked for as soon as the method is reached in a context,
before any object has come to the parameter there. So a sanitized parameter never holds taint and never
passes it on.
-/
namespace PointsTo

variable {p : Program} {t : FileTree}

namespace TaintConfig

def under (c : TaintConfig) (o : Options) : TaintConfig :=
  { c with callSiteMode := c.callSiteMode || o.callSiteMode }

/-- A variable is a sanitized parameter. -/
def Sanitizes (c : TaintConfig) (p : Program) (v : VarId) : Prop :=
  ∃ t ∈ c.sanitizers, ∃ body, p.body? t.method = some body ∧ t.index.paramVar? body = some v

end TaintConfig

namespace Registry

variable {p : Program} {o : Options} {files : FileTree} {chain : Chain} {path : String} {config : TaintConfig}

theorem chain_loaded (given : o.taintConfig = some path)
    (loaded : TaintConfig.load p files path = .ok config) : builtin.chain p o files =
      (o.plugins.mapM builtin.create).map fun extras =>
        [.timer, .entries (Entries.ofOptions p o), .initializers {},
            .threads { methods := ThreadMethods.ofProgram p o }, .natives (Natives.ofProgram p), .exceptions {}]
          ++ (if o.reflection then [.reflection (Reflection.ofProgram p)] else [])
          ++ [.taint (Taint.ofConfig (config.under o))] ++ extras ++ [.warnings {}] := by
  have handler : taintHandler p o files = .ok (.taint (Taint.ofConfig (config.under o))) := by
    simp only [taintHandler, given, loaded, bind, Except.bind]
    rfl
  unfold Registry.chain
  simp only [given, handler, Option.isSome_some, if_true, bind, Except.bind, pure, Except.pure]
  cases o.plugins.mapM builtin.create <;> rfl

theorem chain_taints (made : builtin.chain p o files = .ok chain) (given : o.taintConfig = some path)
    (loaded : TaintConfig.load p files path = .ok config) :
    .taint (Taint.ofConfig (config.under o)) ∈ chain ∧
      ∀ s, .taint s ∈ chain → s = Taint.ofConfig (config.under o) := by
  have listed : .taint (Taint.ofConfig (config.under o)) ∈ chain := by
    rw [chain_loaded given loaded] at made
    cases extras : o.plugins.mapM builtin.create with
    | error e =>
      rw [extras] at made
      cases made
    | ok more =>
      rw [extras] at made
      cases made
      simp
  refine ⟨listed, fun s member => ?_⟩
  -- all taint handlers of a chain have one configuration
  obtain ⟨other, makes⟩ := chain_makes made
  have same : ∀ s, .taint s ∈ chain → s = Taint.ofConfig other := by
    intro s member
    cases makes _ member with
    | taint _ => rfl
  exact (same s member).trans (same _ listed).symm

end Registry

namespace Taint

variable {σ : Type u} {p : Program} {s : Taint}

def after (p : Program) (s : Taint) (record : List (Moment σ)) : Taint :=
  replay (fun e f s => react p s f e) s record

theorem after_frame (p : Program) (s : Taint) (record : List (Moment σ)) :
    (s.after p record).config = s.config ∧ (s.after p record).sources.sources = s.sources.sources ∧
      (s.after p record).transfers.transfers = s.transfers.transfers := by
  induction record using List.reverseRecOn with
  | nil => exact ⟨rfl, rfl, rfl⟩
  | append_singleton record x ih =>
    have acts := react_acts p x.facts (s.after p record) x.event
    rw [after, replay_snoc]
    exact ⟨acts.config.trans ih.1, acts.sources.trans ih.2.1, acts.transfers.trans ih.2.2⟩

theorem replay_eq (p : Program) (s : Taint) (record : List (Moment σ)) :
    replay (Handler.react p) (.taint s) record = .taint (s.after p record) := by
  have commutes : ∀ e f s, Handler.react p e f (.taint s) = (react p s f e).map .taint := fun _ _ _ => rfl
  exact replay_wrap commutes s record

theorem of_replay {h : Handler} {record : List (Moment σ)}
    (same : replay (Handler.react p) h record = .taint s) :
    ∃ first, h = .taint first ∧ s = first.after p record := by
  have id := Handler.id_replay p h record
  rw [same] at id
  cases h with
  | taint first =>
    rw [replay_eq] at same
    cases same
    exact ⟨first, rfl, rfl⟩
  | _ => simp [Handler.id] at id

end Taint

namespace Chain

abbrev setup (p : Program) (sel : Selector) : Setup Chain := ⟨p, sel, Chain.handlers p⟩

variable {p : Program} {sel : Selector} {rules : HeapRules} {ts : List TaintTransfer} {declared : p.Scoped}
  {chain : Chain} {sleeps : (Chain.freely p sel rules ts declared).Sleeps} {w : State (Watched Chain)}
  {past rest : List (Moment Chain)} {x : Moment Chain}

section Heeds

variable (heeds : Solver.Heeds (Chain.freely p sel rules ts declared) chain sleeps w) {d : Command} {s : Taint}
  {c : ContextId} {v : VarId} {obj : Obj}
include heeds

theorem handler_at (cut : w.record = past ++ x :: rest) :
    x.handler = chain.map fun h => replay (Handler.react p) h past :=
  (heeds.settles.good.past past x rest cut).trans (replay_eq p chain past)

theorem handler_now : w.handler.1 = chain.map fun h => replay (Handler.react p) h w.record :=
  heeds.settles.good.present.trans (replay_eq p chain w.record)

theorem asked_by {h : Handler} (cut : w.record = past ++ x :: rest) (listed : h ∈ chain)
    (asked : d ∈ ((replay (Handler.react p) h past).react p x.event x.facts).commands) :
    d ∈ x.commands (setup p sel) := by
  refine mem_commands.mpr ⟨_, ?_, asked⟩
  rw [handler_at heeds cut]
  exact List.mem_map_of_mem listed

theorem asked_by_taint (cut : w.record = past ++ x :: rest) (listed : .taint s ∈ chain)
    (asked : d ∈ ((s.after p past).react p x.facts x.event).commands) : d ∈ x.commands (setup p sel) := by
  refine asked_by heeds cut listed ?_
  rw [Taint.replay_eq]
  exact asked

theorem filtered_by_taint (member : x ∈ w.record) {keep : Obj → Bool}
    (asked : .addFilter (.var c v) keep ∈ x.commands (setup p sel)) :
    ∃ s, .taint s ∈ chain ∧ s.config.Sanitizes p v ∧ keep = fun o => !o.isTaint := by
  obtain ⟨past, rest, cut⟩ := List.append_of_mem member
  obtain ⟨h, listed, asked⟩ := mem_commands.mp asked
  have sound := (heeds.settles.good.sound x member).1
  have behaves : h.Behaves p sel x.facts.heap.rules ts x.facts :=
    sound.rules.symm ▸ heeds.settles.good.ready x member h listed
  rcases behaves with remembers | ⟨s, rfl, _⟩
  · -- the others keep to a law under which nothing is filtered
    have proper := Handler.react_proper remembers sound.sane.only declared sound.named
    exact (proper.commands _ asked).1.elim
  rw [handler_at heeds cut] at listed
  obtain ⟨g, given, same⟩ := List.mem_map.mp listed
  cases (Taint.react_acts p x.facts s x.event).asks _ asked with
  | mark _ puts | pending _ puts => obtain ⟨_, same, _⟩ := puts; cases same
  | transfer _ passes | waiting _ passes => obtain ⟨_, _, same, _⟩ := passes; cases same
  | sanitize _ _ asked =>
    obtain ⟨t, sanitizer, rfl, body, code, _, var, same'⟩ := Taint.mem_sanitize.mp asked
    cases same'
    obtain ⟨s', rfl, rfl⟩ := Taint.of_replay same
    rw [(s'.after_frame p past).1] at sanitizer
    exact ⟨s', given, ⟨t, sanitizer, body, code, var⟩, rfl⟩

theorem sanitizes_of_forbids (forbids : Forbids (setup p sel) w.record c v obj) :
    ∃ s, .taint s ∈ chain ∧ s.config.Sanitizes p v := by
  obtain ⟨x, member, keep, asked, _⟩ := forbids
  obtain ⟨s, listed, sanitizes, _⟩ := filtered_by_taint heeds member asked
  exact ⟨s, listed, sanitizes⟩

/-- Taint is kept away from a sanitized parameter as soon as its method is reached in a context. -/
theorem forbids_of_sanitizes (listed : .taint s ∈ chain) {t : Sanitizer} (sanitizer : t ∈ s.config.sanitizers)
    {body : Body} (code : p.body? t.method = some body) (var : t.index.paramVar? body = some v)
    (reaches : w.Reaches c t.method) (taint : obj.isTaint = true) : Forbids (setup p sel) w.record c v obj := by
  obtain ⟨id, reachable, known⟩ := reaches
  rw [← heeds.coherent.told_csMethod] at reachable
  obtain ⟨past, x, rest, cut, picked⟩ := mem_told.mp reachable
  have event := Event.csMethod?_eq_some.mp picked
  have member : x ∈ w.record := by simp [cut]
  -- the method was known in this context when it was told of
  obtain ⟨_, d, n, before, _⟩ := ((heeds.coherent.proper past x rest cut).1).of_event event
  cases ((heeds.coherent.below x member).methods _ _ before).symm.trans known
  have filters : .addFilter (.var c v) (fun o => !o.isTaint) ∈ (s.after p past).sanitize p c t.method := by
    rw [Taint.mem_sanitize, (s.after_frame p past).1]
    exact ⟨t, sanitizer, rfl, body, code, v, var, rfl⟩
  have acts := Taint.react_acts p x.facts (s.after p past) x.event
  have asked := asked_by_taint heeds cut listed (acts.sanitizes id c t.method event before _ filters)
  exact ⟨x, member, _, asked, by rw [taint]; rfl⟩

theorem clean_of_sanitizes (listed : .taint s ∈ chain) (sanitizes : s.config.Sanitizes p v) {q : PointerId}
    {o : CsObjId} (pointer : w.elements.pointer? q = some (.var c v)) (held : w.Holds q o) :
    ∃ obj, w.obj? o = some obj ∧ obj.isTaint = false := by
  obtain ⟨t, sanitizer, body, code, var⟩ := sanitizes
  obtain ⟨d, described⟩ := heeds.settles.handles.held q o held
  have known := Facts.obj?_of_describe? described
  refine ⟨d.2, known, ?_⟩
  by_contra taint
  -- the method of a parameter that holds something is reachable, and there the filter was asked for
  have reaches := heeds.hosted q o c v _ held pointer (Index.mentions_paramVar? code var)
  exact heeds.absent (forbids_of_sanitizes heeds listed sanitizer code var reaches
    (Bool.not_eq_false _ ▸ taint)) pointer known held

end Heeds

end Chain

/-- A variable holds no taint in a context, and no taint comes out of it over an edge. -/
structure State.Untainted {σ : Type u} (p : Program) (s : State σ) (c : ContextId) (v : VarId) : Prop where
  held : ∀ q o, s.elements.pointer? q = some (.var c v) → s.Holds q o →
    ∃ obj, s.obj? o = some obj ∧ obj.isTaint = false
  flows : ∀ id e set, s.flow.edge? id = some e → s.elements.pointer? e.source = some (.var c v) →
    (∀ o ∈ set, s.Holds e.source o) → ∀ o ∈ (s.flowOver p id set).2,
      ∃ obj, (s.flowOver p id set).1.obj? o = some obj ∧ obj.isTaint = false

/-- Edges that pass on nothing but taint let no taint out of a variable without taint. -/
theorem State.untainted_of_held {σ : Type u} {s : State σ} {c : ContextId} {v : VarId} {config : TaintConfig}
    (held : ∀ q o, s.elements.pointer? q = some (.var c v) → s.Holds q o →
      ∃ obj, s.obj? o = some obj ∧ obj.isTaint = false)
    (retaints : ∀ id e, s.flow.edge? id = some e → e.label.Retaints config) : s.Untainted p c v := by
  refine ⟨held, fun id e set edge source inside o' out => ?_⟩
  have known : s.Describes set := by
    intro o member
    obtain ⟨obj, object, _⟩ := held _ o source (inside o member)
    obtain ⟨h, described⟩ := Facts.describe?_of_obj? object
    exact ⟨_, described⟩
  obtain ⟨o, member, d, crosses, described⟩ := (flowOver_crossed (p := p) edge known).origin o' out
  refine ⟨d.2, Facts.obj?_of_describe? described, ?_⟩
  obtain ⟨obj, object, clean⟩ := held _ o source (inside o member)
  obtain ⟨h, before⟩ := Facts.describe?_of_obj? object
  simp only [Facts.crossing?, before, Option.bind_some] at crosses
  split at crosses
  · split at crosses
    · cases crosses
      exact clean
    · cases crosses
  · split at crosses
    · cases crosses
      exact clean
    · cases crosses
  · next info label =>
    split at crosses
    · next t transfer =>
      -- a transfer takes nothing but taint
      have passes := retaints id e edge
      rw [label] at passes
      obtain ⟨x, _, rfl⟩ := passes t transfer
      rw [taintTransfer_clean clean] at crosses
      cases crosses
    · cases crosses
      exact clean
  · cases crosses
    exact clean

namespace Registry

variable {p : Program} {o : Options} {files : FileTree} {chain : Chain} {sel : Selector} {config : TaintConfig}

section Runs

variable (made : builtin.chain p o files = .ok chain) (declared : p.Scoped)
include made

theorem visits_heeds {w : State (Watched Chain)} (visited : Solver.Visits (Chain.setup p sel).watched
      (Solver.start (Chain.setup p sel).watched (Heap.ofProgram p o.mergeStrings) (chain, [])) w) :
    Solver.Heeds (Chain.freely p sel (HeapRules.ofProgram p o.mergeStrings) chain.transfers declared) chain
      (Chain.prompt declared).sleeps w := by
  have behaves := chain_behaves sel made
  exact visited.heeds (Chain.prompt declared) (Chain.opens declared behaves) behaves (Chain.blank_sane _ _)

theorem visited_heeds {s : State Chain} (visited : Solver.Visits (Chain.setup p sel)
      (Solver.start (Chain.setup p sel) (Heap.ofProgram p o.mergeStrings) chain) s) :
    ∃ w, Solver.Heeds (Chain.freely p sel (HeapRules.ofProgram p o.mergeStrings) chain.transfers declared) chain
      (Chain.prompt declared).sleeps w ∧ w.plain = s := by
  have same : (Solver.start (Chain.setup p sel).watched (Heap.ofProgram p o.mergeStrings) (chain, [])).plain =
      Solver.start (Chain.setup p sel) (Heap.ofProgram p o.mergeStrings) chain := rfl
  rw [← same] at visited
  obtain ⟨w, watched, plain⟩ := visited.watched
  exact ⟨w, visits_heeds made declared watched, plain⟩

theorem solved_heeds {fuel : Nat} {t : State Chain} (solved : Solver.solve (Chain.setup p sel) fuel
      (Heap.ofProgram p o.mergeStrings) chain = some t) :
    ∃ w u, Solver.Heeds (Chain.freely p sel (HeapRules.ofProgram p o.mergeStrings) chain.transfers declared) chain
        (Chain.prompt declared).sleeps w ∧
      Solver.Finishes (Chain.setup p sel).watched w u ∧ t.toFacts = w.toFacts ∧
        t.handler = chain.map fun h => replay (Handler.react p) h w.record := by
  rw [← Solver.plain_solve] at solved
  obtain ⟨u, watched, rfl⟩ := Option.map_eq_some_iff.mp solved
  obtain ⟨w, visited, finishes⟩ := Solver.run_some watched
  have heeds := visits_heeds made declared visited
  obtain ⟨facts, handler⟩ := heeds.finish finishes
  exact ⟨w, u, heeds, finishes, facts, (congrArg Prod.fst handler).trans (Chain.handler_now heeds)⟩

end Runs

theorem visited_vouched (marked : chain.Marked config) {s : State Chain}
    (visited : Solver.Visits (Chain.setup p sel)
      (Solver.start (Chain.setup p sel) (Heap.ofProgram p o.mergeStrings) chain) s) :
    s.Vouched (Chain.voucher p sel config) := by
  have blank : ∀ id obj, (Heap.ofProgram p o.mergeStrings).get? id = some obj → obj.isTaint = false := by
    intro id obj found
    simp [Heap.ofProgram, Heap.get?, Table.get?, Table.empty] at found
  exact (visited.leads (Solver.start_vouched marked blank)).toVouched

theorem solved_vouched (marked : chain.Marked config) {fuel : Nat} {t : State Chain}
    (solved : Solver.solve (Chain.setup p sel) fuel (Heap.ofProgram p o.mergeStrings) chain = some t) :
    t.Vouched (Chain.voucher p sel config) := by
  obtain ⟨s, visited, finishes⟩ := Solver.run_some solved
  rw [finishes.last]
  exact (visited_vouched marked visited).endPhase.toVouched

/-- Sanitized parameters hold no taint and let none out, in every context, in every state of a run and in
its last one. -/
theorem sanitized_untainted {path : String} {config : TaintConfig}
    (made : builtin.chain p o files = .ok chain) (given : o.taintConfig = some path)
    (loaded : TaintConfig.load p files path = .ok config) (declared : p.Scoped) (sel : Selector)
    {t : Sanitizer} (sanitizer : t ∈ config.sanitizers) {body : Body} (code : p.body? t.method = some body)
    {v : VarId} (var : t.index.paramVar? body = some v) (c : ContextId) :
    (∀ s, Solver.Visits (Chain.setup p sel)
        (Solver.start (Chain.setup p sel) (Heap.ofProgram p o.mergeStrings) chain) s → s.Untainted p c v) ∧
      ∀ fuel s, Solver.solve (Chain.setup p sel) fuel (Heap.ofProgram p o.mergeStrings) chain = some s →
        s.Untainted p c v := by
  obtain ⟨listed, _⟩ := chain_taints made given loaded
  obtain ⟨config', marked⟩ := chain_marked made
  have sanitizes : (Taint.ofConfig (config.under o)).config.Sanitizes p v := ⟨t, sanitizer, body, code, var⟩
  constructor
  · intro s visited
    have vouched := visited_vouched marked visited
    obtain ⟨w, heeds, rfl⟩ := visited_heeds made declared visited
    exact State.untainted_of_held (fun q o => Chain.clean_of_sanitizes heeds listed sanitizes) vouched.edges
  · intro fuel s solved
    have vouched := solved_vouched marked solved
    obtain ⟨w, u, heeds, finishes, facts, _⟩ := solved_heeds made declared solved
    refine State.untainted_of_held (fun q o => ?_) vouched.edges
    rw [State.Holds, facts]
    exact Chain.clean_of_sanitizes heeds listed sanitizes

end Registry

/-- What is got is tainted, is washed by a method whose parameter is both a source and sanitized, and is dyed
and sold. What lies on a pile is tainted too, and so is the brand, for which there are two entries. -/
def shop : Program where
  classes := #[⟨"Rag", none, [], false, false, true, [], []⟩, ⟨"Silk", some 0, [], false, false, true, [], []⟩,
    ⟨"Shop", some 0, [], false, false, true, [0, 1, 2, 3, 4, 5], [0]⟩]
  fields := #[⟨"brand", 2, .cls 0, true⟩]
  methods := #[
    { name := "get", owner := 2, params := [], ret := .cls 0, flags := ⟨true, false, false⟩
      subsignature := "Rag get()"
      body := some {
        this := none, params := [], vars := [0], returns := [0], handlers := []
        stmts := [.new 0 (.cls 0), .ret (some 0)] } },
    { name := "wash", owner := 2, params := [.cls 0], ret := .void, flags := ⟨true, false, false⟩
      subsignature := "void wash(Rag)"
      body := some {
        this := none, params := [1], vars := [1, 2], returns := [], handlers := [], stmts := [.copy 2 1] } },
    { name := "dye", owner := 2, params := [.cls 0], ret := .cls 1, flags := ⟨true, false, false⟩
      subsignature := "Silk dye(Rag)"
      body := some {
        this := none, params := [3], vars := [3, 4], returns := [4], handlers := []
        stmts := [.new 4 (.cls 1), .ret (some 4)] } },
    { name := "sell", owner := 2, params := [.cls 0], ret := .void, flags := ⟨true, false, false⟩
      subsignature := "void sell(Rag)"
      body := some { this := none, params := [5], vars := [5], returns := [], handlers := [], stmts := [] } },
    { name := "sort", owner := 2, params := [.array (.cls 0)], ret := .void, flags := ⟨true, false, false⟩
      subsignature := "void sort(Rag[])"
      body := some {
        this := none, params := [6], vars := [6, 7], returns := [], handlers := []
        stmts := [.loadArray 7 6] } },
    .routine 2 "main" "void main()" none [8, 9, 10, 11]
      [.invoke ⟨.static, ⟨2, "Rag get()"⟩, none, [], some 8⟩,
        .invoke ⟨.static, ⟨2, "void wash(Rag)"⟩, none, [8], none⟩,
        .invoke ⟨.static, ⟨2, "Silk dye(Rag)"⟩, none, [8], some 9⟩,
        .invoke ⟨.static, ⟨2, "void sell(Rag)"⟩, none, [9], none⟩,
        .new 10 (.array (.cls 0)),
        .invoke ⟨.static, ⟨2, "void sort(Rag[])"⟩, none, [10], none⟩,
        .loadStatic 11 0]]
  vars := #[⟨"rag", .cls 0, 0⟩, ⟨"p0", .cls 0, 1⟩, ⟨"clean", .cls 0, 1⟩, ⟨"p0", .cls 0, 2⟩, ⟨"silk", .cls 1, 2⟩,
    ⟨"p0", .cls 0, 3⟩, ⟨"p0", .array (.cls 0), 4⟩, ⟨"first", .cls 0, 4⟩, ⟨"rag", .cls 0, 5⟩, ⟨"silk", .cls 1, 5⟩,
    ⟨"pile", .array (.cls 0), 5⟩, ⟨"brand", .cls 0, 5⟩]
  main := some 5

def shopFiles : FileTree where
  root := ""
  files := [
    (["a.json"], some "\x7b\"sources\":[[\"call\",\"<Shop: Rag get()>\",\"result\"]]\x7d"),
    (["b.json"], some "\x7b\"sources\":[[\"param\",\"<Shop: void wash(Rag)>\",0]]\x7d"),
    (["c.json"], some "\x7b\"sources\":[[\"param\",\"<Shop: void sort(Rag[])>\",\"0[*]\"]]\x7d"),
    (["d.json"], some "\x7b\"sources\":[[\"field\",\"<Shop: Rag brand>\"]]\x7d"),
    (["e.json"], some "\x7b\"sources\":[[\"field\",\"<Shop: Rag brand>\",\"Silk\"]]\x7d"),
    (["f.json"], some "\x7b\"sinks\":[[\"<Shop: void sell(Rag)>\",0]]\x7d"),
    (["g.json"], some "\x7b\"transfers\":[[\"<Shop: Silk dye(Rag)>\",0,\"result\"]]\x7d"),
    (["h.json"], some "\x7b\"sanitizers\":[[\"param\",\"<Shop: void wash(Rag)>\",0]]\x7d")]

def shopOptions : Options := { implicitEntries := false, taintConfig := some "/" }

def shopTaint : TaintConfig where
  sources := [.call 0 (.var .result) (.cls 0), .param 1 (.var (.arg 0)) (.cls 0),
    .param 4 ⟨.arg 0, .array⟩ (.cls 0), .field 0 (.cls 0), .field 0 (.cls 1)]
  sinks := [⟨3, .var (.arg 0)⟩]
  transfers := [⟨2, .var (.arg 0), .var .result, .cls 1⟩]
  sanitizers := [⟨1, .arg 0⟩]

theorem FileTree.filesBelow_nil (ordered : (t.files.map (·.1)).Pairwise (placeLe · ·)) :
    t.filesBelow [] = t.files.map (·.1) := by
  have whole : ((t.files.map (·.1)).filter (List.isPrefixOf [])).map (·.drop ([] : List String).length) =
      t.files.map (·.1) := by simp
  rw [filesBelow, whole]
  exact List.mergeSort_of_pairwise ordered

theorem TaintConfig.filesAt_root (root : t.root = "") (file : t.isFile [] = false)
    (ordered : (t.files.map (·.1)).Pairwise (FileTree.placeLe · ·)) :
    filesAt t "/" = .ok (((t.files.map (·.1)).map fun names =>
      FileTree.join "/" (Text.join "/" names)).filter isConfigPath) := by
  have cut : Text.split '/' "/" = ["", ""] := by decide +kernel
  have place : t.place? "/" = some [] := by simp [FileTree.place?, FileTree.walk?, FileTree.isDir, cut, root]
  simp [filesAt, FileTree.filesAt?, place, file, FileTree.isDir, FileTree.filesBelow_nil ordered]

theorem TaintConfig.load_of_files {path : String} {files : List String} (found : filesAt t path = .ok files) :
    load p t path =
      files.foldlM (fun merged file => do return merged.merge (← ofFile p t file)) {} := by
  rw [load, found]
  rfl

def shopPaths : List String :=
  ["/a.json", "/b.json", "/c.json", "/d.json", "/e.json", "/f.json", "/g.json", "/h.json"]

theorem shop_loaded : TaintConfig.load shop shopFiles "/" = .ok shopTaint := by
  have found : TaintConfig.filesAt shopFiles "/" = .ok shopPaths := by
    rw [TaintConfig.filesAt_root rfl (by decide +kernel) (by decide +kernel)]
    exact congrArg _ (by decide +kernel)
  have read : (shopPaths.foldlM (fun (merged : TaintConfig) file => do
      return merged.merge (← TaintConfig.ofFile shop shopFiles file)) {}).toOption = some shopTaint := by
    decide +kernel
  rw [TaintConfig.load_of_files found]
  exact Analysis.ok_of_toOption read

def shopChain : Chain :=
  [.timer, .entries (Entries.ofOptions shop shopOptions), .initializers {},
    .threads { methods := ThreadMethods.ofProgram shop shopOptions }, .natives (Natives.ofProgram shop),
    .exceptions {}, .taint (Taint.ofConfig shopTaint), .warnings {}]

theorem shop_chain : Registry.builtin.chain shop shopOptions shopFiles = .ok shopChain := by
  rw [Registry.chain_loaded rfl shop_loaded]
  rfl

def shopRun : Option (State Chain) :=
  Solver.solve (Chain.setup shop (.limited (.callSite 1))) 400 (Heap.ofProgram shop true) shopChain

def Facts.taints (f : Facts) (v : VarId) : List Bool :=
  (f.objsAt v .var).map fun o => (f.obj? o).any Obj.isTaint

/-- The parameter of the wash, what it is copied to, what lies on the pile, and the rag. -/
theorem shop_taints : ∃ t, shopRun = some t ∧
    [1, 2, 7, 8].map t.toFacts.taints = [[false], [false], [true], [false, true]] := by
  have run : shopRun.map (fun t => [1, 2, 7, 8].map t.toFacts.taints) =
      some [[false], [false], [true], [false, true]] := by decide +kernel
  exact Option.map_eq_some_iff.mp run

/-- The rag is tainted before it is washed and clean from there on, though the wash is a source too. -/
theorem Registry.shop_untainted : ∃ t, shopRun = some t ∧
    t.toFacts.taints 8 = [false, true] ∧ t.toFacts.taints 1 = [false] ∧ t.toFacts.taints 2 = [false] ∧
    ∀ c, t.Untainted shop c 1 ∧ ∀ s, Solver.Visits (Chain.setup shop (.limited (.callSite 1)))
      (Solver.start (Chain.setup shop (.limited (.callSite 1))) (Heap.ofProgram shop true) shopChain) s →
        s.Untainted shop c 1 := by
  obtain ⟨t, run, taints⟩ := shop_taints
  simp only [List.map_cons, List.map_nil, List.cons.injEq] at taints
  have untainted := fun c => sanitized_untainted shop_chain rfl shop_loaded (by decide)
    (.limited (.callSite 1)) (List.mem_singleton_self _) rfl rfl c
  exact ⟨t, run, taints.2.2.2.1, taints.1, taints.2.1, fun c => ⟨(untainted c).2 400 t run, (untainted c).1⟩⟩

end PointsTo
