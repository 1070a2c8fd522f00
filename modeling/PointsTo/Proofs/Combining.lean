import PointsTo.Proofs.Sanitizing

/-!
Taint configurations from several documents. Entries count once, where they occur first, so merging is
associative, and a document may be cut into consecutive files or repeated in a later one.
-/
namespace PointsTo

section Lists

variable {α : Type} [DecidableEq α]

/-- The items in order of their first occurrence, each once. -/
structure Firsts (items firsts : List α) : Prop where
  distinct : firsts.Nodup
  mem : ∀ a, a ∈ firsts ↔ a ∈ items
  ordered : firsts.Pairwise fun a b => items.idxOf a < items.idxOf b

theorem appendNew_append (into first second : List α) :
    appendNew into (first ++ second) = appendNew (appendNew into first) second := by
  induction first generalizing into with
  | nil => rfl
  | cons a rest ih => exact ih _

theorem appendNew_snoc (into items : List α) (a : α) : appendNew into (items ++ [a]) =
    if a ∈ appendNew into items then appendNew into items else appendNew into items ++ [a] :=
  appendNew_append into items [a]

theorem appendNew_assoc (first second third : List α) :
    appendNew (appendNew first second) third = appendNew first (appendNew second third) := by
  induction third using List.reverseRecOn with
  | nil => rfl
  | append_singleton third a ih =>
    rw [appendNew_snoc, appendNew_snoc, ih]
    by_cases known : a ∈ appendNew second third
    · rw [if_pos known, if_pos (mem_appendNew.mpr (Or.inr known))]
    · rw [if_neg known, appendNew_snoc]

theorem firsts_appendNew (items : List α) : Firsts items (appendNew [] items) := by
  induction items using List.reverseRecOn with
  | nil => exact ⟨List.nodup_nil, fun _ => Iff.rfl, List.Pairwise.nil⟩
  | append_singleton items a ih =>
    have inside {b} (known : b ∈ appendNew [] items) : (items ++ [a]).idxOf b = items.idxOf b :=
      List.idxOf_append_of_mem ((ih.mem b).mp known)
    have ordered : (appendNew [] items).Pairwise fun b c =>
        (items ++ [a]).idxOf b < (items ++ [a]).idxOf c :=
      ih.ordered.imp_of_mem fun left right less => by rwa [inside left, inside right]
    refine ⟨appendNew_nodup List.nodup_nil, fun b => by simp [mem_appendNew], ?_⟩
    rw [appendNew_snoc]
    split
    · exact ordered
    · next new =>
      refine List.pairwise_append.mpr ⟨ordered, List.pairwise_singleton _ _, fun b known c last => ?_⟩
      have absent : a ∉ items := mt (ih.mem a).mpr new
      rw [List.mem_singleton.mp last, inside known, List.idxOf_append_of_notMem absent, List.idxOf_cons_self]
      exact List.idxOf_lt_length_of_mem ((ih.mem b).mp known)

end Lists

section Outcomes

variable {ε : Type u} {α β γ : Type v} {f : α → Except ε β} {items rest : List α} {found : List β} {a : α}

theorem bind_eq_ok {x : Except ε α} {next : α → Except ε β} {b : β} :
    x >>= next = .ok b ↔ ∃ a, x = .ok a ∧ next a = .ok b := by
  cases x <;> simp [bind, Except.bind]

theorem mapM_cons_ok : (a :: rest).mapM f = .ok found ↔
    ∃ b others, f a = .ok b ∧ rest.mapM f = .ok others ∧ b :: others = found := by
  simp only [List.mapM_cons, bind_eq_ok, pure, Except.pure, Except.ok.injEq, exists_and_left]

theorem mapM_eq_ok {valid : α → Prop} {answer : α → β} (each : ∀ a b, f a = .ok b ↔ valid a ∧ answer a = b) :
    items.mapM f = .ok found ↔ (∀ a ∈ items, valid a) ∧ items.map answer = found := by
  induction items generalizing found with
  | nil => simp [pure, Except.pure]
  | cons a rest ih =>
    simp only [mapM_cons_ok, each, ih, List.forall_mem_cons, List.map_cons]
    grind

theorem mapM_comp_ok {g : β → Except ε γ} {h : α → Except ε γ}
    (both : ∀ a c, h a = .ok c ↔ ∃ b, f a = .ok b ∧ g b = .ok c) {result : List γ} :
    items.mapM h = .ok result ↔ ∃ found, items.mapM f = .ok found ∧ found.mapM g = .ok result := by
  induction items generalizing result with
  | nil => simp [pure, Except.pure]
  | cons a rest ih =>
    simp only [mapM_cons_ok, both, ih]
    constructor
    · rintro ⟨c, others, ⟨b, first, second⟩, ⟨found, made, later⟩, rfl⟩
      exact ⟨b :: found, ⟨b, found, first, made, rfl⟩, mapM_cons_ok.mpr ⟨c, others, second, later, rfl⟩⟩
    · rintro ⟨_, ⟨b, found, first, made, rfl⟩, answered⟩
      obtain ⟨c, others, second, later, rfl⟩ := mapM_cons_ok.mp answered
      exact ⟨c, others, ⟨b, first, second⟩, ⟨found, made, later⟩, rfl⟩

theorem foldlM_eq_ok {g : γ → β → γ} {start result : γ} :
    items.foldlM (fun sum a => do return g sum (← f a)) start = .ok result ↔
      ∃ found, items.mapM f = .ok found ∧ found.foldl g start = result := by
  induction items generalizing start with
  | nil => simp [pure, Except.pure]
  | cons a rest ih =>
    simp only [List.foldlM_cons, bind_eq_ok, pure, Except.pure, Except.ok.injEq, mapM_cons_ok] at ih ⊢
    constructor
    · rintro ⟨_, ⟨b, first, rfl⟩, later⟩
      obtain ⟨others, made, rfl⟩ := ih.mp later
      exact ⟨b :: others, ⟨b, others, first, made, rfl⟩, rfl⟩
    · rintro ⟨_, ⟨b, others, first, made, rfl⟩, rfl⟩
      exact ⟨_, ⟨b, first, rfl⟩, ih.mpr ⟨others, made, rfl⟩⟩

end Outcomes

namespace TaintConfig

variable {configs : List TaintConfig} {c : TaintConfig}

/-- The entries of all configurations, one after the other. -/
def concat (configs : List TaintConfig) : TaintConfig where
  sources := configs.flatMap (·.sources)
  sinks := configs.flatMap (·.sinks)
  transfers := configs.flatMap (·.transfers)
  sanitizers := configs.flatMap (·.sanitizers)
  callSiteMode := configs.any (·.callSiteMode)

/-- Every entry of the configurations once, in order of first occurrence, and the mode if one of them has it. -/
structure Combines (configs : List TaintConfig) (c : TaintConfig) : Prop where
  sources : Firsts (concat configs).sources c.sources
  sinks : Firsts (concat configs).sinks c.sinks
  transfers : Firsts (concat configs).transfers c.transfers
  sanitizers : Firsts (concat configs).sanitizers c.sanitizers
  mode : c.callSiteMode = true ↔ ∃ d ∈ configs, d.callSiteMode = true

theorem merge_assoc (a b c : TaintConfig) : (a.merge b).merge c = a.merge (b.merge c) := by
  simp only [merge, appendNew_assoc, Bool.or_assoc]

theorem foldl_merge (start : TaintConfig) (configs : List TaintConfig) :
    configs.foldl merge start = start.merge (concat configs) := by
  induction configs generalizing start with
  | nil => simp [merge, concat, appendNew]
  | cons c rest ih =>
    rw [List.foldl_cons, ih]
    simp only [merge, concat, List.flatMap_cons, appendNew_append, List.any_cons, Bool.or_assoc]

theorem foldl_merge_combines (configs : List TaintConfig) : Combines configs (configs.foldl merge {}) := by
  rw [foldl_merge]
  exact ⟨firsts_appendNew _, firsts_appendNew _, firsts_appendNew _, firsts_appendNew _, by simp [merge, concat]⟩

theorem merge_of_mem (member : c ∈ configs) : (configs.foldl merge {}).merge c = configs.foldl merge {} := by
  have known {α : Type} [DecidableEq α] (entries : TaintConfig → List α) :
      appendNew (appendNew [] (configs.flatMap entries)) (entries c) = appendNew [] (configs.flatMap entries) :=
    appendNew_of_subset fun a inside => mem_appendNew.mpr (Or.inr (List.mem_flatMap.mpr ⟨c, member, inside⟩))
  have mode : (configs.any (·.callSiteMode) || c.callSiteMode) = configs.any (·.callSiteMode) := by
    grind
  simp only [foldl_merge, merge, concat, known, Bool.false_or, mode]

end TaintConfig

namespace TaintDocument

variable {p : Program} {d : TaintDocument} {docs before after : List TaintDocument} {r : TaintConfig}

/-- The entries of all documents, one after the other. -/
def concat (docs : List TaintDocument) : TaintDocument where
  sources := docs.flatMap (·.sources)
  sinks := docs.flatMap (·.sinks)
  transfers := docs.flatMap (·.transfers)
  sanitizers := docs.flatMap (·.sanitizers)
  callSiteMode := docs.any (·.callSiteMode)

/-- All entries can be resolved. -/
structure Valid (p : Program) (d : TaintDocument) : Prop where
  sources : ∀ e ∈ d.sources, (resolveSource p e).isOk
  sinks : ∀ e ∈ d.sinks, (resolveSink p e).isOk
  transfers : ∀ e ∈ d.transfers, (resolveTransfer p e).isOk
  sanitizers : ∀ e ∈ d.sanitizers, (resolveSanitizer p e).isOk

/-- What the entries resolve to; some are left out. -/
def entries (p : Program) (d : TaintDocument) : TaintConfig where
  sources := d.sources.filterMap fun e => (resolveSource p e).toOption.join
  sinks := d.sinks.filterMap fun e => (resolveSink p e).toOption.join
  transfers := d.transfers.filterMap fun e => (resolveTransfer p e).toOption.join
  sanitizers := d.sanitizers.filterMap fun e => (resolveSanitizer p e).toOption.join
  callSiteMode := d.callSiteMode

theorem resolve_eq_ok : d.resolve p = .ok r ↔ d.Valid p ∧ d.entries p = r := by
  have each {α β : Type} {find : α → Except ConfigError (Option β)} (a : α) (b : Option β) :
      find a = .ok b ↔ (find a).isOk ∧ (find a).toOption.join = b := by
    cases find a <;> simp [Except.isOk, Except.toBool, Except.toOption]
  simp only [resolve, bind_eq_ok, mapM_eq_ok each, pure, Except.pure, Except.ok.injEq]
  constructor
  · rintro ⟨_, ⟨sources, rfl⟩, _, ⟨sinks, rfl⟩, _, ⟨transfers, rfl⟩, _, ⟨sanitizers, rfl⟩, rfl⟩
    exact ⟨⟨sources, sinks, transfers, sanitizers⟩, by simp [entries]⟩
  · rintro ⟨⟨sources, sinks, transfers, sanitizers⟩, rfl⟩
    exact ⟨_, ⟨sources, rfl⟩, _, ⟨sinks, rfl⟩, _, ⟨transfers, rfl⟩, _, ⟨sanitizers, rfl⟩,
      by simp [entries]⟩

theorem valid_concat : (concat docs).Valid p ↔ ∀ d ∈ docs, d.Valid p := by
  constructor
  · intro valid d member
    have inside {α : Type} {part : TaintDocument → List α} {e : α} (listed : e ∈ part d) : e ∈ docs.flatMap part :=
      List.mem_flatMap.mpr ⟨d, member, listed⟩
    exact ⟨fun e listed => valid.sources e (inside listed), fun e listed => valid.sinks e (inside listed),
      fun e listed => valid.transfers e (inside listed), fun e listed => valid.sanitizers e (inside listed)⟩
  · intro valid
    constructor
    all_goals
      intro e listed
      obtain ⟨d, member, inside⟩ := List.mem_flatMap.mp listed
    · exact (valid d member).sources e inside
    · exact (valid d member).sinks e inside
    · exact (valid d member).transfers e inside
    · exact (valid d member).sanitizers e inside

theorem entries_concat : (concat docs).entries p = TaintConfig.concat (docs.map (entries p)) := by
  simp [concat, entries, TaintConfig.concat, List.filterMap_flatMap, List.flatMap_map, Function.comp_def]

/-- The configuration that documents resolve to, merged in order. -/
def Resolve (p : Program) (docs : List TaintDocument) (c : TaintConfig) : Prop :=
  ∃ configs, docs.mapM (resolve p) = .ok configs ∧ configs.foldl TaintConfig.merge {} = c

theorem resolve_iff : Resolve p docs r ↔
    (∀ d ∈ docs, d.Valid p) ∧ (docs.map (entries p)).foldl TaintConfig.merge {} = r := by
  simp only [Resolve, mapM_eq_ok fun _ _ => resolve_eq_ok, and_assoc, exists_and_left, exists_eq_left']

theorem resolve_split {parts : List TaintDocument} :
    Resolve p (before ++ concat parts :: after) r ↔ Resolve p (before ++ parts ++ after) r := by
  simp [resolve_iff, valid_concat, entries_concat, TaintConfig.foldl_merge _ (parts.map _), and_assoc, or_imp,
    forall_and]

theorem resolve_repeated (member : d ∈ before) :
    Resolve p (before ++ d :: after) r ↔ Resolve p (before ++ after) r := by
  simp [resolve_iff, TaintConfig.merge_of_mem (List.mem_map_of_mem member)]
  grind

end TaintDocument

namespace TaintConfig

variable {p : Program} {t : FileTree} {path : String} {c : TaintConfig}

def readDocument (t : FileTree) (file : String) : Except ConfigError TaintDocument := do
  TaintDocument.parse file (← t.readText file)

/-- The documents in the files of a path, in order. -/
def Documents (t : FileTree) (path : String) (docs : List TaintDocument) : Prop :=
  ∃ files, filesAt t path = .ok files ∧ files.mapM (readDocument t) = .ok docs

theorem ofFile_eq_ok {file : String} :
    ofFile p t file = .ok c ↔ ∃ d, readDocument t file = .ok d ∧ d.resolve p = .ok c := by
  have located {outcome : Except ConfigError TaintConfig} :
      outcome.mapError (ConfigError.located file) = .ok c ↔ outcome = .ok c := by
    cases outcome <;> simp [Except.mapError]
  simp only [ofFile, readDocument, bind_eq_ok, located]
  grind

theorem load_eq_ok : load p t path = .ok c ↔ ∃ docs, Documents t path docs ∧ TaintDocument.Resolve p docs c := by
  simp only [load, bind_eq_ok (x := filesAt t path), foldlM_eq_ok, mapM_comp_ok fun _ _ => ofFile_eq_ok]
  constructor
  · rintro ⟨files, found, configs, ⟨docs, read, made⟩, rfl⟩
    exact ⟨docs, ⟨files, found, read⟩, configs, made, rfl⟩
  · rintro ⟨docs, ⟨files, found, read⟩, configs, made, rfl⟩
    exact ⟨files, found, configs, ⟨docs, read, made⟩, rfl⟩

theorem Documents.load_iff {docs : List TaintDocument} (documents : Documents t path docs) :
    load p t path = .ok c ↔ TaintDocument.Resolve p docs c := by
  rw [load_eq_ok]
  refine ⟨fun loaded => ?_, fun made => ⟨docs, documents, made⟩⟩
  obtain ⟨docs', ⟨files', found', read'⟩, made⟩ := loaded
  obtain ⟨files, found, read⟩ := documents
  cases found.symm.trans found'
  cases read.symm.trans read'
  exact made

/-- Merging is associative. A path is loaded by merging what its documents resolve to, which gives every entry once,
where it occurs first. So a document may be cut into consecutive files, and repeated in a later one. -/
theorem documents_merged (p : Program) :
    (∀ a b c : TaintConfig, (a.merge b).merge c = a.merge (b.merge c)) ∧
    (∀ configs : List TaintConfig, Combines configs (configs.foldl merge {})) ∧
    (∀ t path c, load p t path = .ok c ↔ ∃ docs configs, Documents t path docs ∧
      docs.mapM (·.resolve p) = .ok configs ∧ configs.foldl merge {} = c) ∧
    (∀ t path t' path' before parts after, Documents t path (before ++ TaintDocument.concat parts :: after) →
      Documents t' path' (before ++ parts ++ after) → ∀ c, load p t path = .ok c ↔ load p t' path' = .ok c) ∧
    ∀ t path t' path' before d after, d ∈ before → Documents t path (before ++ d :: after) →
      Documents t' path' (before ++ after) → ∀ c, load p t path = .ok c ↔ load p t' path' = .ok c := by
  refine ⟨merge_assoc, foldl_merge_combines, fun t path c => ?_, ?_, ?_⟩
  · simp only [load_eq_ok, TaintDocument.Resolve, exists_and_left]
  · intro t path t' path' before parts after whole split c
    rw [whole.load_iff, split.load_iff, TaintDocument.resolve_split]
  · intro t path t' path' before d after member whole once c
    rw [whole.load_iff, once.load_iff, TaintDocument.resolve_repeated member]

deriving instance DecidableEq for SourceEntry, SinkEntry, TransferEntry, SanitizerEntry, TaintDocument

/-- One document for the sales of the shop. -/
def salesFile : FileTree where
  root := ""
  files := [(["sales.json"],
    some "\x7b\"sinks\":[[\"<Shop: void sell(Rag)>\",0]],\"call-site-mode\":true\x7d")]

def saleFiles : FileTree where
  root := ""
  files := [(["a.json"], some "\x7b\"sinks\":[[\"<Shop: void sell(Rag)>\",0]]\x7d"),
    (["b.json"], some "\x7b\"call-site-mode\":true\x7d")]

def saleDocs : List TaintDocument := [{ sinks := [⟨"<Shop: void sell(Rag)>", "0"⟩] }, { callSiteMode := true }]

/-- The document may be cut in two, and the first part may be repeated at the end. -/
theorem shop_documents_merged :
    load shop salesFile "/sales.json" = .ok { sinks := [⟨3, .var (.arg 0)⟩], callSiteMode := true } ∧
    load shop saleFiles "/" = load shop salesFile "/sales.json" ∧
    load shop (saleFiles.addFile "c.json" (saleFiles.files.lookup ["a.json"]).join) "/" =
      load shop salesFile "/sales.json" := by
  have whole : Documents salesFile "/sales.json" [TaintDocument.concat saleDocs] :=
    ⟨["/sales.json"], Analysis.ok_of_toOption (by decide +kernel), Analysis.ok_of_toOption (by decide +kernel)⟩
  have parts : Documents saleFiles "/" saleDocs :=
    ⟨_, filesAt_root rfl (by decide +kernel) (by decide +kernel), Analysis.ok_of_toOption (by decide +kernel)⟩
  have again : Documents (saleFiles.addFile "c.json" (saleFiles.files.lookup ["a.json"]).join) "/"
      (saleDocs ++ [{ sinks := [⟨"<Shop: void sell(Rag)>", "0"⟩] }]) :=
    ⟨_, filesAt_root rfl (by decide +kernel) (by decide +kernel), Analysis.ok_of_toOption (by decide +kernel)⟩
  have loaded : load shop salesFile "/sales.json" = .ok { sinks := [⟨3, .var (.arg 0)⟩], callSiteMode := true } :=
    whole.load_iff.mpr ⟨[{ sinks := [⟨3, .var (.arg 0)⟩], callSiteMode := true }],
      Analysis.ok_of_toOption (by decide +kernel), rfl⟩
  obtain ⟨_, _, _, split, repeated⟩ := documents_merged shop
  have first := (split _ _ _ _ [] saleDocs [] whole (by simpa using parts) _).mp loaded
  have second := (repeated _ _ _ _ saleDocs _ [] List.mem_cons_self again (by simpa using parts) _).mpr first
  exact ⟨loaded, first.trans loaded.symm, second.trans loaded.symm⟩

end TaintConfig

end PointsTo
