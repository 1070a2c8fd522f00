import PointsTo.Handlers.Taint
import PointsTo.Proofs.Law

/-!
The places at which taint is let in: at calls and at the entry of methods that are sources, and at the
loads of source fields. The places between which it is passed on: the pointers that the ends of a
transfer stand for at a call.
-/
namespace PointsTo

variable {p : Program} {site : StmtRef} {v : VarId} {g : FieldId}

/-- A place at which taint is let in: its point, the variable, what of it is tainted, and the type. -/
abbrev Opening := SourcePoint × VarId × IndexKind × Ty

inductive Program.Loads (p : Program) (site : StmtRef) (v : VarId) (g : FieldId) : Prop
  | field {base : VarId} (stmt : p.stmt? site = some (.loadField v base g)) : Loads p site v g
  | static (stmt : p.stmt? site = some (.loadStatic v g)) : Loads p site v g

theorem Program.Loads.unique {w : VarId} {h : FieldId} (first : p.Loads site v g) (second : p.Loads site w h) :
    v = w ∧ g = h := by
  cases first with
  | field stmt =>
    cases second with
    | field stmt' =>
      cases stmt.symm.trans stmt'
      exact ⟨rfl, rfl⟩
    | static stmt' => cases stmt.symm.trans stmt'
  | static stmt =>
    cases second with
    | field stmt' => cases stmt.symm.trans stmt'
    | static stmt' =>
      cases stmt.symm.trans stmt'
      exact ⟨rfl, rfl⟩

theorem Program.Loads.writes (loads : p.Loads site v g) :
    ∃ stmt, p.stmt? site = some stmt ∧ stmt.target? = some v := by
  cases loads with
  | field stmt => exact ⟨_, stmt, rfl⟩
  | static stmt => exact ⟨_, stmt, rfl⟩

namespace TaintSources

variable {p : Program} {s : TaintSources} {site : StmtRef} {a : SourcePoint} {v : VarId} {kind : IndexKind}
  {ty : Ty} {objs : ObjSet} {m : MethodId} {g : FieldId}

theorem mem_markInside {mark : Obj} {d : Command} :
    d ∈ markInside objs kind mark ↔ ∃ o ∈ objs, ∃ q, inside? kind o = some q ∧
      d = .addPointsTo q [.plain mark] := by
  simp only [markInside, List.mem_map, List.mem_filterMap]
  constructor
  · rintro ⟨q, ⟨o, held, inside⟩, rfl⟩
    exact ⟨o, held, q, inside, rfl⟩
  · rintro ⟨o, held, q, inside, rfl⟩
    exact ⟨q, ⟨o, held, inside⟩, rfl⟩

theorem recordLoad_frame (p : Program) (s : TaintSources) (site : StmtRef) :
    (s.recordLoad p site).sources = s.sources ∧ (s.recordLoad p site).pending = s.pending := by
  unfold recordLoad
  split
  · split <;> exact ⟨rfl, rfl⟩
  · split <;> exact ⟨rfl, rfl⟩
  · exact ⟨rfl, rfl⟩

theorem mem_recordLoad {x : StmtRef × VarId × FieldId} : x ∈ (s.recordLoad p site).loads ↔
    x ∈ s.loads ∨ x.1 = site ∧ p.Loads site x.2.1 x.2.2 ∧ (s.fieldTy? x.2.2).isSome = true := by
  obtain ⟨place, v, g⟩ := x
  have add : ∀ w h, p.Loads site w h → ((place, v, g) ∈
      (if (s.fieldTy? h).isSome then { s with loads := s.loads ++ [(site, w, h)] } else s).loads ↔
        (place, v, g) ∈ s.loads ∨ place = site ∧ p.Loads site v g ∧ (s.fieldTy? g).isSome = true) := by
    intro w h loads
    split
    · next source =>
      rw [List.mem_append, List.mem_singleton]
      constructor
      · rintro (old | ⟨rfl, rfl, rfl⟩)
        · exact Or.inl old
        · exact Or.inr ⟨rfl, loads, source⟩
      · rintro (old | ⟨rfl, loads', _⟩)
        · exact Or.inl old
        · obtain ⟨rfl, rfl⟩ := loads.unique loads'
          exact Or.inr rfl
    · next other =>
      refine ⟨Or.inl, ?_⟩
      rintro (old | ⟨_, loads', source⟩)
      · exact old
      · obtain ⟨_, rfl⟩ := loads.unique loads'
        exact absurd source other
  unfold recordLoad
  split
  · next stmt => exact add _ _ (.field stmt)
  · next stmt => exact add _ _ (.static stmt)
  · next field static =>
    refine ⟨Or.inl, ?_⟩
    rintro (old | ⟨_, loads, _⟩)
    · exact old
    · cases loads with
      | field stmt => exact absurd stmt (field _ _ _)
      | static stmt => exact absurd stmt (static _ _)

theorem mem_callPoints {call : Invoke} :
    (a, v, kind, ty) ∈ s.callPoints site call m ↔ ∃ index, .call m index ty ∈ s.sources ∧
      index.index.callVar? call = some v ∧ a = .call site index ∧ kind = index.kind := by
  simp only [callPoints, callSources, List.mem_filterMap, Option.map_eq_some_iff]
  constructor
  · rintro ⟨⟨index, ty'⟩, ⟨source, listed, same⟩, w, var, pair⟩
    cases pair
    cases source with
    | call n index' ty'' =>
      simp only [Option.ite_none_right_eq_some, Option.some.injEq] at same
      obtain ⟨rfl, pair⟩ := same
      cases pair
      exact ⟨_, listed, var, rfl, rfl⟩
    | _ => cases same
  · rintro ⟨index, listed, var, rfl, rfl⟩
    exact ⟨(index, ty), ⟨_, listed, by simp⟩, v, var, rfl⟩

theorem mem_methodPoints : (a, v, kind, ty) ∈ s.methodPoints p m ↔
    (∃ body index, p.body? m = some body ∧ .param m index ty ∈ s.sources ∧
      index.index.paramVar? body = some v ∧ a = .param m index ∧ kind = index.kind) ∨
    ∃ site g, (site, v, g) ∈ s.loads ∧ site.method = m ∧ s.fieldTy? g = some ty ∧
      a = .field site g ∧ kind = .var := by
  unfold methodPoints
  rw [List.mem_append]
  refine or_congr ?_ ?_
  · cases code : p.body? m with
    | none => simp
    | some body =>
      simp only [paramSources, List.mem_filterMap, Option.map_eq_some_iff]
      constructor
      · rintro ⟨⟨index, ty'⟩, ⟨source, listed, same⟩, w, var, pair⟩
        cases pair
        cases source with
        | param n index' ty'' =>
          simp only [Option.ite_none_right_eq_some, Option.some.injEq] at same
          obtain ⟨rfl, pair⟩ := same
          cases pair
          exact ⟨body, _, rfl, listed, var, rfl, rfl⟩
        | _ => cases same
      · rintro ⟨_, index, ⟨⟩, listed, var, rfl, rfl⟩
        exact ⟨(index, ty), ⟨_, listed, by simp⟩, v, var, rfl⟩
  · simp only [List.mem_filterMap, List.mem_filter, beq_iff_eq, Option.map_eq_some_iff]
    constructor
    · rintro ⟨⟨site, w, g⟩, ⟨listed, inside⟩, ty', given, pair⟩
      cases pair
      exact ⟨site, g, listed, inside, given, rfl, rfl⟩
    · rintro ⟨site, g, listed, inside, given, rfl, rfl⟩
      exact ⟨(site, v, g), ⟨listed, inside⟩, ty, given, rfl⟩

theorem fieldTy?_eq_some : s.fieldTy? g = some ty ↔
    ∃ before after, s.sources = before ++ .field g ty :: after ∧ ∀ ty', .field g ty' ∉ after := by
  rw [fieldTy?, List.findSome?_eq_some_iff]
  constructor
  · rintro ⟨after, source, before, cut, found, none⟩
    cases source with
    | field h ty' =>
      obtain ⟨rfl, rfl⟩ : h = g ∧ ty' = ty := by simpa using found
      refine ⟨before.reverse, after.reverse, ?_, fun ty' listed => ?_⟩
      · simpa using congrArg List.reverse cut
      · simpa using none _ (List.mem_reverse.mp listed)
    | _ => cases found
  · rintro ⟨before, after, cut, none⟩
    refine ⟨after.reverse, .field g ty, before.reverse, by simp [cut], by simp, fun source listed => ?_⟩
    cases source with
    | field h ty' =>
      have other : h ≠ g := by
        rintro rfl
        exact none ty' (List.mem_reverse.mp listed)
      simp [other]
    | _ => rfl

theorem fieldTy?_mem (found : s.fieldTy? g = some ty) : .field g ty ∈ s.sources := by
  obtain ⟨before, after, cut, _⟩ := fieldTy?_eq_some.mp found
  rw [cut]
  exact List.mem_append_right _ List.mem_cons_self

def Within (objs : ObjSet) (kind : IndexKind) (r : PointerRef) : Prop := ∃ o ∈ objs, inside? kind o = some r

theorem Within.kind_ne {r : PointerRef} (within : Within objs kind r) : kind ≠ .var := by
  rintro rfl
  obtain ⟨o, _, none⟩ := within
  cases none

end TaintSources

namespace TransferSite

variable {f : Facts} {t : TransferSite} {v : VarId}

theorem mem_ends {e : VarId × IndexKind} {r : PointerRef} : r ∈ t.ends f e ↔
    e.2 = .var ∧ r = .var t.context e.1 ∨
      ∃ objs, f.varPts? t.context e.1 = some objs ∧ TaintSources.Within objs e.2 r := by
  unfold ends
  cases kind : e.2 with
  | var => simp [TaintSources.Within, TaintSources.inside?]
  | array | field g =>
    cases f.varPts? t.context e.1 with
    | none => simp
    | some objs =>
      simp only [List.mem_filterMap, reduceCtorEq, false_and, false_or, Option.some.injEq, exists_eq_left']
      exact Iff.rfl

theorem mem_expand {objs : ObjSet} {d : Command} : d ∈ t.expand f v objs ↔ ∃ a b, d = t.edge a b ∧
    (t.source.1 = v ∧ TaintSources.Within objs t.source.2 a ∧ b ∈ t.ends f t.target ∨
      t.target.1 = v ∧ TaintSources.Within objs t.target.2 b ∧ a ∈ t.ends f t.source) := by
  have inside : ∀ (e : VarId × IndexKind) (r : PointerRef),
      r ∈ (if e.1 = v then objs.toList.filterMap (TaintSources.inside? e.2) else []) ↔
        e.1 = v ∧ TaintSources.Within objs e.2 r := by
    intro e r
    by_cases same : e.1 = v
    · rw [if_pos same, List.mem_filterMap]
      exact ⟨fun listed => ⟨same, listed⟩, fun listed => listed.2⟩
    · simp [same]
  simp only [expand, List.mem_append, List.mem_flatMap, List.mem_map, inside]
  constructor
  · rintro (⟨a, ⟨same, within⟩, b, listed, rfl⟩ | ⟨b, ⟨same, within⟩, a, listed, rfl⟩)
    · exact ⟨a, b, rfl, Or.inl ⟨same, within, listed⟩⟩
    · exact ⟨a, b, rfl, Or.inr ⟨same, within, listed⟩⟩
  · rintro ⟨a, b, rfl, ⟨same, within, listed⟩ | ⟨same, within, listed⟩⟩
    · exact Or.inl ⟨a, ⟨same, within⟩, b, listed, rfl⟩
    · exact Or.inr ⟨b, ⟨same, within⟩, a, listed, rfl⟩

end TransferSite

namespace TaintTransfers

variable {s : TaintTransfers} {t : TransferSite} {f : Facts} {sites : List TransferSite} {d : Command}

theorem mem_sitesAt {c : ContextId} {call : Invoke} {callee : MethodId} : t ∈ s.sitesAt c call callee ↔
    ∃ x, s.transfers[t.id]? = some x ∧ x.method = callee ∧ x.source.index.callVar? call = some t.source.1 ∧
      x.target.index.callVar? call = some t.target.1 ∧
      t = ⟨t.id, x.ty, c, (t.source.1, x.source.kind), (t.target.1, x.target.kind)⟩ := by
  simp only [sitesAt, List.mem_filterMap]
  constructor
  · rintro ⟨⟨x, id⟩, indexed, found⟩
    have place := List.mem_zipIdx_iff_getElem?.mp indexed
    dsimp only at found
    split at found
    · next same =>
      split at found
      · next first second =>
        cases found
        exact ⟨x, place, same, first, second, rfl⟩
      · cases found
    · cases found
  · rintro ⟨x, place, same, first, second, whole⟩
    refine ⟨(x, t.id), List.mem_zipIdx_iff_getElem?.mpr place, ?_⟩
    dsimp only
    rw [if_pos same, first, second, whole]

theorem mem_waitsFor {v : VarId} : v ∈ waitsFor t ↔
    t.source.2 ≠ .var ∧ v = t.source.1 ∨ t.target.2 ≠ .var ∧ v = t.target.1 := by
  simp only [waitsFor, List.mem_filterMap, List.mem_cons, List.not_mem_nil, or_false]
  constructor
  · rintro ⟨e, rfl | rfl, found⟩
    · exact Or.inl (by simpa [eq_comm] using found)
    · exact Or.inr (by simpa [eq_comm] using found)
  · rintro (⟨inside, rfl⟩ | ⟨inside, rfl⟩)
    · exact ⟨t.source, Or.inl rfl, if_neg inside⟩
    · exact ⟨t.target, Or.inr rfl, if_neg inside⟩

/-- A transfer that starts joins all that its ends stand for now. -/
theorem mem_start : d ∈ (s.start f t).2 ↔
    ∃ a ∈ t.ends f t.source, ∃ b ∈ t.ends f t.target, d = t.edge a b := by
  unfold start
  split
  · next idle =>
    -- nothing to wait for: both ends are variables
    have none : ∀ v, v ∉ waitsFor t := by simp [idle]
    have first : t.source.2 = .var :=
      Decidable.byContradiction fun inside => none _ (mem_waitsFor.mpr (Or.inl ⟨inside, rfl⟩))
    have second : t.target.2 = .var :=
      Decidable.byContradiction fun inside => none _ (mem_waitsFor.mpr (Or.inr ⟨inside, rfl⟩))
    simp [TransferSite.ends, first, second]
  · next waits =>
    simp only [List.mem_flatMap]
    constructor
    · rintro ⟨v, _, asked⟩
      split at asked
      · next objs held =>
        obtain ⟨a, b, rfl, ⟨rfl, within, listed⟩ | ⟨rfl, within, listed⟩⟩ := TransferSite.mem_expand.mp asked
        · exact ⟨a, TransferSite.mem_ends.mpr (Or.inr ⟨objs, held, within⟩), b, listed, rfl⟩
        · exact ⟨a, listed, b, TransferSite.mem_ends.mpr (Or.inr ⟨objs, held, within⟩), rfl⟩
      · cases asked
    · -- one of the ends lies inside objects, and these are met with the other end
      rintro ⟨a, source, b, target, rfl⟩
      rcases TransferSite.mem_ends.mp source with ⟨var, rfl⟩ | ⟨objs, held, within⟩
      · rcases TransferSite.mem_ends.mp target with ⟨var', rfl⟩ | ⟨objs, held, within⟩
        · exact absurd (by simp [waitsFor, var, var']) waits
        · refine ⟨t.target.1, mem_waitsFor.mpr (Or.inr ⟨within.kind_ne, rfl⟩), ?_⟩
          rw [held]
          exact TransferSite.mem_expand.mpr ⟨_, b, rfl, Or.inr ⟨rfl, within, source⟩⟩
      · refine ⟨t.source.1, mem_waitsFor.mpr (Or.inl ⟨within.kind_ne, rfl⟩), ?_⟩
        rw [held]
        exact TransferSite.mem_expand.mpr ⟨a, b, rfl, Or.inl ⟨rfl, within, target⟩⟩

theorem start_eq (f : Facts) (s : TaintTransfers) (t : TransferSite) :
    (s.start f t).1 = { s with pending := s.pending ++ (waitsFor t).map fun v => (v, t) } := by
  unfold start
  split
  · next idle => simp [idle]
  · rfl

/-- Transfers that start join all that their ends stand for. -/
theorem mem_startAll : d ∈ (s.startAll f sites).2 ↔
    ∃ t ∈ sites, ∃ a ∈ t.ends f t.source, ∃ b ∈ t.ends f t.target, d = t.edge a b := by
  induction sites generalizing s with
  | nil => simp [startAll]
  | cons t rest ih => simp [startAll, mem_start, ih, or_and_right, exists_or]

theorem startAll_eq (f : Facts) (s : TaintTransfers) (sites : List TransferSite) :
    (s.startAll f sites).1 =
      { s with pending := s.pending ++ sites.flatMap fun t => (waitsFor t).map fun v => (v, t) } := by
  induction sites generalizing s with
  | nil => simp [startAll]
  | cons t rest ih => simp only [startAll, ih, start_eq, List.flatMap_cons, List.append_assoc]

theorem startAll_transfers : (s.startAll f sites).1.transfers = s.transfers := by
  rw [startAll_eq]

theorem mem_pending_startAll {x : VarId × TransferSite} :
    x ∈ (s.startAll f sites).1.pending ↔ x ∈ s.pending ∨ x.2 ∈ sites ∧ x.1 ∈ waitsFor x.2 := by
  obtain ⟨v, t⟩ := x
  simp only [startAll_eq, List.mem_append, List.mem_flatMap, List.mem_map, Prod.mk.injEq]
  exact or_congr_right ⟨fun ⟨_, listed, _, waits, rfl, rfl⟩ => ⟨listed, waits⟩,
    fun ⟨listed, waits⟩ => ⟨t, listed, v, waits, rfl, rfl⟩⟩

end TaintTransfers

theorem Taint.mem_sanitize {s : Taint} {c : ContextId} {m : MethodId} {d : Command} : d ∈ s.sanitize p c m ↔
    ∃ t ∈ s.config.sanitizers, t.method = m ∧ ∃ body, p.body? m = some body ∧
      ∃ v, t.index.paramVar? body = some v ∧ d = .addFilter (.var c v) fun o => !o.isTaint := by
  unfold sanitize
  cases code : p.body? m with
  | none => simp
  | some body =>
    simp only [List.mem_filterMap, List.mem_filter, beq_iff_eq, Option.map_eq_some_iff]
    constructor
    · rintro ⟨t, ⟨listed, rfl⟩, v, var, rfl⟩
      exact ⟨t, listed, rfl, body, rfl, v, var, rfl⟩
    · rintro ⟨t, listed, rfl, _, ⟨⟩, v, var, rfl⟩
      exact ⟨t, ⟨listed, rfl⟩, v, var, rfl⟩

end PointsTo
