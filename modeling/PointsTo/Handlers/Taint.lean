import PointsTo.Taint.Sinks
import PointsTo.Taint.Transfers

/-!
The taint handler: lets taint in at sources, passes it on at transfers and keeps it away from
sanitized parameters. Flows are read off at the end.
-/
namespace PointsTo

structure Taint where
  config : TaintConfig
  marks : Marks := {}
  sources : TaintSources
  transfers : TaintTransfers

namespace Taint

def ofConfig (c : TaintConfig) : Taint :=
  { config := c, sources := { sources := c.sources }, transfers := { transfers := c.transfers } }

/-- Keeps taint away from the sanitized parameters of a method in a context. -/
def sanitize (p : Program) (s : Taint) (context : ContextId) (m : MethodId) : List Command :=
  match p.body? m with
  | none => []
  | some body => (s.config.sanitizers.filter fun t => t.method == m).filterMap fun t =>
    (t.index.paramVar? body).map fun v => .addFilter (.var context v) fun o => !o.isTaint

def enter (facts : Facts) (s : Taint) (context : ContextId)
    (points : List (SourcePoint × VarId × IndexKind × Ty)) : Reaction Taint :=
  (TaintSources.enterAll facts context (s.sources, s.marks) points).map fun (sources, marks) =>
    { s with sources, marks }

/-- A call lets taint in and passes it on; calls of handlers do neither. -/
def call (p : Program) (facts : Facts) (s : Taint) (e : CallEdge) : Reaction Taint :=
  match facts.elements.site? e.site, facts.elements.method? e.callee with
  | some (context, site), some (_, callee) =>
    match p.invoke? site with
    | none => { state := s }
    | some call =>
      if e.kind = .other then { state := s }
      else
        let r := s.enter facts context (s.sources.callPoints site call callee)
        let s := r.state
        let (transfers, passed) :=
          s.transfers.startAll facts (s.transfers.sitesAt context call callee)
        { state := { s with transfers }
          created := r.created
          commands := r.commands ++ passed }
  | _, _ => { state := s }

def react (p : Program) (s : Taint) (facts : Facts) : Event → Reaction Taint
  | .stmtReached site => { state := { s with sources := s.sources.recordLoad p site } }
  | .csMethodReached m =>
    match facts.elements.method? m with
    | none => { state := s }
    | some (context, method) =>
      let r := s.enter facts context (s.sources.methodPoints p method)
      { r with commands := r.commands ++ r.state.sanitize p context method }
  | .called e => s.call p facts e
  | .arrived pointer delta =>
    match facts.elements.pointer? pointer with
    | some (.var context v) =>
      { state := s
        commands := s.sources.update context v delta ++ s.transfers.update facts context v delta }
    | _ => { state := s }
  | _ => { state := s }

def flows (p : Program) (facts : Facts) (s : Taint) : List TaintFlow :=
  s.config.flows p facts s.marks

end Taint

end PointsTo
