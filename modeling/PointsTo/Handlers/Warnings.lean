import PointsTo.Handler

/-!
Warnings about calls without a target: what such a call would do is missing from the result.
-/
namespace PointsTo

structure Warning where
  site : StmtRef
  callee : String
  /-- The type of the receiver; static calls have none. -/
  receiverTy : Option String
  deriving DecidableEq

namespace Warning

/-- By call site, then callee, then receiver, calls without receiver first. -/
def precedes (a b : Warning) : Bool :=
  if a.site ≠ b.site then (compare a.site b.site).isLT
  else if a.callee ≠ b.callee then a.callee < b.callee
  else match a.receiverTy, b.receiverTy with
    | none, _ => true
    | some _, none => false
    | some s, some t => s ≤ t

end Warning

structure Warnings where
  given : List Warning := []

namespace Warnings

def add (s : Warnings) (w : Warning) : Warnings :=
  if s.given.contains w then s else ⟨s.given ++ [w]⟩

def react (p : Program) (s : Warnings) (facts : Facts) : Event → Reaction Warnings
  | .unresolved receiver _ site =>
    match p.invoke? site with
    | none => { state := s }
    | some call =>
      { state := s.add {
          site
          callee := p.refSignature call.target
          receiverTy := (receiver.bind facts.obj?).map fun o => p.tyName o.ty } }
  | _ => { state := s }

def sorted (s : Warnings) : List Warning := s.given.mergeSort Warning.precedes

end Warnings

end PointsTo
