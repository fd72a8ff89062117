import TemplateProjection.Session.DocumentId

/-! Why a call has no result. -/
namespace TemplateProjection

inductive Failure where
  /-- The document changed while the call was under way. -/
  | busy (file : DocumentId) (requested current : Nat)
  | unknownDocument (file : DocumentId)
  | cancelled
  /-- The markup of the outline cannot be laid out. -/
  | noLayout (file : DocumentId)
deriving DecidableEq, Repr

namespace Failure

/-- Whether the call is worth repeating. -/
def isBusy : Failure → Bool
  | .busy _ _ _ => true
  | _ => false

def message : Failure → String
  | .busy file requested current =>
    file.render ++ " changed during analysis (requested at version " ++ requested.repr ++
      ", now " ++ current.repr ++ ")"
  | .unknownDocument file => "unknown document " ++ file.render
  | .cancelled => "request cancelled"
  | .noLayout file => "no layout for the outline of " ++ file.render

end Failure

end TemplateProjection
