/-
  Stencil/Check/Versions.lean
  ===========================
  **Whether templates are valid at a declared syntax version.**
-/
import Stencil.Template.Basic

namespace Stencil

/-- A template that is not valid at the declared version. -/
structure VersionClash where
  template : String
  declared : SyntaxVersion
  reason : String
  loc : Location
deriving DecidableEq, Repr

def VersionClash.message (clash : VersionClash) : String :=
  "Template '" ++ clash.template ++ "' at " ++ clash.loc.text ++
    " is not valid at syntax version " ++ clash.declared.name ++ ": " ++ clash.reason

/-- Why a template is not valid at the declared version. -/
def Template.versionClash? (declared : SyntaxVersion) (t : Template Mark) : Option VersionClash :=
  match t.info.bound with
  | some bound =>
    if bound.violatedBy declared then some ⟨t.info.name, declared, bound.reason, t.mark.loc⟩
    else none
  | none => none

/-- The first template of a file set that is not valid at the declared
    version. -/
def FileSet.versionClash? (set : FileSet) (declared : SyntaxVersion) : Option VersionClash :=
  set.templates.findSome? (Template.versionClash? declared)

end Stencil
