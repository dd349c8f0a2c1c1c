/-
  Stencil/Template/Basic.lean
  ===========================
  **Templates, files and file sets.**

  Templates and files are marked like the nodes of a tree: with lines while
  they are drafts, with identities, parents and places once they are placed.
-/
import Stencil.Body.Scope
import Stencil.SyntaxVersion
import Stencil.Tree.Basic

namespace Stencil

/-- Where a parameter is declared. -/
inductive ParamSource where
  | header
  | doc
deriving DecidableEq, Repr

/-- A declared parameter of a template.  One from the doc comment has no type
    text, and nothing is known about its type. -/
structure Param where
  name : String
  ty : Ty
  typeText : Option String
  required : Bool
  desc : Option String
  source : ParamSource
deriving DecidableEq, Repr

/-- An implementation of a delegate.  Those in a package come before those
    without. -/
structure Delegate where
  name : String
  variant : String
  package : Option String
  priority : Nat
deriving DecidableEq, Repr

/-- What a template is: one that is called by its own name, or an implementation
    of a delegate. -/
inductive TemplateForm where
  | basic (isPrivate : Bool)
  | delegate (delegate : Delegate)
deriving DecidableEq, Repr

/-- What a template declares. -/
structure TemplateInfo where
  name : String
  shortName : Option String
  form : TemplateForm
  autoescape : Autoescape
  contentKind : Option ContentKind
  params : List Param := []
  doc : Option String := none
  docSummary : Option String := none
  bound : Option VersionBound := none
deriving DecidableEq, Repr

namespace TemplateInfo

def param? (info : TemplateInfo) (name : String) : Option Param :=
  info.params.find? (·.name == name)

/-- The parameters that are declared by tags. -/
def headerParams (info : TemplateInfo) : List Param :=
  info.params.filter (·.source == .header)

/-- The template with one more bound on its syntax version. -/
def addBound (info : TemplateInfo) (bound : VersionBound) : TemplateInfo :=
  { info with bound := some (VersionBound.lower info.bound bound) }

end TemplateInfo

/-- A template and its body. -/
structure Template (α : Type) where
  mark : α
  info : TemplateInfo
  body : List (Tree α)

/-- What a file declares. -/
structure FileInfo where
  path : String
  package : Option String
  namespaceName : String
  autoescape : Autoescape
  aliases : List Alias
deriving DecidableEq, Repr

/-- A file and its templates. -/
structure SourceFile (α : Type) where
  mark : α
  info : FileInfo
  templates : List (Template α)

/-- Files that are compiled together, the owner of their list, and the next free
    identity. -/
structure FileSet where
  id : NodeId
  owner : NodeId := id
  files : List (SourceFile Mark)
  next : NodeId

namespace FileSet

/-- The templates of all files in order. -/
def templates (set : FileSet) : List (Template Mark) := set.files.flatMap (·.templates)

/-- The file set with `f` applied to every template. -/
def mapTemplates (f : Template Mark → Template Mark) (set : FileSet) : FileSet :=
  { set with files := set.files.map fun file =>
      { file with templates := file.templates.map f } }

end FileSet

end Stencil
