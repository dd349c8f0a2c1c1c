/-
  Stencil/Build/File.lean
  =======================
  **The nodes of templates, files and file sets.**

  A file takes the next free identity before it is read, a template before its body
  is, and a file set after all its files.  Statements are pushed to a template once the
  body is read, templates to a file once the file is, and files to a file set once
  they all are.
-/
import Stencil.Build.Body
import Stencil.File.Reader

namespace Stencil

open Header (Typing)

/-- The template of a raw template in the file at `path`, listed by nobody yet, with
    identities from `next` on, and the next free one. -/
def RawTemplate.build (path : String) (scope : Scope) (raw : RawTemplate) (next : NodeId) :
    Typing TemplateCause (Template Mark × NodeId) := do
  let loc line := (Location.ofFile path).atLine (line + raw.line)
  let readBody := Build.read loc scope (next + 1)
  let (info, nodes, free) ← (raw.readParts readBody scope).adapt (·.down raw.line)
  let body : ChildList := { owner := next }
  pure ({ mark := ⟨next, none, loc 0⟩, info, body := (body.pushAll nodes).nodes }, free)

/-- The template listed by another file, or by none. -/
def Template.withParent (t : Template Mark) (parent : Option NodeId) : Template Mark :=
  { t with mark := { t.mark with parent } }

/-- The file listed by another file set, or by none. -/
def SourceFile.withParent (file : SourceFile Mark) (parent : Option NodeId) : SourceFile Mark :=
  { file with mark := { file.mark with parent } }

/-- The file set that lists files; it takes the identity `next`. -/
def FileSet.new (next : NodeId) (files : List (SourceFile Mark)) : FileSet :=
  { id := next, files := files.map (·.withParent (some next)), next := next + 1 }

namespace File

/-- A template of the file at `path`, listed by nobody yet; identities are drawn from
    the state. -/
def buildTemplate (path : String) (scope : Scope) (raw : RawTemplate) :
    StateT NodeId (Typing Cause) (Template Mark) := fun next =>
  (raw.build path scope next).adapt (Fault.map .template)

/-- The file at `path` that a text is, listed by nobody yet; identities are drawn from
    the state. -/
def build (path : String) (text : List Char) :
    StateT NodeId (Typing Cause) (SourceFile Mark) := do
  let id ← modifyGet fun next => (next, next + 1)
  let file ← readAs (buildTemplate path) ⟨id, none, Location.ofFile path⟩ path text
  pure { file with templates := file.templates.map (·.withParent (some id)) }

end File

end Stencil
