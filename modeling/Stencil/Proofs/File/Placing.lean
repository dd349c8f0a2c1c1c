/-
  Stencil/Proofs/File/Placing.lean
  ================================
  **Placing files**: identities for drafts of files.

  A file takes its identity before its templates, a template before its body,
  and a file set after all its files.
-/
import Stencil.Proofs.Tree.Placing
import Stencil.Template.Basic

namespace Stencil

namespace Template

/-- The placed template for a draft in the file at `path`, listed by `parent`,
    with identities from `next` on; and the next free one. -/
def place (path : String) (parent : Option NodeId) (next : NodeId) (t : Template Nat) :
    Template Mark × NodeId :=
  let loc := (Location.ofFile path).atLine
  let (body, free) := Tree.numberAll (next + 1) t.body
  ({ mark := ⟨next, parent, loc t.mark⟩
     info := t.info
     body := Tree.linkAll loc (some next) body }, free)

/-- Placed templates for several drafts, one after the other. -/
def placeAll (path : String) (parent : Option NodeId) (next : NodeId) :
    List (Template Nat) → List (Template Mark) × NodeId
  | [] => ([], next)
  | t :: rest =>
    let (t, next) := place path parent next t
    let (rest, next) := placeAll path parent next rest
    (t :: rest, next)

end Template

namespace SourceFile

/-- The placed file for a draft, listed by nobody yet, with identities from
    `next` on; and the next free one. -/
def place (next : NodeId) (file : SourceFile Nat) : SourceFile Mark × NodeId :=
  let (templates, free) := Template.placeAll file.info.path (some next) (next + 1) file.templates
  ({ mark := ⟨next, none, (Location.ofFile file.info.path).atLine file.mark⟩
     info := file.info
     templates }, free)

/-- Placed files for several drafts, one after the other. -/
def placeAll (next : NodeId) : List (SourceFile Nat) → List (SourceFile Mark) × NodeId
  | [] => ([], next)
  | file :: rest =>
    let (file, next) := place next file
    let (rest, next) := placeAll next rest
    (file :: rest, next)

end SourceFile

namespace FileSet

def place (files : List (SourceFile Nat)) : FileSet :=
  let (files, id) := SourceFile.placeAll 0 files
  { id
    files := files.map fun file => { file with mark := { file.mark with parent := some id } }
    next := id + 1 }

end FileSet

end Stencil
