/-
  Stencil/File/Reader.lean
  ========================
  **Reading a file**: its declarations in order, and then its templates.

  A package may be declared first; then comes the namespace, then any number of
  aliases, then the templates.  A doc comment belongs to the template right
  after it.
-/
import Stencil.File.Scanner
import Stencil.Template.Reader

namespace Stencil.File

open Text (isDottedName)
open Body (CommandText CommandTextCause AttrCause)
open Header (Typing)

/-! ### Complaints -/

inductive Cause where
  | scan (cause : ScanCause)
  | duplicatePackage
  | latePackage
  | invalidPackage (name : String)
  | duplicateNamespace
  | namespaceText (cause : CommandTextCause)
  | invalidNamespace (name : String)
  | namespaceAttr (cause : AttrCause)
  | lateAlias
  | earlyAlias
  | invalidAlias (name : String)
  | duplicateAlias (name : String)
  | earlyTemplate
  | missingNamespace
  | template (cause : TemplateCause)
deriving DecidableEq, Repr

namespace Cause

open Body.Cause (tag)

def message : Cause → String
  | scan cause => cause.message
  | duplicatePackage => "Duplicate " ++ tag "delpackage" ++ " declaration"
  | latePackage => tag "delpackage" ++ " must be the first declaration in the file"
  | invalidPackage name => "Invalid delpackage name '" ++ name ++ "'"
  | duplicateNamespace => "Duplicate " ++ tag "namespace" ++ " declaration"
  | namespaceText cause => cause.message
  | invalidNamespace name => "Invalid namespace name '" ++ name ++ "'"
  | namespaceAttr cause => cause.message
  | lateAlias => tag "alias" ++ " must come before all templates"
  | earlyAlias => tag "alias" ++ " must come after " ++ tag "namespace"
  | invalidAlias name => "Invalid alias namespace '" ++ name ++ "'"
  | duplicateAlias name => "Duplicate alias '" ++ name ++ "'"
  | earlyTemplate => tag "namespace" ++ " must be declared before the first template"
  | missingNamespace => "File is missing a " ++ tag "namespace" ++ " declaration"
  | template cause => cause.message

/-- What a declaration says is an error of declaration, where it stands one of
    structure. -/
def errorClass : Cause → ErrorClass
  | scan cause => cause.errorClass
  | template cause => cause.errorClass
  | invalidPackage _ | namespaceText _ | invalidNamespace _ | namespaceAttr _
  | invalidAlias _ | duplicateAlias _ => .declaration
  | _ => .structural

end Cause

/-- The error that a complaint about the file at `path` is. -/
def toParseError (path : String) (fault : Fault Cause) : ParseError :=
  { errorClass := fault.cause.errorClass
    message := fault.cause.message
    location := (Location.ofFile path).atLine fault.line }

/-! ### Declarations -/

/-- What has been read of a file: its declarations, its templates (backwards) with
    marks of a type, and the doc comment right before. -/
structure Reader (α : Type) where
  package : Option String := none
  namespaceDecl : Option (String × Autoescape) := none
  aliases : List Alias := []
  templates : List (Template α) := []
  doc : Option (List Char) := none

namespace Reader

variable {α : Type}

/-- Take a package declaration: the first declaration of all. -/
def addPackage (r : Reader α) (text : List Char) : Except Cause (Reader α) :=
  if r.package.isSome then .error .duplicatePackage
  else if r.namespaceDecl.isSome then .error .latePackage
  else if isDottedName text then .ok { r with package := some (String.ofList text) }
  else .error (.invalidPackage (String.ofList text))

/-- What a namespace declaration declares: the name, and how templates escape
    their output unless they say otherwise. -/
def readNamespace (text : List Char) : Except Cause (String × Autoescape) := do
  let cmd ← (CommandText.readFor "namespace" ["autoescape"] text).mapError Cause.namespaceText
  unless isDottedName cmd.head do throw (.invalidNamespace cmd.headText)
  pure (cmd.headText, ← (cmd.autoescape .strict).mapError .namespaceAttr)

/-- Take a namespace declaration: there is only one. -/
def addNamespace (r : Reader α) (text : List Char) : Except Cause (Reader α) :=
  if r.namespaceDecl.isSome then .error .duplicateNamespace
  else do pure { r with namespaceDecl := some (← readNamespace text) }

/-- Take an alias declaration at a place: the last segment of a namespace
    becomes a name for it. -/
def addAlias (r : Reader α) (text : List Char) (loc : Location) : Except Cause (Reader α) :=
  if !r.templates.isEmpty then .error .lateAlias
  else if r.namespaceDecl.isNone then .error .earlyAlias
  else if !isDottedName text then .error (.invalidAlias (String.ofList text))
  else
    let name := String.ofList ((Text.splitOn (· == '.') text).getLastD [])
    if r.aliases.any (·.name == name) then .error (.duplicateAlias name)
    else .ok { r with aliases := r.aliases ++ [⟨String.ofList text, name, loc⟩] }

/-- What the templates of the file can see. -/
def scope? (r : Reader α) : Option Scope :=
  r.namespaceDecl.map fun (namespaceName, autoescape) =>
    { namespaceName, package := r.package, autoescape, aliases := r.aliases }

section

variable {m : Type → Type} [Monad m] [MonadExcept (Fault Cause) m]

/-- The reader after a declaration at a line, which no doc comment belongs to. -/
def declared (line : Nat) (result : Except Cause (Reader α)) : m (Reader α) :=
  match result with
  | .ok r => pure { r with doc := none }
  | .error cause => throw ⟨cause, line⟩

variable (readTemplate : Scope → RawTemplate → m (Template α))

/-- Take a template, which sees the declarations before it. -/
def addTemplate (r : Reader α) (raw : RawTemplate) : m (Reader α) :=
  match r.scope? with
  | none => throw ⟨.earlyTemplate, raw.line⟩
  | some scope => do
    let template ← readTemplate scope { raw with doc := r.doc }
    pure { r with templates := template :: r.templates, doc := none }

/-- Take an item of the file at `path`. -/
def step (path : String) (r : Reader α) (t : Placed) : m (Reader α) :=
  match t.item with
  | .doc chars => pure { r with doc := some chars }
  | .comment => pure { r with doc := none }
  | .package text => declared t.line (r.addPackage text)
  | .namespaceDecl text => declared t.line (r.addNamespace text)
  | .aliasDecl text => declared t.line (r.addAlias text ((Location.ofFile path).atLine t.line))
  | .template raw => r.addTemplate readTemplate raw

end

/-- The file with a mark once all items are taken. -/
def finish (path : String) (mark : α) (r : Reader α) : Except (Fault Cause) (SourceFile α) :=
  match r.scope? with
  | none => .error ⟨.missingNamespace, 0⟩
  | some scope =>
    .ok
      { mark
        info :=
          { path
            package := scope.package
            namespaceName := scope.namespaceName
            autoescape := scope.autoescape
            aliases := scope.aliases }
        templates := r.templates.reverse }

end Reader

/-- The file at `path` that a text is, with a mark: its templates are read one after
    the other as they come. -/
def readAs {α : Type} {m : Type → Type} [Monad m] [MonadExcept (Fault Cause) m]
    (readTemplate : Scope → RawTemplate → m (Template α)) (mark : α) (path : String)
    (text : List Char) : m (SourceFile α) := do
  let (items, fault?) := scan text
  let r ← items.foldlM (Reader.step readTemplate path) {}
  match fault? with
  | some fault => throw (fault.map .scan)
  | none => MonadExcept.ofExcept (r.finish path mark)

/-- The draft of a template of a file. -/
def readTemplate (scope : Scope) (raw : RawTemplate) : Typing Cause (Template Nat) :=
  (raw.read scope).adapt (Fault.map .template)

/-- The draft of the file at `path` that a text is. -/
def read (path : String) (text : List Char) : Typing Cause (SourceFile Nat) :=
  readAs readTemplate 0 path text

theorem read_eq (path : String) (text : List Char) :
    read path text = (do
      let r ← (scan text).1.foldlM (Reader.step readTemplate path) {}
      match (scan text).2 with
      | some fault => throw (fault.map .scan)
      | none => ExceptT.mk (pure (r.finish path 0))) := by
  rw [read, readAs]
  generalize scan text = scanned
  obtain ⟨items, fault?⟩ := scanned
  refine bind_congr fun r => ?_
  cases fault? with
  | some fault => rfl
  | none =>
    dsimp only
    cases r.finish path 0 <;> rfl

end Stencil.File
