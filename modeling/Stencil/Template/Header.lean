/-
  Stencil/Template/Header.lean
  ============================
  **What a template declares before its body**: its opening tag and the
  parameters declared by tags.

  The opening tag gives the name, how output is escaped and, for a delegate,
  the variant.  Parameters are declared by tags that stand, among white space
  and doc comments, before anything else; a doc comment describes the
  parameter after it.
-/
import Stencil.Body.Statement
import Stencil.Template.DocComment
import Stencil.Ty.Reader

namespace Stencil

open Text (trim cut? isIdentifier isDottedName)
open Body (Placed CommandText CommandTextCause AttrCause)

/-- A template as it stands in its file: its opening tag, which is either
    `template` or `deltemplate`, the text up to its end tag, the doc comment
    before it and the line of the opening tag. -/
structure RawTemplate where
  isDelegate : Bool
  text : List Char
  body : List Char
  doc : Option (List Char)
  line : Nat
deriving DecidableEq, Repr

/-! ### Complaints -/

inductive HeaderCause where
  | commandText (cause : CommandTextCause)
  | attrValue (cause : AttrCause)
  | invalidName (name : String)
  | invalidDelegate (name : String)
  | kindNotStrict (kind : ContentKind)
  | reservedParam
  | duplicateParam (name : String)
  | invalidParam (text : String)
  | paramType (source : String) (error : TypeError)
deriving DecidableEq, Repr

namespace HeaderCause

def message : HeaderCause → String
  | commandText cause => cause.message
  | attrValue cause => cause.message
  | invalidName name => "Invalid template name '" ++ name ++ "'"
  | invalidDelegate name => "Invalid delegate template name '" ++ name ++ "'"
  | kindNotStrict kind =>
    "kind=\"" ++ kind.name ++ "\" attribute is only valid with autoescape=\"strict\"."
  | reservedParam => "Invalid param name 'ij' ('ij' is reserved for injected data)"
  | duplicateParam name => "Duplicate declaration of param '" ++ name ++ "'"
  | invalidParam text => "Invalid param declaration '" ++ text ++ "'; expected 'name: type'"
  | paramType _ error => error.text

/-- Parameters are declarations, and a parameter's type is an expression of its
    own; the rest is structure. -/
def errorClass : HeaderCause → ErrorClass
  | reservedParam | duplicateParam _ | invalidParam _ => .declaration
  | paramType source _ => .typeExpression source
  | _ => .structural

end HeaderCause

/-! ### The opening tag -/

namespace Header

/-- The kind of content under an escaping mode: strict escaping has a kind, HTML
    unless another is given, and no other mode may have one. -/
def contentKind (mode : Autoescape) (given : Option ContentKind) :
    Except HeaderCause (Option ContentKind) :=
  match mode, given with
  | .strict, none => .ok (some .html)
  | .strict, some kind => .ok (some kind)
  | _, none => .ok none
  | _, some kind => .error (.kindNotStrict kind)

/-- The name, short name and form of a template that is called by its own
    name. -/
def basicName (scope : Scope) (cmd : CommandText) :
    Except HeaderCause (String × Option String × TemplateForm) :=
  let form := .basic (cmd.attr? "private" == some "true")
  if Scope.isShort cmd.head then .ok (scope.complete cmd.head, some cmd.headText, form)
  else if Scope.isFull cmd.head then .ok (cmd.headText, none, form)
  else .error (.invalidName cmd.headText)

/-- The name and form of an implementation of a delegate.  In a package it has
    priority. -/
def delegateName (scope : Scope) (cmd : CommandText) :
    Except HeaderCause (String × Option String × TemplateForm) := do
  unless isDottedName cmd.head do throw (.invalidDelegate cmd.headText)
  let delegate :=
    { name := cmd.headText
      variant := ← cmd.variant.mapError .attrValue
      package := scope.package
      priority := if scope.package.isSome then 1 else 0 }
  pure (cmd.headText, none, .delegate delegate)

/-- The command text of an opening tag. -/
def openingText (raw : RawTemplate) : Except HeaderCause CommandText :=
  (if raw.isDelegate then
    CommandText.readFor "deltemplate" ["autoescape", "kind", "variant"] raw.text
  else CommandText.readFor "template" ["autoescape", "kind", "private"] raw.text).mapError
    .commandText

/-- What the opening tag of a template declares. -/
def opening (scope : Scope) (raw : RawTemplate) : Except HeaderCause TemplateInfo := do
  let cmd ← openingText raw
  let (name, shortName, form) ←
    if raw.isDelegate then delegateName scope cmd else basicName scope cmd
  let autoescape ← (cmd.autoescape scope.autoescape).mapError .attrValue
  let contentKind ← contentKind autoescape (← cmd.kind.mapError .attrValue)
  pure { name, shortName, form, autoescape, contentKind }

/-! ### Parameters -/

/-- The template with one more parameter, whose name must be new and not that of
    injected data. -/
def addParam (info : TemplateInfo) (param : Param) : Except HeaderCause TemplateInfo :=
  if param.name = "ij" then .error .reservedParam
  else if (info.param? param.name).isSome then .error (.duplicateParam param.name)
  else .ok { info with params := info.params ++ [param] }

/-- The template with parameters added, each declared at a line. -/
def addParams (info : TemplateInfo) (params : List (Param × Nat)) :
    Except (Fault HeaderCause) TemplateInfo :=
  params.foldlM (fun info (param, line) =>
    (addParam info param).mapError fun cause => ⟨cause, line⟩) info

/-- A tag that declares a parameter, and the doc comment before it. -/
structure ParamTag where
  optional : Bool
  text : List Char
  doc : Option (List Char)
  line : Nat
deriving DecidableEq, Repr

/-- White space or a doc comment. -/
def isFiller (t : Placed) : Bool :=
  match t.token with
  | .doc _ => true
  | token => token.isBlankText

/-- Whether a parameter is declared before anything else. -/
def declaresNext (tokens : List Placed) : Bool :=
  match tokens.dropWhile isFiller with
  | ⟨.command keyword _ _, _⟩ :: _ => keyword.declaresParam
  | _ => false

/-- The tags at the start that declare parameters, and the tokens after the last
    of them; `doc` is the doc comment read last. -/
def splitParamTags (doc : Option (List Char)) : List Placed → List ParamTag × List Placed
  | [] => ([], [])
  | t :: rest =>
    if declaresNext (t :: rest) then
      match t.token with
      | .doc comment => splitParamTags (some comment) rest
      | .command keyword text _ =>
        let (tags, tokens) := splitParamTags none rest
        (⟨keyword == .optionalHeaderParam, text, doc, t.line⟩ :: tags, tokens)
      | _ => splitParamTags doc rest
    else ([], t :: rest)

/-- The name and type expression of a declaration: an identifier, a colon and a
    type. -/
def nameAndType? (text : List Char) : Option (List Char × List Char) :=
  match cut? (· == ':') text with
  | some (name, type) =>
    if isIdentifier (trim name) && !(trim type).isEmpty then some (trim name, trim type) else none
  | none => none

/-- Reading declarations may fail, and changes the type registry either way. -/
abbrev Typing (Cause : Type) := ExceptT (Fault Cause) (StateM TypeRegistry)

/-- The type of a declared parameter; an optional one may also be null. -/
def paramType (optional : Bool) (source : List Char) : ExceptT TypeError (StateM TypeRegistry) Ty :=
  ExceptT.mk fun registry =>
    match registry.read source with
    | (.ok ty, registry) =>
      if optional then
        let (ty, registry) := registry.union [ty, .null]
        (.ok ty, registry)
      else (.ok ty, registry)
    | (.error e, registry) => (.error e, registry)

/-- The parameter that a tag declares, with the line of the tag.  It is required
    unless it is optional or may be null. -/
def readParam (tag : ParamTag) : Typing HeaderCause (Param × Nat) := do
  match nameAndType? tag.text with
  | none => throw ⟨.invalidParam (String.ofList tag.text), tag.line⟩
  | some (name, type) =>
    let ty ← (paramType tag.optional type).adapt fun e =>
      ⟨.paramType (String.ofList type) e, tag.line⟩
    let desc := (tag.doc.map DocComment.clean).filter fun text => !text.isEmpty
    let param : Param :=
      { name := String.ofList name
        ty
        typeText := some (String.ofList type)
        required := !tag.optional && !ty.isNullable
        desc := desc.map String.ofList
        source := .header }
    pure (param, tag.line)

end Header

end Stencil
