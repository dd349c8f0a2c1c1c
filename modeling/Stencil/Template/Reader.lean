/-
  Stencil/Template/Reader.lean
  ============================
  **Reading a template**: its opening tag, its doc comment, its declared
  parameters and its body, in this order, after the body is split into
  tokens.

  Lines are counted from the opening tag while a template is read, and from the
  start of the file in the result.
-/
import Stencil.Body.Reader
import Stencil.Template.Header

namespace Stencil

open Header (Typing)

inductive TemplateCause where
  | scan (cause : Body.ScanCause)
  | header (cause : HeaderCause)
  | body (cause : Body.Cause)
deriving DecidableEq, Repr

namespace TemplateCause

def message : TemplateCause → String
  | scan cause => cause.message
  | header cause => cause.message
  | body cause => cause.message

def errorClass : TemplateCause → ErrorClass
  | scan _ => .lexical
  | header cause => cause.errorClass
  | body cause => cause.errorClass

end TemplateCause

namespace RawTemplate

/-- An outcome in the words of this reader. -/
def orFail {Cause α : Type} (f : Cause → TemplateCause) (result : Except (Fault Cause) α) :
    Typing TemplateCause α :=
  ExceptT.mk (pure (result.mapError (Fault.map f)))

/-- What a template declares by its opening tag and doc comment. -/
def declare (scope : Scope) (raw : RawTemplate) : Except (Fault HeaderCause) TemplateInfo := do
  let info ← (Header.opening scope raw).mapError fun cause => ⟨cause, 0⟩
  let docParams := match raw.doc with
    | none => []
    | some comment => DocComment.params (DocComment.clean comment)
  Header.addParams (DocComment.describe raw.doc info) (docParams.map (·, 0))

/-- What a raw template declares, and what a reader makes of its body, from the
    tokens after the declared parameters and the line where the body ends. -/
def readParts {β : Type} (readBody : List Body.Placed → Nat → Body.Outcome β) (scope : Scope)
    (raw : RawTemplate) : Typing TemplateCause (TemplateInfo × β) := do
  let scanned ← orFail .scan (Body.scan raw.body)
  let info ← orFail .header (raw.declare scope)
  let (tags, tokens) := Header.splitParamTags none scanned.tokens
  let params ← (tags.mapM Header.readParam).adapt (Fault.map .header)
  let info ← orFail .header (Header.addParams info params)
  let body ← orFail .body (readBody tokens scanned.endLine)
  pure (info, body)

/-- The template that a raw template is, lines counted from its opening tag. -/
def readFromOpening (scope : Scope) (raw : RawTemplate) : Typing TemplateCause (Template Nat) := do
  let (info, body) ← raw.readParts (Body.read scope) scope
  pure { mark := 0, info, body }

theorem readFromOpening_eq (scope : Scope) (raw : RawTemplate) :
    raw.readFromOpening scope = (do
      let scanned ← orFail .scan (Body.scan raw.body)
      let info ← orFail .header (raw.declare scope)
      let (tags, tokens) := Header.splitParamTags none scanned.tokens
      let params ← (tags.mapM Header.readParam).adapt (Fault.map .header)
      let info ← orFail .header (Header.addParams info params)
      let body ← orFail .body (Body.read scope tokens scanned.endLine)
      pure { mark := 0, info, body }) := by
  simp only [readFromOpening, readParts, bind_assoc, pure_bind]

/-- The template that a raw template is. -/
def read (scope : Scope) (raw : RawTemplate) : Typing TemplateCause (Template Nat) := do
  let template ← (raw.readFromOpening scope).adapt (·.down raw.line)
  pure
    { mark := template.mark + raw.line
      info := template.info
      body := Tree.mapAll (· + raw.line) template.body }

end RawTemplate

end Stencil
