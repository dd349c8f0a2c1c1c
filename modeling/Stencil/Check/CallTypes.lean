/-
  Stencil/Check/CallTypes.lean
  ============================
  **Whether calls pass values of the declared types.**

  A call passes arguments: its value parameters, its content parameters of a
  kind and, if it passes all data, the parameters that its template declares
  by tags and that it does not pass explicitly.  Each argument meets the
  formal types that the callee has for its name, its own declared type or else
  the types of the indirect parameter.  A meeting of an argument with a formal
  type is a `Passing`, and the check looks at every passing on its own.

  The formal types of a callee are looked up when it is called first, and kept
  under its identity for the calls after that.
-/
import Stencil.Check.IndirectParams
import Stencil.Ty.Assignable
import Stencil.Ty.Registry
import Stencil.Ty.Text

namespace Stencil

/-- An argument: the parameter's name, the type of the value, and the place. -/
structure Argument where
  name : String
  ty : Ty
  loc : Location
deriving DecidableEq, Repr

/-- An argument and a formal type that it meets. -/
structure Passing where
  argument : Argument
  formal : Ty
  indirect : Bool
deriving DecidableEq, Repr

/-- Why an argument does not fit: its type does not, or it is a proto where the
    callee expects none in particular. -/
inductive MisfitKind where
  | mismatch
  | protoMismatch
deriving DecidableEq, Repr

/-- An argument that does not fit. -/
structure Misfit where
  kind : MisfitKind
  argument : Argument
  formal : Ty
deriving DecidableEq, Repr

def Misfit.message (m : Misfit) : String :=
  "Argument type mismatch: cannot " ++
    (match m.kind with
      | .mismatch => "call template parameter '"
      | .protoMismatch =>
        "mix protobuf / non-protobuf types when calling template parameter '") ++
    m.argument.name ++ "' with type '" ++ m.formal.text ++ "' with value of type '" ++
    m.argument.ty.text ++ "' at " ++ m.argument.loc.text

namespace Passing

/-- A formal type that says nothing about its values. -/
def isOpen (formal : Ty) : Bool := formal == .any || formal == .unknown

/-- Whether an argument may also meet the formal type with null: an indirect parameter gets
    a nullable union. -/
def isRelaxed (p : Passing) : Bool :=
  p.indirect && p.argument.ty.isUnion && p.argument.ty.isNullable

/-- Why an argument does not fit a formal type, and the types that are known then. -/
def check (types : TypeRegistry) (p : Passing) : Option Misfit × TypeRegistry :=
  if isOpen p.formal then
    (if p.argument.ty.isProto then some ⟨.protoMismatch, p.argument, p.formal⟩ else none, types)
  else if p.argument.ty = .unknown then (none, types)
  else if p.formal.accepts p.argument.ty then (none, types)
  else if p.isRelaxed then
    let (nullable, types) := types.union [p.formal, .null]
    (if nullable.accepts p.argument.ty then none else some ⟨.mismatch, p.argument, p.formal⟩,
      types)
  else (some ⟨.mismatch, p.argument, p.formal⟩, types)

end Passing

/-! ### Arguments and formal types -/

/-- The argument that a parameter of a call is, once its type is known. -/
def Tree.argument? (param : Node) : Option Argument :=
  match param.content with
  | .valueParam key value => value.ty.map fun ty => ⟨key, ty, param.loc⟩
  | .contentParam key kind => kind.map fun kind => ⟨key, Ty.ofContentKind kind, param.loc⟩
  | _ => none

/-- The arguments that a call in a template forwards. -/
def forwardedArguments (caller : PlacedTemplate) (call : Node) : List Argument :=
  if call.passesAll then
    (caller.info.headerParams.filter fun p => !call.paramKeys.contains p.name).map fun p =>
      ⟨p.name, p.ty, call.loc⟩
  else []

/-- The arguments of a call in a template. -/
def arguments (caller : PlacedTemplate) (call : Node) : List Argument :=
  call.children.filterMap (·.argument?) ++ forwardedArguments caller call

/-- The formal types that a callee has for a name, and whether the callee does
    not declare the parameter itself. -/
structure Formals where
  name : String
  types : List Ty
  indirect : Bool

namespace TemplateIndex

/-- The formal types of a callee by name: for the parameters that it declares,
    the latest declaration first, and then for its indirect parameters. -/
def formals (index : TemplateIndex) (callee : PlacedTemplate) : List Formals :=
  callee.info.params.reverse.map (fun p => ⟨p.name, [p.ty], false⟩) ++
    (index.indirectParams callee).params.map fun p => ⟨p.name, p.types, true⟩

end TemplateIndex

/-- The formal types that an argument meets. -/
def meet (formals : List Formals) (argument : Argument) : List Passing :=
  match formals.find? (·.name == argument.name) with
  | some f => f.types.map fun formal => ⟨argument, formal, f.indirect⟩
  | none => []

/-! ### The check -/

/-- A check of calls: the formal types of the callees met so far, the types that
    are known, and the arguments that do not fit. -/
structure CallCheck where
  formals : List (NodeId × List Formals) := []
  types : TypeRegistry
  misfits : List Misfit := []

namespace CallCheck

/-- The formal types of a callee, and the check that remembers them. -/
def formalsOf (index : TemplateIndex) (c : CallCheck) (callee : PlacedTemplate) :
    List Formals × CallCheck :=
  match c.formals.lookup callee.mark.id with
  | some formals => (formals, c)
  | none =>
    let formals := index.formals callee
    (formals, { c with formals := (callee.mark.id, formals) :: c.formals })

/-- The check after an argument met a formal type. -/
def checkPassing (c : CallCheck) (p : Passing) : CallCheck :=
  let (misfit?, types) := p.check c.types
  { c with types, misfits := c.misfits ++ misfit?.toList }

/-- The check after a call of a callee. -/
def checkCall (index : TemplateIndex) (caller : PlacedTemplate) (call : Node) (c : CallCheck)
    (callee : PlacedTemplate) : CallCheck :=
  let (formals, c) := c.formalsOf index callee
  ((arguments caller call).flatMap (meet formals)).foldl checkPassing c

/-- The check after the calls of a template. -/
def checkTemplate (index : TemplateIndex) (c : CallCheck) (caller : PlacedTemplate) : CallCheck :=
  (Tree.calls caller.body).foldl (fun c call =>
    (index.calleesOf call).foldl (checkCall index caller call) c) c

end CallCheck

/-- The arguments that do not fit in some templates, and the type registry after
    the check, which keeps the formal types with null. -/
def checkCallTypes (index : TemplateIndex) (templates : List PlacedTemplate)
    (types : TypeRegistry) : List Misfit × TypeRegistry :=
  let c := templates.foldl (CallCheck.checkTemplate index) { types }
  (c.misfits, c.types)

end Stencil
