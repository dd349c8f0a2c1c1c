/-
  Stencil/Check/IndirectParams.lean
  =================================
  **Parameters that reach a template's callees through forwarded data.**

  A call that passes all data forwards the data of its template.  A parameter
  that a template does not declare itself is indirect when a chain of such
  calls, none of which passes the parameter explicitly, ends at a template that
  declares it.

  The chains are followed depth first with the keys that were passed explicitly
  on the way.  A chain ends at a template that it has been at before, and at a
  template that was visited with the same keys on another way, so the search
  ends on any call graph.
-/
import Stencil.Check.TemplateIndex
import Stencil.Tree.Call
import Stencil.Ty.Order

namespace Stencil

/-- A parameter that some callees declare: the declaration that is found first,
    the names of the callees and the declared types, both in ascending order. -/
structure IndirectParam where
  name : String
  param : Param
  callees : List String
  types : List Ty

/-- The indirect parameters of a template in ascending order of name, and
    whether forwarded data goes to templates or delegates that are not known. -/
structure IndirectParams where
  params : List IndirectParam := []
  externalCalls : Bool := false
  externalDelcalls : Bool := false

/-- The names of a list in ascending order, each once. -/
def sortedNames (names : List String) : List String :=
  (names.mergeSort (· ≤ ·)).eraseDups

theorem mem_sortedNames {name : String} {names : List String} :
    name ∈ sortedNames names ↔ name ∈ names := by
  simp [sortedNames]

namespace IndirectParam

/-- The parameter that one callee declares. -/
def ofDeclaration (callee : String) (param : Param) : IndirectParam :=
  { name := param.name, param, callees := [callee], types := [param.ty] }

/-- The parameter with one more callee and the type that it declares. -/
def add (p : IndirectParam) (callee : String) (ty : Ty) : IndirectParam :=
  { p with callees := sortedNames (callee :: p.callees), types := Ty.insertSorted ty p.types }

/-- The parameters with one more declaration by a callee. -/
def insert (callee : String) (param : Param) : List IndirectParam → List IndirectParam
  | [] => [ofDeclaration callee param]
  | p :: rest =>
    if param.name < p.name then ofDeclaration callee param :: p :: rest
    else if param.name = p.name then p.add callee param.ty :: rest
    else p :: insert callee param rest

end IndirectParam

namespace TemplateIndex

/-- The calls of a template that forward its data. -/
def forwards (t : PlacedTemplate) : List Node := (Tree.calls t.body).filter (·.passesAll)

/-- The templates that a call may reach. -/
def calleesOf (index : TemplateIndex) (call : Node) : List PlacedTemplate :=
  match call.target? with
  | some target => index.callees target
  | none => []

/-- A call of a template that is not known. -/
def isExternalCall (index : TemplateIndex) (call : Node) : Bool :=
  match call.target? with
  | some (.basic name written) => (index.callees (.basic name written)).isEmpty
  | _ => false

/-- A call of a delegate without known implementations. -/
def isExternalDelcall (index : TemplateIndex) (call : Node) : Bool :=
  match call.target? with
  | some (.delegate name variant) => (index.callees (.delegate name variant)).isEmpty
  | _ => false

end TemplateIndex

/-! ### The search -/

/-- A search for indirect parameters: the templates visited so far, each with
    the keys passed explicitly on the way to it, and what was found. -/
structure ParamSearch where
  visited : List (NodeId × List String) := []
  found : IndirectParams := {}

namespace ParamSearch

/-- The keys passed explicitly on the way to a call and by the call itself. -/
def passed (keys : List String) (call : Node) : List String :=
  sortedNames (keys ++ call.paramKeys)

/-- The templates that a template forwards its data to, each with the keys
    passed explicitly up to there; `keys` are those up to the template. -/
def arrivals (index : TemplateIndex) (t : PlacedTemplate) (keys : List String) :
    List (PlacedTemplate × List String) :=
  (TemplateIndex.forwards t).flatMap fun call =>
    (index.calleesOf call).map fun callee => (callee, passed keys call)

/-- The search at a template that it has not been at with these keys.  Its calls
    of what is not known are found at once. -/
def enter (index : TemplateIndex) (t : PlacedTemplate) (keys : List String) (s : ParamSearch) :
    ParamSearch :=
  let calls := TemplateIndex.forwards t
  { visited := (t.mark.id, keys) :: s.visited
    found :=
      { s.found with
        externalCalls := s.found.externalCalls || calls.any index.isExternalCall
        externalDelcalls := s.found.externalDelcalls || calls.any index.isExternalDelcall } }

/-- The search with the declarations of a callee, other than those of the
    template's `own` parameters and of those passed explicitly. -/
def record (own : List String) (callee : PlacedTemplate) (keys : List String) (s : ParamSearch) :
    ParamSearch :=
  let params := callee.info.params.filter fun p => !own.contains p.name && !keys.contains p.name
  let found := params.foldl (fun found p => IndirectParam.insert callee.info.name p found)
    s.found.params
  { s with found := { s.found with params := found } }

/-- The identities other than one. -/
def without (id : NodeId) (free : List NodeId) : List NodeId := free.filter (· ≠ id)

theorem length_without_lt {id : NodeId} {free : List NodeId} (h : id ∈ free) :
    (without id free).length < free.length :=
  List.length_filter_lt_length_iff_exists.2 ⟨id, h, by simp⟩

mutual

/-- The search after a template is visited; `free` are the identities of the
    templates that are not on the present chain. -/
def visit (index : TemplateIndex) (own : List String) (free : List NodeId) (t : PlacedTemplate)
    (keys : List String) (s : ParamSearch) : ParamSearch :=
  if _h : t.mark.id ∈ free then
    if (t.mark.id, keys) ∈ s.visited then s
    else
      visitAll index own (without t.mark.id free) (arrivals index t keys) (s.enter index t keys)
  else s
termination_by (free.length, 0)
decreasing_by exact Prod.Lex.left _ _ (length_without_lt _h)

/-- The search after several templates are recorded and visited, one after the
    other. -/
def visitAll (index : TemplateIndex) (own : List String) (free : List NodeId) :
    List (PlacedTemplate × List String) → ParamSearch → ParamSearch
  | [], s => s
  | (callee, keys) :: rest, s =>
    visitAll index own free rest (visit index own free callee keys (s.record own callee keys))
termination_by items => (free.length, items.length + 1)
decreasing_by
  · exact Prod.Lex.right _ (Nat.succ_pos _)
  · exact Prod.Lex.right _ (Nat.lt_succ_self _)

end

end ParamSearch

/-- The indirect parameters of a template. -/
def TemplateIndex.indirectParams (index : TemplateIndex) (t : PlacedTemplate) : IndirectParams :=
  let own := t.info.params.map (·.name)
  let free := t.mark.id :: index.templates.map (·.mark.id)
  (ParamSearch.visit index own free t [] {}).found

end Stencil
