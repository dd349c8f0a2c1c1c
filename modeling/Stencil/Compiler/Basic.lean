/-
  Stencil/Compiler/Basic.lean
  ===========================
  **Compiling template files**: reading them, checking them, and replacing their
  messages by translations.

  A compiler has options and a type registry, which grows from one compilation
  to the next.
-/
import Stencil.Build.File
import Stencil.Check.CallTypes
import Stencil.Check.Versions
import Stencil.Compiler.Options
import Stencil.Expr.Typing
import Stencil.Message.BundleFile

namespace Stencil

inductive CompileError where
  | parse (error : ParseError)
  | slots (clash : SlotClash)
  | callTypes (misfits : List Misfit)
  | insertion (error : InsertionError)
  | version (clash : VersionClash)

def CompileError.message : CompileError → String
  | parse error => error.text
  | slots clash => clash.message
  | callTypes misfits => "\n".intercalate (misfits.map Misfit.message)
  | insertion error => error.message
  | version clash => clash.message

/-- The text of a file and its path. -/
structure Source where
  path : String
  text : String
deriving DecidableEq, Repr

/-- The options of a compiler and the types that it knows. -/
structure Compiler where
  options : Options := {}
  types : TypeRegistry := {}

namespace Compiler

/-- The file of a source, listed by nobody yet; identities are drawn from the state. -/
def buildSource (source : Source) :
    StateT NodeId (ExceptT ParseError (StateM TypeRegistry)) (SourceFile Mark) := fun next =>
  ((File.build source.path source.text.toList).run next).adapt (File.toParseError source.path)

/-- The file of a single source, and the next free identity. -/
def parseFile (types : TypeRegistry) (source : Source) :
    Except ParseError (SourceFile Mark × NodeId) × TypeRegistry :=
  ((buildSource source).run 0).run.run types

/-- The file set of some sources. -/
def parse (c : Compiler) (sources : List Source) : Except CompileError FileSet × Compiler :=
  let (result, types) := ((sources.mapM buildSource).run 0).run.run c.types
  ((result.map fun (files, next) => FileSet.new next files).mapError .parse, { c with types })

/-- Check that no two templates share a slot and, if the options say so, that
    calls pass values of the declared types. -/
def checkCalls (c : Compiler) (set : FileSet) : Except CompileError Unit × Compiler :=
  match TemplateIndex.build set.templates with
  | .error clash => (.error (.slots clash), c)
  | .ok index =>
    if c.options.checksCallTypes then
      let (misfits, types) := checkCallTypes index set.templates c.types
      (if misfits.isEmpty then .ok () else .error (.callTypes misfits), { c with types })
    else (.ok (), c)

/-- Check a file set against the options, and resolve the types of its
    expressions unless a template is not valid at the declared version. -/
def check (c : Compiler) (set : FileSet) : Except CompileError Unit × FileSet × Compiler :=
  match c.options.declaredVersion.bind set.versionClash? with
  | some clash => (.error (.version clash), set, c)
  | none =>
    let set := set.resolveTypes
    let (result, c) := c.checkCalls set
    (result, set, c)

/-- Replace the messages of a file set by translations. -/
def insertMsgs (c : Compiler) (set : FileSet) (bundle : Option Bundle) :
    Except CompileError InsertionSummary × FileSet :=
  let (result, set) := set.insertMsgs { bundle, mode := c.options.choices }
  (result.mapError .insertion, set)

/-- The checked file set of some sources, with messages replaced. -/
def compile (c : Compiler) (sources : List Source) (bundle : Option Bundle) :
    Except CompileError FileSet × Compiler :=
  match c.parse sources with
  | (.error e, c) => (.error e, c)
  | (.ok set, c) =>
    match c.check set with
    | (.error e, _, c) => (.error e, c)
    | (.ok (), set, c) =>
      match c.insertMsgs set bundle with
      | (.error e, _) => (.error e, c)
      | (.ok _, set) => (.ok set, c)

end Compiler

end Stencil
