/-
  Stencil/Template/DocComment.lean
  ================================
  **Doc comments**: their text without the layout, and the parameters they
  declare.

  A declaration is `@param` or `@param?`, white space and a word; what follows
  up to the next declaration describes it, and what precedes the first
  describes the template.  A word that is no identifier declares nothing, but
  bounds the syntax version of the template.
-/
import Stencil.Template.Basic
import Stencil.Text.Blank
import Stencil.Text.Split

namespace Stencil.DocComment

open Text (isBlank trim trimEnd allBlank splitOn joinWith dropEndWhile isIdentifier
  length_dropWhile_le)

/-! ### Layout -/

/-- Line ends as single newlines. -/
def plainLineEnds (cs : List Char) : List Char :=
  Text.replace "\r" "\n" (Text.replace "\r\n" "\n" cs)

/-- The comment without its opening, the spaces after it and one newline. -/
def dropOpening (cs : List Char) : List Char :=
  match Text.dropPrefix? "/**".toList cs with
  | none => cs
  | some rest =>
    match rest.dropWhile (· == ' ') with
    | '\n' :: rest => rest
    | rest => rest

/-- The comment without its closing, the spaces before it and one newline. -/
def dropClosing (cs : List Char) : List Char :=
  match Text.dropSuffix? "*/".toList cs with
  | none => cs
  | some rest =>
    let rest := dropEndWhile (· == ' ') rest
    match Text.dropSuffix? ['\n'] rest with
    | some rest => rest
    | none => rest

/-- The number of characters `c` that all lines start with, blank lines aside;
    none when all lines are blank. -/
def commonLead (c : Char) (lines : List (List Char)) : Nat :=
  let leads := (lines.filter fun l => !allBlank l).map fun l => (l.takeWhile (· == c)).length
  leads.min?.getD 0

/-- The lines without their first `count` characters, blank lines as they are. -/
def dropLead (count : Nat) (lines : List (List Char)) : List (List Char) :=
  lines.map fun l => if allBlank l then l else l.drop count

/-- The lines without the spaces that all of them start with. -/
def dropIndent (lines : List (List Char)) : List (List Char) :=
  dropLead (commonLead ' ' lines) lines

/-- The lines without indentation and without one star in front of each, if all
    have one. -/
def dropStars (lines : List (List Char)) : List (List Char) :=
  let lines := dropIndent lines
  if commonLead '*' lines = 0 then lines else dropIndent (dropLead 1 lines)

/-- The text of a doc comment without its layout. -/
def clean (comment : List Char) : List Char :=
  let text := Text.replace "@deprecated" "&#64;deprecated" (plainLineEnds comment)
  let text := dropClosing (dropOpening text)
  joinWith ['\n'] (dropStars (splitOn (· == '\n') text))

/-! ### Declarations -/

/-- A declaration as it is written: its word and the text that follows. -/
structure Decl where
  optional : Bool
  word : List Char
  after : List Char
deriving DecidableEq, Repr

/-- A question mark after the keyword makes the parameter optional. -/
def optionalMark : List Char → Bool × List Char
  | '?' :: rest => (true, rest)
  | rest => (false, rest)

theorem length_optionalMark_le (cs : List Char) : (optionalMark cs).2.length ≤ cs.length := by
  unfold optionalMark
  split <;> simp

/-- The word that a declaration at the start of a text declares, whether the
    parameter is optional, and the text after the word. -/
def declAt? (cs : List Char) : Option (Bool × List Char × List Char) :=
  match Text.dropPrefix? "@param".toList cs with
  | none => none
  | some rest =>
    let (optional, rest) := optionalMark rest
    let text := rest.dropWhile isBlank
    let word := text.takeWhile fun c => !isBlank c
    if text.length = rest.length || word.isEmpty then none
    else some (optional, word, text.dropWhile fun c => !isBlank c)

/-- The text after a declaration is shorter. -/
theorem length_lt_of_declAt? {cs word after : List Char} {optional : Bool}
    (h : declAt? cs = some (optional, word, after)) : after.length < cs.length := by
  simp only [declAt?] at h
  split at h
  · simp at h
  · rename_i rest hrest
    have hlen := congrArg List.length (Text.dropPrefix?_eq_some_iff.1 hrest)
    split at h
    · simp at h
    · simp only [Option.some.injEq, Prod.mk.injEq] at h
      obtain ⟨-, -, rfl⟩ := h
      have := length_optionalMark_le rest
      have := length_dropWhile_le isBlank (optionalMark rest).2
      have := length_dropWhile_le (fun c => !isBlank c) ((optionalMark rest).2.dropWhile isBlank)
      simp at hlen
      omega

/-- The text before the first declaration, and the declarations. -/
def splitDecls : List Char → List Char × List Decl
  | [] => ([], [])
  | c :: cs =>
    match _h : declAt? (c :: cs) with
    | some (optional, word, rest) =>
      let (after, decls) := splitDecls rest
      ([], { optional, word, after } :: decls)
    | none =>
      let (before, decls) := splitDecls cs
      (c :: before, decls)
termination_by cs => cs.length
decreasing_by
  · exact length_lt_of_declAt? _h
  · simp

def summary (text : List Char) : List Char := trimEnd (splitDecls text).1

namespace Decl

/-- The parameter that a declaration declares if its word is an identifier. -/
def toParam (d : Decl) : Param :=
  { name := String.ofList d.word
    ty := .unknown
    typeText := none
    required := !d.optional
    desc := if allBlank d.after then none else some (String.ofList (trim d.after))
    source := .doc }

/-- A declaration whose word is no identifier, as it is shown. -/
def shown (d : Decl) : String :=
  (if d.optional then "@param?" else "@param") ++ " " ++ String.ofList d.word

/-- A word in braces was a type before version 2.0; any other word that is no
    identifier is older still. -/
def version (d : Decl) : SyntaxVersion :=
  match d.word with
  | '\x7b' :: _ => .v2
  | _ => .v1

end Decl

def params (text : List Char) : List Param :=
  ((splitDecls text).2.filter fun d => isIdentifier d.word).map Decl.toParam

/-- The declarations of a text whose word is no identifier. -/
def incorrect (text : List Char) : List Decl :=
  (splitDecls text).2.filter fun d => !isIdentifier d.word

/-- The bound that incorrect declarations put on the syntax version: the lowest
    that one of them puts. -/
def bound? (text : List Char) : Option VersionBound :=
  match incorrect text with
  | [] => none
  | decls =>
    some
      { version := if decls.any (·.version == .v1) then .v1 else .v2
        reason :=
          "Template doc comment has incorrect param declarations where the param name is " ++
            "not a valid identifier: " ++ ", ".intercalate (decls.map Decl.shown) }

/-- The bound on the syntax version of a template without a doc comment. -/
def missingBound : VersionBound := ⟨.v2, "Template is missing a doc comment."⟩

/-- A template with what its doc comment says; the parameters are declared
    apart. -/
def describe (comment : Option (List Char)) (info : TemplateInfo) : TemplateInfo :=
  match comment with
  | none => info.addBound missingBound
  | some comment =>
    let text := clean comment
    let info := match bound? text with
      | none => info
      | some bound => info.addBound bound
    let summary := summary text
    { info with
      doc := some (String.ofList text)
      docSummary := if summary.isEmpty then none else some (String.ofList summary) }

end Stencil.DocComment
