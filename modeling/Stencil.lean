import Stencil.Body.Attribute
import Stencil.Body.CommandText
import Stencil.Body.Lines
import Stencil.Body.Reader
import Stencil.Body.Scanner
import Stencil.Body.Scope
import Stencil.Body.Statement
import Stencil.Body.Token
import Stencil.Build.Body
import Stencil.Build.File
import Stencil.Build.Message
import Stencil.Check.CallTypes
import Stencil.Check.IndirectParams
import Stencil.Check.Table
import Stencil.Check.TemplateIndex
import Stencil.Check.Versions
import Stencil.Compiler.Basic
import Stencil.Compiler.Options
import Stencil.ContentKind
import Stencil.Expr.Basic
import Stencil.Expr.Typing
import Stencil.File.Reader
import Stencil.File.Scanner
import Stencil.Json.Basic
import Stencil.Json.Printer
import Stencil.Json.Reader
import Stencil.Location
import Stencil.Message.Assembly
import Stencil.Message.Bundle
import Stencil.Message.BundleFile
import Stencil.Message.Extraction
import Stencil.Message.Fingerprint
import Stencil.Message.Insertion
import Stencil.Message.Part
import Stencil.Message.Placeholder
import Stencil.ParseError
import Stencil.SyntaxVersion
import Stencil.Template.Basic
import Stencil.Template.DocComment
import Stencil.Template.Header
import Stencil.Template.Reader
import Stencil.Text.Binary64
import Stencil.Text.Blank
import Stencil.Text.Identifier
import Stencil.Text.Numeral
import Stencil.Text.Split
import Stencil.Text.UpperSnake
import Stencil.Tree.Basic
import Stencil.Tree.Call
import Stencil.Tree.ChildList
import Stencil.Tree.Content
import Stencil.Tree.Copy
import Stencil.Tree.Editing
import Stencil.Tree.Revision
import Stencil.Tree.Walk
import Stencil.Ty.Assignable
import Stencil.Ty.Basic
import Stencil.Ty.Order
import Stencil.Ty.Reader
import Stencil.Ty.Registry
import Stencil.Ty.Text
import Stencil.Xid
import Stencil.Proofs.Body.Balance
import Stencil.Proofs.Body.BrokenLines
import Stencil.Proofs.Body.Calls
import Stencil.Proofs.Body.CommandText
import Stencil.Proofs.Body.Comments
import Stencil.Proofs.Body.Contents
import Stencil.Proofs.Body.Grammar
import Stencil.Proofs.Body.JoinedLines
import Stencil.Proofs.Body.Lines
import Stencil.Proofs.Body.Lockstep
import Stencil.Proofs.Body.Messages
import Stencil.Proofs.Body.Nesting
import Stencil.Proofs.Body.Places
import Stencil.Proofs.Body.Prints
import Stencil.Proofs.Body.Quotes
import Stencil.Proofs.Body.Reader
import Stencil.Proofs.Body.Spans
import Stencil.Proofs.Body.Tags
import Stencil.Proofs.Body.Unwrapped
import Stencil.Proofs.Build.Body
import Stencil.Proofs.Build.Constructs
import Stencil.Proofs.Build.File
import Stencil.Proofs.Build.Message
import Stencil.Proofs.Build.Names
import Stencil.Proofs.Check.CallTypes
import Stencil.Proofs.Check.FormalTypes
import Stencil.Proofs.Check.Forwarding
import Stencil.Proofs.Check.Indexing
import Stencil.Proofs.Check.IndirectParams
import Stencil.Proofs.Check.Likeness
import Stencil.Proofs.Check.TemplateIndex
import Stencil.Proofs.Check.Views
import Stencil.Proofs.Compiler.Bodies
import Stencil.Proofs.Compiler.Declarations
import Stencil.Proofs.Compiler.Errors
import Stencil.Proofs.Compiler.FileOrder
import Stencil.Proofs.Compiler.FileSets
import Stencil.Proofs.Compiler.Lines
import Stencil.Proofs.Compiler.Reached
import Stencil.Proofs.Compiler.Reading
import Stencil.Proofs.Compiler.Resolution
import Stencil.Proofs.Compiler.Typing
import Stencil.Proofs.Compiler.Views
import Stencil.Proofs.Expr.Forms
import Stencil.Proofs.File.Extents
import Stencil.Proofs.File.Layout
import Stencil.Proofs.File.Lines
import Stencil.Proofs.File.OpeningTags
import Stencil.Proofs.File.Order
import Stencil.Proofs.File.Placing
import Stencil.Proofs.File.Reader
import Stencil.Proofs.Json.Grammar
import Stencil.Proofs.Json.ReadBack
import Stencil.Proofs.Json.Written
import Stencil.Proofs.Message.Alike
import Stencil.Proofs.Message.Assembled
import Stencil.Proofs.Message.Assembly
import Stencil.Proofs.Message.Bare
import Stencil.Proofs.Message.BundleFile
import Stencil.Proofs.Message.Calls
import Stencil.Proofs.Message.Canonical
import Stencil.Proofs.Message.Expressions
import Stencil.Proofs.Message.Filled
import Stencil.Proofs.Message.Form
import Stencil.Proofs.Message.Formed
import Stencil.Proofs.Message.Identity
import Stencil.Proofs.Message.Inlined
import Stencil.Proofs.Message.Keys
import Stencil.Proofs.Message.Lookup
import Stencil.Proofs.Message.Names
import Stencil.Proofs.Message.Outline
import Stencil.Proofs.Message.Outputs
import Stencil.Proofs.Message.PlaceholderNames
import Stencil.Proofs.Message.Remaining
import Stencil.Proofs.Message.Replacement
import Stencil.Proofs.Message.Rewrapped
import Stencil.Proofs.Message.RoundTrip
import Stencil.Proofs.Message.Shapes
import Stencil.Proofs.Message.SharedKeys
import Stencil.Proofs.Message.Signs
import Stencil.Proofs.Message.Splices
import Stencil.Proofs.Message.Typing
import Stencil.Proofs.Message.WellFormed
import Stencil.Proofs.Message.WellMade
import Stencil.Proofs.Outcome
import Stencil.Proofs.Renaming
import Stencil.Proofs.Template.Declarations
import Stencil.Proofs.Template.DocDeclarations
import Stencil.Proofs.Template.DocLayout
import Stencil.Proofs.Template.Lines
import Stencil.Proofs.Text.Characters
import Stencil.Proofs.Text.DottedNames
import Stencil.Proofs.Text.Numerals
import Stencil.Proofs.Text.Split
import Stencil.Proofs.Text.Trim
import Stencil.Proofs.Tree.Bare
import Stencil.Proofs.Tree.ChildList
import Stencil.Proofs.Tree.Copies
import Stencil.Proofs.Tree.Gist
import Stencil.Proofs.Tree.Growth
import Stencil.Proofs.Tree.Lines
import Stencil.Proofs.Tree.Links
import Stencil.Proofs.Tree.ListRuns
import Stencil.Proofs.Tree.Nodes
import Stencil.Proofs.Tree.Numbering
import Stencil.Proofs.Tree.Placing
import Stencil.Proofs.Tree.Revision
import Stencil.Proofs.Tree.Shape
import Stencil.Proofs.Tree.View
import Stencil.Proofs.Tree.Visits
import Stencil.Proofs.Ty.Acceptance
import Stencil.Proofs.Ty.Assignable
import Stencil.Proofs.Ty.Built
import Stencil.Proofs.Ty.Denoted
import Stencil.Proofs.Ty.Grammar
import Stencil.Proofs.Ty.Interning
import Stencil.Proofs.Ty.Order
import Stencil.Proofs.Ty.ReadBack
import Stencil.Proofs.Ty.Reading
import Stencil.Proofs.Ty.Registry
import Stencil.Proofs.Ty.RoundTrip
import Stencil.Proofs.Ty.Unions
