/-
  Stencil/Message/Insertion.lean
  ==============================
  **Putting translations in the place of messages.**

  Every message group of a template is replaced by the statements of a
  translation, or by those of its first message if there is none.  A group
  with a plural or select cannot be replaced: it is left in place, or the
  insertion fails.  What replaces a group may hold groups itself, which are
  replaced first.

  A failure leaves what was replaced before it, and the group at which it
  arose as it was; identities that were given out stay so.
-/
import Stencil.Message.Bundle
import Stencil.Message.Part
import Stencil.Template.Basic
import Stencil.Tree.ChildList
import Stencil.Tree.Copy

namespace Stencil

/-- What happens to groups with plurals and selects. -/
inductive ChoiceMode where
  | strict
  | tolerant
deriving DecidableEq, Repr

/-- Why an insertion failed: a plural or select that cannot be replaced, which the
    error carries, or a translation that does not fit its message. -/
inductive InsertionError where
  | choiceMsg (msg : Node) (loc : Location)
  | unknownPlaceholder (id : MsgId) (name : String) (loc : Location)
deriving DecidableEq, Repr

def InsertionError.message : InsertionError → String
  | choiceMsg _ loc =>
    "Found plural/select message at " ++ loc.text ++
      "; plural and select messages cannot be inlined"
  | unknownPlaceholder id name loc =>
    "Translation of message " ++ toString id.toNat ++ " refers to unknown placeholder '" ++
      name ++ "' (message at " ++ loc.text ++ ")"

namespace Message

/-! ### The statements of a message -/

mutual

/-- The statements that a statement of a placeholder is outside of messages: an
    HTML tag is what stands in it. -/
def flatten : Node → List Node
  | .node mark content children =>
    match content with
    | .htmlTag _ _ _ => flattenAll children
    | _ => [.node mark content children]

/-- The statements that several statements of a placeholder are. -/
def flattenAll : List Node → List Node
  | [] => []
  | n :: rest => flatten n ++ flattenAll rest

end

/-- The statements of a message as it is written. -/
def sourceStatements (msg : Node) : List Node :=
  msg.children.flatMap fun part =>
    match part.content with
    | .msgText text => [.leaf part.mark (.rawText text)]
    | .placeholder _ _ => flattenAll part.children
    | _ => []

/-- Copies of statements, one after the other. -/
def copyAll (next : NodeId) : List Node → List Node × NodeId
  | [] => ([], next)
  | n :: rest =>
    let (n, next) := n.copy next
    let (rest, next) := copyAll next rest
    (n :: rest, next)

/-- The statements of a placeholder: its own where its name is used for the
    first time, and copies after that. -/
def placeholderStatements (used : Bool) (next : NodeId) (placeholder : Node) :
    List Node × NodeId :=
  let statements := flattenAll placeholder.children
  if used then copyAll next statements else (statements, next)

/-- The statements of a message by the parts of a translation, with the next
    free identity; `used` are the names of placeholders in the parts before. -/
def translatedStatements (msg : Node) (id : MsgId) (used : List String) (next : NodeId) :
    List TranslationPart → Except InsertionError (List Node) × NodeId
  | [] => (.ok [], next)
  | .text text :: rest =>
    let node : Node := .leaf ⟨next, none, msg.loc⟩ (.rawText text)
    let (statements, next) := translatedStatements msg id used (next + 1) rest
    (statements.map (node :: ·), next)
  | .placeholder name :: rest =>
    match placeholder? msg.children name with
    | none => (.error (.unknownPlaceholder id name msg.loc), next)
    | some placeholder =>
      let (nodes, next) := placeholderStatements (used.contains name) next placeholder
      let (statements, next) := translatedStatements msg id (name :: used) next rest
      (statements.map (nodes ++ ·), next)

/-! ### Replacing groups -/

/-- What an insertion is given: the translations, and what happens to plurals
    and selects. -/
structure Insertion where
  bundle : Option Bundle
  mode : ChoiceMode

/-- What an insertion keeps while it goes on: the next free identity, how many
    groups were replaced, and the groups that were left in place. -/
structure Progress where
  next : NodeId
  replaced : Nat := 0
  skipped : List NodeId := []
deriving DecidableEq, Repr

/-- A result of an insertion, the progress after it, and the error that ended
    it. -/
structure Visit (β : Type) where
  result : β
  progress : Progress
  error : Option InsertionError := none

def Visit.map {β γ : Type} (f : β → γ) (v : Visit β) : Visit γ :=
  { v with result := f v.result }

/-- The first message of a group that has a translation, with it. -/
def translation? (bundle : Bundle) (msgs : List Node) : Option (Node × Translation) :=
  msgs.findSome? fun msg => (bundle.get? (fingerprint msg)).map fun t => (msg, t)

namespace Insertion

/-- The statements that a group is replaced by, none if it is left in place. -/
def replacement (ins : Insertion) (progress : Progress) (group : Node) :
    Except InsertionError (Option (List Node)) × Progress :=
  match group.children.find? fun msg => isChoiceBody msg.children with
  | some msg =>
    match ins.mode with
    | .strict => (.error (.choiceMsg msg msg.loc), progress)
    | .tolerant => (.ok none, { progress with skipped := progress.skipped ++ [group.id] })
  | none =>
    match ins.bundle.bind fun bundle => translation? bundle group.children with
    | some (msg, t) =>
      let (statements, next) := translatedStatements msg t.id [] progress.next t.parts
      (statements.map some, { progress with next })
    | none =>
      let statements := match group.children with
        | [] => []
        | primary :: _ => sourceStatements primary
      (.ok (some statements), progress)

/-- Visit the insides of several statements one after the other, by `inside`. -/
def visitEach (inside : Progress → Node → Visit Node) (progress : Progress) :
    List Node → Visit (List Node)
  | [] => ⟨[], progress, none⟩
  | n :: rest =>
    let v := inside progress n
    match v.error with
    | some e => ⟨v.result :: rest, v.progress, some e⟩
    | none => (visitEach inside v.progress rest).map (v.result :: ·)

/-- Visit a statement in the block of an owner: a group is replaced, and of any
    other statement the inside is visited. -/
def visitStatement (ins : Insertion) (inside : Progress → Node → Visit Node) (owner : NodeId)
    (progress : Progress) (n : Node) : Visit (List Node) :=
  if n.content.isMsgGroup then
    match ins.replacement progress n with
    | (.error e, progress) => ⟨[n], progress, some e⟩
    | (.ok none, progress) => (inside progress n).map ([·])
    | (.ok (some nodes), progress) =>
      let v := visitEach inside progress nodes
      match v.error with
      | some e => ⟨[n], v.progress, some e⟩
      | none =>
        ⟨ChildList.adopt owner v.result, { v.progress with replaced := v.progress.replaced + 1 },
         none⟩
  else (inside progress n).map ([·])

/-- Visit the block of an owner. -/
def visitBlock (ins : Insertion) (inside : Progress → Node → Visit Node) (owner : NodeId)
    (progress : Progress) : List Node → Visit (List Node)
  | [] => ⟨[], progress, none⟩
  | n :: rest =>
    let v := ins.visitStatement inside owner progress n
    match v.error with
    | some e => ⟨v.result ++ rest, v.progress, some e⟩
    | none => (ins.visitBlock inside owner v.progress rest).map (v.result ++ ·)

/-- Visit the inside of a node that has at most `height` levels: everything
    below it that is a group is replaced. -/
def visitInside (ins : Insertion) : Nat → Progress → Node → Visit Node
  | 0, progress, n => ⟨n, progress, none⟩
  | height + 1, progress, n =>
    (ins.visitBlock (ins.visitInside height) n.owner progress n.children).map n.withChildren

/-- Visit the body of a template. -/
def visitTemplate (ins : Insertion) (progress : Progress) (t : Template Mark) :
    Visit (Template Mark) :=
  (ins.visitBlock (ins.visitInside (Tree.heightAll t.body)) t.mark.owner progress t.body).map
    fun body => { t with body }

/-- Visit several templates one after the other. -/
def visitTemplates (ins : Insertion) (progress : Progress) :
    List (Template Mark) → Visit (List (Template Mark))
  | [] => ⟨[], progress, none⟩
  | t :: rest =>
    let v := ins.visitTemplate progress t
    match v.error with
    | some e => ⟨v.result :: rest, v.progress, some e⟩
    | none => (ins.visitTemplates v.progress rest).map (v.result :: ·)

/-- Visit several files one after the other. -/
def visitFiles (ins : Insertion) (progress : Progress) :
    List (SourceFile Mark) → Visit (List (SourceFile Mark))
  | [] => ⟨[], progress, none⟩
  | file :: rest =>
    let v := (ins.visitTemplates progress file.templates).map fun templates =>
      { file with templates }
    match v.error with
    | some e => ⟨v.result :: rest, v.progress, some e⟩
    | none => (ins.visitFiles v.progress rest).map (v.result :: ·)

end Insertion

end Message

/-- What an insertion did: how many groups were replaced, and which were left in
    place. -/
structure InsertionSummary where
  replaced : Nat
  skipped : List NodeId
deriving DecidableEq, Repr

/-- The file set after an insertion, and what it did or why it failed. -/
def FileSet.insertMsgs (ins : Message.Insertion) (set : FileSet) :
    Except InsertionError InsertionSummary × FileSet :=
  let v := ins.visitFiles { next := set.next } set.files
  let set := { set with files := v.result, next := v.progress.next }
  match v.error with
  | some e => (.error e, set)
  | none => (.ok ⟨v.progress.replaced, v.progress.skipped⟩, set)

end Stencil
