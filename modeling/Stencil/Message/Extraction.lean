/-
  Stencil/Message/Extraction.lean
  ===============================
  **The messages of a file set as a bundle.**

  The bundle that is sent to translators holds every message that is not a
  plural or select, as its own translation: its text, neighbouring texts
  joined, and the names of its placeholders.
-/
import Stencil.Message.Bundle
import Stencil.Message.Part
import Stencil.Template.Basic
import Stencil.Tree.Walk

namespace Stencil

namespace Message

variable {α : Type}

/-- A part put in front of the pieces of a translation: text joins text. -/
def consPiece (part : Tree α) (pieces : List TranslationPart) : List TranslationPart :=
  match part.content, pieces with
  | .msgText text, .text next :: rest => .text (text ++ next) :: rest
  | .msgText text, pieces => .text text :: pieces
  | .placeholder name _, pieces => .placeholder name :: pieces
  | _, pieces => pieces

/-- The pieces that a translator sees of a message body. -/
def sourcePieces (body : List (Tree α)) : List TranslationPart := body.foldr consPiece []

def desc? (msg : Tree α) : Option String :=
  match msg.content with
  | .msg desc _ _ => desc
  | _ => none

/-- A message as its own translation. -/
def toTranslation (msg : Tree α) : Translation :=
  { id := fingerprint msg
    desc := desc? msg
    meaning := meaning? msg
    parts := sourcePieces msg.children }

/-- The messages of a group that can be translated by pieces. -/
def translatable (group : Tree α) : List (Tree α) :=
  group.children.filter fun msg => !isChoiceBody msg.children

end Message

namespace FileSet

/-- The message groups of all templates in the order of the text. -/
def msgGroups (set : FileSet) : List Node := set.templates.flatMap fun t => Tree.msgGroups t.body

/-- The messages of a file set as a bundle. -/
def extractMsgs (set : FileSet) : Bundle :=
  Bundle.ofList none ((set.msgGroups.flatMap Message.translatable).map Message.toTranslation)

end FileSet

end Stencil
