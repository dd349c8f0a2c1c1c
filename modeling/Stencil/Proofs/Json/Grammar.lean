/-
  Stencil/Proofs/Json/Grammar.lean
  ================================
  **JSON texts**, as RFC 8259 has them, and what keeps to them.

  A text denotes a value of strings, arrays, objects and words; numbers are left
  aside.  A character of a string may be spelled in several ways, and white space
  may stand around every token, so a value has many texts.  A writer is free to
  choose one of them, and a reader has to know them all.  Then what the one writes
  the other reads (`ReaderConforms.read_write`).
-/
import Stencil.Json.Basic
import Stencil.Text.Numeral

namespace Stencil.Json

/-! ### Strings -/

/-- The letters of the short escapes, and the characters that they stand for. -/
def shortEscapes : List (Char × Char) :=
  [('"', '"'), ('\\', '\\'), ('/', '/'), ('b', '\x08'), ('f', '\x0c'), ('n', '\n'), ('r', '\r'),
    ('t', '\t')]

/-- Four hexadecimal digits and the unit of UTF-16 that they write. -/
def IsUnit (digits : List Char) (unit : Nat) : Prop :=
  digits.length = 4 ∧ Text.readNat? 16 digits = some unit

/-- A spelling of a character in a string: itself, a short escape, or an escape for each
    unit that it has in UTF-16. -/
inductive SpellsChar : List Char → Char → Prop
  | plain {c : Char} (hcontrol : 0x20 ≤ c.toNat) (hquote : c ≠ '"') (hslash : c ≠ '\\') :
      SpellsChar [c] c
  | short {letter c : Char} (h : (letter, c) ∈ shortEscapes) : SpellsChar ['\\', letter] c
  | unit {digits : List Char} {c : Char} (h : IsUnit digits c.toNat) :
      SpellsChar ('\\' :: 'u' :: digits) c
  | pair {digits digits' : List Char} {high low : Nat} {c : Char} (hhigh : IsUnit digits high)
      (hlow : IsUnit digits' low) (hhighRange : 0xD800 ≤ high ∧ high < 0xDC00)
      (hlowRange : 0xDC00 ≤ low ∧ low < 0xE000)
      (hc : c.toNat = 0x10000 + (high - 0xD800) * 0x400 + (low - 0xDC00)) :
      SpellsChar ('\\' :: 'u' :: digits ++ '\\' :: 'u' :: digits') c

/-- A spelling of a text between the quotes of a string. -/
inductive SpellsText : List Char → List Char → Prop
  | nil : SpellsText [] []
  | cons {cs more text : List Char} {c : Char} (hc : SpellsChar cs c) (h : SpellsText more text) :
      SpellsText (cs ++ more) (c :: text)

/-! ### Values -/

/-- White space: blanks, tabs and line ends. -/
def Blank (cs : List Char) : Prop := ∀ c ∈ cs, c ∈ [' ', '\t', '\n', '\r']

mutual

/-- A text denotes a value, perhaps with white space around it. -/
inductive Denotes : List Char → Json → Prop
  | blank {before cs after : List Char} {v : Json} (hbefore : Blank before) (h : Denotes cs v)
      (hafter : Blank after) : Denotes (before ++ cs ++ after) v
  | null : Denotes "null".toList null
  | true : Denotes "true".toList (bool true)
  | false : Denotes "false".toList (bool false)
  | str {cs text : List Char} (h : SpellsText cs text) :
      Denotes ('"' :: cs ++ ['"']) (str (some (String.ofList text)))
  | emptyArr {cs : List Char} (h : Blank cs) : Denotes ('[' :: cs ++ [']']) (arr [])
  | arr {cs : List Char} {items : List Json} (h : DenotesItems cs items) :
      Denotes ('[' :: cs ++ [']']) (arr items)
  | emptyObj {cs : List Char} (h : Blank cs) : Denotes ('\x7b' :: cs ++ ['\x7d']) (obj [])
  | obj {cs : List Char} {members : List (Option String × Json)} (h : DenotesMembers cs members) :
      Denotes ('\x7b' :: cs ++ ['\x7d']) (obj members)

/-- A text denotes the items of an array, at least one. -/
inductive DenotesItems : List Char → List Json → Prop
  | last {cs : List Char} {v : Json} (h : Denotes cs v) : DenotesItems cs [v]
  | cons {cs more : List Char} {v : Json} {items : List Json} (h : Denotes cs v)
      (hmore : DenotesItems more items) : DenotesItems (cs ++ ',' :: more) (v :: items)

/-- A text denotes a member of an object. -/
inductive DenotesMember : List Char → Option String × Json → Prop
  | mk {before name after cs text : List Char} {v : Json} (hbefore : Blank before)
      (hname : SpellsText name text) (hafter : Blank after) (h : Denotes cs v) :
      DenotesMember (before ++ '"' :: (name ++ '"' :: (after ++ ':' :: cs)))
        (some (String.ofList text), v)

/-- A text denotes the members of an object, at least one. -/
inductive DenotesMembers : List Char → List (Option String × Json) → Prop
  | last {cs : List Char} {member : Option String × Json} (h : DenotesMember cs member) :
      DenotesMembers cs [member]
  | cons {cs more : List Char} {member : Option String × Json}
      {members : List (Option String × Json)} (h : DenotesMember cs member)
      (hmore : DenotesMembers more members) : DenotesMembers (cs ++ ',' :: more) (member :: members)

end

/-! ### Writers and readers -/

mutual

/-- A value has no numbers, and its strings and the names in it are texts. -/
def Textual : Json → Prop
  | null | bool _ => True
  | num _ => False
  | str text => text.isSome
  | arr items => ItemsTextual items
  | obj members => MembersTextual members

/-- Several values are textual. -/
def ItemsTextual : List Json → Prop
  | [] => True
  | item :: rest => Textual item ∧ ItemsTextual rest

/-- Several members have texts as names, and textual values. -/
def MembersTextual : List (Option String × Json) → Prop
  | [] => True
  | (name, value) :: rest => name.isSome ∧ Textual value ∧ MembersTextual rest

end

/-- A writer conforms if it writes a text of each value that has no numbers and whose strings
    and names are texts. -/
def WriterConforms (write : Json → String) : Prop := ∀ v, Textual v → Denotes (write v).toList v

/-- A reader conforms if it reads every text as the value that it denotes. -/
def ReaderConforms (read : String → Option Json) : Prop :=
  ∀ text v, Denotes text.toList v → read text = some v

/-- **What a writer that conforms writes, a reader that conforms reads back.** -/
theorem ReaderConforms.read_write {read : String → Option Json} {write : Json → String}
    (hread : ReaderConforms read) (hwrite : WriterConforms write) {v : Json} (hv : Textual v) :
    read (write v) = some v := hread (write v) v (hwrite v hv)

end Stencil.Json
