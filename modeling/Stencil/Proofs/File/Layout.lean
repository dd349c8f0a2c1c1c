/-
  Stencil/Proofs/File/Layout.lean
  ===============================
  **How a file is written.**

  A file is written as declarations and templates that start their lines, with
  comments and white space between them (`Laid`).  The scanner finds just these
  items, each at the line it starts at (`scan_of_laid`): one lemma says what it
  makes of the inside of an item, and one what it makes of the item.
-/
import Mathlib.Data.List.Infix
import Stencil.File.Scanner

namespace Stencil.File

open Text (isBlank trim)

/-! ### Layouts -/

/-- The inside of a tag, which is on one line: a brace that closes stands in double
    quotes, and what is quoted ends. -/
def isTagInside (quoted : Bool) : List Char → Bool
  | [] => !quoted
  | c :: cs => c != '\n' && (quoted || c != '\x7d') && isTagInside (quoted != (c == '"')) cs

/-- What the body of a template has none of. -/
def templateTags : List String :=
  ["\x7b/template\x7d", "\x7b/deltemplate\x7d", "\x7btemplate ", "\x7bdeltemplate "]

/-- The tags of the declarations before the templates. -/
inductive HeaderTag where
  | package
  | namespaceDecl
  | aliasDecl

namespace HeaderTag

def word : HeaderTag → List Char
  | package => "delpackage".toList
  | namespaceDecl => "namespace".toList
  | aliasDecl => "alias".toList

def item : HeaderTag → List Char → Item
  | package => .package
  | namespaceDecl => .namespaceDecl
  | aliasDecl => .aliasDecl

end HeaderTag

/-- The line of what stands after a text that starts in a line. -/
def lineAfter (line : Nat) (cs : List Char) : Nat := line + cs.count '\n'

/-- `Laid line lineStart text items`: the text is written as these items.  It starts in
    the line, at its start or later.  Declarations and templates start their lines, and
    their tags are on one line. -/
inductive Laid : Nat → Bool → List Char → List Placed → Prop
  | done {line : Nat} {lineStart : Bool} : Laid line lineStart [] []
  | blank {line : Nat} {lineStart : Bool} {c : Char} {rest : List Char} {items : List Placed} :
      isBlank c → Laid (lineAfter line [c]) (c == '\n') rest items →
      Laid line lineStart (c :: rest) items
  | lineComment {line : Nat} {lineStart : Bool} {chars rest : List Char} {items : List Placed} :
      '\n' ∉ chars → Laid (line + 1) true rest items →
      Laid line lineStart ("//".toList ++ chars ++ '\n' :: rest) (⟨.comment, line⟩ :: items)
  | lastComment {line : Nat} {lineStart : Bool} {chars : List Char} :
      '\n' ∉ chars → Laid line lineStart ("//".toList ++ chars) [⟨.comment, line⟩]
  | comment {line : Nat} {lineStart : Bool} {chars rest : List Char} {items : List Placed} :
      ¬ "*/".toList <:+: chars → chars.head? ≠ some '*' →
      Laid (lineAfter line chars) false rest items →
      Laid line lineStart ("/*".toList ++ chars ++ "*/".toList ++ rest) (⟨.comment, line⟩ :: items)
  | doc {line : Nat} {lineStart : Bool} {chars rest : List Char} {items : List Placed} :
      ¬ "*/".toList <:+: chars → chars.head? ≠ some '/' →
      Laid (lineAfter line chars) false rest items →
      Laid line lineStart ("/**".toList ++ chars ++ "*/".toList ++ rest)
        (⟨.doc ("/**".toList ++ chars ++ "*/".toList), line⟩ :: items)
  | declaration {line : Nat} {tag : HeaderTag} {c : Char} {inside rest : List Char}
      {items : List Placed} :
      isBlank c → isTagInside false (c :: inside) → Laid line false rest items →
      Laid line true ('\x7b' :: tag.word ++ c :: inside ++ '\x7d' :: rest)
        (⟨tag.item (trim inside), line⟩ :: items)
  | template {line : Nat} {isDelegate : Bool} {c : Char} {inside body rest : List Char}
      {items : List Placed} :
      isBlank c → isTagInside false (c :: inside) → (∀ tag ∈ templateTags, ¬ tag.toList <:+: body) →
      Laid (lineAfter line body) false rest items →
      Laid line true
        ('\x7b' :: (templateName isDelegate).toList ++ c :: inside ++ '\x7d' :: body ++
          ('\x7b' :: '/' :: (templateName isDelegate).toList ++ '\x7d' :: rest))
        (⟨.template { isDelegate, text := trim inside, body, doc := none, line }, line⟩ :: items)

/-- A template knows the line that it starts at. -/
theorem Laid.line_eq {line : Nat} {lineStart : Bool} {text : List Char} {items : List Placed}
    (h : Laid line lineStart text items) {t : Placed} (ht : t ∈ items) {raw : RawTemplate}
    (hraw : t.item = .template raw) : raw.line = t.line := by
  induction h with
  | done => cases ht
  | blank _ _ ih => exact ih ht
  | lastComment _ =>
    obtain rfl := List.mem_singleton.1 ht
    cases hraw
  | lineComment _ _ ih | comment _ _ _ ih | doc _ _ _ ih =>
    rcases List.mem_cons.1 ht with rfl | ht
    · cases hraw
    · exact ih ht
  | @declaration _ tag _ _ _ _ _ _ _ ih =>
    rcases List.mem_cons.1 ht with rfl | ht
    · cases tag <;> cases hraw
    · exact ih ht
  | template _ _ _ _ ih =>
    rcases List.mem_cons.1 ht with rfl | ht
    · cases hraw
      rfl
    · exact ih ht

namespace Scanner

/-! ### The insides of items -/

variable {line opening : Nat} {lineStart : Bool} {items : List Placed}

theorem lineAfter_cons (line : Nat) (c : Char) (cs : List Char) :
    lineAfter (lineAfter line [c]) cs = lineAfter line (c :: cs) := by
  simp only [lineAfter, List.count_cons, List.count_nil]
  omega

theorem step_eq (s : Scanner) (c : Char) :
    s.step c = ⟨(s.stepChar c).mode, lineAfter (s.stepChar c).line [c], c == '\n',
      (s.stepChar c).items⟩ := by
  by_cases hc : c = '\n' <;> simp [step, lineAfter, hc]

theorem step_blank {c : Char} (h : isBlank c) :
    step ⟨.between, line, lineStart, items⟩ c = ⟨.between, lineAfter line [c], c == '\n', items⟩ := by
  rw [step_eq]
  simp [stepChar, stepBetween, h]

/-- What is read of an item is remembered as long as its end does not come. -/
theorem foldl_inside (inside : List Char → Mode) (passes : List Char → Char → Prop)
    (hstep : ∀ line lineStart seen c, passes seen c →
      stepChar ⟨inside seen, line, lineStart, items⟩ c =
        ⟨inside (c :: seen), line, lineStart, items⟩)
    {seen cs : List Char}
    (h : ∀ before c after, cs = before ++ c :: after → passes (before.reverse ++ seen) c) :
    ∃ lineStart', cs.foldl step ⟨inside seen, line, lineStart, items⟩ =
      ⟨inside (cs.reverse ++ seen), lineAfter line cs, lineStart', items⟩ := by
  induction cs generalizing seen line lineStart with
  | nil => exact ⟨lineStart, rfl⟩
  | cons c cs ih =>
    have hc : step ⟨inside seen, line, lineStart, items⟩ c =
        ⟨inside (c :: seen), lineAfter line [c], c == '\n', items⟩ := by
      rw [step_eq, hstep line lineStart seen c (h [] c cs rfl)]
    have hmore : ∀ before d after, cs = before ++ d :: after →
        passes (before.reverse ++ c :: seen) d := by
      intro before d after heq
      have hd := h (c :: before) d after (by rw [heq, List.cons_append])
      rwa [List.reverse_cons, List.append_assoc] at hd
    rw [List.foldl_cons, hc, List.reverse_cons, List.append_assoc, List.singleton_append,
      ← lineAfter_cons line c cs]
    exact ih hmore

/-- Where a mark does not stand in a text, it ends at none of its characters. -/
theorem not_suffix_of_not_infix {mark seen cs before after : List Char} {c : Char}
    (h : ¬ mark <:+: seen.reverse ++ cs) (heq : cs = before ++ c :: after) :
    ¬ mark <:+ (c :: (before.reverse ++ seen)).reverse := by
  rintro ⟨start, hstart⟩
  refine h ⟨start, after, ?_⟩
  rw [hstart, heq]
  simp

theorem foldl_lineComment {cs : List Char} (h : '\n' ∉ cs) :
    ∃ lineStart', cs.foldl step ⟨.lineComment, line, lineStart, items⟩ =
      ⟨.lineComment, lineAfter line cs, lineStart', items⟩ := by
  have hpass : ∀ before c after, cs = before ++ c :: after → c ≠ '\n' := by
    rintro before c after rfl rfl
    exact h (List.mem_append_right _ List.mem_cons_self)
  exact @foldl_inside line lineStart items (fun _ => .lineComment) (fun _ c => c ≠ '\n')
    (fun _ _ _ _ hc => if_neg hc) [] cs hpass

/-- The end of a comment after a star. -/
theorem not_ends {seen : List Char} {c : Char} (h : ¬ "*/".toList <:+ (c :: seen).reverse) :
    ¬ (seen.head? = some '*' ∧ c = '/') := by
  rintro ⟨hhead, rfl⟩
  obtain ⟨more, rfl⟩ := List.head?_eq_some_iff.1 hhead
  exact h ⟨more.reverse, by simp⟩

theorem foldl_comment {seen cs : List Char} (h : ¬ "*/".toList <:+: seen.reverse ++ cs) :
    ∃ lineStart', cs.foldl step
        ⟨.comment opening (seen.head? == some '*'), line, lineStart, items⟩ =
      ⟨.comment opening ((cs.reverse ++ seen).head? == some '*'), lineAfter line cs, lineStart',
        items⟩ := by
  refine foldl_inside (fun seen => .comment opening (seen.head? == some '*'))
    (fun seen c => ¬ "*/".toList <:+ (c :: seen).reverse) ?_
    (fun before c after heq => not_suffix_of_not_infix h heq)
  intro line lineStart seen c hpass
  exact if_neg (by simpa using not_ends hpass)

theorem foldl_doc {seen cs : List Char} (h : ¬ "*/".toList <:+: seen.reverse ++ cs) :
    ∃ lineStart', cs.foldl step ⟨.doc opening seen, line, lineStart, items⟩ =
      ⟨.doc opening (cs.reverse ++ seen), lineAfter line cs, lineStart', items⟩ := by
  refine foldl_inside (fun seen => .doc opening seen)
    (fun seen c => ¬ "*/".toList <:+ (c :: seen).reverse) ?_
    (fun before c after heq => not_suffix_of_not_infix h heq)
  intro line lineStart seen c hpass
  exact if_neg (by simpa [and_comm] using not_ends hpass)

/-- An end tag stands where it is found. -/
theorem suffix_of_endTag? {seen body : List Char} {closesDelegate : Bool}
    (h : endTag? seen = some (closesDelegate, body)) :
    "\x7b/template".toList <:+ seen.reverse ∨ "\x7b/deltemplate".toList <:+ seen.reverse := by
  rw [endTag?] at h
  split at h
  · rename_i hplain
    rw [Text.dropPrefix?_eq_some_iff.1 hplain]
    exact .inl ⟨_, by rw [List.reverse_append, List.reverse_reverse]⟩
  · obtain ⟨_, hdelegate, -⟩ := Option.map_eq_some_iff.1 h
    rw [Text.dropPrefix?_eq_some_iff.1 hdelegate]
    exact .inr ⟨_, by rw [List.reverse_append, List.reverse_reverse]⟩

/-- A character that does not close an end tag belongs to the template. -/
theorem stepChar_template {isDelegate : Bool} {text seen : List Char} {c : Char}
    (h : c = '\x7d' → endTag? seen = none) :
    stepChar ⟨.template opening isDelegate text seen, line, lineStart, items⟩ c =
      ⟨.template opening isDelegate text (c :: seen), line, lineStart, items⟩ := by
  simp only [stepChar]
  split
  · rename_i hend
    rw [h rfl] at hend
    cases hend
  · rfl

theorem foldl_body {isDelegate : Bool} {text body : List Char}
    (h : ∀ tag ∈ templateTags, ¬ tag.toList <:+: body) :
    ∃ lineStart', body.foldl step ⟨.template opening isDelegate text [], line, lineStart, items⟩ =
      ⟨.template opening isDelegate text body.reverse, lineAfter line body, lineStart', items⟩ := by
  have hpass : ∀ before c after, body = before ++ c :: after →
      c = '\x7d' → endTag? (before.reverse ++ []) = none := by
    rintro before c after rfl rfl
    cases hend : endTag? (before.reverse ++ []) with
    | none => rfl
    | some found =>
      rw [List.append_nil] at hend
      have hsuffix := suffix_of_endTag? hend
      rw [List.reverse_reverse] at hsuffix
      rcases hsuffix with ⟨start, rfl⟩ | ⟨start, rfl⟩
      · exact absurd ⟨start, after, by simp⟩ (h _ List.mem_cons_self)
      · exact absurd ⟨start, after, by simp⟩ (h _ (List.mem_cons_of_mem _ List.mem_cons_self))
  have hbody := @foldl_inside line lineStart items (fun seen => .template opening isDelegate text seen)
    (fun seen c => c = '\x7d' → endTag? seen = none)
    (fun _ _ _ _ hc => stepChar_template hc) [] body hpass
  rwa [List.append_nil] at hbody

/-- In a tag only what it is closed by is not remembered. -/
theorem foldl_tag {start quoted : Bool} {cs seen : List Char} (h : isTagInside quoted cs) :
    cs.foldl step ⟨.tag opening start quoted seen, line, false, items⟩ =
      ⟨.tag opening start false (cs.reverse ++ seen), line, false, items⟩ := by
  induction cs generalizing quoted seen with
  | nil =>
    have hquoted : quoted = false := by simpa [isTagInside] using h
    rw [hquoted]
    rfl
  | cons c cs ih =>
    simp only [isTagInside, Bool.and_eq_true, bne_iff_ne, Bool.or_eq_true] at h
    obtain ⟨⟨hline, hbrace⟩, hcs⟩ := h
    have hopen : ¬ (c = '\x7d' ∧ quoted = false) := by
      rintro ⟨hc, hquoted⟩
      rcases hbrace with hq | hne
      · rw [hquoted] at hq
        cases hq
      · exact hne hc
    have hstep : step ⟨.tag opening start quoted seen, line, false, items⟩ c =
        ⟨.tag opening start (quoted != (c == '"')) (c :: seen), line, false, items⟩ := by
      rw [step_eq]
      simp [stepChar, hline, hopen, lineAfter]
    rw [List.foldl_cons, hstep, ih hcs, List.reverse_cons, List.append_assoc, List.singleton_append]

/-! ### Items -/

/-- A comment that its line ends. -/
theorem foldl_openComment {chars : List Char} (h : '\n' ∉ chars) :
    ∃ lineStart', ("//".toList ++ chars).foldl step ⟨.between, line, lineStart, items⟩ =
      ⟨.lineComment, line, lineStart', ⟨.comment, line⟩ :: items⟩ := by
  have hopen : "//".toList.foldl step ⟨.between, line, lineStart, items⟩ =
      ⟨.lineComment, line, false, ⟨.comment, line⟩ :: items⟩ := rfl
  obtain ⟨lineStart', hinside⟩ := @foldl_lineComment line false (⟨.comment, line⟩ :: items) chars h
  rw [lineAfter, List.count_eq_zero.2 h] at hinside
  exact ⟨lineStart', by rw [List.foldl_append, hopen, hinside]; rfl⟩

theorem foldl_commentEnd (afterStar : Bool) :
    "*/".toList.foldl step ⟨.comment opening afterStar, line, lineStart, items⟩ =
      ⟨.between, line, false, ⟨.comment, opening⟩ :: items⟩ := by
  cases afterStar <;> rfl

theorem foldl_closedComment {chars : List Char} (hend : ¬ "*/".toList <:+: chars)
    (hstar : chars.head? ≠ some '*') :
    ("/*".toList ++ chars ++ "*/".toList).foldl step ⟨.between, line, lineStart, items⟩ =
      ⟨.between, lineAfter line chars, false, ⟨.comment, line⟩ :: items⟩ := by
  cases chars with
  | nil => rfl
  | cons c cs =>
    have hc : c ≠ '*' := fun hc => hstar (congrArg some hc)
    have hopen : "/*".toList.foldl step ⟨.between, line, lineStart, items⟩ =
        ⟨.slashStar, line, false, items⟩ := rfl
    have hfirst : step ⟨.slashStar, line, false, items⟩ c =
        ⟨.comment line ([c].head? == some '*'), lineAfter line [c], c == '\n', items⟩ := by
      rw [step_eq]
      simp [stepChar, hc]
    obtain ⟨lineStart', hinside⟩ := @foldl_comment (lineAfter line [c]) line (c == '\n') items [c] cs
      hend
    rw [List.append_assoc, List.foldl_append, hopen, List.cons_append, List.foldl_cons, hfirst,
      List.foldl_append, hinside, foldl_commentEnd, lineAfter_cons]

theorem foldl_docEnd (seen : List Char) :
    "*/".toList.foldl step ⟨.doc opening seen, line, lineStart, items⟩ =
      ⟨.between, line, false,
        ⟨.doc ("/**".toList ++ (seen.reverse ++ "*/".toList)), opening⟩ :: items⟩ := by
  have htext : ('/' :: '*' :: seen).reverse = seen.reverse ++ "*/".toList := by simp
  rw [← htext]
  rfl

theorem foldl_closedDoc {chars : List Char} (hend : ¬ "*/".toList <:+: chars)
    (hslash : chars.head? ≠ some '/') :
    ("/**".toList ++ chars ++ "*/".toList).foldl step ⟨.between, line, lineStart, items⟩ =
      ⟨.between, lineAfter line chars, false,
        ⟨.doc ("/**".toList ++ chars ++ "*/".toList), line⟩ :: items⟩ := by
  cases chars with
  | nil => rfl
  | cons c cs =>
    have hc : c ≠ '/' := fun hc => hslash (congrArg some hc)
    have hopen : "/**".toList.foldl step ⟨.between, line, lineStart, items⟩ =
        ⟨.slashStarStar, line, false, items⟩ := rfl
    have hfirst : step ⟨.slashStarStar, line, false, items⟩ c =
        ⟨.doc line [c], lineAfter line [c], c == '\n', items⟩ := by
      rw [step_eq]
      simp [stepChar, hc]
    obtain ⟨lineStart', hinside⟩ := @foldl_doc (lineAfter line [c]) line (c == '\n') items [c] cs hend
    rw [List.append_assoc, List.foldl_append, hopen, List.cons_append, List.foldl_cons, hfirst,
      List.foldl_append, hinside, foldl_docEnd, lineAfter_cons, List.reverse_append,
      List.reverse_reverse]
    rfl

/-! #### Tags -/

theorem cut?_append {word rest : List Char} {c : Char} (hword : word.all (!isBlank ·))
    (hc : isBlank c) : Text.cut? isBlank (word ++ c :: rest) = some (word, rest) := by
  induction word with
  | nil => simp [Text.cut?, hc]
  | cons d word ih =>
    rw [List.all_cons, Bool.and_eq_true, Bool.not_eq_true'] at hword
    simp [Text.cut?, hword.1, ih hword.2]

variable {c : Char} {inside : List Char}

theorem closeTag_header (s : Scanner) (tag : HeaderTag) (hc : isBlank c) :
    s.closeTag opening true (tag.word ++ c :: inside) = s.emit (tag.item (trim inside)) opening := by
  have hword : tag.word.all (!isBlank ·) := by cases tag <;> rfl
  have hcut : Text.cut? isBlank (tag.word ++ c :: inside) = some (tag.word, inside) :=
    cut?_append hword hc
  rw [closeTag, hcut]
  cases tag <;> rfl

theorem closeTag_template (s : Scanner) (isDelegate : Bool) (hc : isBlank c) :
    s.closeTag opening true ((templateName isDelegate).toList ++ c :: inside) =
      { s with mode := .template opening isDelegate (trim inside) [] } := by
  have hword : (templateName isDelegate).toList.all (!isBlank ·) := by cases isDelegate <;> rfl
  have hcut : Text.cut? isBlank ((templateName isDelegate).toList ++ c :: inside) =
      some ((templateName isDelegate).toList, inside) := cut?_append hword hc
  rw [closeTag, hcut]
  cases isDelegate <;> rfl

/-- A tag at the start of a line is closed with what stands in it. -/
theorem foldl_tagged {inside : List Char} (h : isTagInside false inside) :
    ('\x7b' :: inside ++ ['\x7d']).foldl step ⟨.between, line, true, items⟩ =
      { closeTag ⟨.tag line true false inside.reverse, line, false, items⟩ line true inside with
        lineStart := false } := by
  have hopen : step ⟨.between, line, true, items⟩ '\x7b' =
      ⟨.tag line true false [], line, false, items⟩ := rfl
  have hclose : stepChar ⟨.tag line true false inside.reverse, line, false, items⟩ '\x7d' =
      closeTag ⟨.tag line true false inside.reverse, line, false, items⟩ line true inside := by
    simp [stepChar]
  rw [List.cons_append, List.foldl_cons, hopen, List.foldl_append, foldl_tag h, List.append_nil,
    List.foldl_cons, List.foldl_nil, step_eq, hclose]
  rfl

theorem foldl_declaration (tag : HeaderTag) (hc : isBlank c) (h : isTagInside false (c :: inside)) :
    ('\x7b' :: tag.word ++ c :: inside ++ ['\x7d']).foldl step ⟨.between, line, true, items⟩ =
      ⟨.between, line, false, ⟨tag.item (trim inside), line⟩ :: items⟩ := by
  have hinside : isTagInside false (tag.word ++ c :: inside) := by cases tag <;> exact h
  rw [List.cons_append, foldl_tagged hinside, closeTag_header _ tag hc]
  rfl

theorem infix_of_contains {word : String} {cs : List Char} (h : Text.contains word cs) :
    word.toList <:+: cs := by
  induction cs with
  | nil =>
    rw [Text.contains, String.isEmpty_iff] at h
    rw [h]
    exact List.infix_rfl
  | cons c cs ih =>
    rw [Text.contains, Bool.or_eq_true] at h
    rcases h with hstart | hrest
    · exact (List.isPrefixOf_iff_prefix.1 hstart).isInfix
    · exact (ih hrest).trans (List.suffix_cons c cs).isInfix

theorem opensTemplate_eq_false {body : List Char} (h : ∀ tag ∈ templateTags, ¬ tag.toList <:+: body) :
    opensTemplate body = false := by
  rw [opensTemplate, Bool.or_eq_false_iff]
  constructor
  · exact Bool.eq_false_iff.2 fun hopen => h _ (by simp [templateTags]) (infix_of_contains hopen)
  · exact Bool.eq_false_iff.2 fun hopen => h _ (by simp [templateTags]) (infix_of_contains hopen)

/-- The end tag of a template is found where it ends. -/
theorem endTag?_append (isDelegate : Bool) (body : List Char) :
    endTag? (('\x7b' :: '/' :: (templateName isDelegate).toList).reverse ++ body) =
      some (isDelegate, body) := by
  cases isDelegate <;> rfl

theorem foldl_endTag (isDelegate : Bool) {text body : List Char}
    (hbody : ∀ tag ∈ templateTags, ¬ tag.toList <:+: body) :
    ('\x7b' :: '/' :: (templateName isDelegate).toList ++ ['\x7d']).foldl step
        ⟨.template opening isDelegate text body.reverse, line, lineStart, items⟩ =
      ⟨.between, line, false,
        ⟨.template { isDelegate, text, body, doc := none, line := opening }, opening⟩ :: items⟩ := by
  have hname : ('\x7b' :: '/' :: (templateName isDelegate).toList).foldl step
        ⟨.template opening isDelegate text body.reverse, line, lineStart, items⟩ =
      ⟨.template opening isDelegate text
        (('\x7b' :: '/' :: (templateName isDelegate).toList).reverse ++ body.reverse), line, false,
        items⟩ := by
    cases isDelegate <;> rfl
  have hclose : stepChar ⟨.template opening isDelegate text
        (('\x7b' :: '/' :: (templateName isDelegate).toList).reverse ++ body.reverse), line, false,
        items⟩ '\x7d' =
      ⟨.between, line, false,
        ⟨.template { isDelegate, text, body, doc := none, line := opening }, opening⟩ :: items⟩ := by
    simp only [stepChar, endTag?_append, closeTemplate, opensTemplate_eq_false hbody,
      List.reverse_reverse, bne_self_eq_false, Bool.false_eq_true, if_false, emit]
  rw [List.foldl_append, hname, List.foldl_cons, List.foldl_nil, step_eq, hclose]
  rfl

theorem foldl_template (isDelegate : Bool) {body : List Char} (hc : isBlank c)
    (h : isTagInside false (c :: inside)) (hbody : ∀ tag ∈ templateTags, ¬ tag.toList <:+: body) :
    ('\x7b' :: (templateName isDelegate).toList ++ c :: inside ++ '\x7d' :: body ++
          ('\x7b' :: '/' :: (templateName isDelegate).toList ++ ['\x7d'])).foldl step
        ⟨.between, line, true, items⟩ =
      ⟨.between, lineAfter line body, false,
        ⟨.template { isDelegate, text := trim inside, body, doc := none, line }, line⟩ :: items⟩ := by
  have hinside : isTagInside false ((templateName isDelegate).toList ++ c :: inside) := by
    cases isDelegate <;> exact h
  have hopen : ('\x7b' :: ((templateName isDelegate).toList ++ c :: inside) ++ ['\x7d']).foldl step
      ⟨.between, line, true, items⟩ =
        ⟨.template line isDelegate (trim inside) [], line, false, items⟩ := by
    rw [foldl_tagged hinside, closeTag_template _ isDelegate hc]
  obtain ⟨lineStart', hfold⟩ := @foldl_body line line false items isDelegate (trim inside) body hbody
  have htext : '\x7b' :: (templateName isDelegate).toList ++ c :: inside ++ '\x7d' :: body =
      '\x7b' :: ((templateName isDelegate).toList ++ c :: inside) ++ ['\x7d'] ++ body := by simp
  have hunclosed : ('\x7b' :: ((templateName isDelegate).toList ++ c :: inside) ++ ['\x7d'] ++
      body).foldl step ⟨.between, line, true, items⟩ =
        ⟨.template line isDelegate (trim inside) body.reverse, lineAfter line body, lineStart',
          items⟩ := by
    rw [List.foldl_append, hopen, hfold]
  rw [htext, List.foldl_append, hunclosed, foldl_endTag isDelegate hbody]

end Scanner

/-! ### The items of a file -/

/-- The scanner finds the items in order; `before` are those that it has. -/
theorem Scanner.foldl_laid {line : Nat} {lineStart : Bool} {text : List Char} {items : List Placed}
    (h : Laid line lineStart text items) (before : List Placed) :
    (text.foldl step ⟨.between, line, lineStart, before⟩).items = items.reverseAux before ∧
      (text.foldl step ⟨.between, line, lineStart, before⟩).fault? = none := by
  induction h generalizing before with
  | done => exact ⟨rfl, rfl⟩
  | blank hc _ ih =>
    rw [List.foldl_cons, step_blank hc]
    exact ih before
  | lineComment hchars _ ih =>
    obtain ⟨lineStart', hopen⟩ := foldl_openComment hchars
    rw [List.foldl_append, hopen]
    exact ih _
  | lastComment hchars =>
    obtain ⟨lineStart', hopen⟩ := foldl_openComment hchars
    rw [hopen]
    exact ⟨rfl, rfl⟩
  | comment hend hstar _ ih =>
    rw [List.foldl_append, foldl_closedComment hend hstar]
    exact ih _
  | doc hend hslash _ ih =>
    rw [List.foldl_append, foldl_closedDoc hend hslash]
    exact ih _
  | @declaration _ tag c inside rest _ hc h _ ih =>
    have htext : '\x7b' :: tag.word ++ c :: inside ++ '\x7d' :: rest =
        '\x7b' :: tag.word ++ c :: inside ++ ['\x7d'] ++ rest := by simp
    rw [htext, List.foldl_append, foldl_declaration tag hc h]
    exact ih _
  | @template _ isDelegate c inside body rest _ hc h hbody _ ih =>
    have htext : '\x7b' :: (templateName isDelegate).toList ++ c :: inside ++ '\x7d' :: body ++
          ('\x7b' :: '/' :: (templateName isDelegate).toList ++ '\x7d' :: rest) =
        '\x7b' :: (templateName isDelegate).toList ++ c :: inside ++ '\x7d' :: body ++
          ('\x7b' :: '/' :: (templateName isDelegate).toList ++ ['\x7d']) ++ rest := by simp
    rw [htext, List.foldl_append, foldl_template isDelegate hc h hbody]
    exact ih _

/-- **The items of a file are those that it is written as.** -/
theorem scan_of_laid {text : List Char} {items : List Placed} (h : Laid 1 true text items) :
    scan text = (items, none) := by
  obtain ⟨hitems, hfault⟩ := Scanner.foldl_laid h []
  have hscan : scan text =
      ((text.foldl Scanner.step ⟨.between, 1, true, []⟩).items.reverse,
        (text.foldl Scanner.step ⟨.between, 1, true, []⟩).fault?) := rfl
  rw [hscan, hitems, hfault, List.reverseAux_eq, List.append_nil, List.reverse_reverse]

end Stencil.File
