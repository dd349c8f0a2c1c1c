/-
  Stencil/Proofs/Body/Calls.lean
  ==============================
  **Calls that are read name their parameters and callees properly.**

  The keys of a call are checked one by one, and against each other while the call
  is open.  A callee is completed or looked up among the aliases of the scope, so
  its name has as many segments as the scope's names allow.  An assembly leaves the
  calls in a message as they are.
-/
import Mathlib.Data.List.Nodup
import Stencil.Proofs.Body.Grammar
import Stencil.Proofs.Body.Prints
import Stencil.Proofs.Message.Assembled
import Stencil.Proofs.Text.DottedNames
import Stencil.Tree.Call

namespace Stencil

open Text (isIdentifier IsQualified)

variable {α : Type}

/-- The keys of a call are different identifiers, and a template that is called by
    its name has a name of several segments. -/
structure ProperCall (call : Tree α) : Prop where
  distinct : call.paramKeys.Nodup
  identifiers : ∀ key ∈ call.paramKeys, isIdentifier key.toList
  callee : ∀ name written, call.target? = some (.basic name written) → IsQualified name

/-- A node is a proper call, if it is a call. -/
def ProperCallAt (n : Tree α) : Prop := n.content.isCall → ProperCall n

theorem paramKeys_gist (n : Tree α) : n.gist.paramKeys = n.paramKeys := by
  rw [Tree.paramKeys, Tree.children_gist, List.filterMap_map, Tree.paramKeys]
  refine List.filterMap_congr fun param _ => ?_
  rw [Function.comp_apply, Tree.content_gist]
  cases param.content with
  | placeholder name key => cases key <;> rfl
  | _ => rfl

theorem properCallAt_gist (n : Tree α) : ProperCallAt n.gist ↔ ProperCallAt n := by
  have hcall : n.gist.content.isCall = n.content.isCall := by
    rw [Tree.content_gist]
    cases n.content with
    | placeholder name key => cases key <;> rfl
    | _ => rfl
  have htarget : n.gist.target? = n.target? := by
    rw [Tree.target?, Tree.content_gist, Tree.target?]
    cases n.content with
    | placeholder name key => cases key <;> rfl
    | _ => rfl
  have hkeys := paramKeys_gist n
  rw [ProperCallAt, ProperCallAt, hcall]
  refine imp_congr_right fun _ => ⟨fun h => ?_, fun h => ?_⟩
  · exact ⟨hkeys ▸ h.distinct, hkeys ▸ h.identifiers, htarget ▸ h.callee⟩
  · exact ⟨hkeys.symm ▸ h.distinct, hkeys.symm ▸ h.identifiers, htarget.symm ▸ h.callee⟩

namespace Body

variable {scope : Scope}

theorem isIdentifier_of_keyAndValue? {text key value : List Char}
    (h : keyAndValue? text = some (key, value)) : isIdentifier key := by
  rw [keyAndValue?] at h
  split at h
  · split at h
    · rename_i hkey
      cases h
      exact hkey
    · cases h
  · cases h

/-- The key of a parameter is an identifier. -/
theorem isIdentifier_of_callParam {text : List Char} {closing : Bool} {key : String}
    (h : (∃ expr, callParam text closing = .ok (.value key expr)) ∨
      ∃ kind, callParam text closing = .ok (.content key kind)) : isIdentifier key.toList := by
  rw [callParam] at h
  split at h
  · rename_i hvalue
    have hkey := isIdentifier_of_keyAndValue? hvalue
    rcases h with ⟨expr, h⟩ | ⟨kind, h⟩ <;> split_ifs at h <;> cases h
    rwa [String.toList_ofList]
  · simp only [bind_eq_ok] at h
    have hcontent : ∃ kind, ∃ cmd : CommandText, isIdentifier cmd.head ∧
        CallParam.content cmd.headText kind = .content key kind := by
      rcases h with ⟨expr, cmd, -, h⟩ | ⟨kind, cmd, -, h⟩
      · split at h
        · cases h
        · split at h
          · cases h
          · obtain ⟨kind, -, h⟩ := bind_eq_ok.1 h
            cases h
      · split at h
        · cases h
        · rename_i hhead
          split at h
          · cases h
          · obtain ⟨kind', -, h⟩ := bind_eq_ok.1 h
            cases h
            exact ⟨kind, cmd, by simpa using hhead, rfl⟩
    obtain ⟨kind, cmd, hhead, heq⟩ := hcontent
    cases heq
    rwa [CommandText.headText, String.toList_ofList]

/-- The names that a call can have. -/
theorem isQualified_of_isCall (h : scope.Sound) {name written : String} {data : CallData}
    (hcall : IsCall scope (.call (.basic name written) data)) : IsQualified name := by
  obtain ⟨text, hcall | hcall⟩ := hcall
  · simp only [basicCall, bind_eq_ok] at hcall
    obtain ⟨cmd, -, hcall⟩ := hcall
    split at hcall
    · rename_i hname
      cases hcall
      exact Scope.isQualified_of_callee? h hname
    · cases hcall
  · simp only [delegateCall, bind_eq_ok] at hcall
    obtain ⟨cmd, -, hcall⟩ := hcall
    split at hcall
    · obtain ⟨variant, -, hcall⟩ := bind_eq_ok.1 hcall
      cases hcall
    · cases hcall

/-- The key of a draft that is read as a parameter. -/
theorem exists_paramKey?_of_reads {p : Draft} (h : Reads scope .param p) :
    ∃ key, p.content.paramKey? = some key ∧ isIdentifier key.toList := by
  cases h with
  | valueParam line hparam => exact ⟨_, rfl, isIdentifier_of_callParam (.inl ⟨_, hparam⟩)⟩
  | contentParam line hparam => exact ⟨_, rfl, isIdentifier_of_callParam (.inr ⟨_, hparam⟩)⟩

theorem properCall_of_reads (hscope : scope.Sound) {line : Nat} {content : Content}
    {params : List Draft} (hcontent : IsCall scope content)
    (hparams : ∀ p ∈ params, Reads scope .param p)
    (hkeys : (params.map (·.content.paramKey?)).Nodup) :
    ProperCall (.node line content params : Draft) := by
  have hsome : (params.filterMap (·.content.paramKey?)).map some =
      params.map (·.content.paramKey?) := by
    rw [List.map_filterMap, ← List.filterMap_eq_map]
    refine List.filterMap_congr fun p hp => ?_
    obtain ⟨key, hkey, -⟩ := exists_paramKey?_of_reads (hparams p hp)
    rw [Function.comp_apply, hkey]
    rfl
  refine ⟨?_, fun key hkey => ?_, fun name written htarget => ?_⟩
  · exact List.Nodup.of_map some (hsome ▸ hkeys)
  · obtain ⟨p, hp, hkey⟩ := List.mem_filterMap.1 hkey
    obtain ⟨key', hkey', hident⟩ := exists_paramKey?_of_reads (hparams p hp)
    rw [hkey'] at hkey
    cases hkey
    exact hident
  · cases content with
    | call target data =>
      cases htarget
      exact isQualified_of_isCall hscope hcontent
    | _ => cases htarget

theorem asksLine_properCallAt : Message.AsksLine (fun _ => True) (ProperCallAt (α := Nat)) := by
  refine Message.asksLine_true fun n h hcall => ?_
  cases hcontent : n.content <;> rw [hcontent] at h hcall <;> first
    | exact absurd h Bool.false_ne_true
    | cases hcall

/-- Every call in a draft that is read is proper. -/
theorem properCalls_of_reads (hscope : scope.Sound) {role : Role} {d : Draft}
    (h : Reads scope role d) : Tree.Each ProperCallAt d := by
  have hno : ∀ {n : Draft}, n.content.isCall = false → ProperCallAt n :=
    fun hcontent hcall => absurd hcall (by rw [hcontent]; decide)
  have hmsg : ∀ {line : Nat} {content : Content} {children : List Draft}, IsMsg content →
      ProperCallAt (.node line content children : Draft) := by
    intro line content children hcontent
    obtain ⟨desc, meaning, hidden, rfl⟩ := exists_msg hcontent
    exact hno rfl
  have hassemble : ∀ {calls : Nat} {items : List Message.Item},
      (∀ d, .statement d ∈ items → Tree.Each ProperCallAt d) → Located (fun _ => True)
        (fun p => ∀ part ∈ p.1, Tree.Each ProperCallAt part) (Message.assemble calls items) :=
    fun hitems => Message.each_assemble asksLine_properCallAt ⟨fun _ _ _ => trivial, hitems⟩ _
  induction h with
  | text line chars hchars => exact Tree.each_leaf (hno rfl)
  | print line hcontent =>
    obtain ⟨expr, directives, rfl⟩ := exists_print hcontent
    exact Tree.each_leaf (hno rfl)
  | xid line hcontent =>
    obtain ⟨name, rfl⟩ := exists_xid hcontent
    exact Tree.each_leaf (hno rfl)
  | conditional line hbranches ih => exact Tree.each_node (hno rfl) ih
  | branch line condition hbody ih => exact Tree.each_node (hno rfl) ih
  | call line hcontent hparams hkeys ih =>
    exact Tree.each_node (fun _ => properCall_of_reads hscope hcontent hparams hkeys) ih
  | valueParam line hparam => exact Tree.each_leaf (hno rfl)
  | contentParam line hparam hbody ih => exact Tree.each_node (hno rfl) ih
  | group line hmessages hcount ih => exact Tree.each_node (hno rfl) ih
  | message line hcontent hitems hkinds hparts ih =>
    refine Tree.each_node (hmsg hcontent) (Message.each_nameAll asksLine_properCallAt ?_)
    exact (hassemble ih).ensures _ hparts
  | choiceMessage line hcontent hchoice ih =>
    refine Tree.each_node (hmsg hcontent) (Message.each_nameAll asksLine_properCallAt ?_)
    exact List.forall_mem_singleton.2 ih
  | @choice line command content labelled default hcontent hcases hlabelled hdefault ih =>
    refine Tree.each_node (hno ?_) ih
    have hchoice := isChoice_of_isChoice hcontent
    cases content <;> first | rfl | cases hchoice
  | case line hlabel hitems hkinds hparts ih =>
    refine Tree.each_node (hno rfl) ?_
    exact (hassemble ih).ensures _ hparts

end Body

end Stencil
