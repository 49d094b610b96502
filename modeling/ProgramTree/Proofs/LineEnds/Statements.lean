import ProgramTree.Grammar.Statement
import ProgramTree.Proofs.LineEnds.Expressions

/-! # Statements over other line ends

The drafts of a text and of the text with carriage returns differ in the places
where their nodes start, and in nothing else. -/

namespace ProgramTree

set_option autoImplicit false

/-- Drafts that differ only in the places where their nodes start. -/
inductive Draft.Alike : Draft → Draft → Prop
  | node {start start' : Nat} {form : Form} {children children' : List Draft} :
      List.Forall₂ Draft.Alike children children' →
      Draft.Alike (.node start form children) (.node start' form children')

theorem forall₂_toList {α β : Type} {R : α → β → Prop} {a : Option α} {b : Option β}
    (h : Option.Rel R a b) : List.Forall₂ R a.toList b.toList := by
  cases h with
  | some hvalue => exact .cons hvalue .nil
  | none => exact .nil

namespace Reader

section Bodies

variable {text : List Char} {inner inner' : Reader Draft}
  (h : Alike Draft.Alike text inner inner')

theorem condition_alike : Alike Eq text condition condition :=
  ((expect_alike '(').same fun _ => expression_alike.same fun _ => (expect_alike ')').same fun _ =>
    .pure rfl).committed

theorem lastExpression_alike : Alike Eq text lastExpression lastExpression :=
  (expression_alike.same fun _ => (expect_alike ';').same fun _ => .pure rfl).committed

theorem assigned_alike : Alike Eq text assigned assigned :=
  (symbol_alike '=').same fun _ => expression_alike.committed

theorem comment_alike : Alike Draft.Alike text comment comment :=
  position_alike.bind fun _ _ _ => commentText_alike.same fun _ => .pure (.node .nil)

theorem jump_alike (word : String) (form : Form) :
    Alike Draft.Alike text (jump word form) (jump word form) :=
  position_alike.bind fun _ _ _ => (keyword_alike word).same fun _ =>
    (expect_alike ';').committed.same fun _ => .pure (.node .nil)

theorem returnStatement_alike : Alike Draft.Alike text returnStatement returnStatement :=
  position_alike.bind fun _ _ _ => (keyword_alike "return").same fun _ =>
    (Alike.separated_eq (symbol_alike ',') expression_alike).same fun _ =>
      (expect_alike ';').committed.same fun _ => .pure (.node .nil)

theorem valued_alike (word : String) (form : Option Expression → Form) :
    Alike Draft.Alike text (valued word form) (valued word form) :=
  position_alike.bind fun _ _ _ => (keyword_alike word).same fun _ =>
    lastExpression_alike.same fun _ => .pure (.node .nil)

theorem variableDefinition_alike :
    Alike Draft.Alike text variableDefinition variableDefinition :=
  position_alike.bind fun _ _ _ => typeName_alike.same fun _ => spaces_alike.same fun _ =>
    identifier_alike.same fun _ => assigned_alike.optional_eq.same fun _ =>
      (expect_alike ';').committed.same fun _ => .pure (.node .nil)

theorem assignmentOrCall_alike : Alike Draft.Alike text assignmentOrCall assignmentOrCall := by
  refine position_alike.bind fun _ _ _ => expression_alike.same fun _ =>
    assigned_alike.optional_eq.same fun value => (expect_alike ';').committed.same fun _ => ?_
  cases value with
  | some value => exact .pure (.node .nil)
  | none => exact .pure (.node .nil)

theorem catchKeyword_alike : Alike Eq text catchKeyword catchKeyword := by
  intro rest hrest
  rw [catchKeyword, catchKeyword]
  rcases (keyword_alike "catch").outcomes hrest with ⟨a, b, mid, hitem, hitem', hvalue, hsuffix⟩ |
    ⟨_, _, hitem, hitem'⟩ | ⟨_, _, hitem, hitem'⟩ <;> rw [hitem, hitem']
  · exact .ok rfl hsuffix
  · exact .hard
  · exact .hard

include h

theorem closeBody_alike :
    Alike (List.Forall₂ Draft.Alike) text (closeBody inner) (closeBody inner') :=
  h.many.bind fun _ _ hstatements => (expect_alike '}').committed.same fun _ => .pure hstatements

theorem body_alike : Alike (List.Forall₂ Draft.Alike) text (body inner) (body inner') :=
  (expect_alike '{').committed.same fun _ => closeBody_alike h

theorem block_alike : Alike Draft.Alike text (block inner) (block inner') :=
  position_alike.bind fun _ _ _ => (symbol_alike '{').same fun _ =>
    (closeBody_alike h).bind fun _ _ hstatements => .pure (.node hstatements)

theorem elseIfClause_alike : Alike Draft.Alike text (elseIfClause inner) (elseIfClause inner') :=
  spaces_alike.same fun _ => position_alike.bind fun _ _ _ => (keyword_alike "else").same fun _ =>
    spaces_alike.same fun _ => (keyword_alike "if").same fun _ => condition_alike.same fun _ =>
      (body_alike h).bind fun _ _ hstatements => .pure (.node hstatements)

theorem elseClause_alike : Alike Draft.Alike text (elseClause inner) (elseClause inner') :=
  spaces_alike.same fun _ => position_alike.bind fun _ _ _ => (keyword_alike "else").same fun _ =>
    (body_alike h).bind fun _ _ hstatements => .pure (.node hstatements)

theorem ifStatement_alike : Alike Draft.Alike text (ifStatement inner) (ifStatement inner') :=
  position_alike.bind fun _ _ _ => (keyword_alike "if").same fun _ => condition_alike.same fun _ =>
    (body_alike h).bind fun _ _ hstatements => (elseIfClause_alike h).many.bind fun _ _ hclauses =>
      (elseClause_alike h).optional.bind fun _ _ hlast =>
        .pure (.node
          (List.rel_append (List.rel_append hstatements hclauses) (forall₂_toList hlast)))

theorem whileLoop_alike : Alike Draft.Alike text (whileLoop inner) (whileLoop inner') :=
  position_alike.bind fun _ _ _ => (keyword_alike "while").same fun _ =>
    condition_alike.same fun _ => (body_alike h).bind fun _ _ hstatements =>
      .pure (.node hstatements)

theorem catchClause_alike : Alike Draft.Alike text (catchClause inner) (catchClause inner') := by
  refine spaces_alike.same fun _ => position_alike.bind fun _ _ _ =>
    catchKeyword_alike.same fun _ => Alike.same (Alike.committed ?_) fun _ =>
      (body_alike h).bind fun _ _ hstatements => .pure (.node hstatements)
  exact (expect_alike '(').same fun _ => spaces_alike.same fun _ => typeName_alike.same fun _ =>
    spaces_alike.same fun _ => identifier_alike.same fun _ => (expect_alike ')').same fun _ =>
      .pure rfl

theorem tryStatement_alike : Alike Draft.Alike text (tryStatement inner) (tryStatement inner') :=
  position_alike.bind fun _ _ _ => (keyword_alike "try").same fun _ =>
    (body_alike h).bind fun _ _ hstatements => (catchClause_alike h).bind fun _ _ hlast =>
      .pure (.node (List.rel_append hstatements (.cons hlast .nil)))

/-- The first word of a statement calls for the same reader. -/
theorem byKeyword?_alike (w : List Char) :
    Option.Rel (Alike Draft.Alike text) (byKeyword? inner w) (byKeyword? inner' w) := by
  rw [byKeyword?, byKeyword?]
  repeat' split
  · exact .some (ifStatement_alike h)
  · exact .some (whileLoop_alike h)
  · exact .some (tryStatement_alike h)
  · exact .some (jump_alike _ _)
  · exact .some (jump_alike _ _)
  · exact .some returnStatement_alike
  · exact .some (valued_alike _ _)
  · exact .some (valued_alike _ _)
  · exact .none

omit h in
theorem statementLayer_eq {start : List Char} (hstart : skipSpaces text = start)
    (hcomment : ∀ tail, start = '/' :: '/' :: tail → False)
    (hblock : ∀ tail, start = '{' :: tail → False) :
    statementLayer inner text =
      ((byKeyword? inner (word start)).getD
        (orElse variableDefinition assignmentOrCall)) start := by
  rw [statementLayer]
  split
  · rename_i heq
    exact absurd (hstart.symm.trans heq) (hcomment _)
  · rename_i heq
    exact absurd (hstart.symm.trans heq) (hblock _)
  · rw [hstart]
    cases byKeyword? inner (word start) <;> rfl

theorem statementLayer_alike :
    Alike Draft.Alike text (statementLayer inner) (statementLayer inner') := by
  intro rest hrest
  have hsuffix := skipSpaces_suffix rest
  have hstart := hsuffix.trans hrest
  have hskip := skipSpaces_withReturns rest
  refine Outcome.Alike.within ?_ hsuffix
  rcases begins_pair_or_not '/' '/' (skipSpaces rest) with ⟨tail, heq⟩ | hcomment
  · have hread := comment_alike _ hstart
    rw [heq, withReturns_cons (by decide), withReturns_cons (by decide)] at hread hskip
    simp only [statementLayer, heq, hskip]
    exact hread
  rcases begins_or_not '{' (skipSpaces rest) with ⟨tail, heq⟩ | hblock
  · have hread := block_alike h _ hstart
    rw [heq, withReturns_cons (by decide)] at hread hskip
    simp only [statementLayer, heq, hskip]
    exact hread
  · rw [statementLayer_eq rfl hcomment hblock, statementLayer_eq hskip
      (withReturns_ne_pair (by decide) (by decide) hcomment)
      (withReturns_ne_cons (by decide) hblock), word_withReturns]
    have hother : Alike Draft.Alike text (orElse variableDefinition assignmentOrCall)
        (orElse variableDefinition assignmentOrCall) :=
      variableDefinition_alike.orElse assignmentOrCall_alike
    have hkeyword := byKeyword?_alike h (word (skipSpaces rest))
    generalize byKeyword? inner (word (skipSpaces rest)) = reader at hkeyword ⊢
    generalize byKeyword? inner' (word (skipSpaces rest)) = reader' at hkeyword ⊢
    cases hkeyword with
    | some hreader => exact hreader _ hstart
    | none => exact hother _ hstart

end Bodies

theorem statement_outcome (text : List Char) :
    Outcome.Alike Draft.Alike text (statement text) (statement (withReturns text)) := by
  induction hn : text.length using Nat.strongRecOn generalizing text with
  | ind n ih =>
    subst hn
    rw [statement, statement]
    have hinner : Alike Draft.Alike text (below text fun rest _ => statement rest)
        (below (withReturns text) fun rest _ => statement rest) :=
      .below fun rest hlt _ => ih rest.length hlt rest rfl
    exact statementLayer_alike hinner text (List.suffix_refl text)

section Units

variable {text : List Char}

theorem statement_alike : Alike Draft.Alike text statement statement :=
  fun rest _ => statement_outcome rest

theorem parameter_alike : Alike Eq text parameter parameter :=
  spaces_alike.same fun _ => typeName_alike.same fun _ => spaces_alike.same fun _ =>
    identifier_alike.same fun _ => .pure rfl

theorem returnType_alike : Alike Eq text returnType returnType :=
  spaces_alike.same fun _ => typeName_alike.same fun _ => .pure rfl

theorem returnTypes_alike : Alike Eq text returnTypes returnTypes :=
  (symbol_alike '(').same fun _ =>
    (Alike.separatedSome_eq (symbol_alike ',') returnType_alike).committed.same fun _ =>
      (expect_alike ')').committed.same fun _ => .pure rfl

theorem functionName_alike : Alike Eq text functionName functionName := by
  intro rest hrest
  have hsuffix := skipSpaces_suffix rest
  rw [functionName, functionName, skipSpaces_withReturns]
  rcases identifier_alike.outcomes (hsuffix.trans hrest) with
    ⟨a, b, mid, hitem, hitem', hvalue, hmid⟩ | ⟨_, _, hitem, hitem'⟩ | ⟨_, _, hitem, hitem'⟩ <;>
    rw [hitem, hitem']
  · exact .ok hvalue (hmid.trans hsuffix)
  · exact .hard
  · exact .hard

theorem function_alike : Alike Draft.Alike text function function :=
  position_alike.bind fun _ _ _ => (keyword_alike "function").same fun _ =>
    functionName_alike.same fun _ => (expect_alike '(').committed.same fun _ =>
      (Alike.separated_eq (symbol_alike ',') parameter_alike).same fun _ =>
        (expect_alike ')').committed.same fun _ => returnTypes_alike.optional_eq.same fun _ =>
          (body_alike statement_alike).bind fun _ _ hstatements => .pure (.node hstatements)

theorem item_alike : Alike Draft.Alike text item item :=
  spaces_alike.same fun _ => comment_alike.orElse function_alike

theorem packageClause_alike : Alike Eq text packageClause packageClause :=
  (keyword_alike "package").same fun _ =>
    (spaces_alike.same fun _ => packageName_alike.same fun _ =>
      (expect_alike ';').same fun _ => .pure rfl).committed

theorem endOfText_alike : Alike Eq text endOfText endOfText := by
  intro rest _
  cases rest with
  | nil => exact .ok rfl (List.suffix_refl [])
  | cons c tail =>
    by_cases hc : c = '\n'
    · subst hc
      exact .soft
    · rw [withReturns_cons hc]
      exact .soft

theorem compilationUnit_alike : Alike Draft.Alike text compilationUnit compilationUnit :=
  spaces_alike.same fun _ => position_alike.bind fun _ _ _ =>
    packageClause_alike.optional_eq.same fun _ => item_alike.many.bind fun _ _ hitems =>
      spaces_alike.same fun _ => endOfText_alike.same fun _ => .pure (.node hitems)

end Units

end Reader
end ProgramTree
