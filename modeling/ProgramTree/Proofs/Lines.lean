import ProgramTree.Outline
import ProgramTree.Source.Writer
import ProgramTree.Proofs.Grammar.Leaves
import ProgramTree.Proofs.Payload

/-! # What stands on one line

A line feed in a payload would break the line that the payload is written on.
No payload that conforms to its checks has one: names are made of word
characters, numbers of digits and a few signs, a string literal is escaped, and
a comment was refused if it went over several lines. Apart from what may be an
empty comment, what a node is shown by also begins at once, with no space before
it. So a text made of such lines is taken apart into them again. -/

namespace ProgramTree

set_option autoImplicit false

/-- A text of lines, each with a line feed behind it. -/
def unlines (lines : List (List Char)) : List Char :=
  lines.flatMap (· ++ ['\n'])

section Lines

variable {lines : List (List Char)}

theorem unlines_append (lines lines' : List (List Char)) :
    unlines (lines ++ lines') = unlines lines ++ unlines lines' :=
  List.flatMap_append

/-- Lines that have no line feed in them are found again, before what is empty at the end. -/
theorem splitOn_unlines (h : ∀ line ∈ lines, '\n' ∉ line) :
    (unlines lines).splitOn '\n' = lines ++ [[]] := by
  have hjoined : unlines lines = ['\n'].intercalate (lines ++ [[]]) := by
    induction lines with
    | nil => rfl
    | cons line lines ih =>
      have hrest := ih (List.forall_mem_cons.mp h).2
      rw [unlines, List.flatMap_cons, ← unlines, hrest]
      cases lines with
      | nil => simp [List.intercalate]
      | cons next lines => simp [List.intercalate, List.intersperse]
  rw [hjoined]
  refine List.splitOn_intercalate '\n' ?_ (by simp)
  exact List.forall_mem_append.mpr ⟨h, by simp⟩

end Lines

/-- The text can stand on one line. -/
def Unbroken (text : String) : Prop :=
  '\n' ∉ text.toList

instance : DecidablePred Unbroken := fun text => inferInstanceAs (Decidable ('\n' ∉ text.toList))

section Unbroken

variable {text text' : String}

@[simp] theorem unbroken_append :
    Unbroken (text ++ text') ↔ Unbroken text ∧ Unbroken text' := by
  simp [Unbroken]

theorem unbroken_intercalate {texts : List String} (h : ∀ text ∈ texts, Unbroken text) :
    Unbroken (", ".intercalate texts) := by
  cases texts with
  | nil => decide
  | cons first others =>
    obtain ⟨hfirst, hothers⟩ := List.forall_mem_cons.mp h
    rw [Unbroken, toList_intercalate_cons]
    simp only [List.mem_append, List.mem_flatMap, not_or, not_exists, not_and]
    exact ⟨hfirst, fun other hmem => ⟨by decide, hothers other hmem⟩⟩

end Unbroken

section Names

variable {w : List Char}

theorem unbroken_word (h : ∀ c ∈ w, Name.isWordChar c = true) : '\n' ∉ w :=
  fun hmem => absurd (h _ hmem) (by decide)

theorem unbroken_identifier (h : Name.isIdentifier w = true) : '\n' ∉ w :=
  unbroken_word (Reader.isWordChar_of_isIdentifier h)

theorem unbroken_qualified (h : Name.isQualified w = true) : '\n' ∉ w := by
  rcases Reader.isQualified_cases h with hid | ⟨first, second, rfl, hfirst, hsecond⟩
  · exact unbroken_identifier hid
  · simp [unbroken_identifier hfirst, unbroken_identifier hsecond]

theorem unbroken_typeName (h : Name.isTypeName w = true) : '\n' ∉ w := by
  have hbrackets : ∀ n, '\n' ∉ Reader.brackets n := by
    intro n
    induction n with
    | zero => simp [Reader.brackets]
    | succ n ih => simp [Reader.brackets_succ, ih]
  obtain ⟨base, n, rfl, hbase⟩ := Reader.exists_of_isTypeName h
  simp [unbroken_qualified hbase, hbrackets n]

theorem unbroken_packageName (h : Name.isPackageName w = true) : '\n' ∉ w :=
  fun hmem => absurd ((Reader.isPart_of_isPackageName h).2 _ hmem) (by decide)

end Names

section Expressions

theorem Grammar.Digits.unbroken {digits : List Char} (h : Grammar.Digits digits) : '\n' ∉ digits :=
  fun hmem => absurd (h.all _ hmem) (by decide)

theorem Grammar.Exponent.unbroken {exponent : Int} {spelled : List Char}
    (h : Grammar.Exponent exponent spelled) : '\n' ∉ spelled := by
  cases h with
  | mk hmarker hsign hdigits =>
    rcases hmarker with rfl | rfl <;> cases hsign <;> simp [hdigits.unbroken]

theorem Grammar.Number.unbroken {value : Literal} {spelled : List Char}
    (h : Grammar.Number value spelled) : '\n' ∉ spelled := by
  have hminus : ∀ negative, '\n' ∉ Reader.minus negative := by decide
  cases h with
  | integer hdigits _ => simp [hminus, hdigits.unbroken]
  | float hwhole htail =>
    cases htail with
    | fraction hdigits => simp [hminus, hwhole.unbroken, hdigits.unbroken]
    | exponent hexponent => simp [hminus, hwhole.unbroken, hexponent.unbroken]
    | both hdigits hexponent =>
      simp [hminus, hwhole.unbroken, hdigits.unbroken, hexponent.unbroken]

theorem Grammar.QuotedAll.unbroken {cs spelled : List Char} (h : Grammar.QuotedAll cs spelled) :
    '\n' ∉ spelled := by
  induction h with
  | nil => exact List.not_mem_nil
  | cons hquoted _ ih =>
    cases hquoted with
    | plain hfeed => simp [hfeed.symm, ih]
    | escaped hmem =>
      simp only [List.mem_cons, Prod.mk.injEq, List.not_mem_nil, or_false] at hmem
      rcases hmem with ⟨rfl, rfl⟩ | ⟨rfl, rfl⟩ | ⟨rfl, rfl⟩ | ⟨rfl, rfl⟩ <;> simp [ih]

theorem Grammar.LiteralText.unbroken {value : Literal} {text : List Char}
    (h : Grammar.LiteralText value text []) : '\n' ∉ text := by
  cases h with
  | number hnumber => simpa using hnumber.unbroken
  | string hquoted => simp [hquoted.unbroken]
  | word hmem _ =>
    have hword := Reader.wordLiteral?_all (Reader.wordLiteral?_eq_some.mpr ⟨_, hmem, rfl⟩)
    simpa using unbroken_word hword

variable {kind : NodeKind} {field : String}

theorem unbroken_parenthesized {text : String} (needed : Bool) (h : Unbroken text) :
    Unbroken (parenthesized needed text) := by
  cases needed <;> simp +decide [parenthesized, h]

mutual

theorem Expression.unbroken_text : (e : Expression) → e.validate kind field = .ok () →
    Unbroken e.text
  | .name n, h => unbroken_identifier (checkName_eq_ok.mp h)
  | .literal value, h => by
    have htext := literalText_text h (Reader.stops_nil 1).edge.number
    rw [List.append_nil] at htext
    exact htext.unbroken
  | .unary op operand, h => by
    have hoperand := Expression.unbroken_text operand h
    cases op <;> simp +decide [Expression.text, unbroken_parenthesized _ hoperand]
  | .binary op lhs rhs, h => by
    obtain ⟨hl, hr⟩ := seq_eq_ok.mp h
    have hlhs := Expression.unbroken_text lhs hl
    have hrhs := Expression.unbroken_text rhs hr
    have hsymbol : Unbroken op.symbol := by cases op <;> decide
    simp +decide [Expression.text, hsymbol, unbroken_parenthesized _ hlhs,
      unbroken_parenthesized _ hrhs]
  | .call target args, h => by
    obtain ⟨htarget, hargs⟩ := seq_eq_ok.mp h
    have hname : Unbroken target := unbroken_qualified (checkName_eq_ok.mp htarget)
    have hlist := unbroken_intercalate (Expression.unbroken_texts args hargs)
    simp +decide [Expression.text, hname, hlist]
  | .field target n, h => by
    obtain ⟨htarget, hn⟩ := seq_eq_ok.mp h
    have hname : Unbroken n := unbroken_identifier (checkName_eq_ok.mp hn)
    have hinner := Expression.unbroken_text target htarget
    simp +decide [Expression.text, hname, unbroken_parenthesized _ hinner]
  | .index target position, h => by
    obtain ⟨htarget, hposition⟩ := seq_eq_ok.mp h
    have hinner := Expression.unbroken_text target htarget
    have hplace := Expression.unbroken_text position hposition
    simp +decide [Expression.text, hplace, unbroken_parenthesized _ hinner]

theorem Expression.unbroken_texts : (es : List Expression) →
    Expression.validateAll kind field es = .ok () → ∀ text ∈ Expression.texts es, Unbroken text
  | [], _ => nofun
  | e :: es, h => by
    obtain ⟨he, hes⟩ := seq_eq_ok.mp h
    exact List.forall_mem_cons.mpr
      ⟨Expression.unbroken_text e he, Expression.unbroken_texts es hes⟩

end

end Expressions

section Payloads

variable {p : Payload} (h : p.Conforms)
include h

theorem Payload.Conforms.unbroken_label : Unbroken (Outline.label p) := by
  cases p with
  | compilationUnit package =>
    cases package with
    | none => decide
    | some package =>
      have hname : Unbroken package := unbroken_packageName (h package rfl)
      simp +decide [Outline.label, hname]
  | function name params returns =>
    obtain ⟨hparams, hname, _, hreturns⟩ := h
    have hname : Unbroken name := unbroken_identifier hname
    have hdeclared : ∀ text ∈ params.map fun p => p.typeName ++ " " ++ p.name, Unbroken text := by
      intro text htext
      obtain ⟨param, hparam, rfl⟩ := List.mem_map.mp htext
      have htype : Unbroken param.typeName := unbroken_typeName (hparams param hparam).1
      have hparam : Unbroken param.name := unbroken_identifier (hparams param hparam).2
      simp +decide [htype, hparam]
    have hlist := unbroken_intercalate hdeclared
    have htypes := unbroken_intercalate fun type htype => unbroken_typeName (hreturns type htype)
    cases returns <;> simp +decide [Outline.label, Outline.parameterList, hname, hlist, htypes]
  | ifStatement e | elseIfClause e | whileLoop e | replyStatement e | throwStatement e =>
    simp +decide [Outline.label, e.unbroken_text h]
  | callStatement e => exact e.unbroken_text h.1
  | assignment target value =>
    simp +decide [Outline.label, target.unbroken_text h.1, value.unbroken_text h.2.2]
  | variableDefinition typeName name initializer =>
    have htype : Unbroken typeName := unbroken_typeName h.1
    have hname : Unbroken name := unbroken_identifier h.2.1
    cases initializer with
    | none => simp +decide [Outline.label, htype, hname]
    | some e => simp +decide [Outline.label, htype, hname, e.unbroken_text (h.2.2 e rfl)]
  | returnStatement values =>
    have hvalues : ∀ text ∈ values.map Expression.text, Unbroken text := by
      intro text htext
      obtain ⟨e, he, rfl⟩ := List.mem_map.mp htext
      exact e.unbroken_text (h e he)
    have hlist := unbroken_intercalate hvalues
    cases values with
    | nil => decide
    | cons => simpa +decide [Outline.label] using hlist
  | catchClause typeName name =>
    have htype : Unbroken typeName := unbroken_typeName h.1
    have hname : Unbroken name := unbroken_identifier h.2
    simp +decide [Outline.label, htype, hname]
  | comment text =>
    have htext : Unbroken text := fun hmem => (h.1 _ hmem).1 rfl
    by_cases hempty : text = "" <;> simp +decide [Outline.label, hempty, htext]
  | block | elseClause | breakStatement | continueStatement | tryStatement => decide

/-- A line of source text is the label of its node, but for what opens a body or ends a
statement. -/
theorem Payload.Conforms.unbroken_heading : Unbroken (SourceWriter.heading p) := by
  have hlabel := h.unbroken_label
  cases p with
  | compilationUnit package =>
    cases package with
    | none => decide
    | some package => simpa +decide [Outline.label, SourceWriter.heading] using hlabel
  | function name params returns =>
    cases returns <;> simpa +decide [Outline.label, Outline.parameterList, SourceWriter.heading,
      SourceWriter.functionHeader] using hlabel
  | variableDefinition typeName name initializer =>
    cases initializer <;> simpa +decide [Outline.label, SourceWriter.heading] using hlabel
  | returnStatement values =>
    cases values with
    | nil => decide
    | cons =>
      simpa +decide [Outline.label, SourceWriter.heading, Expression.texts_eq_map] using hlabel
  | comment text => exact hlabel
  | block | elseClause | breakStatement | continueStatement | tryStatement => decide
  | _ => simpa +decide [Outline.label, SourceWriter.heading] using hlabel

/-- A label begins at once. -/
theorem Payload.Conforms.label_head :
    ∃ c, (Outline.label p).toList.head? = some c ∧ c ≠ ' ' := by
  have hnot : ∀ {c : Char}, Reader.isSpace c = false → c ≠ ' ' := by
    rintro _ hc rfl
    cases hc
  cases p with
  | assignment target value =>
    obtain ⟨c, tail, htext, hc⟩ := target.text_head h.1
    exact ⟨c, by simp [Outline.label, htext], hnot hc⟩
  | callStatement e =>
    obtain ⟨c, tail, htext, hc⟩ := e.text_head h.1
    exact ⟨c, by simp [Outline.label, htext], hnot hc⟩
  | variableDefinition typeName name initializer =>
    obtain ⟨first, tail, htype, hfirst, _⟩ := Reader.exists_word_of_isTypeName h.1
    obtain ⟨c, rest, rfl, hc, _⟩ := Reader.exists_of_isIdentifier hfirst
    refine ⟨c, ?_, hnot (Reader.isSpace_of_isWordChar (Reader.isWordChar_of_isWordStart hc))⟩
    cases initializer <;> simp [Outline.label, htype]
  | compilationUnit package =>
    cases package with
    | none => exact ⟨'u', rfl, by decide⟩
    | some package => exact ⟨'p', by simp [Outline.label], by decide⟩
  | function name params returns =>
    refine ⟨'f', ?_, by decide⟩
    cases returns <;> simp [Outline.label]
  | returnStatement values =>
    refine ⟨'r', ?_, by decide⟩
    cases values <;> simp [Outline.label]
  | comment text =>
    refine ⟨'/', ?_, by decide⟩
    by_cases hempty : text = "" <;> simp [Outline.label, hempty]
  | ifStatement e => exact ⟨'i', by simp [Outline.label], by decide⟩
  | elseIfClause e => exact ⟨'e', by simp [Outline.label], by decide⟩
  | whileLoop e => exact ⟨'w', by simp [Outline.label], by decide⟩
  | replyStatement e => exact ⟨'r', by simp [Outline.label], by decide⟩
  | throwStatement e => exact ⟨'t', by simp [Outline.label], by decide⟩
  | catchClause typeName name => exact ⟨'c', by simp [Outline.label], by decide⟩
  | block => exact ⟨'b', rfl, by decide⟩
  | elseClause => exact ⟨'e', rfl, by decide⟩
  | breakStatement => exact ⟨'b', rfl, by decide⟩
  | continueStatement => exact ⟨'c', rfl, by decide⟩
  | tryStatement => exact ⟨'t', rfl, by decide⟩

end Payloads

end ProgramTree
