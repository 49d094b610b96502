import ProgramTree.Grammar.Statement
import ProgramTree.Source.Writer
import ProgramTree.Proofs.Expression.RoundTrip
import ProgramTree.Proofs.Grammar.Names

/-! # Reading statements without a body

Each statement is read back from its canonical text up to the semicolon that
ends it. A definition is tried before an assignment and a call, so it has to be
shown that the text of an assignment or a call is never taken for one: after
the name that it begins with no second name follows. -/

namespace ProgramTree.Reader

set_option autoImplicit false

variable {text rest : List Char}

section Lists

variable {α : Type} {item : Reader α}

/-- The items of a list are set apart by a comma and a blank. -/
theorem toList_intercalate (first : String) (others : List String) :
    (", ".intercalate (first :: others)).toList =
      first.toList ++ others.flatMap fun s => ',' :: ' ' :: s.toList :=
  toList_intercalate_cons ", " first others

/-- The text begins with a character that ends an expression. -/
def Closes (rest : List Char) : Prop :=
  ∃ c tail, rest = c :: tail ∧ closesExpression c = true

theorem Closes.skipSpaces (h : Closes rest) : Reader.skipSpaces rest = rest := by
  obtain ⟨c, tail, rfl, hc⟩ := h
  exact skipSpaces_of_startsNot (startsNot_cons.mpr (isSpace_of_closesExpression hc))

theorem Closes.stops (h : Closes rest) : Stops 1 rest := by
  have hskip := h.skipSpaces
  obtain ⟨c, tail, rfl, hc⟩ := h
  exact stops_of_closing hskip hc 1

theorem many_items_run (textOf : α → List Char) {as : List α}
    (hitem : ∀ a ∈ as, ∀ rest, Closes rest → item (' ' :: (textOf a ++ rest)) = .ok a rest)
    (hrest : Closes rest) (hcomma : rest.head? ≠ some ',') :
    many (do comma; item) (as.flatMap (fun a => ',' :: ' ' :: textOf a) ++ rest) = .ok as rest ∧
      Closes (as.flatMap (fun a => ',' :: ' ' :: textOf a) ++ rest) := by
  induction as with
  | nil =>
    refine ⟨many_argument_soft ?_, hrest⟩
    rw [List.flatMap_nil, List.nil_append, hrest.skipSpaces]
    exact hcomma
  | cons a as ih =>
    obtain ⟨hfirst, hothers⟩ := List.forall_mem_cons.mp hitem
    obtain ⟨hmany, hcloses⟩ := ih hothers
    have hread := hfirst _ hcloses
    rw [List.flatMap_cons]
    simp only [List.cons_append, List.append_assoc]
    refine ⟨?_, ',', _, rfl, by decide⟩
    have hcommaFirst : ∀ tail, Reader.skipSpaces (',' :: tail) = ',' :: tail := fun tail =>
      skipSpaces_of_startsNot (startsNot_cons.mpr rfl)
    refine many_of_ok (argument_run (hcommaFirst _) hread) ?_ hmany
    simp only [List.length_cons, List.length_append]
    omega

end Lists

section Tokens

theorem symbol_run (complaint : Complaint) {c : Char} (hc : isSpace c = false) :
    symbolOr complaint c (c :: rest) = .ok () rest :=
  symbolOr_of_eq (skipSpaces_of_startsNot (startsNot_cons.mpr hc))

theorem symbol_space_run (complaint : Complaint) {c : Char} (hc : isSpace c = false) :
    symbolOr complaint c (' ' :: c :: rest) = .ok () rest :=
  symbolOr_of_eq (skipSpaces_of_startsNot (startsNot_cons.mpr hc))

theorem expect_semicolon (rest : List Char) : expect ';' (';' :: rest) = .ok () rest :=
  symbol_run _ (rfl : isSpace ';' = false)

theorem stops_semicolon (rest : List Char) : Stops 1 (';' :: rest) :=
  Closes.stops ⟨';', rest, rfl, by decide⟩

/-- An equals sign with a blank behind it ends the expression before it. -/
theorem stops_assigned (rest : List Char) : Stops 1 (' ' :: '=' :: ' ' :: rest) := by
  have hequals : StartsNot isSpace ('=' :: ' ' :: rest) := startsNot_cons.mpr rfl
  have hskip : skipSpaces (' ' :: '=' :: ' ' :: rest) = '=' :: ' ' :: rest := by
    rw [skipSpaces_space, skipSpaces_of_startsNot hequals]
  refine ⟨edge_of_skipSpaces hskip (by decide) (fun he => absurd he (by decide)) (by decide)
    (by decide), ?_, ?_⟩
  · rw [hskip]
    simp
  · intro op _
    rw [hskip]
    cases op <;> rfl

end Tokens

section Leaves

variable {kind : NodeKind} {field : String} {e : Expression}

theorem comment_run {content : List Char} (h : ∀ c ∈ content, c ≠ '\n' ∧ c ≠ '\r')
    (htext : text = '/' :: '/' :: (content ++ '\n' :: rest)) :
    comment text = .ok (.leaf text.length (.comment (String.ofList content))) ('\n' :: rest) := by
  have hcomment : commentText text = .ok content ('\n' :: rest) := htext ▸ commentText_run h
  simp only [comment, bind_apply, andThen, position, hcomment, pure_apply]

section Keywords

variable {w : String} (hw : ∀ c ∈ w.toList, Name.isWordChar c = true)
include hw

theorem jump_run (form : Form) (htext : text = w.toList ++ ';' :: rest) :
    jump w form text = .ok (.leaf text.length form) rest := by
  have hkeyword : keyword w text = .ok () (';' :: rest) :=
    htext ▸ keyword_run (startsNot_cons.mpr rfl) hw
  simp only [jump, bind_apply, andThen, position, hkeyword, committed, expect_semicolon,
    Outcome.committed, pure_apply]

theorem valued_run (form : Option Expression → Form) (hvalid : e.validate kind field = .ok ())
    (htext : text = w.toList ++ ' ' :: (e.text.toList ++ ';' :: rest)) :
    valued w form text = .ok (.leaf text.length (form (some e))) rest := by
  have hkeyword : keyword w text = .ok () (' ' :: (e.text.toList ++ ';' :: rest)) :=
    htext ▸ keyword_run (startsNot_cons.mpr rfl) hw
  have hlast : lastExpression (' ' :: (e.text.toList ++ ';' :: rest)) = .ok e rest := by
    simp only [lastExpression, committed, bind_apply expression, andThen,
      e.expression_space_text hvalid (stops_semicolon rest), bind_apply, expect_semicolon,
      Outcome.committed, pure_apply]
  simp only [valued, bind_apply, andThen, position, hkeyword, hlast, pure_apply]

end Keywords

theorem toList_heading_return (e : Expression) (es : List Expression) :
    (SourceWriter.heading (.returnStatement (e :: es))).toList =
      "return".toList ++ ' ' ::
        (e.text.toList ++ (es.flatMap (fun e => ',' :: ' ' :: e.text.toList) ++ [';'])) := by
  have hreturn : "return ".toList = "return".toList ++ [' '] := rfl
  have hsemicolon : ";".toList = [';'] := rfl
  rw [SourceWriter.heading, Expression.texts_eq_map, List.map_cons, String.toList_append,
    String.toList_append, toList_intercalate, List.flatMap_map, hreturn, hsemicolon]
  simp only [List.append_assoc, List.cons_append, List.nil_append]

theorem returnStatement_run {values : List Expression}
    (hvalid : ∀ e ∈ values, e.validate kind field = .ok ())
    (htext : text = (SourceWriter.heading (.returnStatement values)).toList ++ rest) :
    returnStatement text = .ok (.leaf text.length (.returnStatement values)) rest := by
  have hclosing : Closes (';' :: rest) := ⟨';', rest, rfl, by decide⟩
  have hword : ∀ c ∈ "return".toList, Name.isWordChar c = true := List.all_eq_true.mp rfl
  obtain ⟨after, hkeyword, hvalues⟩ : ∃ after, keyword "return" text = .ok () after ∧
      separated comma expression after = .ok values (';' :: rest) := by
    cases values with
    | nil =>
      have hstart : StartsNot startsExpression (skipSpaces (';' :: rest)) := by
        rw [hclosing.skipSpaces]
        exact startsNot_cons.mpr rfl
      obtain ⟨failure, hsoft⟩ := expression_soft hstart
      refine ⟨';' :: rest, htext ▸ ?_, separated_of_soft hsoft⟩
      exact keyword_run (startsNot_cons.mpr rfl) hword
    | cons e es =>
      obtain ⟨he, hes⟩ := List.forall_mem_cons.mp hvalid
      obtain ⟨hmany, hcloses⟩ := many_items_run (fun e : Expression => e.text.toList)
        (fun e he _ hrest => e.expression_space_text (hes e he) hrest.stops) hclosing (by simp)
      refine ⟨_, htext ▸ ?_, separated_of_ok (e.expression_space_text he hcloses.stops) hmany⟩
      rw [toList_heading_return]
      simp only [List.append_assoc, List.cons_append, List.nil_append]
      exact keyword_run (startsNot_cons.mpr rfl) hword
  simp only [returnStatement, bind_apply, andThen, position, hkeyword, hvalues, committed,
    expect_semicolon, Outcome.committed, pure_apply]

end Leaves

section Definitions

variable {kind kind' : NodeKind} {field field' : String} {e target : Expression}

/-- An equals sign and an expression, or nothing. -/
def initializerText : Option Expression → List Char
  | none => []
  | some e => ' ' :: '=' :: ' ' :: e.text.toList

theorem assigned_run (hvalid : e.validate kind field = .ok ()) :
    optional assigned (initializerText (some e) ++ ';' :: rest) = .ok (some e) (';' :: rest) := by
  have hequals : symbol '=' (initializerText (some e) ++ ';' :: rest) =
      .ok () (' ' :: (e.text.toList ++ ';' :: rest)) :=
    symbol_space_run _ (rfl : isSpace '=' = false)
  have hread := e.expression_space_text hvalid (stops_semicolon rest)
  simp only [optional, assigned, bind_apply, andThen, hequals, committed, hread, Outcome.committed]

theorem assigned_none : optional assigned (';' :: rest) = .ok none (';' :: rest) := by
  have hhead : (skipSpaces (';' :: rest)).head? ≠ some '=' := by
    rw [Closes.skipSpaces ⟨';', rest, rfl, by decide⟩]
    simp
  obtain ⟨failure, hsoft⟩ := symbolOr_of_ne .unexpected hhead
  simp only [optional, assigned, bind_apply, andThen, symbol, hsoft]

theorem initializer_run {initializer : Option Expression}
    (hvalid : ∀ e ∈ initializer, e.validate kind field = .ok ()) :
    optional assigned (initializerText initializer ++ ';' :: rest) =
      .ok initializer (';' :: rest) := by
  cases initializer with
  | none => exact assigned_none
  | some e => exact assigned_run (hvalid e rfl)

theorem endsType_space (rest : List Char) : EndsType (' ' :: rest) :=
  ⟨startsNot_cons.mpr rfl, by simp, by simp⟩

theorem skipSpaces_typeName {w : List Char} (h : Name.isTypeName w = true) :
    skipSpaces (w ++ rest) = w ++ rest := by
  obtain ⟨base, n, rfl, hbase⟩ := exists_of_isTypeName h
  rw [List.append_assoc]
  exact skipSpaces_qualified hbase

/-- A type name begins with an identifier, which is the first word of the text. -/
theorem exists_word_of_isTypeName {w : List Char} (h : Name.isTypeName w = true) :
    ∃ first tail, w = first ++ tail ∧ Name.isIdentifier first = true ∧
      ∀ rest, StartsNot Name.isWordChar (tail ++ ' ' :: rest) := by
  have hbrackets : ∀ n rest, StartsNot Name.isWordChar (brackets n ++ ' ' :: rest) := by
    intro n rest
    cases n with
    | zero => exact startsNot_cons.mpr rfl
    | succ n =>
      rw [brackets_succ]
      exact startsNot_cons.mpr rfl
  obtain ⟨base, n, rfl, hbase⟩ := exists_of_isTypeName h
  rcases isQualified_cases hbase with hid | ⟨first, second, rfl, hfirst, _⟩
  · exact ⟨base, brackets n, rfl, hid, hbrackets n⟩
  · refine ⟨first, ':' :: second ++ brackets n, List.append_assoc .., hfirst, fun rest => ?_⟩
    exact startsNot_cons.mpr isWordChar_colon

/-- A type and a name, as in parameters and after `catch`. -/
theorem declared_run {declared name : List Char} (htype : Name.isTypeName declared = true)
    (hname : Name.isIdentifier name = true) (hrest : StartsNot Name.isWordChar rest) :
    skipSpaces (declared ++ ' ' :: (name ++ rest)) = declared ++ ' ' :: (name ++ rest) ∧
      typeName (declared ++ ' ' :: (name ++ rest)) = .ok declared (' ' :: (name ++ rest)) ∧
      skipSpaces (' ' :: (name ++ rest)) = name ++ rest ∧ identifier (name ++ rest) = .ok name rest :=
  ⟨skipSpaces_typeName htype, typeName_run htype (endsType_space _),
    skipSpaces_space.trans (skipSpaces_identifier hname), identifier_run hrest hname⟩

theorem variableDefinition_run {typeName name : String} {initializer : Option Expression}
    (htype : Name.isTypeName typeName.toList = true) (hname : Name.isIdentifier name.toList = true)
    (hvalid : ∀ e ∈ initializer, e.validate kind field = .ok ())
    (htext : text = typeName.toList ++ ' ' ::
      (name.toList ++ (initializerText initializer ++ ';' :: rest))) :
    variableDefinition text =
      .ok (.leaf text.length (.variableDefinition typeName name initializer)) rest := by
  have hword : StartsNot Name.isWordChar (initializerText initializer ++ ';' :: rest) := by
    cases initializer <;> exact startsNot_cons.mpr rfl
  obtain ⟨_, htypeRun, hskip, hnameRun⟩ := declared_run htype hname hword
  rw [← htext] at htypeRun
  simp only [variableDefinition, bind_apply, andThen, position, htypeRun, spaces, hskip, hnameRun,
    initializer_run hvalid, committed, expect_semicolon, Outcome.committed, pure_apply,
    String.ofList_toList]

/-- An assignment, or a call where no value is assigned. -/
def assignmentForm (target : Expression) : Option Expression → Form
  | some value => .assignment (some target) (some value)
  | none => .callStatement (some target)

theorem assignmentOrCall_run {value : Option Expression}
    (htarget : target.validate kind field = .ok ())
    (hvalue : ∀ e ∈ value, e.validate kind' field' = .ok ())
    (htext : text = target.text.toList ++ (initializerText value ++ ';' :: rest)) :
    assignmentOrCall text = .ok (.leaf text.length (assignmentForm target value)) rest := by
  have hstops : Stops 1 (initializerText value ++ ';' :: rest) := by
    cases value with
    | none => exact stops_semicolon rest
    | some value => exact stops_assigned _
  have hread := htext ▸ target.expression_text htarget hstops
  simp only [assignmentOrCall, bind_apply, bind_apply expression, andThen, position, hread,
    initializer_run hvalue, committed, expect_semicolon, Outcome.committed]
  cases value <;> rfl

end Definitions

section NotDefinitions

variable {kind : NodeKind} {field : String}

theorem identifier_soft_of_start {c : Char} (h : Name.isWordStart c = false) :
    identifier (c :: text) = unexpected (c :: text) := by
  cases hid : Name.isIdentifier (word (c :: text)) with
  | false => simp [identifier_eq, hid]
  | true =>
    obtain ⟨d, tail, hword, hd, _⟩ := exists_of_isIdentifier hid
    obtain ⟨after, htext, _⟩ := exists_of_word hword
    cases htext
    rw [h] at hd
    cases hd

theorem typeName_soft (h : identifier text = unexpected text) :
    ∃ failure, typeName text = .soft failure :=
  ⟨⟨.unexpected, text⟩, bind_of_soft (bind_of_soft h)⟩

/-- No definition is read where no type name can be read, or no word follows it. -/
def NoDefinition (text : List Char) : Prop :=
  (∃ failure, typeName text = .soft failure) ∨
    ∃ declared mid, typeName text = .ok declared mid ∧ StartsNot Name.isWordChar (skipSpaces mid)

theorem NoDefinition.soft (h : NoDefinition text) :
    ∃ failure, variableDefinition text = .soft failure := by
  rcases h with ⟨failure, hsoft⟩ | ⟨declared, mid, hok, hword⟩
  · exact ⟨failure, by simp only [variableDefinition, bind_apply, andThen, position, hsoft]⟩
  · refine ⟨⟨.unexpected, skipSpaces mid⟩, ?_⟩
    simp only [variableDefinition, bind_apply, andThen, position, hok, spaces, identifier_soft hword,
      unexpected]

theorem noDefinition_of_start {c : Char} (h : Name.isWordStart c = false) :
    NoDefinition (c :: text) :=
  Or.inl (typeName_soft (identifier_soft_of_start h))

/-- What follows a name without making it the beginning of a definition. -/
structure EndsName (rest : List Char) : Prop where
  edge : Edge rest
  brackets : takeBrackets rest = ([], rest)
  next : StartsNot Name.isWordChar (skipSpaces rest)

theorem noDefinition_name {w : List Char} (hw : Name.isQualified w = true)
    (hword : StartsNot Name.isWordChar rest) (hcolon : rest.head? ≠ some ':')
    (hbrackets : takeBrackets rest = ([], rest))
    (hnext : StartsNot Name.isWordChar (skipSpaces rest)) : NoDefinition (w ++ rest) := by
  refine Or.inr ⟨w, rest, ?_, hnext⟩
  apply (bind_of_ok (qualified_run hword hcolon hw)).trans
  simp only [hbrackets, List.append_nil]

theorem isQualified_of_isIdentifier {w : List Char} (h : Name.isIdentifier w = true) :
    Name.isQualified w = true := by
  have hcolon : ∀ c ∈ w, (c != ':') = true := by
    intro c hc
    rw [bne_iff_ne]
    rintro rfl
    have hword := isWordChar_of_isIdentifier h ':' hc
    rw [isWordChar_colon] at hword
    cases hword
  have hdrop := dropWhile_run hcolon startsNot_nil
  rw [List.append_nil] at hdrop
  rw [Name.isQualified, hdrop]
  exact h

theorem noDefinition_literal {value : Literal}
    (hvalid : (Expression.literal value).validate kind field = .ok ())
    (hrest : EndsName rest) : NoDefinition (value.text.toList ++ rest) := by
  rcases literal_text_cases hvalid with hnumber | ⟨content, rfl⟩ | hvalue
  · obtain ⟨c, tail, htext, hc⟩ := number?_head (hnumber rest hrest.edge.number)
    rw [htext]
    apply noDefinition_of_start
    rcases hc with rfl | hc
    · decide
    · cases hstart : Name.isWordStart c with
      | false => rfl
      | true =>
        rw [isDigit_of_isWordStart hstart] at hc
        cases hc
  · rw [Literal.text, String.toList_append, String.toList_append]
    exact noDefinition_of_start (by decide)
  · refine Or.inl (typeName_soft ?_)
    obtain ⟨hword, _⟩ := word_run hrest.edge.number.word (wordLiteral?_all hvalue)
    rw [identifier_eq, hword, if_neg]
    intro hid
    rw [wordLiteral?_identifier hid] at hvalue
    cases hvalue

theorem endsName_point {c : Char} (tail : List Char) (hc : Name.isWordStart c = true) :
    EndsName ('.' :: c :: tail) := by
  have hskip : skipSpaces ('.' :: c :: tail) = '.' :: c :: tail :=
    skipSpaces_of_startsNot (startsNot_cons.mpr rfl)
  have hdigit : StartsNot Char.isDigit (c :: tail) := startsNot_cons.mpr (isDigit_of_isWordStart hc)
  refine ⟨(stops_of_suffix hskip (Or.inl rfl) (Or.inl hdigit)).edge, rfl, ?_⟩
  rw [hskip]
  exact startsNot_cons.mpr rfl

theorem endsName_bracket {c : Char} (tail : List Char) (hc : c ≠ ']') :
    EndsName ('[' :: c :: tail) := by
  have hskip : skipSpaces ('[' :: c :: tail) = '[' :: c :: tail :=
    skipSpaces_of_startsNot (startsNot_cons.mpr rfl)
  refine ⟨(stops_of_suffix hskip (Or.inr rfl) (Or.inr rfl)).edge, ?_, ?_⟩
  · unfold takeBrackets
    split
    · rename_i heq
      cases heq
      exact absurd rfl hc
    · rfl
  · rw [hskip]
    exact startsNot_cons.mpr rfl

/-- The text of an expression other than an operation never begins a definition. -/
theorem noDefinition_text {e : Expression} (hvalid : e.validate kind field = .ok ())
    (hprecedence : 8 ≤ e.precedence) (hrest : EndsName rest) :
    NoDefinition (e.text.toList ++ rest) := by
  induction e using Expression.rec (motive_2 := fun _ => True) generalizing rest with
  | name n =>
    exact noDefinition_name (isQualified_of_isIdentifier (checkName_eq_ok.mp hvalid))
      hrest.edge.number.word hrest.edge.colon hrest.brackets hrest.next
  | literal value => exact noDefinition_literal hvalid hrest
  | unary op operand _ =>
    simp only [Expression.precedence] at hprecedence
    omega
  | binary op lhs rhs _ _ =>
    have hle := (precedence_bounds op).2
    simp only [Expression.precedence] at hprecedence
    omega
  | call target args _ =>
    simp only [Expression.validate, seq_eq_ok] at hvalid
    simp only [Expression.text, String.toList_append, List.append_assoc]
    apply noDefinition_name (checkName_eq_ok.mp hvalid.1)
    · exact startsNot_cons.mpr rfl
    · simp
    · rfl
    · rfl
  | field target n ih =>
    simp only [Expression.validate, seq_eq_ok] at hvalid
    simp only [Expression.text, String.toList_append, toList_parenthesized, List.append_assoc]
    split
    · exact noDefinition_of_start (by decide)
    · rename_i htarget
      obtain ⟨c, tail, hname, hc, _⟩ := exists_of_isIdentifier (checkName_eq_ok.mp hvalid.2)
      rw [hname]
      exact ih hvalid.1 (by simp at htarget; omega) (endsName_point _ hc)
  | index target position ih _ =>
    simp only [Expression.validate, seq_eq_ok] at hvalid
    simp only [Expression.text, String.toList_append, toList_parenthesized, List.append_assoc]
    split
    · exact noDefinition_of_start (by decide)
    · rename_i htarget
      apply ih hvalid.1 (by simp at htarget; omega)
      have hposition := derives_text position hvalid.2 (']' :: rest) (edge_closing (by decide))
      obtain ⟨c, tail, hskip, hc⟩ := hposition.head rfl
      cases hhead : position.text.toList with
      | nil =>
        rw [hhead, List.nil_append, Closes.skipSpaces ⟨']', rest, rfl, by decide⟩] at hskip
        cases hskip
        cases hc
      | cons d tail' =>
        apply endsName_bracket _
        rintro rfl
        rw [hhead, List.cons_append, Closes.skipSpaces ⟨']', _, rfl, by decide⟩] at hskip
        cases hskip
        cases hc
  | nil => trivial
  | cons => trivial

theorem endsName_initializer (initializer : Option Expression) (rest : List Char) :
    EndsName (initializerText initializer ++ ';' :: rest) := by
  cases initializer with
  | none =>
    have hskip := Closes.skipSpaces ⟨';', rest, rfl, by decide⟩
    refine ⟨(stops_semicolon rest).edge, rfl, ?_⟩
    show StartsNot _ (skipSpaces (';' :: rest))
    rw [hskip]
    exact startsNot_cons.mpr rfl
  | some e => exact ⟨(stops_assigned _).edge, rfl, startsNot_cons.mpr rfl⟩

end NotDefinitions

end ProgramTree.Reader
