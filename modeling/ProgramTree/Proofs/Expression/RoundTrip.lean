import ProgramTree.Malformed
import ProgramTree.Source.ParseError
import ProgramTree.Proofs.Grammar.Accepted

/-! # Printed expressions are read back

The text of a well-formed expression derives the expression at the level of its
outermost operator, and parentheses stand wherever an operand of a looser level
is asked for. With completeness of the reader the text is read back. Nothing is
assumed about numbers: their texts are read back as well. -/

namespace ProgramTree

set_option autoImplicit false

open Reader

section Checks

theorem checkName_eq_ok {isName : List Char → Bool} {kind : NodeKind} {field value : String} :
    checkName isName kind field value = .ok () ↔ isName value.toList = true := by
  unfold checkName
  split <;> simp_all

theorem seq_eq_ok {ε : Type} {first second : Except ε Unit} :
    (do first; second) = .ok () ↔ first = .ok () ∧ second = .ok () := by
  cases first with
  | error e =>
    constructor
    · intro h
      cases h
    · rintro ⟨h, _⟩
      cases h
  | ok => exact ⟨fun h => ⟨rfl, h⟩, fun h => h.2⟩

end Checks

section Spaces

variable {text text' rest : List Char} {n : Nat} {e : Expression}

theorem Derives.skipSpaces {phrase : Phrase} (h : Derives phrase text rest)
    (he : phrase = .expression n e) (htext : Reader.skipSpaces text' = Reader.skipSpaces text) :
    Derives phrase text' rest := by
  induction h generalizing n e with
  | loosen hlow hhigh _ ih => exact .loosen hlow hhigh (ih rfl htext)
  | binary _ hmid hrhs ih _ => exact .binary (ih rfl htext) hmid hrhs
  | not hstart hoperand _ => exact .not (htext.trans hstart) hoperand
  | neg hstart hdigit hoperand _ => exact .neg (htext.trans hstart) hdigit hoperand
  | field _ hmid hname ih => exact .field (ih rfl htext) hmid hname
  | index _ hmid hposition hlast ih _ => exact .index (ih rfl htext) hmid hposition hlast
  | parentheses hstart hinner hlast _ => exact .parentheses (htext.trans hstart) hinner hlast
  | string hstart hbody => exact .string (htext.trans hstart) hbody
  | number hnumber => exact .number (htext ▸ hnumber)
  | word hvalue =>
    rw [← htext] at hvalue ⊢
    exact .word hvalue
  | name hname => exact .name (htext ▸ hname)
  | call htarget hmid hargs hlast _ => exact .call (htext ▸ htarget) hmid hargs hlast
  | noArgument => cases he
  | lastArgument _ _ => cases he
  | argument _ _ _ _ _ => cases he

theorem Derives.space (h : Derives (.expression n e) text rest) :
    Derives (.expression n e) (' ' :: text) rest :=
  h.skipSpaces rfl skipSpaces_space

theorem Derives.loosenTo {m : Nat} (h : Derives (.expression n e) text rest) (hm : 1 ≤ m)
    (hle : m ≤ n) (hn : n ≤ 9) : Derives (.expression m e) text rest := by
  induction n, hle using Nat.le_induction with
  | base => exact h
  | succ n hle ih => exact ih (.loosen (by omega) (by omega) h) (by omega)

end Spaces

namespace Expression

theorem precedence_bounds (e : Expression) : 1 ≤ e.precedence ∧ e.precedence ≤ 9 := by
  cases e with
  | binary op _ _ =>
    obtain ⟨hlow, hhigh⟩ := Reader.precedence_bounds op
    exact ⟨hlow, Nat.le_trans hhigh (by decide)⟩
  | _ => simp only [precedence]; decide

end Expression

theorem edge_closing {c : Char} {rest : List Char} (hc : closesExpression c = true) :
    Edge (c :: rest) := by
  have hskip := skipSpaces_of_startsNot
    (startsNot_cons.mpr (isSpace_of_closesExpression hc) : StartsNot isSpace (c :: rest))
  exact (stops_of_closing hskip hc 1).edge

section Operands

variable {rest : List Char} {e : Expression}

theorem toList_parenthesized (needed : Bool) (text : String) :
    (parenthesized needed text).toList =
      if needed then '(' :: (text.toList ++ [')']) else text.toList := by
  cases needed <;> simp [parenthesized]

/-- An operand stands in parentheses where it would be of a looser level. -/
theorem derives_operand (h : ∀ rest, Edge rest →
      Derives (.expression e.precedence e) (e.text.toList ++ rest) rest)
    (needed : Bool) {n : Nat} (hlow : 1 ≤ n) (hhigh : n ≤ 9)
    (hneeded : needed = false → n ≤ e.precedence) (hedge : Edge rest) :
    Derives (.expression n e) ((parenthesized needed e.text).toList ++ rest) rest := by
  obtain ⟨hlow', hhigh'⟩ := e.precedence_bounds
  rw [toList_parenthesized]
  cases needed with
  | false => exact (h rest hedge).loosenTo hlow (hneeded rfl) hhigh'
  | true =>
    have hinner := (h (')' :: rest) (edge_closing (by decide))).loosenTo (by decide) hlow' hhigh'
    refine Derives.loosenTo (n := 9) ?_ hlow hhigh (Nat.le_refl _)
    have hopen : skipSpaces ('(' :: (e.text.toList ++ [')']) ++ rest) =
        '(' :: (e.text.toList ++ ')' :: rest) := by
      rw [List.cons_append, skipSpaces_of_startsNot (startsNot_cons.mpr rfl),
        List.append_assoc, List.singleton_append]
    exact .parentheses hopen hinner (skipSpaces_of_startsNot (startsNot_cons.mpr rfl))

end Operands

section Literals

variable {rest : List Char}

theorem literal_text_cases {value : Literal} {kind : NodeKind} {field : String}
    (hvalid : (Expression.literal value).validate kind field = .ok ()) :
    (∀ rest, EndsNumber rest → number? (value.text.toList ++ rest) = some (value, rest)) ∨
      (∃ content, value = .string content) ∨ wordLiteral? value.text.toList = some value := by
  cases value with
  | int value => exact Or.inl fun _ h => number?_integerText value h
  | float value =>
    have hfinite : value.isFinite = true := by
      unfold Expression.validate at hvalid
      split at hvalid
      · assumption
      · cases hvalid
    rw [Literal.text, String.toList_ofList]
    exact Or.inl fun _ h => number?_text sourceNumbers hfinite h
  | string content => exact Or.inr (Or.inl ⟨content, rfl⟩)
  | boolean value => exact Or.inr (Or.inr (by cases value <;> rfl))
  | null => exact Or.inr (Or.inr rfl)

theorem literalText_text {value : Literal} {kind : NodeKind} {field : String}
    (hvalid : (Expression.literal value).validate kind field = .ok ()) (hrest : EndsNumber rest) :
    Grammar.LiteralText value (value.text.toList ++ rest) rest := by
  rcases literal_text_cases hvalid with hnumber | ⟨content, rfl⟩ | hword
  · obtain ⟨spelled, hspelled, htext⟩ := Grammar.number_of_read (hnumber rest hrest)
    rw [htext]
    exact .number hspelled
  · have htext : (Literal.string content).text.toList ++ rest =
        '"' :: (content.toList.flatMap Literal.escape ++ '"' :: rest) := by
      simp [Literal.text]
    have hstring : Grammar.LiteralText (.string (String.ofList content.toList))
        ('"' :: (content.toList.flatMap Literal.escape ++ '"' :: rest)) rest :=
      .string (Grammar.quotedAll_escape _)
    rwa [String.ofList_toList, ← htext] at hstring
  · obtain ⟨word, hmem, hw⟩ := wordLiteral?_eq_some.mp hword
    rw [hw]
    exact .word hmem hrest.word

theorem derives_literal {value : Literal} {kind : NodeKind} {field : String} (hedge : Edge rest)
    (hvalid : (Expression.literal value).validate kind field = .ok ()) :
    Derives (.expression 9 (.literal value)) (value.text.toList ++ rest) rest :=
  (literalText_text hvalid hedge.number).derives (Grammar.afterBlanks_refl _) hedge

end Literals

section Names

variable {rest w : List Char}

theorem skipSpaces_identifier (h : Name.isIdentifier w = true) :
    skipSpaces (w ++ rest) = w ++ rest := by
  obtain ⟨c, tail, rfl, hc, _⟩ := exists_of_isIdentifier h
  exact skipSpaces_of_startsNot
    (startsNot_cons.mpr (isSpace_of_isWordChar (isWordChar_of_isWordStart hc)))

theorem startsNot_digit_identifier (h : Name.isIdentifier w = true) :
    StartsNot Char.isDigit (w ++ rest) := by
  obtain ⟨c, tail, rfl, hc, _⟩ := exists_of_isIdentifier h
  exact startsNot_cons.mpr (isDigit_of_isWordStart hc)

/-- A qualified name begins like an identifier. -/
theorem exists_of_isQualified (h : Name.isQualified w = true) :
    ∃ first tail, w = first ++ tail ∧ Name.isIdentifier first = true := by
  rcases isQualified_cases h with hid | ⟨first, second, rfl, hfirst, _⟩
  · exact ⟨w, [], (List.append_nil w).symm, hid⟩
  · exact ⟨first, ':' :: second, rfl, hfirst⟩

theorem skipSpaces_qualified (h : Name.isQualified w = true) :
    skipSpaces (w ++ rest) = w ++ rest := by
  obtain ⟨first, tail, rfl, hfirst⟩ := exists_of_isQualified h
  rw [List.append_assoc]
  exact skipSpaces_identifier hfirst

end Names

namespace Expression

theorem startsNot_digit_number {e : Expression} {kind : NodeKind} {field : String} {rest : List Char}
    (hvalid : e.validate kind field = .ok ()) (hnumber : e.startsWithNumber = false)
    (hprecedence : 7 ≤ e.precedence) : StartsNot Char.isDigit (e.text.toList ++ rest) := by
  induction e using Expression.rec (motive_2 := fun _ => True) generalizing rest with
  | name n =>
    exact startsNot_digit_identifier (checkName_eq_ok.mp hvalid)
  | literal value =>
    cases value with
    | int value => cases hnumber
    | float value => cases hnumber
    | string value =>
      simp only [text, Literal.text, String.toList_append, List.append_assoc]
      exact startsNot_cons.mpr rfl
    | boolean value => cases value <;> exact startsNot_cons.mpr rfl
    | null => exact startsNot_cons.mpr rfl
  | unary op operand _ =>
    simp only [text, String.toList_append, List.append_assoc]
    cases op <;> exact startsNot_cons.mpr rfl
  | binary op lhs rhs _ _ =>
    have hle := (Reader.precedence_bounds op).2
    simp only [precedence] at hprecedence
    omega
  | call target args _ =>
    simp only [validate, seq_eq_ok] at hvalid
    obtain ⟨first, tail, htarget, hfirst⟩ := exists_of_isQualified (checkName_eq_ok.mp hvalid.1)
    simp only [text, String.toList_append, htarget, List.append_assoc]
    exact startsNot_digit_identifier hfirst
  | field target n ih =>
    simp only [validate, seq_eq_ok] at hvalid
    simp only [text, String.toList_append, toList_parenthesized, List.append_assoc]
    split
    · exact startsNot_cons.mpr rfl
    · rename_i htarget
      exact ih hvalid.1 hnumber (by simp at htarget; omega)
  | index target i ih _ =>
    simp only [validate, seq_eq_ok] at hvalid
    simp only [text, String.toList_append, toList_parenthesized, List.append_assoc]
    split
    · exact startsNot_cons.mpr rfl
    · rename_i htarget
      exact ih hvalid.1 hnumber (by simp at htarget; omega)
  | nil => trivial
  | cons => trivial

end Expression

theorem Derives.arguments_space {text rest : List Char} {e : Expression} {es : List Expression}
    (h : Derives (.arguments (e :: es)) text rest) :
    Derives (.arguments (e :: es)) (' ' :: text) rest := by
  cases h with
  | lastArgument he => exact .lastArgument he.space
  | argument he hmid hes => exact .argument he.space hmid hes

section Forms

variable {rest : List Char} {e : Expression}

/-- A minus does not touch a number, as an operand that begins with one stands in parentheses. -/
theorem startsNot_digit_operand {kind : NodeKind} {field : String}
    (hvalid : e.validate kind field = .ok ()) :
    StartsNot Char.isDigit
      ((parenthesized (e.startsWithNumber || decide (e.precedence < 7)) e.text).toList ++ rest) := by
  rw [toList_parenthesized]
  split
  · exact startsNot_cons.mpr rfl
  · rename_i hplain
    simp only [Bool.or_eq_true, decide_eq_true_eq, not_or, Bool.not_eq_true] at hplain
    exact Expression.startsNot_digit_number hvalid hplain.1 (by omega)

theorem derives_prefixed (op : UnaryOp) {kind : NodeKind} {field : String}
    (hvalid : e.validate kind field = .ok ())
    (h : ∀ rest, Edge rest → Derives (.expression e.precedence e) (e.text.toList ++ rest) rest)
    (hedge : Edge rest) :
    Derives (.expression 7 (.unary op e)) ((Expression.unary op e).text.toList ++ rest) rest := by
  have hneeded : ∀ {touches : Bool}, (touches || decide (e.precedence < 7)) = false →
      7 ≤ e.precedence := by
    intro touches hfalse
    simp only [Bool.or_eq_false_iff, decide_eq_false_iff_not] at hfalse
    omega
  rw [Expression.text, String.toList_append, List.append_assoc]
  cases op with
  | not =>
    exact .not (skipSpaces_of_startsNot (startsNot_cons.mpr rfl))
      (derives_operand h _ (by decide) (by decide) hneeded hedge)
  | neg =>
    exact .neg (skipSpaces_of_startsNot (startsNot_cons.mpr rfl)) (startsNot_digit_operand hvalid)
      (derives_operand h _ (by decide) (by decide) hneeded hedge)

theorem toList_text_binary (op : BinaryOp) (lhs rhs : Expression) (rest : List Char) :
    (Expression.binary op lhs rhs).text.toList ++ rest =
      (parenthesized (lhs.precedence < op.precedence) lhs.text).toList ++
        ' ' :: (op.symbol.toList ++ ' ' ::
          ((parenthesized (rhs.precedence ≤ op.precedence) rhs.text).toList ++ rest)) := by
  have hspace : " ".toList = [' '] := rfl
  simp only [Expression.text, String.toList_append, List.append_assoc, hspace, List.cons_append,
    List.nil_append]

theorem skipSpaces_operator (op : BinaryOp) (after : List Char) :
    skipSpaces (' ' :: (op.symbol.toList ++ ' ' :: after)) = op.symbol.toList ++ ' ' :: after := by
  rw [skipSpaces_space]
  cases op <;> exact skipSpaces_of_startsNot (startsNot_cons.mpr rfl)

/-- A left operand may be of the level of the operator behind it. -/
theorem derives_lhs (op : BinaryOp) {lhs : Expression}
    (h : ∀ rest, Edge rest → Derives (.expression lhs.precedence lhs) (lhs.text.toList ++ rest) rest)
    (after : List Char) :
    Derives (.expression op.precedence lhs)
      ((parenthesized (lhs.precedence < op.precedence) lhs.text).toList ++
        ' ' :: (op.symbol.toList ++ ' ' :: after)) (' ' :: (op.symbol.toList ++ ' ' :: after)) := by
  obtain ⟨hlow, hhigh⟩ := Reader.precedence_bounds op
  exact derives_operand h (decide (lhs.precedence < op.precedence)) hlow (by omega)
    (fun hneeded => by simpa using hneeded) (stops_of_operator (skipSpaces_operator op after)).edge

/-- A right operand is of a tighter level than the operator before it. -/
theorem derives_rhs (op : BinaryOp) {rhs : Expression}
    (h : ∀ rest, Edge rest → Derives (.expression rhs.precedence rhs) (rhs.text.toList ++ rest) rest)
    (hedge : Edge rest) :
    Derives (.expression (op.precedence + 1) rhs)
      ((parenthesized (rhs.precedence ≤ op.precedence) rhs.text).toList ++ rest) rest := by
  obtain ⟨hlow, hhigh⟩ := Reader.precedence_bounds op
  exact derives_operand h (decide (rhs.precedence ≤ op.precedence)) (by omega) (by omega)
    (fun hneeded => Nat.lt_of_not_le (of_decide_eq_false hneeded)) hedge

theorem derives_infix (op : BinaryOp) {lhs rhs : Expression}
    (hl : ∀ rest, Edge rest → Derives (.expression lhs.precedence lhs) (lhs.text.toList ++ rest) rest)
    (hr : ∀ rest, Edge rest → Derives (.expression rhs.precedence rhs) (rhs.text.toList ++ rest) rest)
    (hedge : Edge rest) :
    Derives (.expression op.precedence (.binary op lhs rhs))
      ((Expression.binary op lhs rhs).text.toList ++ rest) rest := by
  rw [toList_text_binary]
  exact .binary (derives_lhs op hl _) (skipSpaces_operator op _) (derives_rhs op hr hedge).space

theorem derives_field {target : Expression} {n : String}
    (h : ∀ rest, Edge rest →
      Derives (.expression target.precedence target) (target.text.toList ++ rest) rest)
    (hn : Name.isIdentifier n.toList = true) (hedge : Edge rest) :
    Derives (.expression 8 (.field target n)) ((Expression.field target n).text.toList ++ rest)
      rest := by
  have hpoint : ".".toList = ['.'] := rfl
  simp only [Expression.text, String.toList_append, List.append_assoc, hpoint,
    List.singleton_append]
  have hmid : skipSpaces ('.' :: (n.toList ++ rest)) = '.' :: (n.toList ++ rest) :=
    skipSpaces_of_startsNot (startsNot_cons.mpr rfl)
  have hstops : Stops 9 ('.' :: (n.toList ++ rest)) :=
    stops_of_suffix hmid (Or.inl rfl) (Or.inl (startsNot_digit_identifier hn))
  have hfield := Derives.field
    (derives_operand h (decide (target.precedence < 8)) (by decide) (by decide)
      (fun hneeded => by simpa using hneeded) hstops.edge)
    hmid (identifier_run hedge.number.word hn)
  rwa [String.ofList_toList] at hfield

theorem derives_index {target position : Expression}
    (h : ∀ rest, Edge rest →
      Derives (.expression target.precedence target) (target.text.toList ++ rest) rest)
    (hposition : ∀ rest, Edge rest →
      Derives (.expression position.precedence position) (position.text.toList ++ rest) rest) :
    Derives (.expression 8 (.index target position))
      ((Expression.index target position).text.toList ++ rest) rest := by
  have hopen : "[".toList = ['['] := rfl
  have hclose : "]".toList = [']'] := rfl
  simp only [Expression.text, String.toList_append, List.append_assoc, hopen, hclose,
    List.singleton_append]
  obtain ⟨hlow, hhigh⟩ := position.precedence_bounds
  have hmid : skipSpaces ('[' :: (position.text.toList ++ ']' :: rest)) =
      '[' :: (position.text.toList ++ ']' :: rest) :=
    skipSpaces_of_startsNot (startsNot_cons.mpr rfl)
  have hstops : Stops 9 ('[' :: (position.text.toList ++ ']' :: rest)) :=
    stops_of_suffix hmid (Or.inr rfl) (Or.inr rfl)
  exact .index
    (derives_operand h _ (by decide) (by decide) (fun hneeded => by simpa using hneeded) hstops.edge)
    hmid ((hposition _ (edge_closing (by decide))).loosenTo (by decide) hlow hhigh)
    (skipSpaces_of_startsNot (startsNot_cons.mpr rfl))

theorem derives_call {target : String} {args : List Expression}
    (htarget : Name.isQualified target.toList = true)
    (h : ∀ rest, Edge rest → Derives (.arguments args)
      ((", ".intercalate (Expression.texts args)).toList ++ rest) rest) :
    Derives (.expression 9 (.call target args))
      ((Expression.call target args).text.toList ++ rest) rest := by
  have hopen : "(".toList = ['('] := rfl
  have hclose : ")".toList = [')'] := rfl
  simp only [Expression.text, String.toList_append, List.append_assoc, hopen, hclose,
    List.singleton_append]
  have hread : ∀ after : List Char, qualified (skipSpaces (target.toList ++ '(' :: after)) =
      .ok target.toList ('(' :: after) := by
    intro after
    rw [skipSpaces_qualified htarget]
    exact qualified_run (startsNot_cons.mpr rfl) (by simp) htarget
  have hcall := Derives.call (hread _)
    (skipSpaces_of_startsNot (startsNot_cons.mpr rfl)) (h (')' :: rest) (edge_closing (by decide)))
    (skipSpaces_of_startsNot (startsNot_cons.mpr rfl))
  rwa [String.ofList_toList] at hcall

end Forms

mutual

/-- The text of a well-formed expression derives the expression. -/
theorem derives_text (e : Expression) {kind : NodeKind} {field : String}
    (hvalid : e.validate kind field = .ok ()) (rest : List Char) (hedge : Edge rest) :
    Derives (.expression e.precedence e) (e.text.toList ++ rest) rest := by
  match e with
  | .name n =>
    have hn := checkName_eq_ok.mp hvalid
    have hread : identifier (skipSpaces (n.toList ++ rest)) = .ok n.toList rest := by
      rw [skipSpaces_identifier hn]
      exact identifier_run hedge.number.word hn
    have hname := Derives.name hread
    rwa [String.ofList_toList] at hname
  | .literal value => exact derives_literal hedge hvalid
  | .unary op operand =>
    exact derives_prefixed op hvalid (derives_text operand hvalid) hedge
  | .binary op lhs rhs =>
    obtain ⟨hl, hr⟩ := seq_eq_ok.mp hvalid
    exact derives_infix op (derives_text lhs hl) (derives_text rhs hr) hedge
  | .call target args =>
    obtain ⟨htarget, hargs⟩ := seq_eq_ok.mp hvalid
    exact derives_call (checkName_eq_ok.mp htarget) (derives_texts args hargs)
  | .field target n =>
    obtain ⟨htarget, hn⟩ := seq_eq_ok.mp hvalid
    exact derives_field (derives_text target htarget) (checkName_eq_ok.mp hn) hedge
  | .index target position =>
    obtain ⟨htarget, hposition⟩ := seq_eq_ok.mp hvalid
    exact derives_index (derives_text target htarget) (derives_text position hposition)

theorem derives_texts (es : List Expression) {kind : NodeKind} {field : String}
    (hvalid : Expression.validateAll kind field es = .ok ()) (rest : List Char)
    (hedge : Edge rest) :
    Derives (.arguments es) ((", ".intercalate (Expression.texts es)).toList ++ rest) rest := by
  match es with
  | [] => exact .noArgument
  | [e] =>
    obtain ⟨he, _⟩ := seq_eq_ok.mp hvalid
    obtain ⟨hlow, hhigh⟩ := e.precedence_bounds
    rw [Expression.texts, Expression.texts, String.intercalate_singleton]
    exact .lastArgument ((derives_text e he rest hedge).loosenTo (by decide) hlow hhigh)
  | e :: e' :: es =>
    obtain ⟨he, hes⟩ := seq_eq_ok.mp hvalid
    obtain ⟨hlow, hhigh⟩ := e.precedence_bounds
    have hcomma : ", ".toList = [',', ' '] := rfl
    rw [Expression.texts, Expression.texts, String.intercalate_cons_cons, ← Expression.texts]
    simp only [String.toList_append, List.append_assoc, hcomma, List.cons_append, List.nil_append]
    exact .argument
      ((derives_text e he _ (edge_closing (by decide))).loosenTo (by decide) hlow hhigh)
      (skipSpaces_of_startsNot (startsNot_cons.mpr rfl))
      (derives_texts (e' :: es) hes rest hedge).arguments_space

end

namespace Expression

/-- The text of a well-formed expression is read as the expression, if what follows cannot go on
with it. -/
theorem expression_text {e : Expression} {kind : NodeKind} {field : String}
    (hvalid : e.validate kind field = .ok ()) {rest : List Char} (hstops : Stops 1 rest) :
    Reader.expression (e.text.toList ++ rest) = .ok e rest := by
  obtain ⟨hlow, hhigh⟩ := e.precedence_bounds
  exact ((derives_text e hvalid rest hstops.edge).loosenTo (by decide) hlow hhigh).read hstops

theorem expression_space_text {e : Expression} {kind : NodeKind} {field : String}
    (hvalid : e.validate kind field = .ok ()) {rest : List Char} (hstops : Stops 1 rest) :
    Reader.expression (' ' :: (e.text.toList ++ rest)) = .ok e rest := by
  obtain ⟨hlow, hhigh⟩ := e.precedence_bounds
  exact ((derives_text e hvalid rest hstops.edge).loosenTo (by decide) hlow hhigh).space.read hstops

theorem literal_head {value : Literal} {kind : NodeKind} {field : String}
    (hvalid : (literal value).validate kind field = .ok ()) :
    ∃ c tail, value.text.toList = c :: tail ∧ isSpace c = false := by
  have htext := literalText_text hvalid (stops_nil 1).edge.number
  rw [List.append_nil] at htext
  exact htext.head_not_space

/-- The text of an expression begins with a character other than a blank. -/
theorem text_head {e : Expression} {kind : NodeKind} {field : String}
    (hvalid : e.validate kind field = .ok ()) :
    ∃ c tail, e.text.toList = c :: tail ∧ isSpace c = false := by
  have hidentifier : ∀ {w : List Char}, Name.isIdentifier w = true →
      ∃ c tail, w = c :: tail ∧ isSpace c = false := by
    intro w hw
    obtain ⟨c, tail, rfl, hc, _⟩ := exists_of_isIdentifier hw
    exact ⟨c, tail, rfl, isSpace_of_isWordChar (isWordChar_of_isWordStart hc)⟩
  have hparenthesized : ∀ {target : Expression} (needed : Bool) (rest : List Char),
      (∃ c tail, target.text.toList = c :: tail ∧ isSpace c = false) →
      ∃ c tail, (parenthesized needed target.text).toList ++ rest = c :: tail ∧
        isSpace c = false := by
    intro target needed rest h
    obtain ⟨c, tail, htext, hc⟩ := h
    rw [toList_parenthesized]
    cases needed with
    | true => exact ⟨_, _, rfl, by decide⟩
    | false => exact ⟨c, tail ++ rest, by simp [htext], hc⟩
  induction e using Expression.rec (motive_2 := fun _ => True) with
  | name n => exact hidentifier (checkName_eq_ok.mp hvalid)
  | literal value => exact literal_head hvalid
  | unary op operand _ =>
    rw [Expression.text, String.toList_append]
    cases op <;> exact ⟨_, _, rfl, by decide⟩
  | binary op lhs rhs ihl _ =>
    simp only [Expression.validate, seq_eq_ok] at hvalid
    simp only [Expression.text, String.toList_append, List.append_assoc]
    exact hparenthesized _ _ (ihl hvalid.1)
  | call target args _ =>
    simp only [Expression.validate, seq_eq_ok] at hvalid
    obtain ⟨first, tail, hfirst, hid⟩ := exists_of_isQualified (checkName_eq_ok.mp hvalid.1)
    obtain ⟨c, tail', rfl, hc⟩ := hidentifier hid
    simp only [Expression.text, String.toList_append, List.append_assoc, hfirst]
    exact ⟨c, _, rfl, hc⟩
  | field target n ih =>
    simp only [Expression.validate, seq_eq_ok] at hvalid
    simp only [Expression.text, String.toList_append, List.append_assoc]
    exact hparenthesized _ _ (ih hvalid.1)
  | index target position ih _ =>
    simp only [Expression.validate, seq_eq_ok] at hvalid
    simp only [Expression.text, String.toList_append, List.append_assoc]
    exact hparenthesized _ _ (ih hvalid.1)
  | nil => trivial
  | cons => trivial

mutual

/-- A well-formed expression agrees with itself, as it holds no NaN. -/
theorem agrees_self (e : Expression) {kind : NodeKind} {field : String}
    (hvalid : e.validate kind field = .ok ()) : e.agrees e = true := by
  match e with
  | .name n => simp [agrees, alike]
  | .literal value =>
    match value with
    | .int value => simp [agrees, alike, Literal.agrees]
    | .string value => simp [agrees, alike, Literal.agrees]
    | .boolean value => simp [agrees, alike, Literal.agrees]
    | .null => rfl
    | .float (.finite negative significand scale canonical) =>
      simp [agrees, alike, Literal.agrees, Binary64.agrees]
    | .float (.infinity negative) => cases hvalid
    | .float .nan => cases hvalid
  | .unary op operand =>
    have hoperand : operand.agrees operand = true := agrees_self operand hvalid
    unfold agrees at hoperand ⊢
    simp [alike, hoperand]
  | .binary op lhs rhs =>
    obtain ⟨hl, hr⟩ := seq_eq_ok.mp hvalid
    have hlhs := agrees_self lhs hl
    have hrhs := agrees_self rhs hr
    unfold agrees at hlhs hrhs ⊢
    simp [alike, hlhs, hrhs]
  | .call target args =>
    obtain ⟨_, hargs⟩ := seq_eq_ok.mp hvalid
    have hall := agreesAll_self args hargs
    unfold agrees
    simp [alike, hall]
  | .field target n =>
    obtain ⟨htarget, _⟩ := seq_eq_ok.mp hvalid
    have hagrees := agrees_self target htarget
    unfold agrees at hagrees ⊢
    simp [alike, hagrees]
  | .index target position =>
    obtain ⟨htarget, hposition⟩ := seq_eq_ok.mp hvalid
    have hagrees := agrees_self target htarget
    have hagrees' := agrees_self position hposition
    unfold agrees at hagrees hagrees' ⊢
    simp [alike, hagrees, hagrees']

theorem agreesAll_self (es : List Expression) {kind : NodeKind} {field : String}
    (hvalid : validateAll kind field es = .ok ()) : allAlike Literal.agrees es es = true := by
  match es with
  | [] => rfl
  | e :: es =>
    obtain ⟨he, hes⟩ := seq_eq_ok.mp hvalid
    have hagrees := agrees_self e he
    have hall := agreesAll_self es hes
    unfold agrees at hagrees
    simp [allAlike, hagrees, hall]

end

/-- Every well-formed expression is read back from its text. -/
theorem parseExpression_text {e : Expression} {kind : NodeKind} {field : String}
    (hvalid : e.validate kind field = .ok ()) :
    parseExpression e.text = .ok e ∧ e.agrees e = true := by
  have hread := expression_text hvalid (stops_nil 1)
  rw [List.append_nil] at hread
  refine ⟨?_, agrees_self e hvalid⟩
  simp only [parseExpression, Reader.run, bind_apply Reader.expression, andThen, hread,
    bind_apply, Reader.spaces, skipSpaces_nil, pure_apply]

/-- A negated number keeps its parentheses, and a zero keeps its sign. -/
theorem parseExpression_negated_number :
    parseExpression "-(-5.x) + -0.0" =
      .ok (.binary .add (.unary .neg (.field (.literal (.int (-5))) "x"))
        (.literal (.float (.zero true)))) := by
  have hvalid : (Expression.binary .add (.unary .neg (.field (.literal (.int (-5))) "x"))
      (.literal (.float (.zero true)))).validate .returnStatement "values" = .ok () := by decide
  exact (parseExpression_text hvalid).1

end Expression

end ProgramTree
