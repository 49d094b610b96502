import ProgramTree.Grammar.Statement
import ProgramTree.Proofs.Grammar.Names
import ProgramTree.Proofs.Grammar.Tokens
import ProgramTree.Proofs.Payload

/-! # The language of programs

The grammar of statements, clauses, functions and units over that of
expressions, with no order in which its rules are tried.

    unit        := ("package" package ";")? (comment | function)*
    function    := "function" identifier "(" (type identifier)* ")" ("(" type+ ")")? body
    body        := "{" statement* "}"
    statement   := comment | body | "if" condition body elseif* else?
                 | "while" condition body | "try" body catch
                 | "break" ";" | "continue" ";" | "return" arguments ";"
                 | "reply" expression ";" | "throw" expression ";"
                 | type identifier ("=" expression)? ";"
                 | expression ("=" expression)? ";"
    elseif      := "else" "if" condition body
    else        := "else" body
    catch       := "catch" "(" type identifier ")" body
    condition   := "(" expression ")"

Parameters and types in parentheses have commas between them. What a rule stands
for is a draft. The blanks before it do not belong to it, and its start is the
number of characters that are left where it begins. -/

namespace ProgramTree

set_option autoImplicit false

namespace Draft

mutual

/-- The draft and all drafts below it, a draft before its children. -/
def preorder : Draft → List Draft
  | node start form children => node start form children :: preorderAll children

def preorderAll : List Draft → List Draft
  | [] => []
  | d :: ds => d.preorder ++ preorderAll ds

end

theorem preorderAll_append (ds ds' : List Draft) :
    preorderAll (ds ++ ds') = preorderAll ds ++ preorderAll ds' := by
  induction ds with
  | nil => rfl
  | cons d ds ih => rw [List.cons_append, preorderAll, ih, preorderAll, List.append_assoc]

end Draft

namespace Grammar

open Reader

section Pieces

/-- The text does not begin with a blank, and it does begin. -/
def StartsVisibly (text : List Char) : Prop :=
  ∃ c tail, text = c :: tail ∧ isSpace c = false

/-- A reserved word is a longest run of word characters. -/
structure Keyword (w : String) (text rest : List Char) : Prop where
  text_eq : text = w.toList ++ rest
  ends : StartsNot Name.isWordChar rest

/-- A qualified name with pairs of brackets directly behind it. -/
inductive TypeName : List Char → List Char → List Char → Prop
  | mk {base text rest : List Char} (n : Nat) : Qualified base text (brackets n ++ rest) →
      TypeName (base ++ brackets n) text rest

structure PackageName (name text rest : List Char) : Prop where
  text_eq : text = name ++ rest
  nonempty : name ≠ []
  all : ∀ c ∈ name, isPart c = true
  ends : StartsNot isPart rest

/-- The text goes on with a phrase that has the given value. -/
def Spelled (category : Category) (a : category.Meaning) (text rest : List Char) : Prop :=
  ∃ d : Derivation category text rest, d.value = a

/-- Items with a comma between each two. -/
inductive Separated {α : Type} (item : α → List Char → List Char → Prop) :
    List α → List Char → List Char → Prop
  | none {text : List Char} : Separated item [] text text
  | last {a : α} {text rest : List Char} : item a text rest → Separated item [a] text rest
  | more {a b : α} {as : List α} {text mid after rest : List Char} : item a text mid →
      Symbol [','] mid after → Separated item (b :: as) after rest →
      Separated item (a :: b :: as) text rest

/-- A type after any blanks. -/
inductive TypeAfter : String → List Char → List Char → Prop
  | mk {type text start rest : List Char} : AfterBlanks text start → TypeName type start rest →
      TypeAfter (String.ofList type) text rest

/-- A type and a name after any blanks. -/
inductive Declared : String × String → List Char → List Char → Prop
  | mk {type name text start mid after rest : List Char} : AfterBlanks text start →
      TypeName type start mid → AfterBlanks mid after → Identifier name after rest →
      Declared (String.ofList type, String.ofList name) text rest

inductive Condition : Expression → List Char → List Char → Prop
  | mk {e : Expression} {text after mid rest : List Char} : Symbol ['('] text after →
      Spelled (.expression 1) e after mid → Symbol [')'] mid rest → Condition e text rest

/-- An equals sign and an expression, or nothing. -/
inductive Assigned : Option Expression → List Char → List Char → Prop
  | none {text : List Char} : Assigned none text text
  | some {e : Expression} {text after rest : List Char} : Symbol ['='] text after →
      Spelled (.expression 1) e after rest → Assigned (some e) text rest

/-- Types in parentheses, or nothing. -/
inductive Returns : List String → List Char → List Char → Prop
  | none {text : List Char} : Returns [] text text
  | some {types : List String} {text after mid rest : List Char} : types ≠ [] →
      Symbol ['('] text after → Separated TypeAfter types after mid → Symbol [')'] mid rest →
      Returns types text rest

inductive Package : Option String → List Char → List Char → Prop
  | none {text : List Char} : Package none text text
  | some {name text after start mid rest : List Char} : Keyword "package" text after →
      AfterBlanks after start → PackageName name start mid → Symbol [';'] mid rest →
      Package (some (String.ofList name)) text rest

/-- The statements that consist of their keyword. -/
inductive Jump : String → Form → Prop
  | breaks : Jump "break" .breakStatement
  | continues : Jump "continue" .continueStatement

/-- The statements that consist of their keyword and one expression. -/
inductive Valued : String → (Option Expression → Form) → Prop
  | reply : Valued "reply" .replyStatement
  | throw : Valued "throw" .throwStatement

end Pieces

/-- A draft, drafts of the given kinds with any blanks before each of them, or the statements
between braces. -/
inductive Part
  | node (d : Draft)
  | list (allowed : NodeKind → Bool) (ds : List Draft)
  | body (ds : List Draft)

/-- The draft of a node that starts where the text does. -/
@[reducible] def Part.starting (text : List Char) (form : Form) (children : List Draft) : Part :=
  .node (.node text.length form children)

inductive Stands : Part → List Char → List Char → Prop
  | nil {allowed : NodeKind → Bool} {text : List Char} : Stands (.list allowed []) text text
  | cons {allowed : NodeKind → Bool} {d : Draft} {ds : List Draft}
      {text start mid rest : List Char} : AfterBlanks text start → Stands (.node d) start mid →
      allowed d.form.kind = true → Stands (.list allowed ds) mid rest →
      Stands (.list allowed (d :: ds)) text rest
  | body {ds : List Draft} {text after mid rest : List Char} : Symbol ['{'] text after →
      Stands (.list NodeKind.isStatement ds) after mid → Symbol ['}'] mid rest →
      Stands (.body ds) text rest
  | comment {content text rest : List Char} : text = '/' :: '/' :: (content ++ rest) →
      (∀ c ∈ content, c ≠ '\n' ∧ c ≠ '\r') → StartsNot (fun c => c != '\n' && c != '\r') rest →
      Stands (.starting text (.comment (String.ofList content)) []) text rest
  | block {ds : List Draft} {text rest : List Char} : StartsVisibly text →
      Stands (.body ds) text rest →
      Stands (.starting text .block ds) text rest
  | ifStatement {e : Expression} {ds elseIfs last : List Draft}
      {text after mid next behind rest : List Char} : Keyword "if" text after →
      Condition e after mid → Stands (.body ds) mid next →
      Stands (.list (· == .elseIfClause) elseIfs) next behind →
      Stands (.list (· == .elseClause) last) behind rest → last.length ≤ 1 →
      Stands (.starting text (.ifStatement (some e)) (ds ++ elseIfs ++ last)) text rest
  | elseIfClause {e : Expression} {ds : List Draft} {text after start mid next rest : List Char} :
      Keyword "else" text after → AfterBlanks after start → Keyword "if" start mid →
      Condition e mid next → Stands (.body ds) next rest →
      Stands (.starting text (.elseIfClause (some e)) ds) text rest
  | elseClause {ds : List Draft} {text after rest : List Char} : Keyword "else" text after →
      Stands (.body ds) after rest → Stands (.starting text .elseClause ds) text rest
  | whileLoop {e : Expression} {ds : List Draft} {text after mid rest : List Char} :
      Keyword "while" text after → Condition e after mid → Stands (.body ds) mid rest →
      Stands (.starting text (.whileLoop (some e)) ds) text rest
  | tryStatement {ds last : List Draft} {text after mid rest : List Char} :
      Keyword "try" text after → Stands (.body ds) after mid →
      Stands (.list (· == .catchClause) last) mid rest → last.length = 1 →
      Stands (.starting text .tryStatement (ds ++ last)) text rest
  | catchClause {caught : String × String} {ds : List Draft}
      {text after opening mid closing rest : List Char} : Keyword "catch" text after →
      Symbol ['('] after opening → Declared caught opening mid → Symbol [')'] mid closing →
      Stands (.body ds) closing rest →
      Stands (.starting text (.catchClause caught.1 caught.2) ds) text rest
  | jump {w : String} {form : Form} {text after rest : List Char} :
      Jump w form → Keyword w text after → Symbol [';'] after rest →
      Stands (.starting text form []) text rest
  | returnStatement {values : List Expression} {text after mid rest : List Char} :
      Keyword "return" text after → Spelled .arguments values after mid → Symbol [';'] mid rest →
      Stands (.starting text (.returnStatement values) []) text rest
  | valued {w : String} {form : Option Expression → Form} {e : Expression}
      {text after mid rest : List Char} : Valued w form → Keyword w text after →
      Spelled (.expression 1) e after mid → Symbol [';'] mid rest →
      Stands (.starting text (form (some e)) []) text rest
  | definition {declared : String × String} {initializer : Option Expression}
      {text mid after rest : List Char} : StartsVisibly text → Declared declared text mid →
      Assigned initializer mid after → Symbol [';'] after rest →
      Stands (.starting text (.variableDefinition declared.1 declared.2 initializer) []) text rest
  | assignment {target value : Expression} {text mid after rest : List Char} : StartsVisibly text →
      Spelled (.expression 1) target text mid → Assigned (some value) mid after →
      Symbol [';'] after rest →
      Stands (.starting text (.assignment (some target) (some value)) []) text rest
  | call {e : Expression} {text mid rest : List Char} : StartsVisibly text →
      Spelled (.expression 1) e text mid → Symbol [';'] mid rest →
      Stands (.starting text (.callStatement (some e)) []) text rest
  | function {params : List (String × String)} {returns : List String} {ds : List Draft}
      {name text after start opening inside closing next mid rest : List Char} :
      Keyword "function" text after → AfterBlanks after start → Identifier name start opening →
      Symbol ['('] opening inside → Separated Declared params inside closing →
      Symbol [')'] closing next → Returns returns next mid → Stands (.body ds) mid rest →
      Stands (.starting text (.function (String.ofList name) params returns) ds) text rest
  | compilationUnit {package : Option String} {ds : List Draft} {text mid rest : List Char} :
      StartsNot isSpace text → Package package text mid →
      Stands (.list (fun kind => kind == .function || kind == .comment) ds) mid rest →
      (∀ c ∈ rest, isSpace c = true) →
      Stands (.starting text (.compilationUnit package) ds) text rest

section Suffixes

variable {text start mid rest : List Char}

theorem AfterBlanks.suffix (h : AfterBlanks text start) : start <:+ text := by
  obtain ⟨blanks, _, rfl⟩ := h
  exact List.suffix_append blanks start

theorem Symbol.suffix {symbol : List Char} (h : Symbol symbol text rest) : rest <:+ text :=
  (List.suffix_append symbol rest).trans (AfterBlanks.suffix h)

theorem Keyword.suffix {w : String} (h : Keyword w text rest) : rest <:+ text := by
  rw [h.text_eq]
  exact List.suffix_append _ rest

theorem Identifier.suffix {name : List Char} (h : Identifier name text rest) : rest <:+ text := by
  rw [h.text_eq]
  exact List.suffix_append _ rest

theorem PackageName.suffix {name : List Char} (h : PackageName name text rest) : rest <:+ text := by
  rw [h.text_eq]
  exact List.suffix_append _ rest

theorem TypeName.suffix {type : List Char} (h : TypeName type text rest) : rest <:+ text := by
  obtain ⟨n, hbase⟩ := h
  rw [hbase.text_eq]
  exact (List.suffix_append _ rest).trans (List.suffix_append _ _)

theorem Laid.suffix {tokens : List Token} (h : Laid tokens text rest) : rest <:+ text := by
  induction h with
  | nil => exact List.suffix_refl _
  | cons blanks lexeme _ ih =>
    refine ih.trans (.trans ?_ blanks.suffix)
    rw [lexeme.text_eq]
    exact List.suffix_append _ _

theorem Spelled.suffix {category : Category} {a : category.Meaning}
    (h : Spelled category a text rest) : rest <:+ text := by
  obtain ⟨d, _⟩ := h
  exact d.laid.suffix

theorem Separated.suffix {α : Type} {item : α → List Char → List Char → Prop}
    (hitem : ∀ {a text rest}, item a text rest → rest <:+ text) {as : List α}
    (h : Separated item as text rest) : rest <:+ text := by
  induction h with
  | none => exact List.suffix_refl _
  | last h => exact hitem h
  | more h hcomma _ ih => exact ih.trans (hcomma.suffix.trans (hitem h))

theorem TypeAfter.suffix {type : String} (h : TypeAfter type text rest) : rest <:+ text := by
  obtain ⟨hblanks, htype⟩ := h
  exact htype.suffix.trans hblanks.suffix

theorem Declared.suffix {declared : String × String} (h : Declared declared text rest) :
    rest <:+ text := by
  obtain ⟨hblanks, htype, hblanks', hname⟩ := h
  exact hname.suffix.trans (hblanks'.suffix.trans (htype.suffix.trans hblanks.suffix))

theorem Condition.suffix {e : Expression} (h : Condition e text rest) : rest <:+ text := by
  obtain ⟨hopening, he, hclosing⟩ := h
  exact hclosing.suffix.trans (he.suffix.trans hopening.suffix)

theorem Assigned.suffix {e : Option Expression} (h : Assigned e text rest) : rest <:+ text := by
  cases h with
  | none => exact List.suffix_refl _
  | some hequals he => exact he.suffix.trans hequals.suffix

theorem Returns.suffix {types : List String} (h : Returns types text rest) : rest <:+ text := by
  cases h with
  | none => exact List.suffix_refl _
  | some _ hopening htypes hclosing =>
    exact hclosing.suffix.trans ((htypes.suffix TypeAfter.suffix).trans hopening.suffix)

theorem Package.suffix {package : Option String} (h : Package package text rest) :
    rest <:+ text := by
  cases h with
  | none => exact List.suffix_refl _
  | some hkeyword hblanks hname hclosing =>
    exact hclosing.suffix.trans (hname.suffix.trans (hblanks.suffix.trans hkeyword.suffix))

theorem Stands.suffix {part : Part} (h : Stands part text rest) : rest <:+ text := by
  induction h with
  | nil => exact List.suffix_refl _
  | cons hblanks _ _ _ ih ih' => exact ih'.trans (ih.trans hblanks.suffix)
  | body hopening _ hclosing ih => exact hclosing.suffix.trans (ih.trans hopening.suffix)
  | comment htext _ _ =>
    rw [htext]
    exact List.suffix_append ('/' :: '/' :: _) _
  | block _ _ ih => exact ih
  | ifStatement hif he _ _ _ _ ih ih' ih'' =>
    exact ih''.trans (ih'.trans (ih.trans (he.suffix.trans hif.suffix)))
  | elseIfClause helse hblanks hif he _ ih =>
    exact ih.trans (he.suffix.trans (hif.suffix.trans (hblanks.suffix.trans helse.suffix)))
  | elseClause helse _ ih => exact ih.trans helse.suffix
  | whileLoop hwhile he _ ih => exact ih.trans (he.suffix.trans hwhile.suffix)
  | tryStatement htry _ _ _ ih ih' => exact ih'.trans (ih.trans htry.suffix)
  | catchClause hcatch hopening hcaught hclosing _ ih =>
    exact ih.trans (hclosing.suffix.trans
      (hcaught.suffix.trans (hopening.suffix.trans hcatch.suffix)))
  | jump _ hkeyword hend => exact hend.suffix.trans hkeyword.suffix
  | returnStatement hreturn hvalues hend =>
    exact hend.suffix.trans (hvalues.suffix.trans hreturn.suffix)
  | valued _ hkeyword he hend => exact hend.suffix.trans (he.suffix.trans hkeyword.suffix)
  | definition _ hdeclared hvalue hend =>
    exact hend.suffix.trans (hvalue.suffix.trans hdeclared.suffix)
  | assignment _ htarget hvalue hend =>
    exact hend.suffix.trans (hvalue.suffix.trans htarget.suffix)
  | call _ he hend => exact hend.suffix.trans he.suffix
  | function hfunction hblanks hname hopening hparams hclosing hreturns _ ih =>
    exact ih.trans (hreturns.suffix.trans (hclosing.suffix.trans
      ((hparams.suffix Declared.suffix).trans (hopening.suffix.trans
        (hname.suffix.trans (hblanks.suffix.trans hfunction.suffix))))))
  | compilationUnit _ hpackage _ _ ih => exact ih.trans hpackage.suffix

end Suffixes

section Starts

variable {d : Draft} {text rest : List Char}

theorem Keyword.begins {w : String} (h : Keyword w text rest)
    (hw : w.toList.head?.any Name.isWordChar = true) : StartsVisibly text := by
  cases hw' : w.toList with
  | nil =>
    rw [hw'] at hw
    cases hw
  | cons c tail =>
    rw [hw'] at hw
    exact ⟨c, tail ++ rest, by rw [h.text_eq, hw']; rfl, isSpace_of_isWordChar hw⟩

theorem Stands.start (h : Stands (.node d) text rest) : d.start = text.length := by
  cases h <;> rfl

/-- What stands at the front of a text begins there, unless it is a unit, which may be empty. -/
theorem Stands.begins (h : Stands (.node d) text rest) (hunit : d.form.kind ≠ .compilationUnit) :
    StartsVisibly text := by
  cases h with
  | comment htext _ _ => exact ⟨'/', _, htext, rfl⟩
  | block hbegins _ => exact hbegins
  | ifStatement hkeyword _ _ _ _ _ => exact hkeyword.begins rfl
  | elseIfClause hkeyword _ _ _ _ => exact hkeyword.begins rfl
  | elseClause hkeyword _ => exact hkeyword.begins rfl
  | whileLoop hkeyword _ _ => exact hkeyword.begins rfl
  | tryStatement hkeyword _ _ _ => exact hkeyword.begins rfl
  | catchClause hkeyword _ _ _ _ => exact hkeyword.begins rfl
  | jump hjump hkeyword _ => cases hjump <;> exact hkeyword.begins rfl
  | returnStatement hkeyword _ _ => exact hkeyword.begins rfl
  | valued hvalued hkeyword _ _ => cases hvalued <;> exact hkeyword.begins rfl
  | definition hbegins _ _ _ => exact hbegins
  | assignment hbegins _ _ _ => exact hbegins
  | call hbegins _ _ => exact hbegins
  | function hkeyword _ _ _ _ _ _ _ => exact hkeyword.begins rfl
  | compilationUnit _ _ _ _ => exact absurd rfl hunit

theorem Stands.elseKeyword (h : Stands (.node d) text rest)
    (hkind : d.form.kind = .elseIfClause ∨ d.form.kind = .elseClause) :
    ∃ after, Keyword "else" text after := by
  cases h with
  | elseIfClause hkeyword _ _ _ _ => exact ⟨_, hkeyword⟩
  | elseClause hkeyword _ => exact ⟨_, hkeyword⟩
  | jump hjump _ _ => cases hjump <;> rcases hkind with hkind | hkind <;> cases hkind
  | valued hvalued _ _ _ => cases hvalued <;> rcases hkind with hkind | hkind <;> cases hkind
  | _ => rcases hkind with hkind | hkind <;> cases hkind

theorem Stands.catchKeyword (h : Stands (.node d) text rest)
    (hkind : d.form.kind = .catchClause) : ∃ after, Keyword "catch" text after := by
  cases h with
  | catchClause hkeyword _ _ _ _ => exact ⟨_, hkeyword⟩
  | jump hjump _ _ => cases hjump <;> cases hkind
  | valued hvalued _ _ _ => cases hvalued <;> cases hkind
  | _ => cases hkind

end Starts

section Places

def Part.preorder : Part → List Draft
  | node d => d.preorder
  | list _ ds | body ds => Draft.preorderAll ds

/-- The draft stands somewhere in the text. -/
def Located (text : List Char) (d : Draft) : Prop :=
  ∃ start rest, start <:+ text ∧ Stands (.node d) start rest

variable {text text' rest : List Char} {form : Form} {ds : List Draft}

theorem Located.mono {d : Draft} (h : Located text' d) (hsuffix : text' <:+ text) :
    Located text d := by
  obtain ⟨start, rest, hstart, hd⟩ := h
  exact ⟨start, rest, hstart.trans hsuffix, hd⟩

theorem located_leaf (h : Stands (.starting text form []) text rest) :
    ∀ d ∈ (Part.starting text form []).preorder, Located text d := by
  intro d hd
  rw [List.mem_singleton.mp hd]
  exact ⟨text, rest, List.suffix_refl _, h⟩

theorem located_node (h : Stands (.starting text form ds) text rest) (hsuffix : text' <:+ text)
    (hall : ∀ d ∈ Draft.preorderAll ds, Located text' d) :
    ∀ d ∈ (Part.starting text form ds).preorder, Located text d :=
  List.forall_mem_cons.mpr
    ⟨⟨text, rest, List.suffix_refl _, h⟩, fun d hd => (hall d hd).mono hsuffix⟩

/-- Each draft below one that stands at the front of a text stands in the text. -/
theorem Stands.located {part : Part} (h : Stands part text rest) :
    ∀ d ∈ part.preorder, Located text d := by
  have happend {text text' : List Char} {ds ds' : List Draft}
      (hds : ∀ d ∈ Draft.preorderAll ds, Located text d)
      (hds' : ∀ d ∈ Draft.preorderAll ds', Located text' d) (hsuffix : text' <:+ text) :
      ∀ d ∈ Draft.preorderAll (ds ++ ds'), Located text d := by
    intro d hd
    rw [Draft.preorderAll_append] at hd
    exact (List.mem_append.mp hd).elim (hds d) fun hd => (hds' d hd).mono hsuffix
  induction h with
  | nil => exact List.forall_mem_nil _
  | cons hblanks hd _ _ ih ih' =>
    intro n hn
    rcases List.mem_append.mp hn with hn | hn
    · exact (ih n hn).mono hblanks.suffix
    · exact (ih' n hn).mono (hd.suffix.trans hblanks.suffix)
  | body hopening _ _ ih => exact fun d hd => (ih d hd).mono hopening.suffix
  | comment htext hcontent hends => exact located_leaf (.comment htext hcontent hends)
  | block hbegins hbody ih => exact located_node (.block hbegins hbody) (List.suffix_refl _) ih
  | ifStatement hif he hbody helseIfs hlast hlength ih ih' ih'' =>
    exact located_node (.ifStatement hif he hbody helseIfs hlast hlength)
      (he.suffix.trans hif.suffix)
      (happend (happend ih ih' hbody.suffix) ih'' (helseIfs.suffix.trans hbody.suffix))
  | elseIfClause helse hblanks hif he hbody ih =>
    exact located_node (.elseIfClause helse hblanks hif he hbody)
      (he.suffix.trans (hif.suffix.trans (hblanks.suffix.trans helse.suffix))) ih
  | elseClause helse hbody ih => exact located_node (.elseClause helse hbody) helse.suffix ih
  | whileLoop hwhile he hbody ih =>
    exact located_node (.whileLoop hwhile he hbody) (he.suffix.trans hwhile.suffix) ih
  | tryStatement htry hbody hlast hlength ih ih' =>
    exact located_node (.tryStatement htry hbody hlast hlength) htry.suffix
      (happend ih ih' hbody.suffix)
  | catchClause hcatch hopening hcaught hclosing hbody ih =>
    exact located_node (.catchClause hcatch hopening hcaught hclosing hbody)
      (hclosing.suffix.trans (hcaught.suffix.trans (hopening.suffix.trans hcatch.suffix))) ih
  | jump hjump hkeyword hend => exact located_leaf (.jump hjump hkeyword hend)
  | returnStatement hreturn hvalues hend =>
    exact located_leaf (.returnStatement hreturn hvalues hend)
  | valued hvalued hkeyword he hend => exact located_leaf (.valued hvalued hkeyword he hend)
  | definition hbegins hdeclared hvalue hend =>
    exact located_leaf (.definition hbegins hdeclared hvalue hend)
  | assignment hbegins htarget hvalue hend =>
    exact located_leaf (.assignment hbegins htarget hvalue hend)
  | call hbegins he hend => exact located_leaf (.call hbegins he hend)
  | function hfunction hblanks hname hopening hparams hclosing hreturns hbody ih =>
    exact located_node
      (.function hfunction hblanks hname hopening hparams hclosing hreturns hbody)
      (hreturns.suffix.trans (hclosing.suffix.trans ((hparams.suffix Declared.suffix).trans
        (hopening.suffix.trans (hname.suffix.trans (hblanks.suffix.trans hfunction.suffix))))))
      ih
  | compilationUnit hstart hpackage hitems hrest ih =>
    exact located_node (.compilationUnit hstart hpackage hitems hrest) hpackage.suffix ih

end Places

end Grammar
end ProgramTree
