import Mathlib.Data.List.TakeWhile
import ProgramTree.Proofs.Grammar.Sound
import ProgramTree.Source.ParseError

/-! # The language of the parser

The parser accepts a text exactly when the text has a derivation, it gives what
the derivation derives, and no text has two derivations.

Where two derivations could part, the reader tells which of them is left: it
finds the end of a phrase and its value from the text alone. What remains is to
compare the rules by the characters that they begin with. -/

namespace ProgramTree

set_option autoImplicit false

open Reader

namespace Grammar

section Tokens

variable {text start rest after : List Char}

/-- What begins with a bracket is neither a name nor a call. -/
theorem not_word (opening : Symbol ['('] text after) (hskip : skipSpaces text = start)
    (hhead : ∃ c tail, start = c :: tail ∧ Name.isWordStart c = true) : False := by
  obtain ⟨c, tail, rfl, hc⟩ := hhead
  rw [opening.skipSpaces_eq rfl] at hskip
  cases hskip
  exact absurd hc (by decide)

theorem not_literal {value : Literal} (opening : Symbol ['('] text after)
    (hblanks : AfterBlanks text start) (literal : LiteralText value start rest) : False := by
  have hskip := literal.skipSpaces_eq hblanks
  obtain ⟨c, tail, rfl, hc⟩ := literal.head
  rw [opening.skipSpaces_eq rfl] at hskip
  cases hskip
  exact absurd hc (by decide)

theorem Identifier.unique {name name' rest' : List Char} (h : Identifier name start rest)
    (h' : Identifier name' start rest') : name = name' ∧ rest = rest' := by
  have hread := identifier_eq_ok.mpr h
  rw [identifier_eq_ok.mpr h'] at hread
  cases hread
  exact ⟨rfl, rfl⟩

theorem Symbol.head? {c : Char} (h : Symbol [c] text rest) (hc : isSpace c = false) :
    (skipSpaces text).head? = some c := by
  rw [h.skipSpaces_eq hc, List.head?_cons]

/-- What is called ends at the bracket of its arguments. -/
theorem Qualified.unique {name name' rest' after' : List Char} (h : Qualified name start rest)
    (opening : Symbol ['('] rest after) (h' : Qualified name' start rest')
    (opening' : Symbol ['('] rest' after') : name = name' ∧ rest = rest' := by
  have hcolon : ∀ {rest after : List Char}, Symbol ['('] rest after → rest.head? ≠ some ':' := by
    intro rest after opening
    exact head?_ne_of_skipSpaces (opening.skipSpaces_eq rfl) (by decide) (by decide)
  have hread := h.read (hcolon opening)
  rw [h'.read (hcolon opening')] at hread
  cases hread
  exact ⟨rfl, rfl⟩

end Tokens

namespace Derivation

variable {text rest after : List Char} {level : Nat}

theorem value_unique (d d' : Derivation (.expression level) text rest) (h : Stops level rest) :
    d.value = d'.value := by
  have hread := d.read h
  rw [d'.read h] at hread
  injection hread with hvalue _
  exact hvalue.symm

section Parting

/-- Where a level ends, none of its operators stands. -/
theorem not_operation {op : BinaryOp} (h : Stops level text) (binds : op.precedence = level)
    (symbol : Symbol op.symbol.toList text after) : False := by
  have hnone := h.operator op (Nat.le_of_eq binds.symm)
  rw [symbol.operator, ← Bool.not_eq_true, List.isPrefixOf_iff_prefix] at hnone
  exact hnone (List.prefix_append _ _)

theorem not_suffix {c : Char} (h : Stops 8 text) (hc : c = '.' ∨ c = '[')
    (symbol : Symbol [c] text after) : False := by
  obtain ⟨hpoint, hbracket⟩ := h.suffix (Nat.le_refl 8)
  rcases hc with rfl | rfl
  · rw [symbol.skipSpaces_eq rfl] at hpoint
    exact hpoint rfl
  · rw [symbol.skipSpaces_eq rfl] at hbracket
    exact hbracket rfl

/-- Of two operators of a level one is the beginning of the other at most with an equals sign
between, and no right operand begins with that. -/
theorem operator_unique {op op' : BinaryOp} {after' mid mid' : List Char}
    (binds : op.precedence = level) (binds' : op'.precedence = level)
    (symbol : Symbol op.symbol.toList text after) (symbol' : Symbol op'.symbol.toList text after')
    (rhs : Derivation (.expression (level + 1)) after mid) (h : Stops (level + 1) mid)
    (rhs' : Derivation (.expression (level + 1)) after' mid') (h' : Stops (level + 1) mid') :
    op = op' ∧ after = after' := by
  obtain ⟨c, tail, hskip, hc⟩ := rhs.head h
  obtain ⟨c', tail', hskip', hc'⟩ := rhs'.head h'
  have hread := operator_run symbol.operator (head?_ne_equals hskip hc)
  have hread' := operator_run symbol'.operator (head?_ne_equals hskip' hc')
  rw [binds] at hread
  rw [binds', hread] at hread'
  cases hread'
  exact ⟨rfl, rfl⟩

/-- What begins with a prefix has no derivation without it. -/
theorem not_unprefixed {c : Char} (d : Derivation (.expression 8) text rest) (h : Stops 8 rest)
    (symbol : Symbol [c] text after) (hc : c = '!' ∨ c = '-' ∧ StartsNot Char.isDigit after) :
    False := by
  have hskip : skipSpaces text = c :: after := by
    rcases hc with rfl | ⟨rfl, _⟩ <;> exact symbol.skipSpaces_eq rfl
  have hread : Reader.suffixed (nested text) (skipSpaces text) = .ok d.value rest := d.read h
  have hsoft : ∃ failure, Reader.suffixed (nested text) (c :: after) = .soft failure := by
    rcases hc with rfl | ⟨rfl, hdigit⟩
    · have hstart : StartsNot Name.isWordChar ('!' :: after) := startsNot_cons.mpr rfl
      exact suffixed_soft _ hstart (by simp) (by simp)
        (number?_eq_none (startsNot_digit hstart) (by simp))
    · exact suffixed_soft _ (startsNot_cons.mpr rfl) (by simp) (by simp)
        (number?_minus_eq_none hdigit)
  obtain ⟨failure, hsoft⟩ := hsoft
  rw [hskip, hsoft] at hread
  cases hread

/-- An argument does not begin with the bracket that ends the arguments. -/
theorem not_argument {mid : List Char} (d : Derivation (.expression level) text mid)
    (h : Stops level mid) (hclosing : (skipSpaces text).head? = some ')') : False := by
  obtain ⟨c, tail, hskip, hc⟩ := d.head h
  rw [hskip, List.head?_cons, Option.some.injEq] at hclosing
  rw [hclosing] at hc
  exact absurd hc (by decide)

theorem not_comma (comma : Symbol [','] text after)
    (hclosing : (skipSpaces text).head? = some ')') : False := by
  rw [comma.skipSpaces_eq rfl] at hclosing
  cases hclosing

theorem symbol_unique {c : Char} {after' : List Char} (symbol : Symbol [c] text after)
    (symbol' : Symbol [c] text after') (hc : isSpace c = false) : after = after' := by
  have hskip := symbol.skipSpaces_eq hc
  rw [symbol'.skipSpaces_eq hc] at hskip
  injection hskip with _ htail
  exact htail.symm

theorem symbols_differ {c c' : Char} {after' : List Char} (symbol : Symbol [c] text after)
    (symbol' : Symbol [c'] text after') (hc : isSpace c = false) (hc' : isSpace c' = false)
    (hne : c ≠ c') : False := by
  have hskip := symbol.skipSpaces_eq hc
  rw [symbol'.skipSpaces_eq hc'] at hskip
  injection hskip with hhead _
  exact hne hhead.symm

end Parting

/-- A phrase is derived in one way. -/
theorem unique {category : Category} (d d' : Derivation category text rest)
    (h : category.Follow rest) : d = d' := by
  -- the same rule divides the text in the same way, and another rule begins otherwise
  induction d with
  | operators low high first others ihFirst ihOthers =>
    cases d' with
    | operators _ _ first' others' =>
      have hstops := others.stops_operations h
      obtain rfl := first.rest_unique first' hstops (others'.stops_operations h)
      rw [ihFirst first' hstops, ihOthers others' h]
    | _ => omega
  | noOperation =>
    cases d' with
    | noOperation => rfl
    | operation _ binds symbol _ _ => exact (not_operation h binds symbol).elim
  | operation op binds symbol rhs others ihRhs ihOthers =>
    cases d' with
    | noOperation => exact (not_operation h binds symbol).elim
    | operation op' binds' symbol' rhs' others' =>
      have hstops := others.stops_operations h
      have hstops' := others'.stops_operations h
      obtain ⟨rfl, rfl⟩ :=
        operator_unique binds binds' symbol symbol' rhs hstops rhs' hstops'
      obtain rfl := rhs.rest_unique rhs' hstops hstops'
      rw [ihRhs rhs' hstops, ihOthers others' h]
  | not symbol operand ih =>
    cases d' with
    | operators _ high _ _ => omega
    | not symbol' operand' =>
      obtain rfl := symbol_unique symbol symbol' rfl
      rw [ih operand' h]
    | neg symbol' _ _ =>
      exact (symbols_differ symbol symbol' rfl rfl (by decide)).elim
    | unprefixed e => exact (not_unprefixed e (Stops.mono h (by decide)) symbol (Or.inl rfl)).elim
  | neg symbol apart operand ih =>
    cases d' with
    | operators _ high _ _ => omega
    | not symbol' _ =>
      exact (symbols_differ symbol symbol' rfl rfl (by decide)).elim
    | neg symbol' _ operand' =>
      obtain rfl := symbol_unique symbol symbol' rfl
      rw [ih operand' h]
    | unprefixed e =>
      exact (not_unprefixed e (Stops.mono h (by decide)) symbol (Or.inr ⟨rfl, apart⟩)).elim
  | unprefixed e ih =>
    have hstops : Stops 8 _ := Stops.mono h (by decide)
    cases d' with
    | operators _ high _ _ => omega
    | not symbol _ => exact (not_unprefixed e hstops symbol (Or.inl rfl)).elim
    | neg symbol apart _ => exact (not_unprefixed e hstops symbol (Or.inr ⟨rfl, apart⟩)).elim
    | unprefixed e' => rw [ih e' hstops]
  | suffixed target others ihTarget ihOthers =>
    cases d' with
    | operators _ high _ _ => omega
    | suffixed target' others' =>
      have hstops := others.stops_suffixes h
      obtain rfl := target.rest_unique target' hstops (others'.stops_suffixes h)
      rw [ihTarget target' hstops, ihOthers others' h]
  | noSuffix =>
    cases d' with
    | noSuffix => rfl
    | field point _ _ _ => exact (not_suffix h (Or.inl rfl) point).elim
    | index opening _ _ _ => exact (not_suffix h (Or.inr rfl) opening).elim
  | field point spelled identifier others ih =>
    cases d' with
    | noSuffix => exact (not_suffix h (Or.inl rfl) point).elim
    | field point' spelled' identifier' others' =>
      obtain rfl := symbol_unique point point' rfl
      obtain ⟨rfl, rfl⟩ := identifier.unique identifier'
      rw [ih others' h]
    | index opening _ _ _ =>
      exact (symbols_differ point opening rfl rfl (by decide)).elim
  | index opening position closing others ihPosition ihOthers =>
    cases d' with
    | noSuffix => exact (not_suffix h (Or.inr rfl) opening).elim
    | field point _ _ _ =>
      exact (symbols_differ point opening rfl rfl (by decide)).elim
    | index opening' position' closing' others' =>
      obtain rfl := symbol_unique opening opening' rfl
      have hstops := closing.closing rfl 1
      obtain rfl := position.rest_unique position' hstops (closing'.closing rfl 1)
      obtain rfl := symbol_unique closing closing' rfl
      rw [ihPosition position' hstops, ihOthers others' h]
  | parentheses opening e closing ih =>
    cases d' with
    | operators _ high _ _ => omega
    | parentheses opening' e' closing' =>
      obtain rfl := symbol_unique opening opening' rfl
      have hstops := closing.closing rfl 1
      obtain rfl := e.rest_unique e' hstops (closing'.closing rfl 1)
      rw [ih e' hstops]
    | literal _ blanks literal => exact (not_literal opening blanks literal).elim
    | name _ blanks identifier =>
      exact (not_word opening (identifier.skipSpaces_eq blanks) identifier.head).elim
    | call _ blanks qualified _ _ _ =>
      exact (not_word opening (qualified.skipSpaces_eq blanks) qualified.head).elim
  | literal value blanks literal =>
    have hvalue := value_unique (.literal value blanks literal) d' h
    cases d' with
    | operators _ high _ _ => omega
    | parentheses opening _ _ => exact (not_literal opening blanks literal).elim
    | literal value' blanks' literal' =>
      cases hvalue
      have hstart := literal.skipSpaces_eq blanks
      rw [literal'.skipSpaces_eq blanks'] at hstart
      cases hstart
      rfl
    | name _ _ _ => cases hvalue
    | call _ _ _ _ _ _ => cases hvalue
  | name spelled blanks identifier =>
    have hvalue := value_unique (.name spelled blanks identifier) d' h
    cases d' with
    | operators _ high _ _ => omega
    | parentheses opening _ _ =>
      exact (not_word opening (identifier.skipSpaces_eq blanks) identifier.head).elim
    | literal _ _ _ => cases hvalue
    | name spelled' blanks' identifier' =>
      have hstart := identifier.skipSpaces_eq blanks
      rw [identifier'.skipSpaces_eq blanks'] at hstart
      cases hstart
      obtain ⟨rfl, _⟩ := identifier.unique identifier'
      rfl
    | call _ _ _ _ _ _ => cases hvalue
  | call target blanks qualified opening args closing ih =>
    have hvalue := value_unique (.call target blanks qualified opening args closing) d' h
    cases d' with
    | operators _ high _ _ => omega
    | parentheses opening' _ _ =>
      exact (not_word opening' (qualified.skipSpaces_eq blanks) qualified.head).elim
    | literal _ _ _ => cases hvalue
    | name _ _ _ => cases hvalue
    | call target' blanks' qualified' opening' args' closing' =>
      have hstart := qualified.skipSpaces_eq blanks
      rw [qualified'.skipSpaces_eq blanks'] at hstart
      cases hstart
      obtain ⟨rfl, rfl⟩ := qualified.unique opening qualified' opening'
      obtain rfl := symbol_unique opening opening' rfl
      have hends := closing.head? rfl
      obtain rfl := args.arguments_rest_unique args' hends (closing'.head? rfl)
      rw [ih args' hends]
  | noArguments =>
    cases d' with
    | noArguments => rfl
    | arguments first others => exact (not_argument first (others.stops_moreArguments h) h).elim
  | arguments first others ihFirst ihOthers =>
    cases d' with
    | noArguments => exact (not_argument first (others.stops_moreArguments h) h).elim
    | arguments first' others' =>
      have hstops := others.stops_moreArguments h
      obtain rfl := first.rest_unique first' hstops (others'.stops_moreArguments h)
      rw [ihFirst first' hstops, ihOthers others' h]
  | noMore =>
    cases d' with
    | noMore => rfl
    | more comma _ _ => exact (not_comma comma h).elim
  | more comma next others ihNext ihOthers =>
    cases d' with
    | noMore => exact (not_comma comma h).elim
    | more comma' next' others' =>
      obtain rfl := symbol_unique comma comma' rfl
      have hstops := others.stops_moreArguments h
      obtain rfl := next.rest_unique next' hstops (others'.stops_moreArguments h)
      rw [ihNext next' hstops, ihOthers others' h]

end Derivation

variable {source : String}

/-- Blanks end an expression of every level. -/
theorem stops_of_blanks {rest : List Char} (h : ∀ c ∈ rest, isSpace c = true) (level : Nat) :
    Stops level rest := by
  have hskip : skipSpaces rest = [] := List.dropWhile_eq_nil_iff.mpr h
  cases rest with
  | nil => exact stops_nil level
  | cons c tail =>
    obtain ⟨hword, hpoint, hcolon⟩ := isSpace_not_wordChar (h c List.mem_cons_self)
    refine ⟨⟨⟨startsNot_cons.mpr hword, ?_⟩, ?_, by simp [hskip]⟩, by simp [hskip], ?_⟩
    · intro after heq
      cases heq
      exact absurd rfl hpoint
    · rw [List.head?_cons]
      exact fun he => hcolon (Option.some.inj he)
    · intro op _
      rw [hskip]
      cases op <;> rfl

theorem Sentence.unique (sentence sentence' : Sentence source) : sentence = sentence' := by
  obtain ⟨rest, d, hrest⟩ := sentence
  obtain ⟨rest', d', hrest'⟩ := sentence'
  have hstops := stops_of_blanks hrest 1
  obtain rfl := d.rest_unique d' hstops (stops_of_blanks hrest' 1)
  rw [d.unique d' hstops]

theorem parseExpression_eq_ok {e : Expression} : parseExpression source = .ok e ↔
    ∃ rest, expression source.toList = .ok e rest ∧ ∀ c ∈ rest, isSpace c = true := by
  unfold parseExpression Reader.run
  constructor
  · intro h
    split at h
    · rename_i a hread
      cases h
      obtain ⟨e', rest, hexpression, hread⟩ := bind_eq_ok.mp hread
      obtain ⟨_, last, hspaces, hreturn⟩ := bind_eq_ok.mp hread
      cases hreturn
      injection hspaces with _ hskip
      exact ⟨rest, hexpression, List.dropWhile_eq_nil_iff.mp hskip⟩
    · cases h
    · cases h
    · cases h
  · rintro ⟨rest, hexpression, hblanks⟩
    have hskip : skipSpaces rest = [] := List.dropWhile_eq_nil_iff.mpr hblanks
    simp only [bind_of_ok hexpression, bind_apply, andThen, Reader.spaces, hskip, pure_apply]

end Grammar

/-- The parser accepts exactly the texts of the language, each as what its derivation derives, and
no text has two derivations. -/
theorem parseExpression_language (source : String) :
    (∀ e, parseExpression source = .ok e ↔
      ∃ sentence : Grammar.Sentence source, sentence.value = e) ∧
    Subsingleton (Grammar.Sentence source) := by
  refine ⟨fun e => ?_, ⟨Grammar.Sentence.unique⟩⟩
  rw [Grammar.parseExpression_eq_ok]
  constructor
  · rintro ⟨rest, hread, hblanks⟩
    obtain ⟨d, hd⟩ := Grammar.sound_expression hread
    exact ⟨⟨rest, d, hblanks⟩, hd⟩
  · rintro ⟨sentence, rfl⟩
    refine ⟨sentence.rest, ?_, sentence.blanks⟩
    have hstops := Grammar.stops_of_blanks sentence.blanks 1
    rw [expression_eq]
    exact sentence.derivation.read hstops

end ProgramTree
