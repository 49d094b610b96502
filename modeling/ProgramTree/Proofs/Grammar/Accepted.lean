import ProgramTree.Proofs.Grammar.Complete
import ProgramTree.Proofs.Grammar.Lexemes

/-! # The reader accepts every derivation

A derivation does not ask that its phrases be as long as they can be, and a
reader takes what it can. They agree where the text after a phrase cannot go on
with it, and inside a derivation what comes after a phrase never can: it is a
symbol that ends the phrase. -/

namespace ProgramTree.Grammar

set_option autoImplicit false

open Reader

/-- What may follow a phrase. -/
def Category.Follow : Category → List Char → Prop
  | expression level, rest => Stops level rest
  | operations level, rest => Stops level rest
  | suffixes, rest => Stops 8 rest
  | arguments, rest => (skipSpaces rest).head? = some ')'
  | moreArguments, rest => (skipSpaces rest).head? = some ')'

/-- What a phrase makes of the expression or the argument that comes before it, as a relation
of texts. -/
def Category.Derived : (category : Category) → category.Meaning → List Char → List Char → Prop
  | expression level, e, text, rest => Derives (.expression level e) text rest
  | operations level, others, text, rest => ∀ first start,
      Derives (.expression level first) start text →
      Derives (.expression level (Derivation.groupLeft first others)) start rest
  | suffixes, others, text, rest => ∀ target start, Derives (.expression 8 target) start text →
      Derives (.expression 8 (others.foldl Suffix.apply target)) start rest
  | arguments, es, text, rest => Derives (.arguments es) text rest
  | moreArguments, es, text, rest => ∀ first start, Derives (.expression 1 first) start text →
      Derives (.arguments (first :: es)) start rest

variable {text rest : List Char}

section Ends

theorem Symbol.closing {c : Char} (h : Symbol [c] text rest) (hc : closesExpression c = true)
    (level : Nat) : Stops level text :=
  stops_of_closing (h.skipSpaces_eq (isSpace_of_closesExpression hc)) hc level

namespace Derivation

theorem stops_operations {level : Nat} (d : Derivation (.operations level) text rest)
    (h : Stops level rest) : Stops (level + 1) text := by
  cases d with
  | noOperation => exact h.mono (Nat.le_succ level)
  | operation op binds symbol _ _ =>
    rw [← binds]
    exact stops_of_operator symbol.operator

theorem stops_suffixes (d : Derivation .suffixes text rest) (h : Stops 8 rest) :
    Stops 9 text := by
  cases d with
  | noSuffix => exact h.mono (by decide)
  | field point _ identifier _ =>
    obtain ⟨c, tail, rfl, hc⟩ := identifier.head
    apply stops_of_suffix (point.skipSpaces_eq rfl) (Or.inl rfl)
    exact Or.inl (startsNot_cons.mpr (isDigit_of_isWordStart hc))
  | index opening _ _ _ =>
    exact stops_of_suffix (opening.skipSpaces_eq rfl) (Or.inr rfl) (Or.inr rfl)

theorem stops_moreArguments (d : Derivation .moreArguments text rest)
    (h : (skipSpaces rest).head? = some ')') : Stops 1 text := by
  cases d with
  | noMore =>
    obtain ⟨tail, htail⟩ := List.head?_eq_some_iff.mp h
    exact stops_of_closing htail rfl 1
  | more comma _ _ => exact comma.closing rfl 1

theorem level_bounds {level : Nat} (d : Derivation (.expression level) text rest) :
    1 ≤ level ∧ level ≤ 9 := by
  cases d <;> omega

end Derivation

end Ends

section Leaves

variable {start : List Char} {value : Literal}

theorem LiteralText.head_not_space (h : LiteralText value start rest) :
    ∃ c tail, start = c :: tail ∧ isSpace c = false := by
  obtain ⟨c, tail, hstart, hc⟩ := h.head
  refine ⟨c, tail, hstart, ?_⟩
  rcases hc with rfl | rfl | hc
  · rfl
  · rfl
  · exact isSpace_of_isWordChar hc

theorem LiteralText.skipSpaces_eq (h : LiteralText value start rest)
    (hblanks : AfterBlanks text start) : skipSpaces text = start := by
  obtain ⟨c, tail, rfl, hspace⟩ := h.head_not_space
  exact hblanks.skipSpaces_eq (startsNot_cons.mpr hspace)

theorem LiteralText.derives (h : LiteralText value start rest) (hblanks : AfterBlanks text start)
    (hrest : Edge rest) : Derives (.expression 9 (.literal value)) text rest := by
  have hskip := h.skipSpaces_eq hblanks
  cases h with
  | number hnumber =>
    apply Derives.number
    rw [hskip]
    exact hnumber.read hrest.number
  | string hquoted => exact .string hskip (hquoted.read rest)
  | @word value word rest hword hends =>
    have hvalue := wordLiteral?_eq_some.mpr ⟨word, hword, rfl⟩
    obtain ⟨hw, hafter⟩ := word_run hends (wordLiteral?_all hvalue)
    rw [← hskip] at hw hafter
    rw [← hw] at hvalue
    have hderives := Derives.word hvalue
    rw [hafter] at hderives
    exact hderives

theorem AfterBlanks.skipSpaces_word {c : Char} {tail : List Char}
    (h : AfterBlanks text (c :: tail)) (hc : Name.isWordStart c = true) :
    skipSpaces text = c :: tail :=
  h.skipSpaces_eq (startsNot_cons.mpr (isSpace_of_isWordChar (isWordChar_of_isWordStart hc)))

theorem Identifier.skipSpaces_eq {name : List Char} (h : Identifier name start rest)
    (hblanks : AfterBlanks text start) : skipSpaces text = start := by
  obtain ⟨c, tail, rfl, hc⟩ := h.head
  exact hblanks.skipSpaces_word hc

theorem Qualified.skipSpaces_eq {name : List Char} (h : Qualified name start rest)
    (hblanks : AfterBlanks text start) : skipSpaces text = start := by
  obtain ⟨c, tail, rfl, hc⟩ := h.head
  exact hblanks.skipSpaces_word hc

end Leaves

namespace Derivation

theorem derives {category : Category} (d : Derivation category text rest)
    (h : category.Follow rest) : category.Derived d.value text rest := by
  induction d with
  | operators low high first others ihFirst ihOthers =>
    have hfirst := ihFirst (others.stops_operations h)
    exact ihOthers h _ _ (.loosen low (by omega) hfirst)
  | noOperation =>
    intro first start hfirst
    exact hfirst
  | operation op binds symbol rhs others ihRhs ihOthers =>
    intro first start hfirst
    have hrhs := ihRhs (others.stops_operations h)
    subst binds
    exact ihOthers h _ _ (.binary hfirst symbol.operator hrhs)
  | not symbol operand ih => exact .not (symbol.skipSpaces_eq rfl) (ih h)
  | neg symbol apart operand ih => exact .neg (symbol.skipSpaces_eq rfl) apart (ih h)
  | unprefixed e ih =>
    have hstops : Stops 8 _ := Stops.mono h (by decide)
    exact .loosen (by decide) (by decide) (ih hstops)
  | suffixed target others ihTarget ihOthers =>
    have htarget := ihTarget (others.stops_suffixes h)
    exact ihOthers h _ _ (.loosen (by decide) (by decide) htarget)
  | noSuffix =>
    intro target start htarget
    exact htarget
  | field point spelled identifier others ih =>
    intro target start htarget
    have hname := identifier_eq_ok.mpr identifier
    exact ih h _ _ (.field htarget (point.skipSpaces_eq rfl) hname)
  | index opening position closing others ihPosition ihOthers =>
    intro target start htarget
    have hposition := ihPosition (closing.closing rfl 1)
    exact ihOthers h _ _ (.index htarget (opening.skipSpaces_eq rfl) hposition
      (closing.skipSpaces_eq rfl))
  | parentheses opening e closing ih =>
    exact .parentheses (opening.skipSpaces_eq rfl) (ih (closing.closing rfl 1))
      (closing.skipSpaces_eq rfl)
  | literal value blanks literal => exact literal.derives blanks h.edge
  | name spelled blanks identifier =>
    apply Derives.name
    rw [identifier.skipSpaces_eq blanks]
    exact identifier_eq_ok.mpr identifier
  | call target blanks qualified opening args closing ih =>
    have hopening := opening.skipSpaces_eq rfl
    have hclosing := closing.skipSpaces_eq rfl
    have hargs := ih (by rw [Category.Follow, hclosing]; rfl)
    refine .call ?_ hopening hargs hclosing
    rw [qualified.skipSpaces_eq blanks]
    exact qualified.read (head?_ne_of_skipSpaces hopening (by decide) (by decide))
  | noArguments => exact .noArgument
  | arguments first others ihFirst ihOthers =>
    exact ihOthers h _ _ (ihFirst (others.stops_moreArguments h))
  | noMore =>
    intro first start hfirst
    exact .lastArgument hfirst
  | more comma next others ihNext ihOthers =>
    intro first start hfirst
    have hnext := ihNext (others.stops_moreArguments h)
    exact .argument hfirst (comma.skipSpaces_eq rfl) (ihOthers h _ _ hnext)

/-- Where an expression ends, the reader of its level finds it. -/
theorem read {level : Nat} (d : Derivation (.expression level) text rest) (h : Stops level rest) :
    readAt (nested text) level text = .ok d.value rest := by
  obtain ⟨hlow, hhigh⟩ := d.level_bounds
  exact (d.derives h).found text (Nat.le_refl _) (h.mono (Nat.le_succ level)) _ _
    (h.continues hlow hhigh)

theorem rest_unique {level : Nat} {rest' : List Char}
    (d : Derivation (.expression level) text rest)
    (d' : Derivation (.expression level) text rest') (h : Stops level rest)
    (h' : Stops level rest') : rest = rest' := by
  have hread := d.read h
  rw [d'.read h'] at hread
  injection hread with _ hrest
  exact hrest.symm

theorem arguments_rest_unique {rest' : List Char} (d : Derivation .arguments text rest)
    (d' : Derivation .arguments text rest') (h : (skipSpaces rest).head? = some ')')
    (h' : (skipSpaces rest').head? = some ')') : rest = rest' := by
  have hread := ((d.derives h).found ('(' :: text) (Nat.lt_succ_self _) h).1
  rw [((d'.derives h').found ('(' :: text) (Nat.lt_succ_self _) h').1] at hread
  injection hread with _ hrest
  exact hrest.symm

/-- The character that an expression begins with. -/
theorem head {level : Nat} (d : Derivation (.expression level) text rest) (h : Stops level rest) :
    ∃ c tail, skipSpaces text = c :: tail ∧ startsExpression c = true :=
  (d.derives h).head rfl

end Derivation

end ProgramTree.Grammar
