import ProgramTree.Proofs.Grammar.Tokens

/-! # Blanks between tokens

Blanks that are put between two tokens of an accepted text leave the tokens as
they are, unless they come behind a point. There they never do: outside of
string literals no accepted text has a point with a blank behind it. A scan
from the left that only keeps track of quotes is enough to see this. -/

namespace ProgramTree

set_option autoImplicit false

namespace Grammar

open Reader

section Scan

/-- Where a scan from the left is: outside of string literals, inside of one, or behind a
backslash inside of one. -/
inductive Quoting
  | outside
  | inside
  | escaped

def Quoting.next : Quoting → Char → Quoting
  | outside, c => if c = '"' then inside else outside
  | inside, c => if c = '"' then outside else if c = '\\' then escaped else inside
  | escaped, _ => inside

/-- Whether no point outside of string literals has a blank behind it. -/
def tight : Quoting → List Char → Bool
  | _, [] => true
  | .outside, '.' :: rest => !rest.head?.any isSpace && tight .outside rest
  | q, c :: rest => tight (q.next c) rest

variable {text mid rest : List Char} {token : Token} {tokens : List Token}

theorem tight_point (rest : List Char) :
    tight .outside ('.' :: rest) = (!rest.head?.any isSpace && tight .outside rest) := by
  rw [tight]

theorem tight_cons {c : Char} (hquote : c ≠ '"') (hpoint : c ≠ '.') (rest : List Char) :
    tight .outside (c :: rest) = tight .outside rest := by
  rw [tight, Quoting.next, if_neg hquote]
  intro _ hc
  exact hpoint hc

theorem tight_append {run : List Char} (h : ∀ c ∈ run, c ≠ '"' ∧ c ≠ '.') (rest : List Char) :
    tight .outside (run ++ rest) = tight .outside rest := by
  induction run with
  | nil => rfl
  | cons c run ih =>
    obtain ⟨⟨hquote, hpoint⟩, hrun⟩ := List.forall_mem_cons.mp h
    rw [List.cons_append, tight_cons hquote hpoint, ih hrun]

theorem tight_quoted {cs spelled : List Char} (h : QuotedAll cs spelled) (rest : List Char) :
    tight .inside (spelled ++ '"' :: rest) = tight .outside rest := by
  induction h with
  | nil => rw [List.nil_append, tight, Quoting.next, if_pos rfl]; nofun
  | cons hquoted _ ih =>
    rw [List.append_assoc]
    cases hquoted with
    | plain _ hquote hbackslash =>
      rw [List.singleton_append, tight, Quoting.next, if_neg hquote, if_neg hbackslash, ih]
      nofun
    | escaped _ =>
      rw [List.cons_append, tight, Quoting.next, if_neg (by decide), if_pos rfl,
        List.singleton_append, tight, Quoting.next, ih]
      all_goals nofun

/-- The characters of words are neither quotes nor points, and no more are digits. -/
theorem plain_of_isWordChar {c : Char} (h : Name.isWordChar c = true) : c ≠ '"' ∧ c ≠ '.' := by
  constructor
  · rintro rfl
    exact absurd h (by decide)
  · rintro rfl
    exact absurd h (by decide)

theorem plain_of_isSpace {c : Char} (h : isSpace c = true) : c ≠ '"' ∧ c ≠ '.' := by
  constructor
  · rintro rfl
    exact absurd h (by decide)
  · rintro rfl
    exact absurd h (by decide)

theorem tight_digits {digits : List Char} (h : Digits digits) (rest : List Char) :
    tight .outside (digits ++ rest) = tight .outside rest :=
  tight_append (fun c hc => plain_of_isWordChar (isWordChar_of_isDigit (h.all c hc))) rest

theorem tight_fraction {digits : List Char} (h : Digits digits) (rest : List Char) :
    tight .outside ('.' :: (digits ++ rest)) = tight .outside rest := by
  have hdigits := tight_digits h rest
  obtain ⟨d, ds, rfl⟩ := List.exists_cons_of_ne_nil h.nonempty
  have hspace : isSpace d = false :=
    isSpace_of_isWordChar (isWordChar_of_isDigit (h.all d List.mem_cons_self))
  rw [tight_point, hdigits, List.cons_append, List.head?_cons, Option.any_some, hspace]
  rfl

theorem tight_exponent {exponent : Int} {spelled : List Char} (h : Exponent exponent spelled)
    (rest : List Char) : tight .outside (spelled ++ rest) = tight .outside rest := by
  cases h with
  | mk hmarker hsign hdigits =>
    rw [List.cons_append, List.append_assoc]
    have hafter : ∀ {negative : Bool} {sign : List Char} (rest : List Char), Sign negative sign →
        tight .outside (sign ++ rest) = tight .outside rest := by
      intro negative sign rest h
      cases h with
      | none => rfl
      | _ => exact tight_cons (by decide) (by decide) rest
    rcases hmarker with rfl | rfl <;>
      rw [tight_cons (by decide) (by decide), hafter _ hsign, tight_digits hdigits]

theorem tight_number {value : Literal} {spelled : List Char} (h : Number value spelled)
    (rest : List Char) : tight .outside (spelled ++ rest) = tight .outside rest := by
  have hminus : ∀ (negative : Bool) (rest : List Char),
      tight .outside (minus negative ++ rest) = tight .outside rest := by
    intro negative rest
    cases negative with
    | true => exact tight_cons (by decide) (by decide) rest
    | false => rfl
  cases h with
  | integer hdigits _ => rw [List.append_assoc, hminus, tight_digits hdigits]
  | float hwhole htail =>
    rw [List.append_assoc, List.append_assoc, hminus, tight_digits hwhole]
    cases htail with
    | fraction hdigits => exact tight_fraction hdigits rest
    | exponent hexponent => exact tight_exponent hexponent rest
    | both hdigits hexponent =>
      rw [List.cons_append, List.append_assoc, tight_fraction hdigits, tight_exponent hexponent]

theorem tight_literal {value : Literal} (h : LiteralText value text rest) {spelled : List Char}
    (htext : text = spelled ++ rest) (rest' : List Char) :
    tight .outside (spelled ++ rest') = tight .outside rest' := by
  cases h with
  | number hnumber =>
    obtain rfl := List.append_cancel_right htext
    exact tight_number hnumber rest'
  | @string cs body _ hquoted =>
    have happend : '"' :: (body ++ ['"']) ++ rest = spelled ++ rest := by simpa using htext
    obtain rfl := List.append_cancel_right happend
    have hbody := tight_quoted hquoted rest'
    rw [List.cons_append, List.append_assoc, List.singleton_append, tight, Quoting.next, if_pos rfl,
      hbody]
    nofun
  | word hmem _ =>
    obtain rfl := List.append_cancel_right htext
    have hword := wordLiteral?_all (wordLiteral?_eq_some.mpr ⟨_, hmem, rfl⟩)
    exact tight_append (fun c hc => plain_of_isWordChar (hword c hc)) rest'

theorem tight_qualified {name : List Char} (h : Qualified name text rest) (rest' : List Char) :
    tight .outside (name ++ rest') = tight .outside rest' := by
  have hidentifier : ∀ {name : List Char} (rest : List Char), Name.isIdentifier name = true →
      tight .outside (name ++ rest) = tight .outside rest :=
    fun rest hname => tight_append
      (fun c hc => plain_of_isWordChar (isWordChar_of_isIdentifier hname c hc)) rest
  cases h with
  | plain h => exact hidentifier rest' h.isIdentifier
  | inPackage hpackage hname =>
    rw [List.append_assoc, hidentifier _ hpackage.isIdentifier, List.cons_append,
      tight_cons (by decide) (by decide), hidentifier _ hname.isIdentifier]

/-- No token but a point matters to the scan. -/
theorem Lexeme.tight_eq (h : Lexeme token text rest) (hpoint : token ≠ .symbol '.')
    (rest' : List Char) : tight .outside (token.spelled ++ rest') = tight .outside rest' := by
  cases h with
  | name qualified => exact tight_qualified qualified rest'
  | literal literal => exact tight_literal literal rfl rest'
  | bracket hmem =>
    simp only [List.mem_cons, List.not_mem_nil, or_false] at hmem
    rcases hmem with rfl | rfl | rfl | rfl | rfl | rfl <;>
      exact tight_cons (by decide) (by decide) rest'
  | point _ => exact absurd rfl hpoint
  | minus _ => exact tight_cons (by decide) (by decide) rest'
  | operator op => cases op <;> exact tight_append (by simp [Token.spelled, BinaryOp.symbol]) rest'

theorem tight_blanks {blanks : List Char} (h : ∀ c ∈ blanks, isSpace c = true)
    (rest : List Char) : tight .outside (blanks ++ rest) = tight .outside rest :=
  tight_append (fun c hc => plain_of_isSpace (h c hc)) rest

theorem Lexeme.point_or_not (h : Lexeme token text rest) :
    token = .symbol '.' ∧ StartsNot isSpace rest ∨ token ≠ .symbol '.' := by
  by_cases hpoint : token = .symbol '.'
  · subst hpoint
    cases h with
    | bracket hmem => exact absurd hmem (by decide)
    | point hspace => exact Or.inl ⟨rfl, hspace⟩
  · exact Or.inr hpoint

theorem Laid.tight_of_rest (h : Laid tokens text rest) (hrest : tight .outside rest = true) :
    tight .outside text = true := by
  induction h with
  | nil => exact hrest
  | @cons token tokens text start mid rest blanks lexeme _ ih =>
    obtain ⟨spaces, hspaces, rfl⟩ := blanks
    rw [tight_blanks hspaces, lexeme.text_eq]
    rcases lexeme.point_or_not with ⟨rfl, hspace⟩ | hpoint
    · rw [Token.spelled, List.singleton_append, tight_point, ih hrest, Bool.and_true]
      exact congrArg not hspace
    · rw [lexeme.tight_eq hpoint, ih hrest]

/-- The text that tokens take, with a blank behind the last one where that is a point. -/
theorem Laid.not_tight (h : Laid tokens text rest) (hlast : tokens.getLast? = some (.symbol '.')) :
    ∃ taken, text = taken ++ rest ∧ ∀ rest' : List Char, rest'.head?.any isSpace = true →
      tight .outside (taken ++ rest') = false := by
  induction h with
  | nil => cases hlast
  | @cons token tokens text start mid rest blanks lexeme hothers ih =>
    obtain ⟨spaces, hspaces, rfl⟩ := blanks
    cases tokens with
    | nil =>
      cases hothers
      cases hlast
      refine ⟨spaces ++ ['.'], by rw [lexeme.text_eq, List.append_assoc]; rfl, ?_⟩
      intro rest' hblank
      rw [List.append_assoc, tight_blanks hspaces, List.singleton_append, tight_point, hblank]
      rfl
    | cons next tokens =>
      rw [List.getLast?_cons_cons] at hlast
      obtain ⟨taken, rfl, hnot⟩ := ih hlast
      refine ⟨spaces ++ (token.spelled ++ taken), by simp [lexeme.text_eq], ?_⟩
      intro rest' hblank
      rw [List.append_assoc, tight_blanks hspaces, List.append_assoc]
      rcases lexeme.point_or_not with ⟨rfl, _⟩ | hpoint
      · rw [Token.spelled, List.singleton_append, tight_point, hnot rest' hblank, Bool.and_false]
      · rw [lexeme.tight_eq hpoint, hnot rest' hblank]

end Scan

section Insertion

variable {tokens : List Token} {text rest rest' : List Char}

theorem Laid.exists_taken (h : Laid tokens text rest) : ∃ taken, text = taken ++ rest := by
  induction h with
  | nil => exact ⟨[], rfl⟩
  | @cons token _ _ _ _ _ blanks lexeme _ ih =>
    obtain ⟨taken, htaken⟩ := ih
    obtain ⟨spaces, _, rfl⟩ := blanks
    exact ⟨spaces ++ (token.spelled ++ taken), by simp [lexeme.text_eq, htaken]⟩

theorem Laid.length_lt (h : Laid tokens text rest) (hne : tokens ≠ []) :
    rest.length < text.length := by
  induction h with
  | nil => exact absurd rfl hne
  | @cons token tokens text start mid rest blanks lexeme hothers ih =>
    have hstart := lexeme.length_lt
    have hle : rest.length ≤ mid.length := by
      cases tokens with
      | nil =>
        cases hothers
        exact Nat.le_refl _
      | cons => exact Nat.le_of_lt (ih (List.cons_ne_nil _ _))
    obtain ⟨spaces, _, rfl⟩ := blanks
    rw [List.length_append]
    omega

/-- The text that tokens take is cut into them before any text that begins with a blank, unless
the last one is a point. -/
theorem Laid.before (h : Laid tokens text rest) (hlast : tokens.getLast? ≠ some (.symbol '.')) :
    ∃ taken, text = taken ++ rest ∧ ∀ rest' : List Char, rest'.head?.any isSpace = true →
      Laid tokens (taken ++ rest') rest' := by
  induction h with
  | nil => exact ⟨[], rfl, fun _ _ => .nil⟩
  | @cons token tokens text start mid rest blanks lexeme hothers ih =>
    obtain ⟨spaces, hspaces, rfl⟩ := blanks
    cases tokens with
    | nil =>
      cases hothers
      refine ⟨spaces ++ token.spelled, by rw [lexeme.text_eq, List.append_assoc], ?_⟩
      intro rest' hblank
      have hpoint : token ≠ .symbol '.' := fun heq => hlast (congrArg some heq)
      rw [List.append_assoc]
      exact .cons ⟨spaces, hspaces, rfl⟩ (lexeme.before (Or.inr ⟨hpoint, hblank⟩)) .nil
    | cons next tokens =>
      rw [List.getLast?_cons_cons] at hlast
      obtain ⟨taken, rfl, hlaid⟩ := ih hlast
      refine ⟨spaces ++ (token.spelled ++ taken), by simp [lexeme.text_eq], ?_⟩
      intro rest' hblank
      -- more tokens follow, so the character behind this one stays
      have hhead : (taken ++ rest').head? = (taken ++ rest).head? := by
        have hlength := hothers.length_lt (List.cons_ne_nil _ _)
        cases taken with
        | nil => exact absurd hlength (Nat.lt_irrefl _)
        | cons c taken => rfl
      rw [List.append_assoc, List.append_assoc]
      exact .cons ⟨spaces, hspaces, rfl⟩ (lexeme.before (Or.inl hhead)) (hlaid rest' hblank)

theorem Laid.afterBlanks {blanks : List Char} (hblanks : ∀ c ∈ blanks, isSpace c = true)
    (h : Laid tokens text rest) (hne : tokens ≠ []) : Laid tokens (blanks ++ text) rest := by
  cases h with
  | nil => exact absurd rfl hne
  | cons blanks' lexeme hothers =>
    exact .cons (afterBlanks_append hblanks blanks') lexeme hothers

end Insertion

def Sentence.tokens {source : String} (sentence : Sentence source) : List Token :=
  sentence.derivation.tokens

/-- A place between two tokens of a sentence: what comes before it, what comes after it, and on
either side the tokens. There may be blanks to the left of it and to the right. -/
structure Sentence.Gap {source : String} (sentence : Sentence source) where
  left : List Token
  right : List Token
  tokens_eq : sentence.tokens = left ++ right
  left_ne_nil : left ≠ []
  right_ne_nil : right ≠ []
  before : List Char
  after : List Char
  source_eq : source.toList = before ++ after
  blanks : List Char
  blank : ∀ c ∈ blanks, isSpace c = true
  laid_left : Laid left source.toList (blanks ++ after)
  laid_right : Laid right after sentence.rest

/-- The text with more blanks in the gap. -/
def Sentence.Gap.widened {source : String} {sentence : Sentence source} (gap : sentence.Gap)
    (inserted : List Char) : String :=
  String.ofList (gap.before ++ (inserted ++ gap.after))

namespace Sentence

variable {source : String} {e : Expression}

theorem parse (sentence : Sentence source) : parseExpression source = .ok sentence.value := by
  refine parseExpression_eq_ok.mpr ⟨sentence.rest, ?_, sentence.blanks⟩
  rw [expression_eq]
  exact sentence.derivation.read (stops_of_blanks sentence.blanks 1)

theorem exists_of_parse (h : parseExpression source = .ok e) :
    ∃ sentence : Sentence source, sentence.value = e := by
  obtain ⟨rest, hread, hblanks⟩ := parseExpression_eq_ok.mp h
  obtain ⟨d, hvalue⟩ := sound_expression hread
  exact ⟨⟨rest, d, hblanks⟩, hvalue⟩

theorem laid (sentence : Sentence source) :
    Laid sentence.tokens source.toList sentence.rest :=
  sentence.derivation.laid

theorem tight (sentence : Sentence source) : Grammar.tight .outside source.toList = true := by
  refine sentence.laid.tight_of_rest ?_
  have hrest := tight_blanks sentence.blanks []
  rw [List.append_nil] at hrest
  rw [hrest, Grammar.tight]

theorem exists_gap (sentence : Sentence source) {left right : List Token}
    (h : sentence.tokens = left ++ right) (hleft : left ≠ []) (hright : right ≠ []) :
    ∃ gap : sentence.Gap, gap.left = left ∧ gap.right = right := by
  have hlaid := sentence.laid
  rw [h] at hlaid
  obtain ⟨after, hfront, hback⟩ := hlaid.of_append
  obtain ⟨before, hbefore⟩ := hfront.exists_taken
  exact ⟨⟨left, right, h, hleft, hright, before, after, hbefore, [], (fun _ hc => nomatch hc),
    hfront, hback⟩, rfl, rfl⟩

namespace Gap

variable {sentence : Sentence source} (gap : sentence.Gap) {inserted : List Char}

theorem widened_eq {taken : List Char} (h : source.toList = taken ++ (gap.blanks ++ gap.after)) :
    (gap.widened inserted).toList = taken ++ (gap.blanks ++ inserted ++ gap.after) := by
  have hbefore : gap.before ++ gap.after = (taken ++ gap.blanks) ++ gap.after := by
    rw [← gap.source_eq, h, List.append_assoc]
  rw [widened, String.toList_ofList, List.append_cancel_right hbefore]
  simp only [List.append_assoc]

variable (hblank : ∀ c ∈ inserted, isSpace c = true) (hne : inserted ≠ [])
include hblank

theorem blank_all : ∀ c ∈ gap.blanks ++ inserted, isSpace c = true :=
  fun c hc => (List.mem_append.mp hc).elim (gap.blank c) (hblank c)

include hne

theorem begins_blank : (gap.blanks ++ inserted ++ gap.after).head?.any isSpace = true := by
  have hall := gap.blank_all hblank
  obtain ⟨c, cs, hcs⟩ := List.exists_cons_of_ne_nil 
    (List.append_ne_nil_of_right_ne_nil gap.blanks hne)
  rw [hcs] at hall ⊢
  exact hall c List.mem_cons_self

/-- The tokens are the same with more blanks in a gap that has no point before it. -/
theorem laid_widened (hpoint : gap.left.getLast? ≠ some (.symbol '.')) :
    Laid sentence.tokens (gap.widened inserted).toList sentence.rest := by
  obtain ⟨taken, htaken, hlaid⟩ := gap.laid_left.before hpoint
  rw [gap.widened_eq htaken, gap.tokens_eq]
  exact (hlaid _ (gap.begins_blank hblank hne)).append
    (gap.laid_right.afterBlanks (gap.blank_all hblank) gap.right_ne_nil)

theorem not_tight_widened (hpoint : gap.left.getLast? = some (.symbol '.')) :
    Grammar.tight .outside (gap.widened inserted).toList = false := by
  obtain ⟨taken, htaken, hnot⟩ := gap.laid_left.not_tight hpoint
  rw [gap.widened_eq htaken]
  exact hnot _ (gap.begins_blank hblank hne)

end Gap

end Sentence

end Grammar

open Grammar

variable {source : String} {e : Expression}

theorem tight_of_parse (h : parseExpression source = .ok e) :
    tight .outside source.toList = true := by
  obtain ⟨sentence, _⟩ := Sentence.exists_of_parse h
  exact sentence.tight

/-- An accepted text may have more blanks between any two of its tokens and is then accepted as the
same expression, except directly behind the point of a field, where no blank is accepted. -/
theorem parseExpression_blanks (h : parseExpression source = .ok e) :
    ∃ sentence : Sentence source, sentence.value = e ∧
      (∀ left right, sentence.tokens = left ++ right → left ≠ [] → right ≠ [] →
        ∃ gap : sentence.Gap, gap.left = left ∧ gap.right = right) ∧
      ∀ (gap : sentence.Gap) (inserted : List Char), (∀ c ∈ inserted, Reader.isSpace c = true) →
        inserted ≠ [] →
        (gap.left.getLast? ≠ some (.symbol '.') →
          parseExpression (gap.widened inserted) = .ok e) ∧
        (gap.left.getLast? = some (.symbol '.') →
          ∃ error, parseExpression (gap.widened inserted) = .error error) := by
  obtain ⟨sentence, rfl⟩ := Sentence.exists_of_parse h
  refine ⟨sentence, rfl, fun left right => sentence.exists_gap, ?_⟩
  intro gap inserted hblank hne
  constructor
  · intro hpoint
    obtain ⟨d, hvalue⟩ := sentence.derivation.relaid (gap.laid_widened hblank hne hpoint)
    have hparse := Sentence.parse ⟨sentence.rest, d, sentence.blanks⟩
    rwa [Sentence.value, hvalue] at hparse
  · intro hpoint
    cases hparse : parseExpression (gap.widened inserted) with
    | error error => exact ⟨error, rfl⟩
    | ok e' =>
      have htight := tight_of_parse hparse
      rw [gap.not_tight_widened hblank hne hpoint] at htight
      cases htight

/-- A suffixed expression without prefixes and operators around it. -/
def Grammar.Derivation.alone {text rest : List Char} (d : Derivation (.expression 8) text rest) :
    Derivation (.expression 1) text rest :=
  let level (n : Nat) (low : 1 ≤ n) (high : n ≤ 6) (d : Derivation (.expression (n + 1)) text rest) :
      Derivation (.expression n) text rest := .operators low high d .noOperation
  level 1 (by decide) (by decide) <| level 2 (by decide) (by decide) <|
    level 3 (by decide) (by decide) <| level 4 (by decide) (by decide) <|
    level 5 (by decide) (by decide) <| level 6 (by decide) (by decide) <| .unprefixed d

/-- A field of a name. -/
def fieldSentence : Sentence "a.b" where
  rest := []
  derivation := Derivation.alone <| .suffixed
    (.name ['a'] (afterBlanks_refl _) ⟨rfl, by decide, startsNot_cons.mpr (by decide)⟩)
    (.field (afterBlanks_refl _) ['b'] ⟨rfl, by decide, rfl⟩ .noSuffix :
      Derivation .suffixes ['.', 'b'] [])
  blanks := fun _ hc => nomatch hc

/-- The gap before the point. -/
def fieldGap : fieldSentence.Gap where
  left := [.name ['a']]
  right := [.symbol '.', .name ['b']]
  tokens_eq := rfl
  left_ne_nil := List.cons_ne_nil _ _
  right_ne_nil := List.cons_ne_nil _ _
  before := ['a']
  after := ['.', 'b']
  source_eq := rfl
  blanks := []
  blank := fun _ hc => nomatch hc
  laid_left := .cons (afterBlanks_refl _)
    (.name (.plain ⟨rfl, by decide, startsNot_cons.mpr (by decide)⟩)) .nil
  laid_right := .cons (afterBlanks_refl _) (.point (startsNot_cons.mpr (by decide)))
    (.cons (afterBlanks_refl _) (.name (.plain ⟨rfl, by decide, rfl⟩)) .nil)

/-- A blank before the point of a field makes no difference. -/
theorem parseExpression_blank_before_point :
    parseExpression "a .b" = .ok (.field (.name "a") "b") := by
  obtain ⟨sentence, _, _, hgap⟩ := parseExpression_blanks fieldSentence.parse
  obtain rfl : fieldSentence = sentence := Sentence.unique _ _
  have hwidened := hgap fieldGap [' '] (List.forall_mem_singleton.mpr rfl) (List.cons_ne_nil _ _)
  exact hwidened.1 (by decide)

/-- A blank behind the point of a field is not accepted. -/
theorem parseExpression_blank_behind_point :
    parseExpression "a.b" = .ok (.field (.name "a") "b") ∧
      ∃ error, parseExpression "a. b" = .error error := by
  refine ⟨fieldSentence.parse, ?_⟩
  cases hparse : parseExpression "a. b" with
  | error error => exact ⟨error, rfl⟩
  | ok e => exact absurd (tight_of_parse hparse) (by decide)

end ProgramTree
