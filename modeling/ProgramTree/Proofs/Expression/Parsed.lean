import ProgramTree.Proofs.Grammar.Leaves
import ProgramTree.Proofs.Grammar.Unambiguous
import ProgramTree.Proofs.Payload

/-! # Expressions that texts give

The names that are read are well formed, and a number literal never reads as a
NaN. So the only fault that an expression from a text can have is a float
literal that is too large for a finite value. Where there is none, the
expression is read back from its own text. -/

namespace ProgramTree

set_option autoImplicit false

theorem Binary64.ofDecimal_ne_nan (negative : Bool) (digits : Nat) (exponent : Int) :
    Binary64.ofDecimal negative digits exponent ≠ .nan := by
  simp only [ofDecimal, ofRatio, zero]
  repeat' split
  all_goals
    intro hvalue
    cases hvalue

namespace Expression

mutual

/-- The float literals of an expression, in the order of its text. -/
def floats : Expression → List Binary64
  | .name _ => []
  | .literal (.float value) => [value]
  | .literal _ => []
  | .unary _ operand => operand.floats
  | .binary _ lhs rhs => lhs.floats ++ rhs.floats
  | .call _ args => floatsAll args
  | .field target _ => target.floats
  | .index target position => target.floats ++ position.floats

def floatsAll : List Expression → List Binary64
  | [] => []
  | e :: es => e.floats ++ floatsAll es

end

end Expression

section Checks

/-- The check of a float literal. -/
def checkFinite (kind : NodeKind) (field : String) (value : Binary64) :
    Except MalformedNode Unit :=
  if value.isFinite then .ok () else .error (.invalidField kind field (.nonFiniteFloat value))

theorem checkEach_append {α : Type} (check : α → Except MalformedNode Unit) (as bs : List α) :
    checkEach check (as ++ bs) = (do checkEach check as; checkEach check bs) := by
  induction as with
  | nil => rfl
  | cons a as ih =>
    rw [List.cons_append, checkEach, ih, checkEach]
    cases check a with
    | error e => rfl
    | ok => rfl

/-- Of several floats that are not finite the leftmost is reported. -/
theorem checkEach_checkFinite (kind : NodeKind) (field : String) (values : List Binary64) :
    checkEach (checkFinite kind field) values =
      match values.find? fun value => !value.isFinite with
      | none => .ok ()
      | some value => .error (.invalidField kind field (.nonFiniteFloat value)) := by
  induction values with
  | nil => rfl
  | cons value values ih =>
    rw [checkEach, List.find?_cons, ih, checkFinite]
    cases value.isFinite with
    | true => rfl
    | false => rfl

end Checks

/-- An expression whose only faults are in its floats, and whose floats are numbers. -/
structure Expression.WellNamed (e : Expression) : Prop where
  validate : ∀ kind field, e.validate kind field = checkEach (checkFinite kind field) e.floats
  numbers : ∀ value ∈ e.floats, value ≠ .nan

structure Expression.AllWellNamed (es : List Expression) : Prop where
  validate : ∀ kind field,
    validateAll kind field es = checkEach (checkFinite kind field) (floatsAll es)
  numbers : ∀ value ∈ floatsAll es, value ≠ .nan

namespace Expression

variable {e e' : Expression} {es : List Expression}

theorem WellNamed.unary (op : UnaryOp) (h : e.WellNamed) : (unary op e).WellNamed :=
  ⟨h.validate, h.numbers⟩

theorem WellNamed.binary (op : BinaryOp) (h : e.WellNamed) (h' : e'.WellNamed) :
    (binary op e e').WellNamed where
  validate kind field := by
    rw [Expression.validate, floats, checkEach_append, h.validate, h'.validate]
  numbers value hvalue := by
    rw [floats] at hvalue
    exact (List.mem_append.mp hvalue).elim (h.numbers value) (h'.numbers value)

theorem WellNamed.index (h : e.WellNamed) (h' : e'.WellNamed) : (index e e').WellNamed where
  validate kind field := by
    rw [Expression.validate, floats, checkEach_append, h.validate, h'.validate]
  numbers value hvalue := by
    rw [floats] at hvalue
    exact (List.mem_append.mp hvalue).elim (h.numbers value) (h'.numbers value)

theorem WellNamed.field {n : String} (h : e.WellNamed)
    (hn : Name.isIdentifier n.toList = true) : (field e n).WellNamed where
  validate kind field := by
    rw [Expression.validate, floats, h.validate, checkName_eq_ok.mpr hn]
    cases checkEach (checkFinite kind field) e.floats with
    | error e => rfl
    | ok => rfl
  numbers := h.numbers

theorem WellNamed.name {n : String} (hn : Name.isIdentifier n.toList = true) :
    (name n).WellNamed where
  validate kind field := by
    rw [Expression.validate, checkName_eq_ok.mpr hn]
    rfl
  numbers := List.forall_mem_nil _

theorem WellNamed.call {target : String} (htarget : Name.isQualified target.toList = true)
    (h : AllWellNamed es) : (call target es).WellNamed where
  validate kind field := by
    rw [Expression.validate, checkName_eq_ok.mpr htarget]
    exact h.validate kind field
  numbers := h.numbers

theorem AllWellNamed.nil : AllWellNamed [] where
  validate _ _ := rfl
  numbers := List.forall_mem_nil _

theorem AllWellNamed.cons (h : e.WellNamed) (h' : AllWellNamed es) : AllWellNamed (e :: es) where
  validate kind field := by
    rw [validateAll, floatsAll, checkEach_append, h.validate, h'.validate]
  numbers value hvalue := by
    rw [floatsAll] at hvalue
    exact (List.mem_append.mp hvalue).elim (h.numbers value) (h'.numbers value)

/-- The checks of an expression whose only faults are in its floats come down to the floats. -/
theorem WellNamed.validate_eq_ok (h : e.WellNamed)
    (hfinite : ∀ value ∈ e.floats, value.isFinite = true) (kind : NodeKind) (field : String) :
    e.validate kind field = .ok () := by
  rw [h.validate, checkEach_eq_ok]
  intro value hvalue
  rw [checkFinite, if_pos (hfinite value hvalue)]

end Expression

section Floats

variable {kind : NodeKind} {field : String} {fault : MalformedNode}

theorem checkFinite_eq_error {value : Binary64} (hnumber : value ≠ .nan)
    (h : checkFinite kind field value = .error fault) : ∃ negative, value = .infinity negative ∧
      fault = .invalidField kind field (.nonFiniteFloat (.infinity negative)) := by
  unfold checkFinite at h
  cases value with
  | nan => exact absurd rfl hnumber
  | infinity negative =>
    cases h
    exact ⟨negative, rfl, rfl⟩
  | finite => cases h

namespace Expression

theorem floatsAll_eq (es : List Expression) : floatsAll es = es.flatMap floats := by
  induction es with
  | nil => rfl
  | cons e es ih => rw [floatsAll, ih, List.flatMap_cons]

theorem validateAll_eq (es : List Expression) :
    validateAll kind field es = checkEach (validate kind field) es := by
  induction es with
  | nil => rfl
  | cons e es ih => rw [validateAll, ih, checkEach]

theorem WellNamed.infinite_of_error {e : Expression} (h : e.WellNamed)
    (hfault : e.validate kind field = .error fault) : ∃ negative, .infinity negative ∈ e.floats ∧
      fault = .invalidField kind field (.nonFiniteFloat (.infinity negative)) := by
  rw [h.validate] at hfault
  obtain ⟨value, hmem, hvalue⟩ := checkEach_eq_error hfault
  obtain ⟨negative, rfl, rfl⟩ := checkFinite_eq_error (h.numbers value hmem) hvalue
  exact ⟨negative, hmem, rfl⟩

theorem AllWellNamed.infinite_of_error {es : List Expression} (h : AllWellNamed es)
    (hfault : checkEach (Expression.validate kind field) es = .error fault) : ∃ e ∈ es, ∃ negative,
      .infinity negative ∈ e.floats ∧
        fault = .invalidField kind field (.nonFiniteFloat (.infinity negative)) := by
  rw [← validateAll_eq, h.validate] at hfault
  obtain ⟨value, hmem, hvalue⟩ := checkEach_eq_error hfault
  obtain ⟨negative, rfl, rfl⟩ := checkFinite_eq_error (h.numbers value hmem) hvalue
  rw [floatsAll_eq] at hmem
  obtain ⟨e, he, hmem⟩ := List.mem_flatMap.mp hmem
  exact ⟨e, he, negative, hmem, rfl⟩

mutual

/-- No expression passes its checks with a float in it that is not finite. -/
theorem finite_of_validate : (e : Expression) → e.validate kind field = .ok () →
    ∀ value ∈ e.floats, value.isFinite = true
  | .name _, _ => List.forall_mem_nil _
  | .literal value, h => by
    cases value with
    | float value =>
      intro other hother
      rw [List.mem_singleton.mp hother]
      cases hfinite : value.isFinite with
      | true => rfl
      | false => rw [validate, hfinite] at h; cases h
    | _ => exact List.forall_mem_nil _
  | .unary _ operand, h => finite_of_validate operand h
  | .binary _ lhs rhs, h =>
    have hboth := seq_eq_ok.mp h
    List.forall_mem_append.mpr
      ⟨finite_of_validate lhs hboth.1, finite_of_validate rhs hboth.2⟩
  | .call _ args, h => finite_of_validateAll args (seq_eq_ok.mp h).2
  | .field target _, h => finite_of_validate target (seq_eq_ok.mp h).1
  | .index target position, h =>
    have hboth := seq_eq_ok.mp h
    List.forall_mem_append.mpr
      ⟨finite_of_validate target hboth.1, finite_of_validate position hboth.2⟩

theorem finite_of_validateAll : (es : List Expression) → validateAll kind field es = .ok () →
    ∀ value ∈ floatsAll es, value.isFinite = true
  | [], _ => List.forall_mem_nil _
  | e :: es, h =>
    have hboth := seq_eq_ok.mp h
    List.forall_mem_append.mpr
      ⟨finite_of_validate e hboth.1, finite_of_validateAll es hboth.2⟩

end

end Expression

end Floats

namespace Grammar

theorem Qualified.isQualified {name text rest : List Char} (h : Qualified name text rest) :
    Name.isQualified name = true := by
  cases h with
  | plain h => exact Reader.isQualified_of_isIdentifier h.isIdentifier
  | @inPackage package name _ _ _ hpackage hname =>
    have hcolon : ∀ c ∈ package, (c != ':') = true := by
      intro c hc
      rw [bne_iff_ne]
      rintro rfl
      have hword := Reader.isWordChar_of_isIdentifier hpackage.isIdentifier ':' hc
      rw [Reader.isWordChar_colon] at hword
      cases hword
    have hends : StartsNot (· != ':') (':' :: name) := startsNot_cons.mpr rfl
    rw [Name.isQualified, dropWhile_run hcolon hends, takeWhile_run hcolon hends]
    simp only [hpackage.isIdentifier, hname.isIdentifier, Bool.and_self]

theorem LiteralText.wellNamed {value : Literal} {start rest : List Char}
    (h : LiteralText value start rest) : (Expression.literal value).WellNamed := by
  have hplain : (∀ number, value ≠ .float number) → (Expression.literal value).WellNamed := by
    intro hfloat
    cases value with
    | float number => exact absurd rfl (hfloat number)
    | _ => exact ⟨fun _ _ => rfl, List.forall_mem_nil _⟩
  cases h with
  | number hnumber =>
    cases hnumber with
    | integer => exact hplain (by rintro _ ⟨⟩)
    | float =>
      refine ⟨fun kind field => ?_, fun number hmem => ?_⟩
      · rw [Expression.validate, Expression.floats, checkEach, checkEach, checkFinite]
        split
        · rfl
        · rfl
      · rw [Expression.floats, List.mem_singleton] at hmem
        rw [hmem]
        exact Binary64.ofDecimal_ne_nan _ _ _
  | string => exact hplain (by rintro _ ⟨⟩)
  | word hmem =>
    refine hplain fun number hvalue => ?_
    subst hvalue
    simp at hmem

/-- What it means for a phrase of a kind that its expressions are well named. -/
def Category.WellNamed : (category : Category) → category.Meaning → Prop
  | expression _, e => e.WellNamed
  | operations _, others => ∀ operation ∈ others, operation.2.WellNamed
  | suffixes, others => ∀ suffix ∈ others, ∀ target : Expression, target.WellNamed →
      (suffix.apply target).WellNamed
  | arguments, es => Expression.AllWellNamed es
  | moreArguments, es => Expression.AllWellNamed es

theorem wellNamed_groupLeft {first : Expression} {others : List (BinaryOp × Expression)}
    (h : first.WellNamed) (h' : ∀ operation ∈ others, operation.2.WellNamed) :
    (Derivation.groupLeft first others).WellNamed := by
  induction others generalizing first with
  | nil => exact h
  | cons operation others ih =>
    obtain ⟨hrhs, hothers⟩ := List.forall_mem_cons.mp h'
    exact ih (h.binary operation.1 hrhs) hothers

theorem wellNamed_foldl {target : Expression} {others : List Reader.Suffix}
    (h : target.WellNamed) (h' : ∀ suffix ∈ others, ∀ target : Expression, target.WellNamed →
      (suffix.apply target).WellNamed) : (others.foldl Reader.Suffix.apply target).WellNamed := by
  induction others generalizing target with
  | nil => exact h
  | cons suffix others ih =>
    obtain ⟨hsuffix, hothers⟩ := List.forall_mem_cons.mp h'
    exact ih (hsuffix target h) hothers

/-- Whatever a derivation derives is well named. -/
theorem Derivation.wellNamed {category : Category} {text rest : List Char}
    (d : Derivation category text rest) : category.WellNamed d.value := by
  have hname : ∀ {spelled start rest : List Char}, Identifier spelled start rest →
      Name.isIdentifier (String.ofList spelled).toList = true := by
    intro spelled start rest h
    rw [String.toList_ofList]
    exact h.isIdentifier
  induction d with
  | operators _ _ _ _ ihFirst ihOthers => exact wellNamed_groupLeft ihFirst ihOthers
  | noOperation => exact List.forall_mem_nil _
  | operation _ _ _ _ _ ihRhs ihOthers => exact List.forall_mem_cons.mpr ⟨ihRhs, ihOthers⟩
  | not _ _ ih => exact ih.unary .not
  | neg _ _ _ ih => exact ih.unary .neg
  | unprefixed _ ih => exact ih
  | suffixed _ _ ihTarget ihOthers => exact wellNamed_foldl ihTarget ihOthers
  | noSuffix => exact List.forall_mem_nil _
  | field _ _ identifier _ ihOthers =>
    exact List.forall_mem_cons.mpr ⟨fun _ htarget => htarget.field (hname identifier), ihOthers⟩
  | index _ _ _ _ ihPosition ihOthers =>
    exact List.forall_mem_cons.mpr ⟨fun _ htarget => htarget.index ihPosition, ihOthers⟩
  | parentheses _ _ _ ih => exact ih
  | literal _ _ literal => exact literal.wellNamed
  | name _ _ identifier => exact .name (hname identifier)
  | call _ _ qualified _ _ _ ih =>
    refine .call ?_ ih
    rw [String.toList_ofList]
    exact qualified.isQualified
  | noArguments => exact .nil
  | arguments _ _ ihFirst ihOthers => exact .cons ihFirst ihOthers
  | noMore => exact .nil
  | more _ _ _ ihNext ihOthers => exact .cons ihNext ihOthers

end Grammar

section Parsed

variable {source : String} {e : Expression}

theorem wellNamed_of_parse (h : parseExpression source = .ok e) : e.WellNamed := by
  obtain ⟨rest, hread, _⟩ := Grammar.parseExpression_eq_ok.mp h
  obtain ⟨d, rfl⟩ := Grammar.sound_expression hread
  exact d.wellNamed

/-- An expression from a text has no fault but a float literal that is too large: the checks of any
field refuse it for the leftmost of these, and where there is none, the expression passes the
checks and is read back from its own text. -/
theorem parseExpression_sound (h : parseExpression source = .ok e) :
    (∀ kind field, e.validate kind field =
      match e.floats.find? fun value => !value.isFinite with
      | none => .ok ()
      | some value => .error (.invalidField kind field (.nonFiniteFloat value))) ∧
    (∀ value ∈ e.floats, value ≠ .nan) ∧
    ((∀ value ∈ e.floats, value.isFinite = true) →
      (∀ kind field, e.validate kind field = .ok ()) ∧
      parseExpression e.text = .ok e ∧ e.agrees e = true) := by
  have hnamed := wellNamed_of_parse h
  refine ⟨fun kind field => ?_, hnamed.numbers, fun hfinite => ?_⟩
  · rw [hnamed.validate, checkEach_checkFinite]
  · have hvalid := hnamed.validate_eq_ok hfinite
    refine ⟨hvalid, ?_, e.agrees_self (hvalid .returnStatement "values")⟩
    have hread := Expression.expression_text (hvalid .returnStatement "values") (Reader.stops_nil 1)
    rw [List.append_nil] at hread
    exact Grammar.parseExpression_eq_ok.mpr ⟨[], hread, List.forall_mem_nil _⟩

/-- A text without blanks around it that derives an expression gives this expression. -/
theorem parseExpression_of_derives {n : Nat} (h : Derives (.expression n e) source.toList [])
    (hlow : 1 ≤ n) (hhigh : n ≤ 9) : parseExpression source = .ok e := by
  have hread := (h.loosenTo (Nat.le_refl 1) hlow hhigh).read (Reader.stops_nil 1)
  exact Grammar.parseExpression_eq_ok.mpr ⟨[], hread, List.forall_mem_nil _⟩

/-- A number with parentheses around it and more digits than it needs. -/
theorem parseExpression_sound_parenthesized :
    ∃ e, parseExpression "( -2.50)" = .ok e ∧ e.floats = [Numeral.value ⟨true, ['2'], ['5', '0'], 0⟩] ∧
      e.validate .returnStatement "values" = .ok () ∧ parseExpression e.text = .ok e := by
  have hnumber : Derives (.expression 9
      (.literal (.float (Numeral.value ⟨true, ['2'], ['5', '0'], 0⟩)))) " -2.50)".toList [')'] :=
    .number rfl
  have hinner := hnumber.loosenTo (Nat.le_refl 1) (by decide) (by decide)
  have hparse : parseExpression "( -2.50)" = .ok _ :=
    parseExpression_of_derives (.parentheses rfl hinner rfl) (by decide) (by decide)
  obtain ⟨hvalid, hagain, _⟩ := (parseExpression_sound hparse).2.2 (by decide +kernel)
  exact ⟨_, hparse, rfl, hvalid _ _, hagain⟩

/-- A number that is too large reads as infinite. No field takes it, and its text is a name. -/
theorem parseExpression_infinite :
    parseExpression "1e999" = .ok (.literal (.float (.infinity false))) ∧
    (Expression.literal (.float (.infinity false))).validate .returnStatement "values" =
      .error (.invalidField .returnStatement "values" (.nonFiniteFloat (.infinity false))) ∧
    (Expression.literal (.float (.infinity false))).text = "inf" ∧
    parseExpression "inf" = .ok (.name "inf") :=
  ⟨parseExpression_of_derives (.number rfl) (by decide) (by decide), rfl, rfl,
    parseExpression_of_derives (.name (by rfl)) (by decide) (by decide)⟩

end Parsed

end ProgramTree
