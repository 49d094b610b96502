import ProgramTree.Proofs.Expression.Parsed

/-! # No parentheses without need

An operand is put in parentheses because without them its own operator would no
longer be its: an operator or a suffix behind it takes the right end of the
operand, and an operator or a prefix before it takes the left end. Both ends are
followed down to the place where they are taken, which leaves the loose operator
of the operand as the outermost one. So the text without the parentheses is still
read, but as another expression.

Where a minus has an operand that begins with a number the parentheses have
another reason, and nothing is said. -/

namespace ProgramTree

set_option autoImplicit false

open Reader

section Behind

variable {tail rest : List Char} {level : Nat} {kind : NodeKind} {field : String}

/-- What comes behind an expression of the level makes a larger one of the level. -/
def Extends (level : Nat) (tail rest : List Char) : Prop :=
  ∀ {e : Expression} {text : List Char}, Derives (.expression level e) text tail →
    ∃ e', Derives (.expression level e') text rest

theorem exists_binary (op : BinaryOp) {a b : Expression} (hvalid : a.validate kind field = .ok ())
    (h : ∃ b', Derives (.expression (op.precedence + 1) b')
      ((parenthesized (b.precedence ≤ op.precedence) b.text).toList ++ tail) rest) :
    ∃ b', Derives (.expression op.precedence (.binary op a b'))
      ((Expression.binary op a b).text.toList ++ tail) rest := by
  obtain ⟨b', hb⟩ := h
  rw [toList_text_binary]
  exact ⟨b', .binary (derives_lhs op (derives_text a hvalid) _) (skipSpaces_operator op _) hb.space⟩

theorem exists_unary (op : UnaryOp) {e : Expression} (hvalid : e.validate kind field = .ok ())
    (h : ∃ e', Derives (.expression 7 e')
      ((parenthesized (op == .neg && e.startsWithNumber || decide (e.precedence < 7)) e.text).toList
        ++ tail) rest) :
    ∃ e', Derives (.expression 7 (.unary op e')) ((Expression.unary op e).text.toList ++ tail)
      rest := by
  obtain ⟨e', he⟩ := h
  rw [Expression.text, String.toList_append, List.append_assoc]
  cases op with
  | not => exact ⟨e', .not (skipSpaces_of_startsNot (startsNot_cons.mpr rfl)) he⟩
  | neg =>
    exact ⟨e', .neg (skipSpaces_of_startsNot (startsNot_cons.mpr rfl))
      (startsNot_digit_operand hvalid) he⟩

/-- An operand with such an extension behind it is an expression of its own level, or of that of
the extension if this is looser. -/
theorem exists_extended (hextends : Extends level tail rest) (hedge : Edge tail) (hlow : 1 ≤ level)
    (hhigh : level ≤ 8) {e : Expression} (hvalid : e.validate kind field = .ok ()) {n : Nat}
    (hn : 1 ≤ n) (hle : n ≤ level) {needed : Bool} (hneeded : needed = false → n ≤ e.precedence) :
    ∃ e', Derives (.expression n e') ((parenthesized needed e.text).toList ++ tail) rest := by
  -- Down the right side of the operand, as long as it is looser than what comes behind it.
  have htight : ∀ {e : Expression} {n : Nat} {needed : Bool}, e.validate kind field = .ok () →
      1 ≤ n → n ≤ level → (needed = false → level ≤ e.precedence) →
      ∃ e', Derives (.expression n e') ((parenthesized needed e.text).toList ++ tail) rest := by
    intro e n needed hvalid hn hle hneeded
    have he := derives_operand (derives_text e hvalid) needed hlow (by omega) hneeded hedge
    obtain ⟨e', he'⟩ := hextends he
    exact ⟨e', he'.loosenTo hn hle (by omega)⟩
  induction e using Expression.rec (motive_2 := fun _ => True) generalizing n needed with
  | name _ | literal _ | call _ _ _ | field _ _ _ | index _ _ _ _ =>
    exact htight hvalid hn hle fun _ => by
      simp only [Expression.precedence]
      omega
  | unary op e ih =>
    by_cases hloose : needed = false ∧ 7 < level
    · obtain ⟨rfl, hlevel⟩ := hloose
      have he : e.validate kind field = .ok () := hvalid
      obtain ⟨e', he'⟩ := exists_unary op he <|
        ih he (by decide) (by omega) fun hfalse => by
          simp only [Bool.or_eq_false_iff, decide_eq_false_iff_not] at hfalse
          omega
      exact ⟨_, he'.loosenTo hn (hneeded rfl) (by decide)⟩
    · refine htight hvalid hn hle fun hfalse => ?_
      simp only [hfalse, true_and] at hloose
      simp only [Expression.precedence]
      omega
  | binary op a b _ ih =>
    by_cases hloose : needed = false ∧ op.precedence < level
    · obtain ⟨rfl, hlevel⟩ := hloose
      obtain ⟨ha, hb⟩ := seq_eq_ok.mp hvalid
      obtain ⟨b', hb'⟩ := exists_binary op ha <| ih hb (by omega) (by omega) fun hfalse =>
        Nat.lt_of_not_le (of_decide_eq_false hfalse)
      have hle' := (Reader.precedence_bounds op).2
      exact ⟨_, hb'.loosenTo hn (hneeded rfl) (by omega)⟩
    · refine htight hvalid hn hle fun hfalse => ?_
      simp only [hfalse, true_and] at hloose
      simp only [Expression.precedence]
      omega
  | nil => trivial
  | cons => trivial

/-- A looser operand keeps its operator and its left side. -/
theorem exists_same_left (hextends : Extends level tail rest) (hedge : Edge tail) (hlow : 1 ≤ level)
    (hhigh : level ≤ 8) {e : Expression} (hvalid : e.validate kind field = .ok ())
    (hloose : e.precedence < level) :
    ∃ e', Derives (.expression e.precedence e') (e.text.toList ++ tail) rest ∧
      ((∃ op a b b', e = .binary op a b ∧ e' = .binary op a b') ∨
        ∃ op a a', e = .unary op a ∧ e' = .unary op a') := by
  cases e with
  | name _ | literal _ | call _ _ | field _ _ | index _ _ =>
    simp only [Expression.precedence] at hloose
    omega
  | unary op a =>
    have ha : a.validate kind field = .ok () := hvalid
    obtain ⟨a', ha'⟩ := exists_unary op ha <|
      exists_extended (n := 7) hextends hedge hlow hhigh ha (by decide) (Nat.le_of_lt hloose)
        fun hfalse => by
          simp only [Bool.or_eq_false_iff, decide_eq_false_iff_not] at hfalse
          omega
    exact ⟨_, ha', .inr ⟨op, a, a', rfl, rfl⟩⟩
  | binary op a b =>
    obtain ⟨ha, hb⟩ := seq_eq_ok.mp hvalid
    obtain ⟨b', hb'⟩ := exists_binary op ha <|
      exists_extended hextends hedge hlow hhigh hb (by omega) hloose fun hfalse =>
        Nat.lt_of_not_le (of_decide_eq_false hfalse)
    exact ⟨_, hb', .inl ⟨op, a, b, b', rfl, rfl⟩⟩

theorem extends_operator (op : BinaryOp) {rhs : Expression}
    (hvalid : rhs.validate kind field = .ok ()) :
    Extends op.precedence (' ' :: (op.symbol.toList ++ ' ' ::
      (parenthesized (rhs.precedence ≤ op.precedence) rhs.text).toList)) [] := by
  intro e text h
  have hrhs := derives_rhs op (derives_text rhs hvalid) (stops_nil 1).edge
  rw [List.append_nil] at hrhs
  exact ⟨_, .binary h (skipSpaces_operator op _) hrhs.space⟩

theorem extends_field {name : String} (hname : Name.isIdentifier name.toList = true) :
    Extends 8 ('.' :: name.toList) [] := by
  intro e text h
  have hread : identifier (name.toList ++ []) = .ok name.toList [] :=
    identifier_run startsNot_nil hname
  rw [List.append_nil] at hread
  exact ⟨_, .field h (skipSpaces_of_startsNot (startsNot_cons.mpr rfl)) hread⟩

theorem extends_index {position : Expression} (hvalid : position.validate kind field = .ok ()) :
    Extends 8 ('[' :: (position.text.toList ++ [']'])) [] := by
  intro e text h
  obtain ⟨hlow, hhigh⟩ := position.precedence_bounds
  have hposition := derives_text position hvalid [']'] (edge_closing rfl)
  exact ⟨_, .index h (skipSpaces_of_startsNot (startsNot_cons.mpr rfl))
    (hposition.loosenTo (Nat.le_refl 1) hlow hhigh) rfl⟩

end Behind

section Before

variable {start text rest : List Char} {level n : Nat} {e : Expression}

/-- What stands before an expression of the next level makes an expression of the level. -/
def Leads (level : Nat) (start : List Char) : Prop :=
  ∀ {e : Expression} {text rest : List Char}, Derives (.expression (level + 1) e) text rest →
    ∃ e', Derives (.expression level e') (start ++ text) rest

/-- It makes an expression of every looser level of one that is as loose. -/
theorem Derives.led (h : Derives (.expression n e) text rest) (hlead : Leads level start)
    (hhigh : level ≤ 6) (hle : n ≤ level) :
    ∃ e', Derives (.expression n e') (start ++ text) rest := by
  generalize hphrase : Phrase.expression n e = phrase at h
  -- Down the left side, where the operators are of the level or looser.
  induction h generalizing n e with
  | loosen hlow _ h ih =>
    cases hphrase
    rcases Nat.eq_or_lt_of_le hle with rfl | hlt
    · exact hlead h
    · obtain ⟨e', he'⟩ := ih hlt rfl
      exact ⟨e', .loosen hlow (by omega) he'⟩
  | binary _ hmid hrhs ihl _ =>
    cases hphrase
    obtain ⟨lhs', hlhs⟩ := ihl hle rfl
    exact ⟨_, .binary hlhs hmid hrhs⟩
  | not | neg | field | index | parentheses | string | number | word | name | call =>
    cases hphrase
    omega
  | noArgument | lastArgument | argument => cases hphrase

/-- A minus touches the number that a text begins with. -/
theorem Derives.minus_digit {d : Char} {tail : List Char} (hd : d.isDigit = true)
    (h : Derives (.expression n e) (d :: tail) rest) (hn : 7 ≤ n) :
    ∃ e', Derives (.expression n e') ('-' :: d :: tail) rest := by
  have hskip : Reader.skipSpaces (d :: tail) = d :: tail :=
    skipSpaces_of_startsNot (startsNot_cons.mpr (isSpace_of_isWordChar (isWordChar_of_isDigit hd)))
  have hstart : ∀ {c : Char} {tail' : List Char}, Reader.skipSpaces (d :: tail) = c :: tail' →
      c.isDigit = true := by
    intro c tail' heq
    rw [hskip] at heq
    cases heq
    exact hd
  have hword : ∀ {c : Char} {tail' : List Char}, Reader.skipSpaces (d :: tail) = c :: tail' →
      Name.isWordStart c = true → False := by
    intro c tail' heq hc
    have hdigit := hstart heq
    rw [isDigit_of_isWordStart hc] at hdigit
    cases hdigit
  generalize hphrase : Phrase.expression n e = phrase at h
  generalize htext : d :: tail = text at h
  induction h generalizing n e with
  | loosen hlow hhigh _ ih =>
    cases hphrase
    obtain ⟨e', he'⟩ := ih (by omega) rfl htext
    exact ⟨e', .loosen hlow hhigh he'⟩
  | @binary op =>
    cases hphrase
    have hle := (Reader.precedence_bounds op).2
    omega
  | field _ hmid hname ih =>
    cases hphrase
    obtain ⟨target', htarget⟩ := ih (by decide) rfl htext
    exact ⟨_, .field htarget hmid hname⟩
  | index _ hmid hposition hlast ih _ =>
    cases hphrase
    obtain ⟨target', htarget⟩ := ih (by decide) rfl htext
    exact ⟨_, .index htarget hmid hposition hlast⟩
  | number hnumber =>
    cases hphrase
    subst htext
    rw [hskip] at hnumber
    obtain ⟨value', hvalue⟩ := Grammar.exists_number?_minus hd hnumber
    have hsign : Reader.skipSpaces ('-' :: d :: tail) = '-' :: d :: tail :=
      skipSpaces_of_startsNot (startsNot_cons.mpr rfl)
    exact ⟨_, .number (hsign ▸ hvalue)⟩
  | not heq | neg heq | parentheses heq | string heq =>
    subst htext
    exact absurd (hstart heq) (by decide)
  | word hvalue =>
    subst htext
    obtain ⟨c, tail', hw, hc⟩ := wordLiteral?_head hvalue
    obtain ⟨_, heq, _⟩ := exists_of_word hw
    exact (hword heq hc).elim
  | name hname =>
    subst htext
    obtain ⟨_, _, heq, hc⟩ := identifier_head hname
    exact (hword heq hc).elim
  | call htarget =>
    subst htext
    obtain ⟨_, _, heq, hc⟩ := qualified_head htarget
    exact (hword heq hc).elim
  | noArgument | lastArgument | argument => cases hphrase

theorem leads_unary (op : UnaryOp) : Leads 6 op.symbol.toList := by
  intro e text rest h
  have hprefixed : ∃ e', Derives (.expression 7 e') (op.symbol.toList ++ text) rest := by
    cases op with
    | not => exact ⟨_, .not (skipSpaces_of_startsNot (startsNot_cons.mpr rfl)) h⟩
    | neg =>
      have hsign : Reader.skipSpaces ('-' :: text) = '-' :: text :=
        skipSpaces_of_startsNot (startsNot_cons.mpr rfl)
      cases text with
      | nil => exact ⟨_, .neg hsign startsNot_nil h⟩
      | cons d tail =>
        cases hd : d.isDigit with
        | true => exact h.minus_digit hd (Nat.le_refl 7)
        | false => exact ⟨_, .neg hsign (startsNot_cons.mpr hd) h⟩
  obtain ⟨e', he'⟩ := hprefixed
  exact ⟨e', .loosen (by decide) (by decide) he'⟩

theorem leads_operator (op : BinaryOp) {lhs : Expression} {kind : NodeKind} {field : String}
    (hvalid : lhs.validate kind field = .ok ()) :
    Leads op.precedence ((parenthesized (lhs.precedence < op.precedence) lhs.text).toList ++
      ' ' :: (op.symbol.toList ++ [' '])) := by
  intro e text rest h
  refine ⟨.binary op lhs e, ?_⟩
  have hlhs := derives_lhs op (derives_text lhs hvalid) text
  simpa using Derives.binary hlhs (skipSpaces_operator op text) h.space

/-- A looser operand keeps its operator and its right side. -/
theorem exists_same_right (hlead : Leads level start) (hhigh : level ≤ 6) {kind : NodeKind}
    {field : String} (hvalid : e.validate kind field = .ok ()) (hloose : e.precedence ≤ level) :
    ∃ op a b a', e = .binary op a b ∧
      Derives (.expression op.precedence (.binary op a' b)) (start ++ e.text.toList) [] := by
  cases e with
  | binary op a b =>
    obtain ⟨ha, hb⟩ := seq_eq_ok.mp hvalid
    obtain ⟨a', ha'⟩ := (derives_lhs op (derives_text a ha) _).led hlead hhigh hloose
    have hrhs := derives_rhs op (derives_text b hb) (stops_nil 1).edge
    refine ⟨op, a, b, a', rfl, ?_⟩
    have htext := toList_text_binary op a b []
    rw [List.append_nil] at htext
    rw [htext]
    exact .binary ha' (skipSpaces_operator op _) hrhs.space
  | _ =>
    simp only [Expression.precedence] at hloose
    omega

end Before

namespace Expression

/-- The number of operators down the right side of an expression. -/
def rightDepth : Expression → Nat
  | binary _ _ rhs => rhs.rightDepth + 1
  | _ => 0

theorem rightDepth_of_alike {test : Literal → Literal → Bool} {e e' : Expression}
    (h : alike test e e' = true) : e.rightDepth = e'.rightDepth := by
  fun_induction rightDepth e generalizing e' with
  | case1 op lhs rhs ih =>
    cases e' with
    | binary op' lhs' rhs' =>
      rw [alike, Bool.and_eq_true] at h
      rw [rightDepth, ih h.2]
    | _ => cases h
  | case2 e hne =>
    cases e' with
    | binary op' lhs' rhs' =>
      cases e with
      | binary op lhs rhs => exact absurd rfl (hne op lhs rhs)
      | _ => cases h
    | _ => rfl

theorem not_alike_right (test : Literal → Literal → Bool) (op : BinaryOp) (a b : Expression) :
    alike test b (.binary op a b) = false := by
  rw [← Bool.not_eq_true]
  intro h
  have hdepth := rightDepth_of_alike h
  rw [rightDepth] at hdepth
  omega

end Expression

/-- The outermost operator of an expression, and what it is applied to but for one operand. -/
inductive Frame
  | prefixed (op : UnaryOp)
  | leftOf (op : BinaryOp) (rhs : Expression)
  | rightOf (op : BinaryOp) (lhs : Expression)
  | fieldOf (name : String)
  | indexOf (position : Expression)

namespace Frame

/-- The expression that has the operand in its place. -/
def plug : Frame → Expression → Expression
  | prefixed op, operand => .unary op operand
  | leftOf op rhs, operand => .binary op operand rhs
  | rightOf op lhs, operand => .binary op lhs operand
  | fieldOf name, operand => .field operand name
  | indexOf position, operand => .index operand position

/-- The text that has the text of an operand in its place. -/
def write : Frame → String → String
  | prefixed op, operand => op.symbol ++ operand
  | leftOf op rhs, operand =>
    operand ++ " " ++ op.symbol ++ " " ++ parenthesized (rhs.precedence ≤ op.precedence) rhs.text
  | rightOf op lhs, operand =>
    parenthesized (lhs.precedence < op.precedence) lhs.text ++ " " ++ op.symbol ++ " " ++ operand
  | fieldOf name, operand => operand ++ "." ++ name
  | indexOf position, operand => operand ++ "[" ++ position.text ++ "]"

/-- Whether a minus would touch a number that the operand begins with. -/
def touches : Frame → Expression → Bool
  | prefixed op, operand => op == .neg && operand.startsWithNumber
  | _, _ => false

/-- The level that an operand without parentheses has at least. -/
def level : Frame → Nat
  | prefixed _ => 7
  | leftOf op _ => op.precedence
  | rightOf op _ => op.precedence + 1
  | fieldOf _ | indexOf _ => 8

variable {f : Frame} {e : Expression}

theorem text_plug (f : Frame) (e : Expression) :
    (f.plug e).text = f.write (parenthesized (f.touches e || e.precedence < f.level) e.text) := by
  cases f with
  | rightOf op lhs =>
    simp only [plug, write, touches, level, Expression.text, Nat.lt_succ_iff, Bool.false_or]
  | _ => rfl

theorem length_write (f : Frame) (operand : String) :
    (f.write operand).length = operand.length + (f.write "").length := by
  cases f <;> simp only [write, String.length_append, String.length_empty] <;> omega

/-- What stands in parentheses is of a looser level, or a number behind a minus. -/
theorem touches_or_loose (h : (f.plug e).text = f.write ("(" ++ e.text ++ ")")) :
    f.touches e = true ∨ e.precedence < f.level := by
  rw [text_plug] at h
  cases hneeded : f.touches e || decide (e.precedence < f.level) with
  | true => simpa using hneeded
  | false =>
    have hlength := congrArg String.length h
    have hopen : "(".length = 1 := rfl
    rw [hneeded, length_write, f.length_write ("(" ++ e.text ++ ")")] at hlength
    simp only [parenthesized, Bool.false_eq_true, if_false, String.length_append, hopen] at hlength
    omega

variable {kind : NodeKind} {field : String}

theorem valid_of_plug (h : (f.plug e).validate kind field = .ok ()) :
    e.validate kind field = .ok () := by
  cases f with
  | prefixed op => exact h
  | leftOf op rhs => exact (seq_eq_ok.mp h).1
  | rightOf op lhs => exact (seq_eq_ok.mp h).2
  | fieldOf name => exact (seq_eq_ok.mp h).1
  | indexOf position => exact (seq_eq_ok.mp h).1

/-- Without parentheses a looser operand leaves an expression with its own operator outermost. -/
theorem exists_derives (hvalid : (f.plug e).validate kind field = .ok ())
    (hloose : e.precedence < f.level) :
    ∃ e', Derives (.expression e.precedence e') (f.write e.text).toList [] ∧
      e'.agrees (f.plug e) = false := by
  have he := valid_of_plug hvalid
  have hspace : " ".toList = [' '] := rfl
  cases f with
  | prefixed op =>
    obtain ⟨op', a, b, a', rfl, h⟩ :=
      exists_same_right (leads_unary op) (Nat.le_refl 6) he (Nat.le_of_lt_succ hloose)
    exact ⟨.binary op' a' b, by rwa [← String.toList_append] at h, rfl⟩
  | rightOf op lhs =>
    obtain ⟨hlhs, _⟩ := seq_eq_ok.mp hvalid
    obtain ⟨op', a, b, a', rfl, h⟩ := exists_same_right (leads_operator op hlhs)
      (Reader.precedence_bounds op).2 he (Nat.le_of_lt_succ hloose)
    refine ⟨.binary op' a' b, by simpa [write, Expression.precedence] using h, ?_⟩
    rw [plug, Expression.agrees, Expression.alike, Expression.not_alike_right, Bool.and_false]
  | leftOf op rhs =>
    obtain ⟨_, hrhs⟩ := seq_eq_ok.mp hvalid
    obtain ⟨hlow, hhigh⟩ := Reader.precedence_bounds op
    have hedge := (stops_of_operator (skipSpaces_operator op
      (parenthesized (rhs.precedence ≤ op.precedence) rhs.text).toList)).edge
    obtain ⟨e', h, hsame⟩ := exists_same_left (extends_operator op hrhs) hedge hlow (by omega) he
      hloose
    refine ⟨e', by simpa [write, hspace] using h, ?_⟩
    rcases hsame with ⟨op', a, b, b', rfl, rfl⟩ | ⟨op', a, a', rfl, rfl⟩
    · have hne : op' ≠ op := by
        rintro rfl
        exact Nat.lt_irrefl _ hloose
      rw [plug, Expression.agrees, Expression.alike, beq_eq_false_iff_ne.mpr hne, Bool.false_and,
        Bool.false_and]
    · rfl
  | fieldOf name =>
    have hname := checkName_eq_ok.mp (seq_eq_ok.mp hvalid).2
    have hstart : StartsNot Char.isDigit (name.toList ++ []) := startsNot_digit_identifier hname
    rw [List.append_nil] at hstart
    have hedge := (stops_of_suffix (skipSpaces_of_startsNot (startsNot_cons.mpr rfl)) (Or.inl rfl)
      (Or.inl hstart)).edge
    obtain ⟨e', h, hsame⟩ :=
      exists_same_left (extends_field hname) hedge (by decide) (Nat.le_refl 8) he hloose
    refine ⟨e', by simpa [write] using h, ?_⟩
    rcases hsame with ⟨op', a, b, b', rfl, rfl⟩ | ⟨op', a, a', rfl, rfl⟩ <;> rfl
  | indexOf position =>
    have hedge : Edge ('[' :: (position.text.toList ++ [']'])) :=
      (stops_of_suffix (skipSpaces_of_startsNot (startsNot_cons.mpr rfl)) (Or.inr rfl)
        (Or.inr rfl)).edge
    obtain ⟨e', h, hsame⟩ := exists_same_left (extends_index (seq_eq_ok.mp hvalid).2) hedge
      (by decide) (Nat.le_refl 8) he hloose
    refine ⟨e', by simpa [write] using h, ?_⟩
    rcases hsame with ⟨op', a, b, b', rfl, rfl⟩ | ⟨op', a, a', rfl, rfl⟩ <;> rfl

/-- No pair of parentheses around an operand can be left out: the text without it is read as another
expression. Only behind a minus, around an operand that begins with a number, a pair may stand
that is not needed. -/
theorem parentheses_needed (f : Frame) (e : Expression)
    (hvalid : (f.plug e).validate kind field = .ok ())
    (hparens : (f.plug e).text = f.write ("(" ++ e.text ++ ")"))
    (hnumber : f = .prefixed .neg → e.startsWithNumber = false) :
    ∃ e', parseExpression (f.write e.text) = .ok e' ∧ e' ≠ f.plug e ∧
      e'.agrees (f.plug e) = false := by
  have hloose : e.precedence < f.level := by
    refine (touches_or_loose hparens).resolve_left fun htouches => ?_
    cases f with
    | prefixed op =>
      simp only [touches, Bool.and_eq_true, beq_iff_eq] at htouches
      rw [hnumber (by rw [htouches.1])] at htouches
      cases htouches.2
    | _ => cases htouches
  obtain ⟨e', hderives, hdiffers⟩ := exists_derives hvalid hloose
  obtain ⟨hlow, hhigh⟩ := e.precedence_bounds
  refine ⟨e', parseExpression_of_derives hderives hlow hhigh, ?_, hdiffers⟩
  rintro rfl
  rw [Expression.agrees_self _ hvalid] at hdiffers
  cases hdiffers

/-- Without its parentheses `a * (b + c)` is a sum. -/
theorem product_of_sum_needs_parentheses :
    let e : Expression := .binary .add (.name "b") (.name "c")
    (Expression.binary .mul (.name "a") e).text = "a * (b + c)" ∧
      ∃ e', parseExpression "a * b + c" = .ok e' ∧ e' ≠ .binary .mul (.name "a") e ∧
        e'.agrees (.binary .mul (.name "a") e) = false := by
  have htext : (Expression.binary .mul (.name "a")
      (.binary .add (.name "b") (.name "c"))).text = "a * (b + c)" := by decide +kernel
  have hvalid : ((Frame.rightOf .mul (.name "a")).plug
      (.binary .add (.name "b") (.name "c"))).validate .returnStatement "value" = .ok () := by
    decide +kernel
  exact ⟨htext, parentheses_needed (.rightOf .mul (.name "a")) (.binary .add (.name "b")
    (.name "c")) hvalid (by decide +kernel) nofun⟩

end Frame

end ProgramTree
