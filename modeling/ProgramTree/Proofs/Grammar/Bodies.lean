import ProgramTree.Proofs.Grammar.Leaves

/-! # Reading statements with bodies

A statement is told by its first character or its first word. Inside of its
bodies the statement reader is only asked for shorter texts, so there the
restricted reader is the reader itself. -/

namespace ProgramTree.Reader

set_option autoImplicit false

section Nesting

variable {α : Type}

/-- A repetition asks its item only for texts that are no longer than its own. -/
theorem many_congr {item item' : Reader α} {text : List Char}
    (h : ∀ part : List Char, part.length ≤ text.length → item part = item' part) :
    many item text = many item' text := by
  induction hn : text.length using Nat.strongRecOn generalizing text with
  | ind n ih =>
    rw [many, many, h text (Nat.le_refl _)]
    cases item' text with
    | ok a rest =>
      simp only
      split
      · rename_i hlt
        rw [ih rest.length (hn ▸ hlt) (fun part hpart => h part (by omega)) rfl]
      · rfl
    | soft failure => rfl
    | hard failure => rfl

/-- The statement reader that is used inside of a text. -/
def within (whole : List Char) : Reader Draft :=
  below whole fun rest _ => statement rest

variable {text rest whole : List Char}

theorem statement_eq (text : List Char) : statement text = statementLayer (within text) text := by
  rw [statement]
  rfl

theorem closeBody_within (h : text.length < whole.length) :
    closeBody (within whole) text = closeBody statement text := by
  have hmany : many (within whole) text = many statement text := by
    apply many_congr
    intro part hpart
    rw [within, below, dif_pos (by omega)]
  show andThen (many (within whole)) _ text = andThen (many statement) _ text
  simp only [andThen, hmany]

theorem body_eq (h : skipSpaces text = '{' :: rest) (hlength : rest.length < whole.length) :
    body (within whole) text = closeBody statement rest := by
  have hopen : expect '{' text = .ok () rest := symbolOr_of_eq h
  simp only [body, bind_apply, andThen, committed, hopen, Outcome.committed,
    closeBody_within hlength]

end Nesting

section Dispatch

variable {text rest : List Char}

theorem statement_comment (h : skipSpaces text = '/' :: '/' :: rest) :
    statement text = comment ('/' :: '/' :: rest) := by
  simp only [statement_eq text, statementLayer, h]

theorem statement_block (h : skipSpaces text = '{' :: rest) :
    statement text = block (within text) ('{' :: rest) := by
  simp only [statement_eq text, statementLayer, h]

/-- A text that begins like a name is told by its first word. -/
theorem statement_word (h : StartsNot (fun c => c == '/' || c == '{') (skipSpaces text)) :
    statement text =
      match byKeyword? (within text) (word (skipSpaces text)) with
      | some reader => reader (skipSpaces text)
      | none => orElse variableDefinition assignmentOrCall (skipSpaces text) := by
  rw [statement_eq, statementLayer]
  split
  · rename_i hslash
    rw [hslash] at h
    cases h
  · rename_i hbrace
    rw [hbrace] at h
    cases h
  · rfl

theorem statement_keyword {w : String} {reader : Reader Draft}
    (h : skipSpaces text = w.toList ++ rest) (hrest : StartsNot Name.isWordChar rest)
    (hw : ∀ c ∈ w.toList, Name.isWordChar c = true) (hne : w.toList ≠ [])
    (hreader : byKeyword? (within text) w.toList = some reader) :
    statement text = reader (w.toList ++ rest) := by
  have hstart : StartsNot (fun c => c == '/' || c == '{') (skipSpaces text) := by
    obtain ⟨c, tail, hc⟩ := List.exists_cons_of_ne_nil hne
    have hword := hw c (hc ▸ List.mem_cons_self)
    rw [h, hc]
    apply startsNot_cons.mpr
    rw [Bool.or_eq_false_iff, beq_eq_false_iff_ne, beq_eq_false_iff_ne]
    constructor <;>
    · rintro rfl
      revert hword
      decide
  rw [statement_word hstart, h, (word_run hrest hw).1, hreader]

/-- The words that statements start with are neither names nor values. -/
theorem of_byKeyword? {inner reader : Reader Draft} {w : List Char}
    (h : byKeyword? inner w = some reader) :
    Name.isIdentifier w = false ∧ wordLiteral? w = none ∧
      ∃ c tail, w = c :: tail ∧ Name.isWordStart c = true := by
  have hmem : w ∈ ["if", "while", "try", "break", "continue", "return", "reply", "throw"].map
      String.toList := by
    by_contra hmem
    simp only [List.map_cons, List.map_nil, List.mem_cons, List.not_mem_nil, or_false,
      not_or] at hmem
    obtain ⟨hif, hwhile, htry, hbreak, hcontinue, hreturn, hreply, hthrow⟩ := hmem
    rw [byKeyword?, if_neg hif, if_neg hwhile, if_neg htry, if_neg hbreak, if_neg hcontinue,
      if_neg hreturn, if_neg hreply, if_neg hthrow] at h
    cases h
  obtain ⟨s, hs, rfl⟩ := List.mem_map.mp hmem
  simp only [List.mem_cons, List.not_mem_nil, or_false] at hs
  rcases hs with rfl | rfl | rfl | rfl | rfl | rfl | rfl | rfl <;>
    exact ⟨by decide, by decide, _, _, rfl, by decide⟩

theorem expression_soft_of_word {c : Char} {tail : List Char}
    (hword : word (skipSpaces text) = c :: tail) (hc : Name.isWordStart c = true)
    (hname : Name.isIdentifier (word (skipSpaces text)) = false)
    (hvalue : wordLiteral? (word (skipSpaces text)) = none) :
    ∃ failure, expression text = .soft failure := by
  obtain ⟨after, htext, _⟩ := exists_of_word hword
  have hidentifier : identifier (skipSpaces text) = unexpected (skipSpaces text) := by
    simp [identifier_eq, hname]
  have hhead : ∀ d, Name.isWordStart d = false → (skipSpaces text).head? ≠ some d := by
    intro d hd he
    rw [htext, List.head?_cons, Option.some.injEq] at he
    rw [he, hd] at hc
    cases hc
  apply expression_soft_of_primary (hhead '!' (by decide)) (hhead '-' (by decide))
  refine ⟨⟨.unexpected, skipSpaces text⟩, ?_⟩
  rw [htext] at hidentifier hvalue ⊢
  rw [primary_word _ hc, hvalue]
  simp only [callOrName, orElse, call, qualified, bind_apply, andThen, hidentifier, unexpected]

theorem assignmentOrCall_soft {failure : Failure} (h : expression text = .soft failure) :
    assignmentOrCall text = .soft failure := by
  simp only [assignmentOrCall, bind_apply, bind_apply expression, andThen, position, h]

/-- No statement begins with a brace that closes a body. -/
theorem statement_soft_closing (h : skipSpaces text = '\x7d' :: rest) :
    ∃ failure, statement text = .soft failure := by
  have hbrace : StartsNot Name.isWordChar ('\x7d' :: rest) := startsNot_cons.mpr rfl
  have hexpression : StartsNot startsExpression (skipSpaces ('\x7d' :: rest)) := by
    rw [skipSpaces_of_startsNot (startsNot_cons.mpr rfl)]
    exact startsNot_cons.mpr rfl
  obtain ⟨failure, hsoft⟩ := expression_soft hexpression
  obtain ⟨_, hdefinition⟩ := NoDefinition.soft (Or.inl (typeName_soft (identifier_soft hbrace)))
  refine ⟨failure, ?_⟩
  rw [statement_word (by rw [h]; exact startsNot_cons.mpr rfl), h, word_eq_nil hbrace]
  simp only [byKeyword?, orElse, hdefinition, assignmentOrCall_soft hsoft]
  rfl

/-- No statement begins with a word that a clause begins with. -/
theorem statement_soft_clause {w : String} (hw : w = "else" ∨ w = "catch")
    (h : word (skipSpaces text) = w.toList) : ∃ failure, statement text = .soft failure := by
  obtain ⟨c, tail, htoList, hc⟩ : ∃ c tail, w.toList = c :: tail ∧ Name.isWordStart c = true := by
    rcases hw with rfl | rfl <;> exact ⟨_, _, rfl, by decide⟩
  have hname : Name.isIdentifier w.toList = false := by rcases hw with rfl | rfl <;> decide
  have hvalue : wordLiteral? w.toList = none := by rcases hw with rfl | rfl <;> decide
  have hreader : byKeyword? (within text) w.toList = none := by rcases hw with rfl | rfl <;> rfl
  obtain ⟨after, htext, _⟩ := exists_of_word (h.trans htoList)
  have hskip : skipSpaces (skipSpaces text) = skipSpaces text := skipSpaces_skipSpaces text
  have hidentifier : identifier (skipSpaces text) = unexpected (skipSpaces text) := by
    rw [identifier_eq, h, hname, if_neg (by decide)]
  have hexpression : ∃ failure, expression (skipSpaces text) = .soft failure :=
    expression_soft_of_word (hskip ▸ h.trans htoList) hc (by rw [hskip, h, hname])
      (by rw [hskip, h, hvalue])
  obtain ⟨failure, hsoft⟩ := hexpression
  obtain ⟨_, hdefinition⟩ := NoDefinition.soft (Or.inl (typeName_soft hidentifier))
  have hstart : StartsNot (fun c => c == '/' || c == '{') (skipSpaces text) := by
    rw [htext]
    apply startsNot_cons.mpr
    rw [Bool.or_eq_false_iff, beq_eq_false_iff_ne, beq_eq_false_iff_ne]
    constructor <;>
    · rintro rfl
      revert hc
      decide
  refine ⟨failure, ?_⟩
  rw [statement_word hstart, h, hreader]
  simp only [orElse, hdefinition, assignmentOrCall_soft hsoft]

theorem word_ne_else {d : Draft} (h : statement text = .ok d rest) :
    word (skipSpaces text) ≠ "else".toList := by
  intro helse
  obtain ⟨failure, hsoft⟩ := statement_soft_clause (Or.inl rfl) helse
  rw [h] at hsoft
  cases hsoft

theorem byKeyword?_identifier {inner : Reader Draft} {w : List Char}
    (h : Name.isIdentifier w = true) : byKeyword? inner w = none := by
  cases hreader : byKeyword? inner w with
  | none => rfl
  | some reader =>
    rw [(of_byKeyword? hreader).1] at h
    cases h

theorem statement_definition {w tail : List Char} {d : Draft}
    (hskip : skipSpaces text = w ++ tail) (hw : Name.isIdentifier w = true)
    (htail : StartsNot Name.isWordChar tail) (h : variableDefinition (w ++ tail) = .ok d rest) :
    statement text = .ok d rest := by
  have hstart : StartsNot (fun c => c == '/' || c == '{') (w ++ tail) := by
    obtain ⟨c, after, rfl, hc, _⟩ := exists_of_isIdentifier hw
    apply startsNot_cons.mpr
    rw [Bool.or_eq_false_iff, beq_eq_false_iff_ne, beq_eq_false_iff_ne]
    constructor <;>
    · rintro rfl
      revert hc
      decide
  have hword := (word_run htail (isWordChar_of_isIdentifier hw)).1
  rw [statement_word (hskip ▸ hstart), hskip, hword, byKeyword?_identifier hw]
  simp only [orElse, h]

/-- What is read as an assignment or a call is a statement, unless a definition can be read. -/
theorem statement_expression {e : Expression} {d : Draft} {mid : List Char}
    (hno : NoDefinition (skipSpaces text)) (he : expression (skipSpaces text) = .ok e mid)
    (h : assignmentOrCall (skipSpaces text) = .ok d rest) : statement text = .ok d rest := by
  have hskip := skipSpaces_skipSpaces text
  have hstart : StartsNot (fun c => c == '/' || c == '{') (skipSpaces text) := by
    cases hhead : skipSpaces text with
    | nil => exact startsNot_nil
    | cons c tail =>
      apply startsNot_cons.mpr
      cases hc : c == '/' || c == '{' with
      | false => rfl
      | true =>
        have hexpression : StartsNot startsExpression (skipSpaces (skipSpaces text)) := by
          rw [hskip, hhead]
          apply startsNot_cons.mpr
          simp only [Bool.or_eq_true, beq_iff_eq] at hc
          rcases hc with rfl | rfl <;> decide
        obtain ⟨failure, hsoft⟩ := expression_soft hexpression
        rw [he] at hsoft
        cases hsoft
  have hkeyword : byKeyword? (within text) (word (skipSpaces text)) = none := by
    cases hreader : byKeyword? (within text) (word (skipSpaces text)) with
    | none => rfl
    | some reader =>
      obtain ⟨hname, hvalue, c, tail, hword, hc⟩ := of_byKeyword? hreader
      have hexpression : ∃ failure, expression (skipSpaces text) = .soft failure :=
        expression_soft_of_word (hskip.symm ▸ hword) hc (hskip.symm ▸ hname) (hskip.symm ▸ hvalue)
      obtain ⟨failure, hsoft⟩ := hexpression
      rw [he] at hsoft
      cases hsoft
  obtain ⟨_, hdefinition⟩ := hno.soft
  rw [statement_word hstart, hkeyword]
  simp only [orElse, hdefinition, h]

end Dispatch

section Openings

variable {text rest mid final whole : List Char} {e : Expression} {kind : NodeKind} {field : String}
  {statements : List Draft}

theorem condition_run (hvalid : e.validate kind field = .ok ()) :
    condition (' ' :: '(' :: (e.text.toList ++ ')' :: rest)) = .ok e rest := by
  have hopen : expect '(' (' ' :: '(' :: (e.text.toList ++ ')' :: rest)) =
      .ok () (e.text.toList ++ ')' :: rest) := symbol_space_run _ (rfl : isSpace '(' = false)
  have hread := e.expression_text hvalid (Closes.stops ⟨')', rest, rfl, by decide⟩)
  have hclose : expect ')' (')' :: rest) = .ok () rest :=
    symbol_run _ (rfl : isSpace ')' = false)
  simp only [condition, committed, bind_apply, bind_apply expression, andThen, hopen, hread, hclose,
    Outcome.committed, pure_apply]

end Openings

end ProgramTree.Reader
