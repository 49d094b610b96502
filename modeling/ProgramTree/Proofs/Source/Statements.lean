import ProgramTree.Proofs.Source.Reading

/-! # Statements are read back

Each kind of statement is read back from its own text, over the statements in
its body. What the body consists of is known from its layout, so a branch that
can be spelled is read back whole, by induction on the branch. -/

namespace ProgramTree

set_option autoImplicit false

open Reader Snapshot

namespace Snapshot

section Lines

variable {payload : Payload}

/-- The text begins with a character other than a blank. -/
def Starts (content : String) : Prop :=
  ∃ c tail, content.toList = c :: tail ∧ isSpace c = false

theorem skipSpaces_line {depth : Nat} {rest : List Char} (hclause : payload.kind.isClause = false)
    (hcloses : SourceWriter.closes payload.kind = false)
    (hstart : Starts (SourceWriter.heading payload)) :
    skipSpaces ((node payload []).text depth ++ rest) =
      (SourceWriter.heading payload).toList ++ '\n' :: rest := by
  obtain ⟨c, tail, hhead, hc⟩ := hstart
  have hnotSpace : StartsNot isSpace ((SourceWriter.heading payload).toList ++ '\n' :: rest) := by
    rw [hhead]
    exact startsNot_cons.mpr hc
  rw [text, if_neg (by simp [hclause]), if_neg (by simp [hcloses]), texts, List.append_nil,
    List.append_nil]
  exact skipSpaces_lineText hnotSpace

theorem reads_of_line (hclause : payload.kind.isClause = false)
    (hcloses : SourceWriter.closes payload.kind = false)
    (hstart : Starts (SourceWriter.heading payload))
    (hline : ∀ text rest, skipSpaces text = (SourceWriter.heading payload).toList ++ '\n' :: rest →
      ∃ d form, statement text = .ok (.leaf d form) ('\n' :: rest) ∧ form.payload = .ok payload) :
    (node payload []).Reads := by
  intro depth rest _
  obtain ⟨start, form, hread, hform⟩ := hline ('\n' :: ((node payload []).text depth ++ rest)) rest
    (skipSpaces_newline.trans (skipSpaces_line hclause hcloses hstart))
  exact ⟨_, hread, hform, trivial⟩

theorem reads_of_keyword {w : String} {after : List Char} {reader : Reader Draft} {form : Form}
    (hclause : payload.kind.isClause = false) (hcloses : SourceWriter.closes payload.kind = false)
    (hheading : (SourceWriter.heading payload).toList = w.toList ++ after)
    (hw : ∀ c ∈ w.toList, Name.isWordChar c = true) (hne : w.toList ≠ [])
    (hafter : ∀ rest, StartsNot Name.isWordChar (after ++ '\n' :: rest))
    (hreader : ∀ inner, byKeyword? inner w.toList = some reader)
    (hrun : ∀ text rest, text = w.toList ++ (after ++ '\n' :: rest) →
      reader text = .ok (.leaf text.length form) ('\n' :: rest))
    (hform : form.payload = .ok payload) : (node payload []).Reads := by
  refine reads_of_line hclause hcloses ?_ fun text rest htext => ?_
  · obtain ⟨c, tail, hc⟩ := List.exists_cons_of_ne_nil hne
    refine ⟨c, tail ++ after, by rw [hheading, hc, List.cons_append], ?_⟩
    exact isSpace_of_isWordChar (hw c (hc ▸ List.mem_cons_self))
  · rw [hheading, List.append_assoc] at htext
    exact ⟨_, form, (statement_keyword htext (hafter rest) hw hne (hreader _)).trans
      (hrun _ rest rfl), hform⟩

/-- The blank after the slashes of a comment is trimmed away again. -/
theorem comment_heading_run {text : String} (h : (Payload.comment text).Conforms) :
    ∃ content, (SourceWriter.heading (.comment text)).toList = '/' :: '/' :: content ∧
      ∀ rest, ∃ start form, comment ('/' :: '/' :: (content ++ '\n' :: rest)) =
        .ok (.leaf start form) ('\n' :: rest) ∧ form.payload = .ok (.comment text) := by
  obtain ⟨hbreaks, htrim⟩ := h
  obtain ⟨content, hheading, hcontent, hform⟩ : ∃ content : List Char,
      (SourceWriter.heading (.comment text)).toList = '/' :: '/' :: content ∧
      (∀ c ∈ content, c ≠ '\n' ∧ c ≠ '\r') ∧ trimBlanks (String.ofList content) = text := by
    cases htext : text.isEmpty with
    | true =>
      rw [String.isEmpty_iff] at htext
      subst htext
      exact ⟨[], rfl, by simp, htrim⟩
    | false =>
      have hslashes : "// ".toList = ['/', '/', ' '] := rfl
      refine ⟨' ' :: text.toList, ?_, ?_, ?_⟩
      · rw [SourceWriter.heading, htext, if_neg (by decide), String.toList_append, hslashes]
        rfl
      · exact List.forall_mem_cons.mpr ⟨by decide, hbreaks⟩
      · rw [trimBlanks_space, String.ofList_toList, htrim]
  refine ⟨content, hheading, fun rest => ⟨_, _, comment_run hcontent rfl, ?_⟩⟩
  refine Form.comment?_eq_ok.mpr ⟨?_, by rw [hform]⟩
  rw [String.toList_ofList]
  exact hcontent

theorem reads_comment {text : String} (h : (Payload.comment text).Conforms) :
    (node (.comment text) []).Reads := by
  obtain ⟨content, hheading, hrun⟩ := comment_heading_run h
  refine reads_of_line rfl rfl ⟨_, _, hheading, by decide⟩ fun source rest hsource => ?_
  rw [hheading, List.cons_append, List.cons_append] at hsource
  obtain ⟨start, form, hread, hform⟩ := hrun rest
  exact ⟨start, form, (statement_comment hsource).trans hread, hform⟩

theorem reads_jump {w : String} {form : Form} (hclause : payload.kind.isClause = false)
    (hcloses : SourceWriter.closes payload.kind = false)
    (hheading : SourceWriter.heading payload = w ++ ";")
    (hw : ∀ c ∈ w.toList, Name.isWordChar c = true) (hne : w.toList ≠ [])
    (hreader : ∀ inner, byKeyword? inner w.toList = some (jump w form))
    (hform : form.payload = .ok payload) : (node payload []).Reads := by
  have htoList : (SourceWriter.heading payload).toList = w.toList ++ [';'] := by
    rw [hheading, String.toList_append]
    rfl
  exact reads_of_keyword hclause hcloses htoList hw hne (fun _ => startsNot_cons.mpr rfl)
    hreader (fun text rest htext => jump_run hw form htext) hform

theorem reads_valued {w : String} {form : Option Expression → Form} {e : Expression}
    {kind : NodeKind} {field : String} (hvalid : e.validate kind field = .ok ())
    (hclause : payload.kind.isClause = false) (hcloses : SourceWriter.closes payload.kind = false)
    (hheading : SourceWriter.heading payload = w ++ " " ++ e.text ++ ";")
    (hw : ∀ c ∈ w.toList, Name.isWordChar c = true) (hne : w.toList ≠ [])
    (hreader : ∀ inner, byKeyword? inner w.toList = some (valued w form))
    (hform : (form (some e)).payload = .ok payload) : (node payload []).Reads := by
  have htoList : (SourceWriter.heading payload).toList =
      w.toList ++ ' ' :: (e.text.toList ++ [';']) := by
    simp [hheading]
  refine reads_of_keyword hclause hcloses htoList hw hne
    (fun _ => startsNot_cons.mpr rfl) hreader (fun text rest htext => ?_) hform
  refine valued_run hw form hvalid (htext.trans ?_)
  simp only [List.cons_append, List.append_assoc, List.nil_append]

theorem reads_return {values : List Expression} (h : (Payload.returnStatement values).Conforms) :
    (node (.returnStatement values) []).Reads := by
  obtain ⟨after, hheading, hafter⟩ : ∃ after,
      (SourceWriter.heading (.returnStatement values)).toList = "return".toList ++ after ∧
      ∀ rest, StartsNot Name.isWordChar (after ++ '\n' :: rest) := by
    cases values with
    | nil => exact ⟨[';'], rfl, fun _ => startsNot_cons.mpr rfl⟩
    | cons e es =>
      exact ⟨_, toList_heading_return e es, fun _ => startsNot_cons.mpr rfl⟩
  refine reads_of_keyword rfl rfl hheading (List.all_eq_true.mp rfl) (by decide) hafter
    (fun _ => rfl) (fun text rest htext => ?_) h.form_payload
  refine returnStatement_run h (htext.trans ?_)
  rw [hheading, List.append_assoc]

theorem reads_definition {typeName name : String} {initializer : Option Expression}
    (h : (Payload.variableDefinition typeName name initializer).Conforms) :
    (node (.variableDefinition typeName name initializer) []).Reads := by
  have hform := h.form_payload
  obtain ⟨htype, hname, hvalid⟩ := h
  have hheading : (SourceWriter.heading (.variableDefinition typeName name initializer)).toList =
      typeName.toList ++ ' ' :: (name.toList ++ (initializerText initializer ++ [';'])) := by
    cases initializer <;> simp [SourceWriter.heading, initializerText]
  obtain ⟨first, tail, hfirst, hid, hword⟩ := exists_word_of_isTypeName htype
  refine reads_of_line rfl rfl ?_ fun text rest htext => ?_
  · obtain ⟨c, after, rfl, hc, _⟩ := exists_of_isIdentifier hid
    refine ⟨c, _, by rw [hheading, hfirst]; rfl, ?_⟩
    exact isSpace_of_isWordChar (isWordChar_of_isWordStart hc)
  · have hread := (variableDefinition_run htype hname hvalid rfl : variableDefinition
      (typeName.toList ++ ' ' :: (name.toList ++
        (initializerText initializer ++ ';' :: '\n' :: rest))) = _)
    rw [hheading] at htext
    simp only [hfirst, List.append_assoc, List.cons_append, List.nil_append] at htext hread
    exact ⟨_, _, statement_definition htext hid (hword _) hread, hform⟩

/-- An assignment or a call is read back, as no definition can be read in its place. -/
theorem reads_expression {target : Expression} {value : Option Expression}
    {kind kind' : NodeKind} {field field' : String} (hclause : payload.kind.isClause = false)
    (hcloses : SourceWriter.closes payload.kind = false)
    (hheading : (SourceWriter.heading payload).toList =
      target.text.toList ++ (initializerText value ++ [';']))
    (htarget : target.validate kind field = .ok ()) (hprecedence : 8 ≤ target.precedence)
    (hvalue : ∀ e ∈ value, e.validate kind' field' = .ok ())
    (hform : (assignmentForm target value).payload = .ok payload) : (node payload []).Reads := by
  refine reads_of_line hclause hcloses ?_ fun text rest htext => ?_
  · obtain ⟨c, tail, htarget, hc⟩ := target.text_head htarget
    exact ⟨c, _, by rw [hheading, htarget]; rfl, hc⟩
  · rw [hheading, List.append_assoc, List.append_assoc, List.singleton_append] at htext
    have hstops : Stops 1 (initializerText value ++ ';' :: '\n' :: rest) := by
      cases value with
      | none => exact stops_semicolon _
      | some value => exact stops_assigned _
    have hno := noDefinition_text htarget hprecedence (endsName_initializer value ('\n' :: rest))
    have he := target.expression_text htarget hstops
    rw [← htext] at hno he
    exact ⟨_, _, statement_expression hno he (assignmentOrCall_run htarget hvalue htext), hform⟩

theorem reads_assignment {target value : Expression}
    (h : (Payload.assignment target value).Conforms) :
    (node (.assignment target value) []).Reads := by
  have hform : (assignmentForm target (some value)).payload = .ok (.assignment target value) :=
    h.form_payload
  obtain ⟨htarget, hassignable, hvalue⟩ := h
  have hvalues : ∀ e ∈ some value, e.validate .assignment "value" = .ok () := by
    intro e he
    rw [← Option.mem_some.mp he]
    exact hvalue
  refine reads_expression rfl rfl ?_ htarget ?_ hvalues hform
  · simp [SourceWriter.heading, initializerText]
  · cases target with
    | name n => exact (by decide : 8 ≤ 9)
    | field target n | index target position => exact Nat.le_refl 8
    | _ => cases hassignable

theorem reads_call {expression : Expression} (h : (Payload.callStatement expression).Conforms) :
    (node (.callStatement expression) []).Reads := by
  have hform : (assignmentForm expression none).payload = .ok (.callStatement expression) :=
    h.form_payload
  obtain ⟨hvalid, hcall⟩ := h
  have hvalues : ∀ e ∈ (none : Option Expression),
      e.validate .callStatement "expression" = .ok () := by simp
  refine reads_expression rfl rfl ?_ hvalid ?_ hvalues hform
  · simp [SourceWriter.heading, initializerText]
  · cases expression with
    | call target args => exact (by decide : 8 ≤ 9)
    | _ => cases hcall

end Lines

section Bodies

variable {payload : Payload} {depth : Nat} {rest : List Char} {ss cs : List Snapshot}

/-- The line that a statement begins with, its body, and the clauses behind it. -/
theorem skipSpaces_text (hclause : payload.kind.isClause = false)
    (hcloses : SourceWriter.closes payload.kind = true)
    (hstart : Starts (SourceWriter.heading payload)) :
    skipSpaces ((node payload (ss ++ cs)).text depth ++ rest) =
      (SourceWriter.heading payload).toList ++ '\n' :: bodyText depth ss cs rest := by
  obtain ⟨c, tail, hhead, hc⟩ := hstart
  have hnotSpace : ∀ after,
      StartsNot isSpace ((SourceWriter.heading payload).toList ++ '\n' :: after) := by
    intro after
    rw [hhead]
    exact startsNot_cons.mpr hc
  rw [text, if_neg (by simp [hclause]), if_pos hcloses, texts_append,
    List.append_assoc, List.append_assoc, List.append_assoc,
    skipSpaces_lineText (hnotSpace _)]
  rfl

theorem length_bodyText_lt (hclause : payload.kind.isClause = false)
    (hcloses : SourceWriter.closes payload.kind = true) :
    (bodyText depth ss cs rest).length + 1 <
      ('\n' :: ((node payload (ss ++ cs)).text depth ++ rest)).length := by
  rw [text, if_neg (by simp [hclause]), if_pos hcloses, texts_append]
  simp only [bodyText, lineText, List.length_cons, List.length_append]
  omega

variable {source : List Char}

/-- Behind its opening brace a block is its body. -/
theorem block_header (hsource : source = '\n' :: ((node .block ss).text depth ++ rest)) :
    ∃ start, statement source =
      (closeBody statement ('\n' :: bodyText depth ss [] rest)).map (.node start .block) := by
  have hlength : (bodyText depth ss [] rest).length + 1 <
      ('\n' :: ((node .block (ss ++ [])).text depth ++ rest)).length := length_bodyText_lt rfl rfl
  have hskip : skipSpaces ('\n' :: ((node .block (ss ++ [])).text depth ++ rest)) =
      '\x7b' :: '\n' :: bodyText depth ss [] rest :=
    skipSpaces_text rfl rfl ⟨'\x7b', [], rfl, by decide⟩
  rw [List.append_nil, ← hsource] at hlength hskip
  have hopen : symbol '\x7b' ('\x7b' :: '\n' :: bodyText depth ss [] rest) =
      .ok () ('\n' :: bodyText depth ss [] rest) := symbol_run _ (rfl : isSpace '\x7b' = false)
  have hwithin : closeBody (within source) ('\n' :: bodyText depth ss [] rest) =
      closeBody statement ('\n' :: bodyText depth ss [] rest) := closeBody_within hlength
  refine ⟨('\x7b' :: '\n' :: bodyText depth ss [] rest).length, ?_⟩
  rw [statement_block hskip, ← hwithin, ← bind_pure_apply]
  simp only [block, bind_apply, andThen, position, hopen]

theorem while_header {condition : Expression} (hvalid : (Payload.whileLoop condition).Conforms)
    (hsource : source = '\n' :: ((node (.whileLoop condition) ss).text depth ++ rest)) :
    (bodyText depth ss [] rest).length + 1 < source.length ∧ ∃ start, statement source =
      (body (within source) (' ' :: '\x7b' :: '\n' :: bodyText depth ss [] rest)).map
        (.node start (.whileLoop (some condition))) := by
  have hlength : (bodyText depth ss [] rest).length + 1 <
      ('\n' :: ((node (.whileLoop condition) (ss ++ [])).text depth ++ rest)).length :=
    length_bodyText_lt rfl rfl
  have hheading : (SourceWriter.heading (.whileLoop condition)).toList =
      "while".toList ++ ' ' :: '(' :: (condition.text.toList ++ [')', ' ', '\x7b']) := by
    simp [SourceWriter.heading]
  have hskip : skipSpaces ('\n' :: ((node (.whileLoop condition) (ss ++ [])).text depth ++ rest)) =
      (SourceWriter.heading (.whileLoop condition)).toList ++
        '\n' :: bodyText depth ss [] rest :=
    skipSpaces_text rfl rfl ⟨'w', _, hheading, by decide⟩
  rw [List.append_nil, ← hsource] at hlength hskip
  have hkeyword : ∀ after, keyword "while" ("while".toList ++ ' ' :: after) = .ok () (' ' :: after) :=
    fun _ => keyword_space_run rfl
  rw [hheading] at hskip
  simp only [List.append_assoc, List.cons_append, List.nil_append] at hskip
  refine ⟨hlength, (skipSpaces source).length, ?_⟩
  rw [statement_keyword hskip (startsNot_cons.mpr rfl) (List.all_eq_true.mp rfl) (by decide) rfl,
    ← bind_pure_apply]
  simp only [whileLoop, bind_apply, andThen, position, hskip, hkeyword, condition_run hvalid]

theorem if_header {condition : Expression} (hvalid : (Payload.ifStatement condition).Conforms)
    (hsource : source = '\n' :: ((node (.ifStatement condition) (ss ++ cs)).text depth ++ rest)) :
    (bodyText depth ss cs rest).length + 1 < source.length ∧ ∃ start, statement source =
      (do
        let statements ← body (within source)
        let elseIfs ← many (elseIfClause (within source))
        let last ← optional (elseClause (within source))
        return .node start (.ifStatement (some condition)) (statements ++ elseIfs ++ last.toList) :
          Reader Draft) (' ' :: '\x7b' :: '\n' :: bodyText depth ss cs rest) := by
  have hlength : (bodyText depth ss cs rest).length + 1 <
      ('\n' :: ((node (.ifStatement condition) (ss ++ cs)).text depth ++ rest)).length :=
    length_bodyText_lt rfl rfl
  have hheading : (SourceWriter.heading (.ifStatement condition)).toList =
      "if".toList ++ ' ' :: '(' :: (condition.text.toList ++ [')', ' ', '\x7b']) := by
    simp [SourceWriter.heading]
  have hskip : skipSpaces ('\n' ::
      ((node (.ifStatement condition) (ss ++ cs)).text depth ++ rest)) =
        (SourceWriter.heading (.ifStatement condition)).toList ++
          '\n' :: bodyText depth ss cs rest :=
    skipSpaces_text rfl rfl ⟨'i', _, hheading, by decide⟩
  rw [← hsource] at hlength hskip
  have hkeyword : ∀ after, keyword "if" ("if".toList ++ ' ' :: after) = .ok () (' ' :: after) :=
    fun _ => keyword_space_run rfl
  rw [hheading] at hskip
  simp only [List.append_assoc, List.cons_append, List.nil_append] at hskip
  refine ⟨hlength, (skipSpaces source).length, ?_⟩
  rw [statement_keyword hskip (startsNot_cons.mpr rfl) (List.all_eq_true.mp rfl) (by decide) rfl]
  simp only [ifStatement, bind_apply, andThen, position, hskip, hkeyword, condition_run hvalid]

theorem try_header
    (hsource : source = '\n' :: ((node .tryStatement (ss ++ cs)).text depth ++ rest)) :
    (bodyText depth ss cs rest).length + 1 < source.length ∧ ∃ start, statement source =
      (do
        let statements ← body (within source)
        let last ← catchClause (within source)
        return .node start .tryStatement (statements ++ [last]) : Reader Draft)
          (' ' :: '\x7b' :: '\n' :: bodyText depth ss cs rest) := by
  have hlength : (bodyText depth ss cs rest).length + 1 <
      ('\n' :: ((node .tryStatement (ss ++ cs)).text depth ++ rest)).length :=
    length_bodyText_lt rfl rfl
  have hskip : skipSpaces ('\n' :: ((node .tryStatement (ss ++ cs)).text depth ++ rest)) =
      "try".toList ++ ' ' :: '\x7b' :: '\n' :: bodyText depth ss cs rest :=
    skipSpaces_text rfl rfl ⟨'t', _, rfl, by decide⟩
  rw [← hsource] at hlength hskip
  have hkeyword : ∀ after, keyword "try" ("try".toList ++ ' ' :: after) = .ok () (' ' :: after) :=
    fun _ => keyword_space_run rfl
  refine ⟨hlength, (skipSpaces source).length, ?_⟩
  rw [statement_keyword hskip (startsNot_cons.mpr rfl) (List.all_eq_true.mp rfl) (by decide) rfl]
  simp only [tryStatement, bind_apply, andThen, position, hskip, hkeyword]

theorem reads_block {children : List Snapshot} (h : ∀ s ∈ children, s.Reads) :
    (node .block children).Reads := by
  intro depth rest _
  obtain ⟨ds, hclose, hspells⟩ := closeBody_bodyText depth h rest
  obtain ⟨start, hheader⟩ :=
    block_header (rfl : '\n' :: ((node .block children).text depth ++ rest) = _)
  rw [hheader, hclose]
  exact ⟨_, rfl, rfl, hspells⟩

theorem reads_while {condition : Expression} {children : List Snapshot}
    (hvalid : (Payload.whileLoop condition).Conforms) (h : ∀ s ∈ children, s.Reads) :
    (node (.whileLoop condition) children).Reads := by
  intro depth rest _
  obtain ⟨hlength, start, hheader⟩ := while_header hvalid rfl
  obtain ⟨ds, hbody, hspells⟩ := body_clauses (by simp) h hlength
  rw [hheader, hbody]
  exact ⟨_, rfl, hvalid.form_payload, hspells⟩

theorem reads_if {condition : Expression} {body elseIfs last : List Snapshot}
    (hvalid : (Payload.ifStatement condition).Conforms) (h : ∀ s ∈ body, s.Reads)
    (helseIfs : ∀ c ∈ elseIfs, c.kind = .elseIfClause ∧ c.Ready)
    (hlast : last = [] ∨ ∃ c, last = [c] ∧ c.kind = .elseClause) (hready : ∀ c ∈ last, c.Ready) :
    (node (.ifStatement condition) (body ++ (elseIfs ++ last))).Reads := by
  intro depth rest hrest
  obtain ⟨hlength, start, hheader⟩ := if_header hvalid rfl
  generalize '\n' :: ((node (.ifStatement condition) (body ++ (elseIfs ++ last))).text depth ++
    rest) = source at hlength hheader ⊢
  have hclauses := isClause_of_last hlast fun c hc => (helseIfs c hc).1
  have hshorter := length_afterBrace_lt_bodyText hclauses depth body rest
  have hlengthIfs : (afterBrace depth (elseIfs ++ last) rest).length ≤ source.length := by omega
  obtain ⟨ds, hbody, hspells⟩ := body_clauses hclauses h hlength
  obtain ⟨ds', hmany, hspells', hlengthLast⟩ := elseIfs_run hlast hrest helseIfs hlengthIfs
  obtain ⟨d, helse, hspell⟩ := lastElse_run hlast hrest hready hlengthLast
  rw [hheader]
  simp only [bind_apply, bind_apply (many _), andThen, hbody, hmany, helse, pure_apply,
    List.append_assoc]
  exact ⟨_, rfl, hvalid.form_payload, hspells.append (hspells'.append hspell)⟩

theorem reads_try {body : List Snapshot} {c : Snapshot} (h : ∀ s ∈ body, s.Reads)
    (hkind : c.kind = .catchClause) (hready : c.Ready) :
    (node .tryStatement (body ++ [c])).Reads := by
  intro depth rest _
  obtain ⟨hlength, start, hheader⟩ := try_header rfl
  generalize '\n' :: ((node .tryStatement (body ++ [c])).text depth ++ rest) = source
    at hlength hheader ⊢
  have hclauses : ∀ c' ∈ [c], c'.kind.isClause = true := by
    intro c' hc'
    rw [List.mem_singleton.mp hc', hkind]
    rfl
  have hshorter := length_afterBrace_lt_bodyText hclauses depth body rest
  have hlengthLast : (afterBrace depth [c] rest).length ≤ source.length := by omega
  obtain ⟨ds, hbody, hspells⟩ := body_clauses hclauses h hlength
  obtain ⟨payload, children⟩ := c
  cases payload with
  | catchClause caught name =>
    obtain ⟨d, hcatch, hspell⟩ := catchClause_run (by simp) hready.1 hready.2 hlengthLast
    rw [hheader]
    simp only [bind_apply, andThen, hbody, hcatch, pure_apply]
    exact ⟨_, rfl, rfl, hspells.append ⟨hspell, trivial⟩⟩
  | _ => cases hkind

end Bodies

section Branches

/-- The statements in the body of a clause or a function are all of its children. -/
def BodyReads (s : Snapshot) : Prop :=
  ∀ c ∈ s.children, c.kind.isStatement = true → c.Reads

/-- Where all children are statements, a body that is read is read whole. -/
theorem Spellable.ready {s : Snapshot} (h : s.Spellable) (hbody : s.BodyReads)
    (hhasBody : s.kind.hasBody = true) (hif : s.kind ≠ .ifStatement) (htry : s.kind ≠ .tryStatement) :
    s.Ready := by
  have hkinds := Layout.statements_of_check hhasBody hif htry h.layout
  obtain ⟨payload, children⟩ := s
  exact ⟨h.conforms, fun c hc => hbody c hc (hkinds c.kind (List.mem_map_of_mem hc))⟩

theorem reads_leaf {payload : Payload} (hconforms : payload.Conforms)
    (hstatement : payload.kind.isStatement = true) (hbody : payload.kind.hasBody = false) :
    (node payload []).Reads := by
  cases payload with
  | assignment target value => exact reads_assignment hconforms
  | variableDefinition typeName name initializer => exact reads_definition hconforms
  | callStatement expression => exact reads_call hconforms
  | returnStatement values => exact reads_return hconforms
  | replyStatement value =>
    exact reads_valued (w := "reply") hconforms rfl rfl rfl (List.all_eq_true.mp rfl)
      (by decide) (fun _ => rfl) hconforms.form_payload
  | throwStatement value =>
    exact reads_valued (w := "throw") hconforms rfl rfl rfl (List.all_eq_true.mp rfl)
      (by decide) (fun _ => rfl) hconforms.form_payload
  | breakStatement =>
    exact reads_jump (w := "break") rfl rfl rfl (List.all_eq_true.mp rfl) (by decide)
      (fun _ => rfl) rfl
  | continueStatement =>
    exact reads_jump (w := "continue") rfl rfl rfl (List.all_eq_true.mp rfl) (by decide)
      (fun _ => rfl) rfl
  | comment text => exact reads_comment hconforms
  | block | ifStatement condition | whileLoop condition | tryStatement => cases hbody
  | _ => cases hstatement

/-- A statement with clauses is split where its layout is. -/
theorem reads_if_of_layout {condition : Expression} {children : List Snapshot}
    (hconforms : (Payload.ifStatement condition).Conforms)
    (hlayout : Layout.check .ifStatement (children.map kind) = .ok ())
    (hstatements : ∀ c ∈ children, c.kind.isStatement = true → c.Reads)
    (hclauses : ∀ c ∈ children, c.kind.isClause = true → c.Ready) :
    (node (.ifStatement condition) children).Reads := by
  obtain ⟨body, elseIfs, last, hkinds, hbody, helseIfs, hlast⟩ := Layout.clauses_of_check_if hlayout
  obtain ⟨front, back, rfl, rfl, hback⟩ := List.map_eq_append_iff.mp hkinds
  obtain ⟨middle, rear, rfl, rfl, rfl⟩ := List.map_eq_append_iff.mp hback
  have hmiddle : ∀ c ∈ middle, c.kind = .elseIfClause := fun c hc =>
    helseIfs c.kind (List.mem_map_of_mem hc)
  have hrear : rear = [] ∨ ∃ c, rear = [c] ∧ c.kind = .elseClause := by
    refine hlast.imp List.map_eq_nil_iff.mp fun hone => ?_
    obtain ⟨c, rfl, hc⟩ := List.map_eq_singleton_iff.mp hone
    exact ⟨c, rfl, hc⟩
  refine reads_if hconforms (fun s hs => ?_) (fun c hc => ⟨hmiddle c hc, ?_⟩) hrear fun c hc => ?_
  · exact hstatements s (by simp [hs]) (hbody s.kind (List.mem_map_of_mem hs))
  · exact hclauses c (by simp [hc]) (by rw [hmiddle c hc]; rfl)
  · apply hclauses c (by simp [hc])
    rcases hrear with rfl | ⟨c', rfl, hkind⟩
    · cases hc
    · rw [List.mem_singleton.mp hc, hkind]
      rfl

theorem reads_try_of_layout {children : List Snapshot}
    (hlayout : Layout.check .tryStatement (children.map kind) = .ok ())
    (hcatch : ∃ c ∈ children, c.kind = .catchClause)
    (hstatements : ∀ c ∈ children, c.kind.isStatement = true → c.Reads)
    (hclauses : ∀ c ∈ children, c.kind.isClause = true → c.Ready) :
    (node .tryStatement children).Reads := by
  obtain ⟨body, last, hkinds, hbody, hlast⟩ := Layout.clauses_of_check_try hlayout
  obtain ⟨front, rear, rfl, rfl, rfl⟩ := List.map_eq_append_iff.mp hkinds
  have hfront : ∀ s ∈ front, s.kind.isStatement = true := fun s hs =>
    hbody s.kind (List.mem_map_of_mem hs)
  rcases hlast with hnone | hone
  · -- The `catch` would be among the statements.
    rw [List.map_eq_nil_iff.mp hnone, List.append_nil] at hcatch
    obtain ⟨c, hc, hkind⟩ := hcatch
    have hstatement := hfront c hc
    rw [hkind] at hstatement
    cases hstatement
  · obtain ⟨c, rfl, hkind⟩ := List.map_eq_singleton_iff.mp hone
    refine reads_try (fun s hs => ?_) hkind ?_
    · exact hstatements s (by simp [hs]) (hfront s hs)
    · exact hclauses c (by simp) (by rw [hkind]; rfl)

/-- A statement that can be spelled is read back, and so are the statements in any body. -/
theorem Spellable.reads {s : Snapshot} (h : s.Spellable) :
    (s.kind.isStatement = true → s.Reads) ∧ s.BodyReads := by
  induction h with
  | @node payload children hconforms hlayout hcatch hall ih =>
    have hstatements : ∀ c ∈ children, c.kind.isStatement = true → c.Reads := fun c hc =>
      (ih c hc).1
    have hclauses : ∀ c ∈ children, c.kind.isClause = true → c.Ready := by
      intro c hc hclause
      apply (hall c hc).ready (ih c hc).2
      all_goals cases hkind : c.kind <;> first | decide | (rw [hkind] at hclause; cases hclause)
    refine ⟨fun hstatement => ?_, hstatements⟩
    cases hbody : payload.kind.hasBody with
    | false =>
      have hunit : payload.kind ≠ .compilationUnit := by
        intro hunit
        rw [kind, Snapshot.payload, hunit] at hstatement
        cases hstatement
      rw [List.map_eq_nil_iff.mp (Layout.eq_nil_of_check hbody hunit hlayout)]
      exact reads_leaf hconforms hstatement hbody
    | true =>
      have hplain (hif : payload.kind ≠ .ifStatement) (htry : payload.kind ≠ .tryStatement) :
          ∀ c ∈ children, c.Reads := fun c hc =>
        hstatements c hc (Layout.statements_of_check hbody hif htry hlayout c.kind
          (List.mem_map_of_mem hc))
      cases payload with
      | block => exact reads_block (hplain (by decide) (by decide))
      | whileLoop condition => exact reads_while hconforms (hplain NodeKind.noConfusion NodeKind.noConfusion)
      | ifStatement condition => exact reads_if_of_layout hconforms hlayout hstatements hclauses
      | tryStatement => exact reads_try_of_layout hlayout (hcatch rfl) hstatements hclauses
      | function | elseIfClause | elseClause | catchClause => cases hstatement
      | _ => cases hbody

end Branches

end Snapshot

end ProgramTree
