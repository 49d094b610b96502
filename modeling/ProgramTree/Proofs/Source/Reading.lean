import ProgramTree.Proofs.Grammar.Bodies
import ProgramTree.Proofs.Source.Written

/-! # Written texts are read back

The text of a branch is read as a draft that spells the branch. A statement is
read up to the end of its last line; the induction carries for each node that
its body is read up to the brace that closes it, whether a clause follows the
brace or not. -/

namespace ProgramTree

set_option autoImplicit false

open Reader Snapshot

section Lines

variable {depth : Nat} {content : String} {rest : List Char}

theorem Snapshot.texts_append (ss ss' : List Snapshot) :
    texts depth (ss ++ ss') = texts depth ss ++ texts depth ss' := by
  induction ss with
  | nil => rfl
  | cons s ss ih => rw [List.cons_append, texts, texts, ih, List.append_assoc]

theorem skipSpaces_lineText (h : StartsNot isSpace (content.toList ++ '\n' :: rest)) :
    skipSpaces (lineText depth content ++ rest) = content.toList ++ '\n' :: rest := by
  have hblanks : ∀ c ∈ List.replicate (4 * depth) ' ', isSpace c = true := by
    intro c hc
    rw [List.eq_of_mem_replicate hc]
    rfl
  rw [lineText, List.append_assoc, List.append_assoc, skipSpaces_blanks hblanks]
  exact skipSpaces_of_startsNot h

theorem skipSpaces_closing : skipSpaces (lineText depth "\x7d" ++ rest) = '\x7d' :: '\n' :: rest :=
  skipSpaces_lineText (startsNot_cons.mpr rfl)

end Lines

section Bodies

/-- A statement is read up to the end of its last line, if no clause follows. -/
def Snapshot.Reads (s : Snapshot) : Prop :=
  ∀ (depth : Nat) (rest : List Char), word (skipSpaces rest) ≠ "else".toList →
    ∃ d, statement ('\n' :: (s.text depth ++ rest)) = .ok d ('\n' :: rest) ∧ d.Spells s

variable (depth : Nat) {rest final : List Char} {ss : List Snapshot}

theorem many_texts (h : ∀ s ∈ ss, s.Reads) (hrest : skipSpaces rest = '\x7d' :: final) :
    ∃ ds, many statement ('\n' :: (texts depth ss ++ rest)) = .ok ds ('\n' :: rest) ∧
      Draft.SpellAll ds ss ∧ word (skipSpaces (texts depth ss ++ rest)) ≠ "else".toList := by
  induction ss with
  | nil =>
    obtain ⟨failure, hsoft⟩ := statement_soft_closing (skipSpaces_newline.trans hrest)
    refine ⟨[], many_of_soft hsoft, trivial, ?_⟩
    have hbrace : StartsNot Name.isWordChar ('\x7d' :: final) := startsNot_cons.mpr rfl
    rw [texts, List.nil_append, hrest, word_eq_nil hbrace]
    decide
  | cons s ss ih =>
    obtain ⟨hs, hss⟩ := List.forall_mem_cons.mp h
    obtain ⟨ds, hmany, hspells, helse⟩ := ih hss
    obtain ⟨d, hread, hspell⟩ := hs depth _ helse
    rw [texts, List.append_assoc]
    refine ⟨d :: ds, many_of_ok hread ?_ hmany, ⟨hspell, hspells⟩, ?_⟩
    · have hne := List.length_pos_iff.mpr (s.text_ne_nil depth)
      simp only [List.length_cons, List.length_append]
      omega
    · have hword := word_ne_else hread
      rwa [skipSpaces_newline] at hword

theorem closeBody_texts (h : ∀ s ∈ ss, s.Reads) (hrest : skipSpaces rest = '\x7d' :: final) :
    ∃ ds, closeBody statement ('\n' :: (texts depth ss ++ rest)) = .ok ds final ∧
      Draft.SpellAll ds ss := by
  obtain ⟨ds, hmany, hspells, _⟩ := many_texts depth h hrest
  have hclose : expect '\x7d' ('\n' :: rest) = .ok () final :=
    symbolOr_of_eq (skipSpaces_newline.trans hrest)
  refine ⟨ds, ?_, hspells⟩
  show andThen (many statement) _ _ = _
  simp only [andThen, hmany, bind_apply, committed, hclose, Outcome.committed, pure_apply]

theorem body_texts {whole : List Char} (h : ∀ s ∈ ss, s.Reads)
    (hrest : skipSpaces rest = '\x7d' :: final)
    (hlength : (texts depth ss ++ rest).length + 1 < whole.length) :
    ∃ ds, body (within whole) (' ' :: '\x7b' :: '\n' :: (texts depth ss ++ rest)) = .ok ds final ∧
      Draft.SpellAll ds ss := by
  obtain ⟨ds, hclose, hspells⟩ := closeBody_texts depth h hrest
  have hopen : skipSpaces (' ' :: '\x7b' :: '\n' :: (texts depth ss ++ rest)) =
      '\x7b' :: '\n' :: (texts depth ss ++ rest) := by
    rw [skipSpaces_space]
    exact skipSpaces_of_startsNot (startsNot_cons.mpr rfl)
  exact ⟨ds, (body_eq hopen hlength).trans hclose, hspells⟩

end Bodies

section Clauses

/-- A body, the clauses behind it, and what follows the statement. -/
def bodyText (depth : Nat) (ss cs : List Snapshot) (rest : List Char) : List Char :=
  texts (depth + 1) ss ++ (texts (depth + 1) cs ++ (lineText depth "\x7d" ++ rest))

/-- What follows the brace that closes a body, where the given clauses come after it. -/
def afterBrace (depth : Nat) : List Snapshot → List Char → List Char
  | [], rest => '\n' :: rest
  | node payload children :: cs, rest =>
    ' ' :: ((SourceWriter.heading payload).toList ++
      ' ' :: '\x7b' :: '\n' :: bodyText depth children cs rest)

variable {depth : Nat} {rest whole : List Char} {cs : List Snapshot}
  (hcs : ∀ c ∈ cs, c.kind.isClause = true)
include hcs

theorem skipSpaces_clauses :
    skipSpaces (texts (depth + 1) cs ++ (lineText depth "\x7d" ++ rest)) =
      '\x7d' :: afterBrace depth cs rest := by
  cases cs with
  | nil => exact skipSpaces_closing
  | cons c cs =>
    obtain ⟨hc, _⟩ := List.forall_mem_cons.mp hcs
    cases c with
    | node payload children =>
      have hclause : payload.kind.isClause = true := hc
      have hopen : "\x7d ".toList = ['\x7d', ' '] := rfl
      have hclose : " \x7b".toList = [' ', '\x7b'] := rfl
      rw [texts, text, if_pos hclause, Nat.add_sub_cancel, List.append_assoc, List.append_assoc,
        skipSpaces_lineText (by
          rw [String.toList_append, String.toList_append, hopen]
          exact startsNot_cons.mpr rfl)]
      simp only [String.toList_append, hopen, hclose, afterBrace, bodyText, List.append_assoc,
        List.cons_append, List.nil_append]

/-- The body of a node is read up to the brace before the clauses behind it. -/
theorem body_clauses {ss : List Snapshot} (hss : ∀ s ∈ ss, s.Reads)
    (hlength : (bodyText depth ss cs rest).length + 1 < whole.length) :
    ∃ ds, body (within whole) (' ' :: '\x7b' :: '\n' :: bodyText depth ss cs rest) =
      .ok ds (afterBrace depth cs rest) ∧ Draft.SpellAll ds ss :=
  body_texts (depth + 1) hss (skipSpaces_clauses hcs) hlength

omit hcs in
theorem closeBody_bodyText (depth : Nat) {ss : List Snapshot} (hss : ∀ s ∈ ss, s.Reads)
    (rest : List Char) :
    ∃ ds, closeBody statement ('\n' :: bodyText depth ss [] rest) = .ok ds ('\n' :: rest) ∧
      Draft.SpellAll ds ss :=
  closeBody_texts (depth + 1) hss (skipSpaces_clauses (by simp))

omit hcs in
theorem length_bodyText (payload : Payload) (children : List Snapshot)
    (h : (afterBrace depth (node payload children :: cs) rest).length ≤ whole.length) :
    (bodyText depth children cs rest).length + 1 < whole.length := by
  simp only [afterBrace, List.length_cons, List.length_append] at h
  omega

omit hcs in
theorem keyword_space_run {w : String} {after : List Char}
    (hw : w.toList.all Name.isWordChar = true) :
    keyword w (w.toList ++ ' ' :: after) = .ok () (' ' :: after) :=
  keyword_run (startsNot_cons.mpr rfl) (List.all_eq_true.mp hw)

omit hcs in
/-- Behind its header an else-if clause is its body. -/
theorem elseIfClause_header {condition : Expression} {children : List Snapshot}
    (inner : Reader Draft) (hvalid : (Payload.elseIfClause condition).Conforms) :
    ∃ start, elseIfClause inner
      (afterBrace depth (node (.elseIfClause condition) children :: cs) rest) =
        (body inner (' ' :: '\x7b' :: '\n' :: bodyText depth children cs rest)).map
          (.node start (.elseIfClause (some condition))) := by
  have hskip : skipSpaces (afterBrace depth (node (.elseIfClause condition) children :: cs) rest) =
      "else".toList ++ ' ' :: ("if".toList ++ ' ' :: '(' :: (condition.text.toList ++ ')' ::
        ' ' :: '\x7b' :: '\n' :: bodyText depth children cs rest)) := by
    have hheading : (SourceWriter.heading (.elseIfClause condition)).toList = "else".toList ++
        ' ' :: ("if".toList ++ ' ' :: '(' :: (condition.text.toList ++ [')'])) := by
      simp [SourceWriter.heading]
    rw [afterBrace, skipSpaces_space, hheading, skipSpaces_of_startsNot]
    · simp only [List.append_assoc, List.cons_append, List.nil_append]
    · exact startsNot_cons.mpr rfl
  have helse : ∀ after, keyword "else" ("else".toList ++ ' ' :: after) = .ok () (' ' :: after) :=
    fun after => keyword_space_run rfl
  have hif : ∀ after, keyword "if" ("if".toList ++ ' ' :: after) = .ok () (' ' :: after) :=
    fun after => keyword_space_run rfl
  have hskipIf : ∀ after, skipSpaces (' ' :: ("if".toList ++ ' ' :: after)) =
      "if".toList ++ ' ' :: after := by
    intro after
    rw [skipSpaces_space]
    exact skipSpaces_of_startsNot (startsNot_cons.mpr rfl)
  refine ⟨(skipSpaces (afterBrace depth (node (.elseIfClause condition) children :: cs) rest)).length, ?_⟩
  rw [← bind_pure_apply]
  simp only [elseIfClause, bind_apply, andThen, spaces, hskip, position, helse, hskipIf, hif,
    condition_run hvalid]

omit hcs in
theorem elseClause_header {children : List Snapshot} (inner : Reader Draft) :
    ∃ start, elseClause inner (afterBrace depth (node .elseClause children :: cs) rest) =
      (body inner (' ' :: '\x7b' :: '\n' :: bodyText depth children cs rest)).map
        (.node start .elseClause) := by
  have hskip : skipSpaces (afterBrace depth (node .elseClause children :: cs) rest) =
      "else".toList ++ ' ' :: '\x7b' :: '\n' :: bodyText depth children cs rest := by
    rw [afterBrace, skipSpaces_space, skipSpaces_of_startsNot]
    · rfl
    · exact startsNot_cons.mpr rfl
  have helse : ∀ after, keyword "else" ("else".toList ++ ' ' :: after) = .ok () (' ' :: after) :=
    fun after => keyword_space_run rfl
  refine ⟨(skipSpaces (afterBrace depth (node .elseClause children :: cs) rest)).length, ?_⟩
  rw [← bind_pure_apply]
  simp only [elseClause, bind_apply, andThen, spaces, hskip, position, helse]

omit hcs in
theorem catchClause_header {caught name : String} {children : List Snapshot}
    (inner : Reader Draft) (hvalid : (Payload.catchClause caught name).Conforms) :
    ∃ start, catchClause inner
      (afterBrace depth (node (.catchClause caught name) children :: cs) rest) =
        (body inner (' ' :: '\x7b' :: '\n' :: bodyText depth children cs rest)).map
          (.node start (.catchClause caught name)) := by
  have hskip : skipSpaces (afterBrace depth (node (.catchClause caught name) children :: cs) rest) =
      "catch".toList ++ ' ' :: '(' :: (caught.toList ++ ' ' :: (name.toList ++ ')' ::
        ' ' :: '\x7b' :: '\n' :: bodyText depth children cs rest)) := by
    have hheading : (SourceWriter.heading (.catchClause caught name)).toList = "catch".toList ++
        ' ' :: '(' :: (caught.toList ++ ' ' :: (name.toList ++ [')'])) := by
      simp [SourceWriter.heading]
    rw [afterBrace, skipSpaces_space, hheading, skipSpaces_of_startsNot]
    · simp only [List.append_assoc, List.cons_append, List.nil_append]
    · exact startsNot_cons.mpr rfl
  have hcatch : ∀ after, catchKeyword ("catch".toList ++ ' ' :: after) = .ok () (' ' :: after) := by
    intro after
    rw [catchKeyword, keyword_space_run rfl]
  have hopen : ∀ after, expect '(' (' ' :: '(' :: after) = .ok () after := fun _ =>
    symbol_space_run _ (rfl : isSpace '(' = false)
  have hclose : ∀ after, expect ')' (')' :: after) = .ok () after := fun _ =>
    symbol_run _ (rfl : isSpace ')' = false)
  have hword : StartsNot Name.isWordChar
      (')' :: ' ' :: '\x7b' :: '\n' :: bodyText depth children cs rest) :=
    startsNot_cons.mpr rfl
  obtain ⟨hskipType, htypeRun, hskipName, hnameRun⟩ := declared_run hvalid.1 hvalid.2 hword
  refine ⟨(skipSpaces (afterBrace depth (node (.catchClause caught name) children :: cs) rest)).length, ?_⟩
  rw [← bind_pure_apply]
  simp only [catchClause, bind_apply, andThen, spaces, hskip, position, hcatch, committed, hopen,
    hskipType, htypeRun, hskipName, hnameRun, hclose, Outcome.committed, pure_apply,
    String.ofList_toList]

theorem elseIfClause_run {condition : Expression} {children : List Snapshot}
    (hvalid : (Payload.elseIfClause condition).Conforms) (hchildren : ∀ s ∈ children, s.Reads)
    (hlength : (afterBrace depth (node (.elseIfClause condition) children :: cs) rest).length ≤
      whole.length) :
    ∃ d, elseIfClause (within whole)
      (afterBrace depth (node (.elseIfClause condition) children :: cs) rest) =
        .ok d (afterBrace depth cs rest) ∧ d.Spells (node (.elseIfClause condition) children) := by
  obtain ⟨ds, hbody, hspells⟩ := body_clauses hcs hchildren (length_bodyText _ _ hlength)
  obtain ⟨start, hheader⟩ := elseIfClause_header (within whole) hvalid
  rw [hheader, hbody]
  exact ⟨_, rfl, hvalid.form_payload, hspells⟩

theorem elseClause_run {children : List Snapshot} (hchildren : ∀ s ∈ children, s.Reads)
    (hlength : (afterBrace depth (node .elseClause children :: cs) rest).length ≤ whole.length) :
    ∃ d, elseClause (within whole) (afterBrace depth (node .elseClause children :: cs) rest) =
      .ok d (afterBrace depth cs rest) ∧ d.Spells (node .elseClause children) := by
  obtain ⟨ds, hbody, hspells⟩ := body_clauses hcs hchildren (length_bodyText _ _ hlength)
  obtain ⟨start, hheader⟩ := elseClause_header (within whole)
  rw [hheader, hbody]
  exact ⟨_, rfl, rfl, hspells⟩

theorem catchClause_run {caught name : String} {children : List Snapshot}
    (hvalid : (Payload.catchClause caught name).Conforms) (hchildren : ∀ s ∈ children, s.Reads)
    (hlength : (afterBrace depth (node (.catchClause caught name) children :: cs) rest).length ≤
      whole.length) :
    ∃ d, catchClause (within whole)
      (afterBrace depth (node (.catchClause caught name) children :: cs) rest) =
        .ok d (afterBrace depth cs rest) ∧ d.Spells (node (.catchClause caught name) children) := by
  obtain ⟨ds, hbody, hspells⟩ := body_clauses hcs hchildren (length_bodyText _ _ hlength)
  obtain ⟨start, hheader⟩ := catchClause_header (within whole) hvalid
  rw [hheader, hbody]
  exact ⟨_, rfl, hvalid.form_payload, hspells⟩

theorem length_afterBrace_lt_bodyText (depth : Nat) (ss : List Snapshot) (rest : List Char) :
    (afterBrace depth cs rest).length < (bodyText depth ss cs rest).length := by
  have hskip := length_skipSpaces_le (texts (depth + 1) cs ++ (lineText depth "\x7d" ++ rest))
  rw [skipSpaces_clauses hcs, List.length_cons] at hskip
  rw [bodyText, List.length_append]
  omega

/-- Each clause takes its part of the text. -/
theorem length_afterBrace_lt {c : Snapshot} :
    (afterBrace depth cs rest).length < (afterBrace depth (c :: cs) rest).length := by
  cases c with
  | node payload children =>
    have hlt : (afterBrace depth cs rest).length < (bodyText depth children cs rest).length :=
      length_afterBrace_lt_bodyText hcs depth children rest
    simp only [afterBrace, List.length_cons, List.length_append] at hlt ⊢
    omega

end Clauses

section LastClauses

/-- The payload conforms, and the children are read as statements. -/
def Snapshot.Ready : Snapshot → Prop
  | node payload children => payload.Conforms ∧ ∀ s ∈ children, s.Reads

variable {depth : Nat} {rest whole : List Char} {cs last : List Snapshot}
  (hlast : last = [] ∨ ∃ c, last = [c] ∧ c.kind = .elseClause)
  (hrest : word (skipSpaces rest) ≠ "else".toList)
include hlast hrest

/-- No else-if clause is read where an else clause or none comes next. -/
theorem elseIfClause_soft :
    ∃ failure, elseIfClause (within whole) (afterBrace depth last rest) = .soft failure := by
  rcases hlast with rfl | ⟨⟨payload, children⟩, rfl, hkind⟩
  · have hkeyword : keyword "else" (skipSpaces rest) = unexpected (skipSpaces rest) :=
      if_neg hrest
    exact ⟨⟨.unexpected, skipSpaces rest⟩, by
      simp only [elseIfClause, bind_apply, andThen, spaces, afterBrace, skipSpaces_newline,
        position, hkeyword, unexpected]⟩
  · cases payload with
    | elseClause =>
      have hskip : skipSpaces (afterBrace depth [node .elseClause children] rest) =
          "else".toList ++ ' ' :: '\x7b' :: '\n' :: bodyText depth children [] rest := by
        rw [afterBrace, skipSpaces_space, skipSpaces_of_startsNot]
        · rfl
        · exact startsNot_cons.mpr rfl
      have helse : ∀ after, keyword "else" ("else".toList ++ ' ' :: after) = .ok () (' ' :: after) :=
        fun after => keyword_space_run rfl
      have hbrace : ∀ after, skipSpaces (' ' :: '\x7b' :: after) = '\x7b' :: after := by
        intro after
        rw [skipSpaces_space]
        exact skipSpaces_of_startsNot (startsNot_cons.mpr rfl)
      have hif : ∀ after, keyword "if" ('\x7b' :: after) = unexpected ('\x7b' :: after) := by
        intro after
        have hstart : StartsNot Name.isWordChar ('\x7b' :: after) := startsNot_cons.mpr rfl
        rw [keyword, word_eq_nil hstart, if_neg (by decide)]
      refine ⟨⟨.unexpected, '\x7b' :: '\n' :: bodyText depth children [] rest⟩, ?_⟩
      simp only [elseIfClause, bind_apply, andThen, spaces, hskip, position, helse, hbrace, hif,
        unexpected]
    | _ => cases hkind

omit hrest in
theorem isClause_of_last (hcs : ∀ c ∈ cs, c.kind = .elseIfClause) :
    ∀ c ∈ cs ++ last, c.kind.isClause = true := by
  intro c hc
  rcases List.mem_append.mp hc with hc | hc
  · rw [hcs c hc]
    rfl
  · rcases hlast with rfl | ⟨c', rfl, hkind⟩
    · cases hc
    · rw [List.mem_singleton.mp hc, hkind]
      rfl

theorem elseIfs_run (hcs : ∀ c ∈ cs, c.kind = .elseIfClause ∧ c.Ready)
    (hlength : (afterBrace depth (cs ++ last) rest).length ≤ whole.length) :
    ∃ ds, many (elseIfClause (within whole)) (afterBrace depth (cs ++ last) rest) =
      .ok ds (afterBrace depth last rest) ∧ Draft.SpellAll ds cs ∧
      (afterBrace depth last rest).length ≤ whole.length := by
  induction cs with
  | nil =>
    obtain ⟨failure, hsoft⟩ := elseIfClause_soft hlast hrest
    exact ⟨[], many_of_soft hsoft, trivial, hlength⟩
  | cons c cs ih =>
    obtain ⟨⟨hkind, hready⟩, hothers⟩ := List.forall_mem_cons.mp hcs
    have hclauses := isClause_of_last hlast fun c hc => (hothers c hc).1
    rw [List.cons_append] at hlength ⊢
    have hshorter : (afterBrace depth (cs ++ last) rest).length <
        (afterBrace depth (c :: (cs ++ last)) rest).length := length_afterBrace_lt hclauses
    obtain ⟨ds, hmany, hspells, hlengthLast⟩ := ih hothers (by omega)
    obtain ⟨payload, children⟩ := c
    cases payload with
    | elseIfClause condition =>
      obtain ⟨d, hread, hspell⟩ := elseIfClause_run hclauses hready.1 hready.2 hlength
      exact ⟨d :: ds, many_of_ok hread hshorter hmany, ⟨hspell, hspells⟩, hlengthLast⟩
    | _ => cases hkind

theorem lastElse_run (hready : ∀ c ∈ last, c.Ready)
    (hlength : (afterBrace depth last rest).length ≤ whole.length) :
    ∃ d, optional (elseClause (within whole)) (afterBrace depth last rest) =
      .ok d ('\n' :: rest) ∧ Draft.SpellAll d.toList last := by
  rcases hlast with rfl | ⟨⟨payload, children⟩, rfl, hkind⟩
  · have hkeyword : keyword "else" (skipSpaces rest) = unexpected (skipSpaces rest) :=
      if_neg hrest
    have hsoft : elseClause (within whole) ('\n' :: rest) = .soft ⟨.unexpected, skipSpaces rest⟩ := by
      simp only [elseClause, bind_apply, andThen, spaces, skipSpaces_newline, position, hkeyword,
        unexpected]
    exact ⟨none, optional_of_soft hsoft, trivial⟩
  · cases payload with
    | elseClause =>
      obtain ⟨_, hchildren⟩ := hready _ List.mem_cons_self
      obtain ⟨d, hread, hspell⟩ := elseClause_run (List.forall_mem_nil _) hchildren hlength
      exact ⟨some d, optional_of_ok hread, hspell, trivial⟩
    | _ => cases hkind

end LastClauses

end ProgramTree
