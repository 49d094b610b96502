import ProgramTree.Proofs.Source.RoundTrip

/-! # Texts of trees without a `catch`

A tree may hold a `try` without a `catch`, since a `catch` can be removed, or
never be put in. Such a tree has a text like any other, but the reader stops
behind the body of the first such `try`. The failure is hard, so whatever the
statement is a part of fails in the same way. -/

namespace ProgramTree

set_option autoImplicit false

open Reader Snapshot

section Outcomes

variable {α β : Type}

/-- The reading has stopped for want of a `catch`. -/
def Outcome.LacksCatch (outcome : Outcome α) : Prop :=
  ∃ rest, outcome = .hard ⟨.expectedWord "catch", rest⟩

theorem Outcome.LacksCatch.map {outcome : Outcome α} (h : outcome.LacksCatch) (f : α → β) :
    (outcome.map f).LacksCatch := by
  obtain ⟨rest, rfl⟩ := h
  exact ⟨rest, rfl⟩

variable {first item : Reader α} {text mid : List Char}

theorem lacksCatch_bind (h : (first text).LacksCatch) (next : α → Reader β) :
    ((first >>= next) text).LacksCatch := by
  obtain ⟨rest, hfirst⟩ := h
  exact ⟨rest, by rw [bind_apply, andThen, hfirst]⟩

theorem lacksCatch_bind_of_ok {a : α} {next : α → Reader β} (h : first text = .ok a mid)
    (h' : (next a mid).LacksCatch) : ((first >>= next) text).LacksCatch := by
  rwa [bind_of_ok h]

theorem lacksCatch_optional (h : (item text).LacksCatch) : (optional item text).LacksCatch := by
  obtain ⟨rest, hitem⟩ := h
  exact ⟨rest, by rw [Reader.optional, hitem]⟩

theorem lacksCatch_many (h : (item text).LacksCatch) : (many item text).LacksCatch := by
  obtain ⟨rest, hitem⟩ := h
  exact ⟨rest, by rw [many, hitem]⟩

theorem lacksCatch_many_of_ok {a : α} (h : item text = .ok a mid)
    (hlength : mid.length < text.length) (h' : (many item mid).LacksCatch) :
    (many item text).LacksCatch := by
  obtain ⟨rest, hmany⟩ := h'
  exact ⟨rest, by rw [many, h]; simp only [if_pos hlength, hmany]⟩

end Outcomes

namespace Snapshot

variable {ss cs : List Snapshot}

/-- No clause comes next. -/
def NoClause (rest : List Char) : Prop :=
  word (skipSpaces rest) ≠ "else".toList ∧ word (skipSpaces rest) ≠ "catch".toList

/-- The text of the statement is not read, for want of a `catch`, if no clause follows. -/
def Breaks (s : Snapshot) : Prop :=
  ∀ (depth : Nat) (rest : List Char), NoClause rest →
    (statement ('\n' :: (s.text depth ++ rest))).LacksCatch

/-- The statements of a body are not all read, for want of a `catch`. -/
def BodyBreaks (ss : List Snapshot) : Prop :=
  ∀ (depth : Nat) (rest final : List Char), skipSpaces rest = '\x7d' :: final →
    (many statement ('\n' :: (texts depth ss ++ rest))).LacksCatch

section Bodies

variable {depth : Nat} {rest final whole : List Char}

/-- What is read or stops for want of a `catch` does not begin like a clause. -/
theorem noClause_of_statement {s : Snapshot} (h : s.Reads ∨ s.Breaks) (hrest : NoClause rest) :
    NoClause (s.text depth ++ rest) := by
  have hsoft : ¬ ∃ failure, statement ('\n' :: (s.text depth ++ rest)) = .soft failure := by
    rintro ⟨failure, hsoft⟩
    rcases h with hreads | hbreaks
    · obtain ⟨d, hread, _⟩ := hreads depth rest hrest.1
      rw [hsoft] at hread
      cases hread
    · obtain ⟨_, hread⟩ := hbreaks depth rest hrest
      rw [hsoft] at hread
      cases hread
  constructor
  · exact fun helse => hsoft (statement_soft_clause (Or.inl rfl) helse)
  · exact fun hcatch => hsoft (statement_soft_clause (Or.inr rfl) hcatch)

theorem noClause_closing (h : skipSpaces rest = '\x7d' :: final) : NoClause rest := by
  have hbrace : StartsNot Name.isWordChar ('\x7d' :: final) := startsNot_cons.mpr rfl
  rw [NoClause, h, word_eq_nil hbrace]
  decide

theorem noClause_texts (h : ∀ s ∈ ss, s.Reads ∨ s.Breaks)
    (hrest : skipSpaces rest = '\x7d' :: final) : NoClause (texts depth ss ++ rest) := by
  induction ss with
  | nil => exact noClause_closing hrest
  | cons s ss ih =>
    obtain ⟨hs, hss⟩ := List.forall_mem_cons.mp h
    rw [texts, List.append_assoc]
    exact noClause_of_statement hs (ih hss)

/-- The first statement that breaks breaks its body. -/
theorem bodyBreaks_of_exists (h : ∀ s ∈ ss, s.Reads ∨ s.Breaks) (hbreaks : ∃ s ∈ ss, s.Breaks) :
    BodyBreaks ss := by
  intro depth rest final hrest
  induction ss with
  | nil =>
    obtain ⟨s, hs, _⟩ := hbreaks
    cases hs
  | cons s ss ih =>
    obtain ⟨hs, hss⟩ := List.forall_mem_cons.mp h
    have hnext : NoClause (texts depth ss ++ rest) := noClause_texts hss hrest
    rw [texts, List.append_assoc]
    by_cases hfirst : s.Breaks
    · exact lacksCatch_many (hfirst depth _ hnext)
    · have hmore := (List.or_exists_of_exists_mem_cons hbreaks).resolve_left hfirst
      obtain ⟨d, hread, _⟩ := (hs.resolve_right hfirst) depth _ hnext.1
      refine lacksCatch_many_of_ok hread ?_ (ih hss hmore)
      have hne := List.length_pos_iff.mpr (s.text_ne_nil depth)
      simp only [List.length_cons, List.length_append]
      omega

theorem BodyBreaks.closeBody (h : BodyBreaks ss) (hrest : skipSpaces rest = '\x7d' :: final) :
    (Reader.closeBody statement ('\n' :: (texts depth ss ++ rest))).LacksCatch :=
  lacksCatch_bind (h depth rest final hrest) _

theorem BodyBreaks.body (h : BodyBreaks ss) (hcs : ∀ c ∈ cs, c.kind.isClause = true)
    (hlength : (bodyText depth ss cs rest).length + 1 < whole.length) :
    (Reader.body (within whole)
      (' ' :: '\x7b' :: '\n' :: bodyText depth ss cs rest)).LacksCatch := by
  have hopen : skipSpaces (' ' :: '\x7b' :: '\n' :: bodyText depth ss cs rest) =
      '\x7b' :: '\n' :: bodyText depth ss cs rest := by
    rw [skipSpaces_space]
    exact skipSpaces_of_startsNot (startsNot_cons.mpr rfl)
  rw [body_eq hopen hlength]
  exact h.closeBody (skipSpaces_clauses hcs)

/-- What comes behind a body is read only if no statement in the body breaks. -/
theorem lacksCatch_body {β : Type} {next : List Draft → Reader β}
    (h : ∀ s ∈ ss, s.Reads ∨ s.Breaks) (hcs : ∀ c ∈ cs, c.kind.isClause = true)
    (hlength : (bodyText depth ss cs rest).length + 1 < whole.length)
    (hnext : (¬ ∃ s ∈ ss, s.Breaks) → ∀ ds, (next ds (afterBrace depth cs rest)).LacksCatch) :
    ((Reader.body (within whole) >>= next)
      (' ' :: '\x7b' :: '\n' :: bodyText depth ss cs rest)).LacksCatch := by
  by_cases hbreaks : ∃ s ∈ ss, s.Breaks
  · exact lacksCatch_bind ((bodyBreaks_of_exists h hbreaks).body hcs hlength) next
  · have hreads : ∀ s ∈ ss, s.Reads := fun s hs =>
      (h s hs).resolve_right fun hs' => hbreaks ⟨s, hs, hs'⟩
    obtain ⟨ds, hread, _⟩ := body_clauses hcs hreads hlength
    exact lacksCatch_bind_of_ok hread (hnext hbreaks ds)

end Bodies

section Clauses

/-- The statements in the body of a clause or a function are not all read, for want of a `catch`. -/
def BreaksInside : Snapshot → Prop
  | node payload children => payload.Conforms ∧ BodyBreaks children

variable {depth : Nat} {rest whole : List Char} {c : Snapshot}
  (hcs : ∀ c ∈ cs, c.kind.isClause = true)
  (hlength : (afterBrace depth (c :: cs) rest).length ≤ whole.length)
include hcs hlength

theorem BreaksInside.elseIfClause (h : c.BreaksInside) (hkind : c.kind = .elseIfClause) :
    (Reader.elseIfClause (within whole) (afterBrace depth (c :: cs) rest)).LacksCatch := by
  obtain ⟨payload, children⟩ := c
  cases payload with
  | elseIfClause condition =>
    obtain ⟨start, hheader⟩ := elseIfClause_header (within whole) h.1
    rw [hheader]
    exact (h.2.body hcs (length_bodyText _ _ hlength)).map _
  | _ => cases hkind

theorem BreaksInside.elseClause (h : c.BreaksInside) (hkind : c.kind = .elseClause) :
    (Reader.elseClause (within whole) (afterBrace depth (c :: cs) rest)).LacksCatch := by
  obtain ⟨payload, children⟩ := c
  cases payload with
  | elseClause =>
    obtain ⟨start, hheader⟩ := elseClause_header (within whole)
    rw [hheader]
    exact (h.2.body hcs (length_bodyText _ _ hlength)).map _
  | _ => cases hkind

theorem BreaksInside.catchClause (h : c.BreaksInside) (hkind : c.kind = .catchClause) :
    (Reader.catchClause (within whole) (afterBrace depth (c :: cs) rest)).LacksCatch := by
  obtain ⟨payload, children⟩ := c
  cases payload with
  | catchClause caught name =>
    obtain ⟨start, hheader⟩ := catchClause_header (within whole) h.1
    rw [hheader]
    exact (h.2.body hcs (length_bodyText _ _ hlength)).map _
  | _ => cases hkind

end Clauses

section Statements

variable {depth : Nat} {rest whole : List Char} {body elseIfs last : List Snapshot}

theorem breaks_block (h : BodyBreaks ss) : (node .block ss).Breaks := by
  intro depth rest _
  obtain ⟨start, hheader⟩ := block_header (rfl : '\n' :: ((node .block ss).text depth ++ rest) = _)
  rw [hheader]
  exact (h.closeBody (skipSpaces_clauses (List.forall_mem_nil _))).map _

theorem breaks_while {condition : Expression} (hvalid : (Payload.whileLoop condition).Conforms)
    (h : BodyBreaks ss) : (node (.whileLoop condition) ss).Breaks := by
  intro depth rest _
  obtain ⟨hlength, start, hheader⟩ := while_header hvalid rfl
  rw [hheader]
  exact (h.body (List.forall_mem_nil _) hlength).map _

/-- The first else-if clause that breaks breaks the reading of them all. -/
theorem elseIfs_break (hlast : last = [] ∨ ∃ c, last = [c] ∧ c.kind = .elseClause)
    (hcs : ∀ c ∈ cs, c.kind = .elseIfClause ∧ (c.Ready ∨ c.BreaksInside))
    (hbreaks : ∃ c ∈ cs, c.BreaksInside)
    (hlength : (afterBrace depth (cs ++ last) rest).length ≤ whole.length) :
    (many (Reader.elseIfClause (within whole))
      (afterBrace depth (cs ++ last) rest)).LacksCatch := by
  induction cs with
  | nil =>
    obtain ⟨c, hc, _⟩ := hbreaks
    cases hc
  | cons c cs ih =>
    obtain ⟨⟨hkind, hready⟩, hothers⟩ := List.forall_mem_cons.mp hcs
    have hclauses := isClause_of_last hlast fun c hc => (hothers c hc).1
    rw [List.cons_append] at hlength ⊢
    have hshorter : (afterBrace depth (cs ++ last) rest).length <
        (afterBrace depth (c :: (cs ++ last)) rest).length := length_afterBrace_lt hclauses
    by_cases hfirst : c.BreaksInside
    · exact lacksCatch_many (hfirst.elseIfClause hclauses hlength hkind)
    · have hready := hready.resolve_right hfirst
      have hmore := (List.or_exists_of_exists_mem_cons hbreaks).resolve_left hfirst
      obtain ⟨payload, children⟩ := c
      cases payload with
      | elseIfClause condition =>
        obtain ⟨d, hread, _⟩ := elseIfClause_run hclauses hready.1 hready.2 hlength
        exact lacksCatch_many_of_ok hread hshorter (ih hothers hmore (by omega))
      | _ => cases hkind

theorem breaks_if {condition : Expression} (hvalid : (Payload.ifStatement condition).Conforms)
    (hbody : ∀ s ∈ body, s.Reads ∨ s.Breaks)
    (helseIfs : ∀ c ∈ elseIfs, c.kind = .elseIfClause ∧ (c.Ready ∨ c.BreaksInside))
    (hlast : last = [] ∨ ∃ c, last = [c] ∧ c.kind = .elseClause)
    (hbreaks : (∃ s ∈ body, s.Breaks) ∨ (∃ c ∈ elseIfs, c.BreaksInside) ∨
      ∃ c ∈ last, c.BreaksInside) :
    (node (.ifStatement condition) (body ++ (elseIfs ++ last))).Breaks := by
  intro depth rest hrest
  obtain ⟨hlength, start, hheader⟩ := if_header hvalid rfl
  generalize '\n' :: ((node (.ifStatement condition) (body ++ (elseIfs ++ last))).text depth ++
    rest) = source at hlength hheader ⊢
  have hclauses := isClause_of_last hlast fun c hc => (helseIfs c hc).1
  have hshorter := length_afterBrace_lt_bodyText hclauses depth body rest
  have hlengthIfs : (afterBrace depth (elseIfs ++ last) rest).length ≤ source.length := by omega
  rw [hheader]
  refine lacksCatch_body hbody hclauses hlength fun hfirst ds => ?_
  by_cases hsecond : ∃ c ∈ elseIfs, c.BreaksInside
  · exact lacksCatch_bind (elseIfs_break hlast helseIfs hsecond hlengthIfs) _
  have hready : ∀ c ∈ elseIfs, c.kind = .elseIfClause ∧ c.Ready := fun c hc =>
    ⟨(helseIfs c hc).1, (helseIfs c hc).2.resolve_right fun hc' => hsecond ⟨c, hc, hc'⟩⟩
  obtain ⟨ds', hmany, _, hlengthLast⟩ := elseIfs_run hlast hrest.1 hready hlengthIfs
  refine lacksCatch_bind_of_ok hmany ?_
  obtain ⟨c, hc, hinside⟩ := (hbreaks.resolve_left hfirst).resolve_left hsecond
  rcases hlast with rfl | ⟨c', rfl, hkind⟩
  · cases hc
  · rw [List.mem_singleton.mp hc] at hinside
    exact lacksCatch_bind
      (lacksCatch_optional (hinside.elseClause (List.forall_mem_nil _) hlengthLast hkind)) _

theorem breaks_try {c : Snapshot} (hbody : ∀ s ∈ body, s.Reads ∨ s.Breaks)
    (hkind : c.kind = .catchClause) (hbreaks : (∃ s ∈ body, s.Breaks) ∨ c.BreaksInside) :
    (node .tryStatement (body ++ [c])).Breaks := by
  intro depth rest _
  obtain ⟨hlength, start, hheader⟩ := try_header rfl
  generalize '\n' :: ((node .tryStatement (body ++ [c])).text depth ++ rest) = source
    at hlength hheader ⊢
  have hclauses : ∀ c' ∈ [c], c'.kind.isClause = true := by
    intro c' hc'
    rw [List.mem_singleton.mp hc', hkind]
    rfl
  have hshorter := length_afterBrace_lt_bodyText hclauses depth body rest
  have hlengthLast : (afterBrace depth [c] rest).length ≤ source.length := by omega
  rw [hheader]
  refine lacksCatch_body hbody hclauses hlength fun hfirst ds => lacksCatch_bind ?_ _
  exact (hbreaks.resolve_left hfirst).catchClause (List.forall_mem_nil _) hlengthLast hkind

/-- Behind the body of a `try` the reader stops at anything but a `catch`. -/
theorem breaks_try_alone (hbody : ∀ s ∈ body, s.Reads ∨ s.Breaks) :
    (node .tryStatement body).Breaks := by
  intro depth rest hrest
  have htext : body = body ++ [] := (List.append_nil body).symm
  obtain ⟨hlength, start, hheader⟩ := try_header (congrArg
    (fun ss => '\n' :: ((node .tryStatement ss).text depth ++ rest)) htext)
  rw [hheader]
  refine lacksCatch_body hbody (List.forall_mem_nil _) hlength fun _ ds =>
    lacksCatch_bind ⟨skipSpaces rest, ?_⟩ _
  have hkeyword : keyword "catch" (skipSpaces rest) = unexpected (skipSpaces rest) :=
    if_neg hrest.2
  simp only [Reader.catchClause, bind_apply, andThen, spaces, afterBrace, skipSpaces_newline,
    position, catchKeyword, hkeyword, unexpected]

end Statements

section Branches

variable {children : List Snapshot}

/-- The statement, or the body of the clause or the function, is not read for want of a `catch`. -/
def Fails (s : Snapshot) : Prop :=
  (s.kind.isStatement = true → s.Breaks) ∧ (s.kind.isStatement = false → s.BreaksInside)

/-- The children of a node are read, or they fail. -/
structure Settled (children : List Snapshot) : Prop where
  statements : ∀ c ∈ children, c.kind.isStatement = true → c.Reads ∨ c.Breaks
  clauses : ∀ c ∈ children, c.kind.isClause = true → c.Ready ∨ c.BreaksInside

theorem isStatement_of_isClause {kind : NodeKind} (h : kind.isClause = true) :
    kind.isStatement = false := by
  cases kind <;> first | rfl | cases h

theorem breaks_if_of_layout {condition : Expression}
    (hconforms : (Payload.ifStatement condition).Conforms)
    (hlayout : Layout.check .ifStatement (children.map kind) = .ok ()) (h : Settled children)
    (hfails : ∃ c ∈ children, c.Fails) : (node (.ifStatement condition) children).Breaks := by
  obtain ⟨body, elseIfs, last, hkinds, hbody, helseIfs, hlast⟩ := Layout.clauses_of_check_if hlayout
  obtain ⟨front, back, rfl, rfl, hback⟩ := List.map_eq_append_iff.mp hkinds
  obtain ⟨middle, rear, rfl, rfl, rfl⟩ := List.map_eq_append_iff.mp hback
  have hfront : ∀ s ∈ front, s.kind.isStatement = true := fun s hs =>
    hbody s.kind (List.mem_map_of_mem hs)
  have hmiddle : ∀ c ∈ middle, c.kind = .elseIfClause := fun c hc =>
    helseIfs c.kind (List.mem_map_of_mem hc)
  have hrear : rear = [] ∨ ∃ c, rear = [c] ∧ c.kind = .elseClause := by
    refine hlast.imp List.map_eq_nil_iff.mp fun hone => ?_
    obtain ⟨c, rfl, hc⟩ := List.map_eq_singleton_iff.mp hone
    exact ⟨c, rfl, hc⟩
  have hclause : ∀ c ∈ middle ++ rear, c.kind.isClause = true := isClause_of_last hrear hmiddle
  refine breaks_if hconforms (fun s hs => ?_) (fun c hc => ⟨hmiddle c hc, ?_⟩) hrear ?_
  · exact h.statements s (List.mem_append_left _ hs) (hfront s hs)
  · have hmem : c ∈ middle ++ rear := List.mem_append_left _ hc
    exact h.clauses c (List.mem_append_right _ hmem) (hclause c hmem)
  · obtain ⟨c, hc, hfails⟩ := hfails
    rcases List.mem_append.mp hc with hc | hc
    · exact Or.inl ⟨c, hc, hfails.1 (hfront c hc)⟩
    · have hinside := hfails.2 (isStatement_of_isClause (hclause c hc))
      exact Or.inr ((List.mem_append.mp hc).imp (fun hc => ⟨c, hc, hinside⟩)
        fun hc => ⟨c, hc, hinside⟩)

theorem breaks_try_of_layout
    (hlayout : Layout.check .tryStatement (children.map kind) = .ok ()) (h : Settled children)
    (hfails : (∃ c ∈ children, c.kind = .catchClause) → ∃ c ∈ children, c.Fails) :
    (node .tryStatement children).Breaks := by
  obtain ⟨body, last, hkinds, hbody, hlast⟩ := Layout.clauses_of_check_try hlayout
  obtain ⟨front, rear, rfl, rfl, rfl⟩ := List.map_eq_append_iff.mp hkinds
  have hfront : ∀ s ∈ front, s.kind.isStatement = true := fun s hs =>
    hbody s.kind (List.mem_map_of_mem hs)
  have hsettled : ∀ s ∈ front, s.Reads ∨ s.Breaks := fun s hs =>
    h.statements s (List.mem_append_left _ hs) (hfront s hs)
  rcases hlast with hnone | hone
  · rw [List.map_eq_nil_iff.mp hnone, List.append_nil]
    exact breaks_try_alone hsettled
  · obtain ⟨c, rfl, hkind⟩ := List.map_eq_singleton_iff.mp hone
    refine breaks_try hsettled hkind ?_
    obtain ⟨c', hc', hfails⟩ := hfails ⟨c, by simp, hkind⟩
    rcases List.mem_append.mp hc' with hc' | hc'
    · exact Or.inl ⟨c', hc', hfails.1 (hfront c' hc')⟩
    · rw [List.mem_singleton.mp hc'] at hfails
      exact Or.inr (hfails.2 (by rw [hkind]; rfl))

/-- Where a body has no clauses, it breaks at a statement that fails. -/
theorem bodyBreaks_of_layout {parent : NodeKind} (hbody : parent.hasBody = true)
    (hif : parent ≠ .ifStatement) (htry : parent ≠ .tryStatement)
    (hlayout : Layout.check parent (children.map kind) = .ok ()) (h : Settled children)
    (hfails : ∃ c ∈ children, c.Fails) : BodyBreaks children := by
  have hstatement : ∀ c ∈ children, c.kind.isStatement = true := fun c hc =>
    Layout.statements_of_check hbody hif htry hlayout c.kind (List.mem_map_of_mem hc)
  obtain ⟨c, hc, hfails⟩ := hfails
  exact bodyBreaks_of_exists (fun s hs => h.statements s hs (hstatement s hs))
    ⟨c, hc, hfails.1 (hstatement c hc)⟩

/-- An admissible branch below a unit can be spelled, or it fails. -/
theorem Admissible.spellable_or_fails {s : Snapshot} (h : s.Admissible)
    (hunit : s.kind ≠ .compilationUnit) : s.Spellable ∨ s.Fails := by
  induction h with
  | @node payload children hconforms hlayout hall ih =>
    have hkinds : ∀ c ∈ children, c.kind.isStatement = true ∨ c.kind.isClause = true := fun c hc =>
      Layout.statement_or_clause_of_check hunit hlayout c.kind (List.mem_map_of_mem hc)
    have hchildren : ∀ c ∈ children, c.Spellable ∨ c.Fails := by
      refine fun c hc => ih c hc fun hck => ?_
      have hkind := hkinds c hc
      rw [hck] at hkind
      rcases hkind with hkind | hkind <;> cases hkind
    have hsettled : Settled children := by
      constructor
      · exact fun c hc hstatement =>
          (hchildren c hc).imp (fun hspell => hspell.reads.1 hstatement) fun hfails =>
            hfails.1 hstatement
      · intro c hc hclause
        refine (hchildren c hc).imp (fun hspell => hspell.ready hspell.reads.2 ?_ ?_ ?_)
          fun hfails => hfails.2 (isStatement_of_isClause hclause)
        all_goals cases hkind : c.kind <;> first | decide | (rw [hkind] at hclause; cases hclause)
    by_cases hspell : (Snapshot.node payload children).Spellable
    · exact Or.inl hspell
    have hfails : (payload.kind = .tryStatement → ∃ c ∈ children, c.kind = .catchClause) →
        ∃ c ∈ children, c.Fails := by
      intro hcatch
      by_contra hnone
      refine hspell (.node hconforms hlayout hcatch fun c hc => ?_)
      exact (hchildren c hc).resolve_right fun hc' => hnone ⟨c, hc, hc'⟩
    have hbreaks (hbody : payload.kind.hasBody = true) (hif : payload.kind ≠ .ifStatement)
        (htry : payload.kind ≠ .tryStatement) : BodyBreaks children :=
      bodyBreaks_of_layout hbody hif htry hlayout hsettled (hfails fun he => absurd he htry)
    -- a node without a body has no child that could fail
    have hleaf (hbody : payload.kind.hasBody = false) : False := by
      obtain ⟨c, hc, _⟩ := hfails fun htry => by rw [htry] at hbody; cases hbody
      have hnil := Layout.eq_nil_of_check hbody hunit hlayout
      rw [List.map_eq_nil_iff.mp hnil] at hc
      cases hc
    refine Or.inr ?_
    cases payload with
    | compilationUnit package => exact absurd rfl hunit
    | function name params returns => exact ⟨nofun, fun _ => ⟨hconforms, hbreaks rfl nofun nofun⟩⟩
    | block => exact ⟨fun _ => breaks_block (hbreaks rfl nofun nofun), nofun⟩
    | ifStatement condition =>
      exact ⟨fun _ => breaks_if_of_layout hconforms hlayout hsettled (hfails nofun), nofun⟩
    | elseIfClause condition => exact ⟨nofun, fun _ => ⟨hconforms, hbreaks rfl nofun nofun⟩⟩
    | elseClause => exact ⟨nofun, fun _ => ⟨hconforms, hbreaks rfl nofun nofun⟩⟩
    | whileLoop condition =>
      exact ⟨fun _ => breaks_while hconforms (hbreaks rfl nofun nofun), nofun⟩
    | tryStatement =>
      exact ⟨fun _ => breaks_try_of_layout hlayout hsettled fun hcatch => hfails fun _ => hcatch,
        nofun⟩
    | catchClause caught name => exact ⟨nofun, fun _ => ⟨hconforms, hbreaks rfl nofun nofun⟩⟩
    | _ => exact (hleaf rfl).elim

end Branches

section Units

variable {items : List Snapshot}

/-- The function is not read, for want of a `catch` in its body. -/
def ItemBreaks (s : Snapshot) : Prop :=
  ∀ text rest : List Char, skipSpaces text = skipSpaces (s.text 0 ++ rest) →
    (item text).LacksCatch ∧ word (skipSpaces text) ≠ "package".toList

theorem itemBreaks_function {name : String} {params : List Parameter} {returns : List String}
    {children : List Snapshot} (h : (node (.function name params returns) children).BreaksInside) :
    (node (.function name params returns) children).ItemBreaks := by
  intro text rest htext
  obtain ⟨_, hword, start, form, hread, _⟩ := item_function_header h.1 htext
  rw [hread, hword]
  exact ⟨(h.2.closeBody (skipSpaces_clauses (List.forall_mem_nil _))).map _, by decide⟩

/-- An item of a unit can be spelled, or a `catch` is missing in it. -/
theorem Admissible.spellable_or_itemBreaks {s : Snapshot} (h : s.Admissible)
    (hkind : s.kind = .function ∨ s.kind = .comment) : s.Spellable ∨ s.ItemBreaks := by
  have hunit : s.kind ≠ .compilationUnit := by rcases hkind with hkind | hkind <;> simp [hkind]
  have hfails := h.spellable_or_fails hunit
  cases h with
  | @node payload children hconforms hlayout _ =>
    cases payload with
    | function name params returns =>
      exact hfails.imp_right fun hf => itemBreaks_function (hf.2 rfl)
    | comment content =>
      have hnil := Layout.eq_nil_of_check rfl hunit hlayout
      rw [List.map_eq_nil_iff.mp hnil] at hlayout ⊢
      exact Or.inl (.node hconforms hlayout nofun (List.forall_mem_nil _))
    | _ => rcases hkind with hkind | hkind <;> cases hkind

theorem many_itemTexts_break (h : ∀ s ∈ items, s.ItemReads ∨ s.ItemBreaks)
    (hbreaks : ∃ s ∈ items, s.ItemBreaks) (gap : Bool) {text : List Char}
    (htext : skipSpaces text = skipSpaces (itemTexts gap items)) :
    (many item text).LacksCatch := by
  induction items generalizing gap text with
  | nil =>
    obtain ⟨s, hs, _⟩ := hbreaks
    cases hs
  | cons s ss ih =>
    obtain ⟨hs, hss⟩ := List.forall_mem_cons.mp h
    have hfirst := htext.trans (skipSpaces_itemTexts_cons gap s ss)
    by_cases hbreak : s.ItemBreaks
    · exact lacksCatch_many (hbreak text _ hfirst).1
    · have hmore := (List.or_exists_of_exists_mem_cons hbreaks).resolve_left hbreak
      obtain ⟨d, hread, _, hlength, _⟩ := hs.resolve_right hbreak text _ hfirst
      exact lacksCatch_many_of_ok hread hlength (ih hss hmore _ skipSpaces_newline)

theorem unitText_lacksCatch {package : Option String}
    (h : (node (.compilationUnit package) items).Admissible)
    (hspell : ¬ (node (.compilationUnit package) items).Spellable) :
    (compilationUnit (unitText package items)).LacksCatch := by
  cases h with
  | node hconforms hlayout hall =>
    have hitems : ∀ s ∈ items, s.Spellable ∨ s.ItemBreaks := fun s hs =>
      (hall s hs).spellable_or_itemBreaks
        (Layout.items_of_check hlayout s.kind (List.mem_map_of_mem hs))
    have hsettled : ∀ s ∈ items, s.ItemReads ∨ s.ItemBreaks := fun s hs =>
      (hitems s hs).imp_left fun hs' => itemReads_of_spellable hs'
        (Layout.items_of_check hlayout s.kind (List.mem_map_of_mem hs))
    have hbreaks : ∃ s ∈ items, s.ItemBreaks := by
      by_contra hnone
      refine hspell (.node hconforms hlayout nofun fun s hs => ?_)
      exact (hitems s hs).resolve_right fun hs' => hnone ⟨s, hs, hs'⟩
    have hword : word (skipSpaces (itemTexts false items)) ≠ "package".toList := by
      cases items with
      | nil => decide
      | cons s ss =>
        rcases hsettled s List.mem_cons_self with hreads | hbreaks
        · exact (hreads (itemTexts false (s :: ss)) _ rfl).choose_spec.2.2.2
        · exact (hbreaks (itemTexts false (s :: ss)) _ rfl).2
    obtain ⟨start, first, hfirst, hunit⟩ := unit_header hconforms hword
    rw [hunit]
    exact lacksCatch_bind (many_itemTexts_break hsettled hbreaks _ hfirst) _

end Units

end Snapshot

theorem Outcome.LacksCatch.run {reader : Reader Draft} {text : List Char}
    (h : (reader text).LacksCatch) :
    ∃ e, Reader.run reader text = .error e ∧ e.message = "expected `catch`" := by
  obtain ⟨rest, hread⟩ := h
  exact ⟨.ofFailure text ⟨.expectedWord "catch", rest⟩, by rw [Reader.run, hread], rfl⟩

/-- The text of a tree in which a `try` lacks its `catch` is rejected for that. -/
theorem Tree.ReachableWith.rejected {t : Tree} (h : t.ReachableWith Payload.Made)
    (hcatch : ¬ t.TriesCatch) : ∃ text e, t.source t.root = .ok text ∧
      buildTree text = .error e ∧ e.message = "expected `catch`" := by
  have hwf := h.reachable.wellFormed
  obtain ⟨package, items, hsnapshot, hadmissible⟩ := h.admissible_root
  have hlacks := unitText_lacksCatch hadmissible fun hspell =>
    hcatch ((hwf.triesCatch_iff hsnapshot).mp hspell.triesCatch)
  obtain ⟨e, hrun, hmessage⟩ := hlacks.run
  refine ⟨_, e, Tree.source_root hwf hsnapshot hadmissible, ?_, hmessage⟩
  rw [buildTree, String.toList_ofList, hrun]

/-- Every tree that a run leads to has a text. The text is that of a tree if and only if each `try`
has its `catch`, and otherwise a missing `catch` is reported. -/
theorem Tree.source_accepted_iff (t : Tree) (h : t.ReachableWith Payload.Made) :
    ∃ text, t.source t.root = .ok text ∧
      ((∃ rebuilt, buildTree text = .ok rebuilt) ↔ t.TriesCatch) ∧
      ∀ e, buildTree text = .error e → e.message = "expected `catch`" := by
  by_cases hcatch : t.TriesCatch
  · obtain ⟨text, rebuilt, _, hsource, hbuild, _⟩ := h.rebuilt hcatch
    refine ⟨text, hsource, iff_of_true ⟨rebuilt, hbuild⟩ hcatch, fun e he => ?_⟩
    rw [hbuild] at he
    cases he
  · obtain ⟨text, e, hsource, hbuild, hmessage⟩ := h.rejected hcatch
    refine ⟨text, hsource, iff_of_false ?_ hcatch, fun e' he' => ?_⟩
    · rintro ⟨rebuilt, hrebuilt⟩
      rw [hbuild] at hrebuilt
      cases hrebuilt
    · rw [hbuild] at he'
      exact Except.error.inj he' ▸ hmessage

/-- A function in which a `try` has its `catch`. -/
def Tree.caught : Tree :=
  ((((((Tree.new none).after (.create (.function "f" [] []))).after
    (.appendChild ⟨0, 0⟩ ⟨1, 0⟩)).after (.create .tryStatement)).after
    (.appendChild ⟨1, 0⟩ ⟨2, 0⟩)).after (.create (.catchClause "Error" "e"))).after
    (.appendChild ⟨2, 0⟩ ⟨3, 0⟩)

/-- The same function once the `catch` is taken away. -/
def Tree.uncaught : Tree :=
  Tree.caught.after (.removeChild ⟨2, 0⟩ 0)

theorem Tree.caught_reachable : Tree.caught.ReachableWith Payload.Made := by
  have hfunction : (Payload.function "f" [] []).Made := ⟨.function "f" [] [], rfl⟩
  have hcatch : (Payload.catchClause "Error" "e").Made := ⟨.catchClause "Error" "e", rfl⟩
  refine .after _ nofun (.after _ ?_ (.after _ nofun (.after _ ?_ (.after _ nofun
    (.after _ ?_ (.new none ⟨.compilationUnit none, rfl⟩))))))
  · exact fun _ hsome => Option.some.inj hsome ▸ hcatch
  · exact fun _ hsome => Option.some.inj hsome ▸ ⟨.tryStatement, rfl⟩
  · exact fun _ hsome => Option.some.inj hsome ▸ hfunction

theorem Tree.caught_triesCatch : Tree.caught.TriesCatch := by
  have hall : ∀ id ∈ Tree.caught.nodes.ids, Tree.caught.kind? id = some .tryStatement →
      ∃ child ∈ Tree.caught.children id, Tree.caught.kind? child = some .catchClause := by
    decide
  intro id _ hkind
  obtain ⟨node, hnode⟩ := (Tree.caught.contains_iff id).mp (Tree.contains_of_kind? hkind)
  exact hall id ((Tree.caught.nodes.mem_ids_iff id).mpr ⟨node, hnode⟩) hkind

theorem Tree.caught_source_accepted :
    Tree.caught.ReachableWith Payload.Made ∧ ∃ text rebuilt,
      Tree.caught.source Tree.caught.root = .ok text ∧ buildTree text = .ok rebuilt := by
  obtain ⟨text, hsource, hiff, _⟩ := Tree.source_accepted_iff Tree.caught Tree.caught_reachable
  obtain ⟨rebuilt, hbuild⟩ := hiff.mpr Tree.caught_triesCatch
  exact ⟨Tree.caught_reachable, text, rebuilt, hsource, hbuild⟩

theorem Tree.uncaught_reachable : Tree.uncaught.ReachableWith Payload.Made :=
  .after _ nofun Tree.caught_reachable

theorem Tree.uncaught_not_triesCatch : ¬ Tree.uncaught.TriesCatch := by
  intro h
  have hwithin : Tree.uncaught.Within ⟨2, 0⟩ Tree.uncaught.root :=
    .step (by decide : Tree.uncaught.parent? ⟨2, 0⟩ = some ⟨1, 0⟩) (.single (by decide))
  have hnone : Tree.uncaught.children ⟨2, 0⟩ = [] := by decide
  obtain ⟨child, hchild, _⟩ := h ⟨2, 0⟩ hwithin (by decide)
  rw [hnone] at hchild
  cases hchild

/-- An edit can leave a tree whose text gives no tree. -/
theorem Tree.uncaught_source_rejected :
    Tree.uncaught.ReachableWith Payload.Made ∧
      Tree.uncaught.source Tree.uncaught.root =
        .ok "function f() \x7b\n    try \x7b\n    \x7d\n\x7d\n" ∧
      ∃ e, buildTree "function f() \x7b\n    try \x7b\n    \x7d\n\x7d\n" = .error e ∧
        e.message = "expected `catch`" := by
  have hsource : Tree.uncaught.source Tree.uncaught.root =
      .ok "function f() \x7b\n    try \x7b\n    \x7d\n\x7d\n" := by rfl
  obtain ⟨text, e, hsource', hbuild, hmessage⟩ :=
    Tree.uncaught_reachable.rejected Tree.uncaught_not_triesCatch
  rw [hsource] at hsource'
  exact ⟨Tree.uncaught_reachable, hsource, e, Except.ok.inj hsource' ▸ hbuild, hmessage⟩

end ProgramTree
