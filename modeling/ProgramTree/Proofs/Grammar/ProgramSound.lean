import ProgramTree.Proofs.Grammar.Bodies
import ProgramTree.Proofs.Grammar.Program
import ProgramTree.Proofs.Grammar.Sound

/-! # What is read as a program stands in the text

Each reader of statements gives only drafts that stand at the front of the text
behind the blanks that it skips, if the reader of the statements in bodies does.
Bodies are shorter than the statement around them, so the induction is on the
length of the text. -/

namespace ProgramTree.Grammar

set_option autoImplicit false

open Reader

section Pieces

variable {text rest : List Char} {e : Expression}

theorem afterBlanks_of_spaces {a : Unit} (h : spaces text = .ok a rest) :
    AfterBlanks text rest := by
  cases h
  exact afterBlanks_skipSpaces text

theorem keyword_of_read {w : String} {a : Unit} (h : keyword w text = .ok a rest) :
    Keyword w text rest := by
  unfold keyword at h
  split at h
  · rename_i hword
    cases h
    refine ⟨?_, startsNot_dropWhile _ text⟩
    rw [← hword]
    exact List.takeWhile_append_dropWhile.symm
  · cases h

theorem typeName_of_read {type : List Char} (h : typeName text = .ok type rest) :
    TypeName type text rest := by
  obtain ⟨base, mid, hbase, hreturn⟩ := Reader.bind_eq_ok.mp h
  obtain ⟨n, hpairs, hmid⟩ := takeBrackets_eq mid
  cases hreturn
  rw [hpairs]
  exact .mk n (hmid ▸ qualified_of_read hbase)

theorem packageName_of_read {name : List Char} (h : packageName text = .ok name rest) :
    PackageName name text rest := by
  unfold packageName at h
  simp only at h
  split at h
  · cases h
  · rename_i hne
    cases h
    refine ⟨List.takeWhile_append_dropWhile.symm, fun hnil => hne hnil, ?_,
      startsNot_dropWhile _ text⟩
    exact fun c hc => List.all_eq_true.mp List.all_takeWhile c hc

theorem begins_of_expression (hstart : StartsNot isSpace text)
    (h : expression text = .ok e rest) : StartsVisibly text := by
  cases text with
  | nil =>
    have hnone : StartsNot startsExpression (skipSpaces []) := startsNot_nil
    obtain ⟨failure, hsoft⟩ := expression_soft hnone
    rw [hsoft] at h
    cases h
  | cons c tail => exact ⟨c, tail, rfl, hstart⟩

theorem condition_of_read (h : condition text = .ok e rest) : Condition e text rest := by
  obtain ⟨_, after, hopening, h⟩ := Reader.bind_eq_ok.mp (committed_eq_ok.mp h)
  obtain ⟨e', mid, he, h⟩ := Reader.bind_eq_ok.mp h
  obtain ⟨_, last, hclosing, hreturn⟩ := Reader.bind_eq_ok.mp h
  cases hreturn
  exact .mk (symbol_of_symbolOr hopening) (sound_expression he) (symbol_of_symbolOr hclosing)

theorem assigned_of_read {value : Option Expression}
    (h : optional assigned text = .ok value rest) : Assigned value text rest := by
  rcases optional_eq_ok h with ⟨e, rfl, hread⟩ | ⟨rfl, rfl⟩
  · obtain ⟨_, after, hequals, he⟩ := Reader.bind_eq_ok.mp hread
    exact .some (symbol_of_symbolOr hequals) (sound_expression (committed_eq_ok.mp he))
  · exact .none

section Lists

variable {α : Type} {item : Reader α} {Item : α → List Char → List Char → Prop}
  (hitem : ∀ {text : List Char} {a : α} {rest : List Char}, item text = .ok a rest →
    Item a text rest)
include hitem

theorem separated_of_many {as : List α} (h : many (do comma; item) text = .ok as rest) {a : α}
    {start : List Char} (ha : Item a start text) : Separated Item (a :: as) start rest := by
  revert a start
  refine many_induction (motive := fun text as rest => ∀ {a : α} {start : List Char},
    Item a start text → Separated Item (a :: as) start rest) (fun _ _ _ ha => .last ha) ?_ h
  intro text b mid as rest hb ih a start ha
  obtain ⟨_, after, hcomma, hb⟩ := Reader.bind_eq_ok.mp hb
  exact .more ha (symbol_of_symbolOr hcomma) (ih (hitem hb))

theorem separated_of_read {as : List α} (h : separated comma item text = .ok as rest) :
    Separated Item as text rest := by
  unfold separated at h
  split at h
  · rename_i a mid ha
    obtain ⟨others, last, hmany, hreturn⟩ := Reader.bind_eq_ok.mp h
    cases hreturn
    exact separated_of_many hitem hmany (hitem ha)
  · cases h
    exact .none
  · cases h

theorem separated_of_readSome {as : List α} (h : separatedSome comma item text = .ok as rest) :
    as ≠ [] ∧ Separated Item as text rest := by
  obtain ⟨a, mid, ha, h⟩ := Reader.bind_eq_ok.mp h
  obtain ⟨others, last, hmany, hreturn⟩ := Reader.bind_eq_ok.mp h
  cases hreturn
  exact ⟨List.cons_ne_nil _ _, separated_of_many hitem hmany (hitem ha)⟩

end Lists

theorem declared_of_read {declared : String × String}
    (h : parameter text = .ok declared rest) : Declared declared text rest := by
  obtain ⟨_, start, hblanks, h⟩ := Reader.bind_eq_ok.mp h
  obtain ⟨type, mid, htype, h⟩ := Reader.bind_eq_ok.mp h
  obtain ⟨_, after, hblanks', h⟩ := Reader.bind_eq_ok.mp h
  obtain ⟨name, last, hname, hreturn⟩ := Reader.bind_eq_ok.mp h
  cases hreturn
  exact .mk (afterBlanks_of_spaces hblanks) (typeName_of_read htype)
    (afterBlanks_of_spaces hblanks') (identifier_eq_ok.mp hname)

theorem typeAfter_of_read {type : String} (h : returnType text = .ok type rest) :
    TypeAfter type text rest := by
  obtain ⟨_, start, hblanks, h⟩ := Reader.bind_eq_ok.mp h
  obtain ⟨type', last, htype, hreturn⟩ := Reader.bind_eq_ok.mp h
  cases hreturn
  exact .mk (afterBlanks_of_spaces hblanks) (typeName_of_read htype)

theorem returns_of_read {types : Option (List String)}
    (h : optional returnTypes text = .ok types rest) : Returns (types.getD []) text rest := by
  rcases optional_eq_ok h with ⟨some, rfl, hread⟩ | ⟨rfl, rfl⟩
  · obtain ⟨_, after, hopening, hread⟩ := Reader.bind_eq_ok.mp hread
    obtain ⟨types, mid, htypes, hread⟩ := Reader.bind_eq_ok.mp hread
    obtain ⟨_, last, hclosing, hreturn⟩ := Reader.bind_eq_ok.mp hread
    cases hreturn
    obtain ⟨hne, htypes⟩ := separated_of_readSome typeAfter_of_read (committed_eq_ok.mp htypes)
    exact .some hne (symbol_of_symbolOr hopening) htypes (closing_of_committed hclosing)
  · exact .none

theorem package_of_read {package : Option String}
    (h : optional packageClause text = .ok package rest) : Package package text rest := by
  rcases optional_eq_ok h with ⟨name, rfl, hread⟩ | ⟨rfl, rfl⟩
  · obtain ⟨_, after, hkeyword, hread⟩ := Reader.bind_eq_ok.mp hread
    obtain ⟨_, start, hblanks, hread⟩ := Reader.bind_eq_ok.mp (committed_eq_ok.mp hread)
    obtain ⟨name, mid, hname, hread⟩ := Reader.bind_eq_ok.mp hread
    obtain ⟨_, last, hclosing, hreturn⟩ := Reader.bind_eq_ok.mp hread
    cases hreturn
    exact .some (keyword_of_read hkeyword) (afterBlanks_of_spaces hblanks)
      (packageName_of_read hname) (symbol_of_symbolOr hclosing)
  · exact .none

end Pieces

/-- The reader gives only drafts of the given kinds, which stand in the text behind any blanks. -/
def GivesStanding (allowed : NodeKind → Bool) (item : Reader Draft) : Prop :=
  ∀ ⦃text : List Char⦄ ⦃d : Draft⦄ ⦃rest : List Char⦄, item text = .ok d rest →
    ∃ start, AfterBlanks text start ∧ Stands (.node d) start rest ∧ allowed d.form.kind = true

theorem list_of_read {allowed : NodeKind → Bool} {item : Reader Draft}
    (h : GivesStanding allowed item) {text rest : List Char} {ds : List Draft}
    (hread : many item text = .ok ds rest) : Stands (.list allowed ds) text rest := by
  refine many_induction (motive := fun text ds rest => Stands (.list allowed ds) text rest)
    (fun _ => .nil) (fun hitem ih => ?_) hread
  obtain ⟨start, hblanks, hd, hkind⟩ := h hitem
  exact .cons hblanks hd hkind ih

section Leaves

variable {text rest : List Char} {d : Draft}

theorem comment_of_read (h : comment text = .ok d rest) :
    Stands (.node d) text rest ∧ d.form.kind = .comment := by
  obtain ⟨start, after, hposition, h⟩ := Reader.bind_eq_ok.mp h
  obtain ⟨content, mid, hcontent, hreturn⟩ := Reader.bind_eq_ok.mp h
  cases hposition
  cases hreturn
  unfold commentText at hcontent
  split at hcontent
  · cases hcontent
    refine ⟨.comment ?_ (fun c hc => ?_) (startsNot_dropWhile _ _), rfl⟩
    · rw [List.takeWhile_append_dropWhile]
    · have hline := List.all_eq_true.mp List.all_takeWhile c hc
      simpa using hline
  · cases hcontent

theorem jump_of_read {w : String} {form : Form} (hjump : Jump w form)
    (h : jump w form text = .ok d rest) :
    Stands (.node d) text rest ∧ d.form.kind.isStatement = true := by
  obtain ⟨start, after, hposition, h⟩ := Reader.bind_eq_ok.mp h
  obtain ⟨_, mid, hkeyword, h⟩ := Reader.bind_eq_ok.mp h
  obtain ⟨_, last, hend, hreturn⟩ := Reader.bind_eq_ok.mp h
  cases hposition
  cases hreturn
  refine ⟨.jump hjump (keyword_of_read hkeyword) (closing_of_committed hend), ?_⟩
  cases hjump <;> rfl

theorem returnStatement_of_read (h : returnStatement text = .ok d rest) :
    Stands (.node d) text rest ∧ d.form.kind.isStatement = true := by
  obtain ⟨start, after, hposition, h⟩ := Reader.bind_eq_ok.mp h
  obtain ⟨_, mid, hkeyword, h⟩ := Reader.bind_eq_ok.mp h
  obtain ⟨values, next, hvalues, h⟩ := Reader.bind_eq_ok.mp h
  obtain ⟨_, last, hend, hreturn⟩ := Reader.bind_eq_ok.mp h
  cases hposition
  cases hreturn
  exact ⟨.returnStatement (keyword_of_read hkeyword) (sound_arguments sound_expression hvalues)
    (closing_of_committed hend), rfl⟩

theorem valued_of_read {w : String} {form : Option Expression → Form} (hvalued : Valued w form)
    (h : valued w form text = .ok d rest) :
    Stands (.node d) text rest ∧ d.form.kind.isStatement = true := by
  obtain ⟨start, after, hposition, h⟩ := Reader.bind_eq_ok.mp h
  obtain ⟨_, mid, hkeyword, h⟩ := Reader.bind_eq_ok.mp h
  obtain ⟨value, next, hvalue, hreturn⟩ := Reader.bind_eq_ok.mp h
  obtain ⟨e, final, he, hvalue⟩ := Reader.bind_eq_ok.mp (committed_eq_ok.mp hvalue)
  obtain ⟨_, last, hend, hreturn'⟩ := Reader.bind_eq_ok.mp hvalue
  cases hposition
  cases hreturn
  cases hreturn'
  refine ⟨.valued hvalued (keyword_of_read hkeyword) (sound_expression he)
    (symbol_of_symbolOr hend), ?_⟩
  cases hvalued <;> rfl

theorem variableDefinition_of_read (hstart : StartsNot isSpace text)
    (h : variableDefinition text = .ok d rest) :
    Stands (.node d) text rest ∧ d.form.kind.isStatement = true := by
  obtain ⟨start, after, hposition, h⟩ := Reader.bind_eq_ok.mp h
  obtain ⟨type, mid, htype, h⟩ := Reader.bind_eq_ok.mp h
  obtain ⟨_, next, hblanks, h⟩ := Reader.bind_eq_ok.mp h
  obtain ⟨name, behind, hname, h⟩ := Reader.bind_eq_ok.mp h
  obtain ⟨initializer, final, hinitializer, h⟩ := Reader.bind_eq_ok.mp h
  obtain ⟨_, last, hend, hreturn⟩ := Reader.bind_eq_ok.mp h
  cases hposition
  cases hreturn
  have htype := typeName_of_read htype
  have hbegins : StartsVisibly text := by
    obtain ⟨_, hbase⟩ := htype
    obtain ⟨c, tail, rfl, hc⟩ := hbase.head
    exact ⟨c, tail, rfl, hstart⟩
  have hdeclared : Declared (String.ofList type, String.ofList name) text behind :=
    .mk (afterBlanks_refl text) htype (afterBlanks_of_spaces hblanks) (identifier_eq_ok.mp hname)
  exact ⟨.definition hbegins hdeclared (assigned_of_read hinitializer)
    (closing_of_committed hend), rfl⟩

theorem assignmentOrCall_of_read (hstart : StartsNot isSpace text)
    (h : assignmentOrCall text = .ok d rest) :
    Stands (.node d) text rest ∧ d.form.kind.isStatement = true := by
  obtain ⟨start, after, hposition, h⟩ := Reader.bind_eq_ok.mp h
  obtain ⟨target, mid, htarget, h⟩ := Reader.bind_eq_ok.mp h
  obtain ⟨value, next, hvalue, h⟩ := Reader.bind_eq_ok.mp h
  obtain ⟨_, last, hend, hreturn⟩ := Reader.bind_eq_ok.mp h
  cases hposition
  have hbegins := begins_of_expression hstart htarget
  have htarget := sound_expression htarget
  have hvalue := assigned_of_read hvalue
  have hend := closing_of_committed hend
  cases value with
  | some value =>
    cases hreturn
    exact ⟨.assignment hbegins htarget hvalue hend, rfl⟩
  | none =>
    cases hreturn
    cases hvalue
    exact ⟨.call hbegins htarget hend, rfl⟩

end Leaves

section Bodies

variable {inner : Reader Draft} (h : GivesStanding NodeKind.isStatement inner)
  {text rest : List Char} {d : Draft} {ds : List Draft}
include h

theorem statements_of_closeBody (hread : closeBody inner text = .ok ds rest) :
    ∃ mid, Stands (.list NodeKind.isStatement ds) text mid ∧ Symbol ['}'] mid rest := by
  obtain ⟨ds', mid, hmany, hread⟩ := Reader.bind_eq_ok.mp hread
  obtain ⟨_, last, hclosing, hreturn⟩ := Reader.bind_eq_ok.mp hread
  cases hreturn
  exact ⟨mid, list_of_read h hmany, closing_of_committed hclosing⟩

theorem body_of_read (hread : body inner text = .ok ds rest) : Stands (.body ds) text rest := by
  obtain ⟨_, after, hopening, hread⟩ := Reader.bind_eq_ok.mp hread
  obtain ⟨mid, hds, hclosing⟩ := statements_of_closeBody h hread
  exact .body (closing_of_committed hopening) hds hclosing

theorem block_of_read (hbegins : StartsVisibly text) (hread : block inner text = .ok d rest) :
    Stands (.node d) text rest ∧ d.form.kind.isStatement = true := by
  obtain ⟨start, after, hposition, hread⟩ := Reader.bind_eq_ok.mp hread
  obtain ⟨_, mid, hopening, hread⟩ := Reader.bind_eq_ok.mp hread
  obtain ⟨ds, last, hclose, hreturn⟩ := Reader.bind_eq_ok.mp hread
  cases hposition
  cases hreturn
  obtain ⟨next, hds, hclosing⟩ := statements_of_closeBody h hclose
  exact ⟨.block hbegins (.body (symbol_of_symbolOr hopening) hds hclosing), rfl⟩

theorem whileLoop_of_read (hread : whileLoop inner text = .ok d rest) :
    Stands (.node d) text rest ∧ d.form.kind.isStatement = true := by
  obtain ⟨start, after, hposition, hread⟩ := Reader.bind_eq_ok.mp hread
  obtain ⟨_, mid, hkeyword, hread⟩ := Reader.bind_eq_ok.mp hread
  obtain ⟨e, next, he, hread⟩ := Reader.bind_eq_ok.mp hread
  obtain ⟨ds, last, hbody, hreturn⟩ := Reader.bind_eq_ok.mp hread
  cases hposition
  cases hreturn
  exact ⟨.whileLoop (keyword_of_read hkeyword) (condition_of_read he) (body_of_read h hbody), rfl⟩

theorem givesStanding_elseIfClause : GivesStanding (· == .elseIfClause) (elseIfClause inner) := by
  intro text d rest hread
  obtain ⟨_, start, hblanks, hread⟩ := Reader.bind_eq_ok.mp hread
  obtain ⟨_, after, hposition, hread⟩ := Reader.bind_eq_ok.mp hread
  obtain ⟨_, mid, helse, hread⟩ := Reader.bind_eq_ok.mp hread
  obtain ⟨_, next, hblanks', hread⟩ := Reader.bind_eq_ok.mp hread
  obtain ⟨_, behind, hif, hread⟩ := Reader.bind_eq_ok.mp hread
  obtain ⟨e, final, he, hread⟩ := Reader.bind_eq_ok.mp hread
  obtain ⟨ds, last, hbody, hreturn⟩ := Reader.bind_eq_ok.mp hread
  cases hposition
  cases hreturn
  exact ⟨start, afterBlanks_of_spaces hblanks, .elseIfClause (keyword_of_read helse)
    (afterBlanks_of_spaces hblanks') (keyword_of_read hif) (condition_of_read he)
    (body_of_read h hbody), rfl⟩

theorem givesStanding_elseClause : GivesStanding (· == .elseClause) (elseClause inner) := by
  intro text d rest hread
  obtain ⟨_, start, hblanks, hread⟩ := Reader.bind_eq_ok.mp hread
  obtain ⟨_, after, hposition, hread⟩ := Reader.bind_eq_ok.mp hread
  obtain ⟨_, mid, helse, hread⟩ := Reader.bind_eq_ok.mp hread
  obtain ⟨ds, last, hbody, hreturn⟩ := Reader.bind_eq_ok.mp hread
  cases hposition
  cases hreturn
  exact ⟨start, afterBlanks_of_spaces hblanks,
    .elseClause (keyword_of_read helse) (body_of_read h hbody), rfl⟩

omit h in
theorem catch_of_read {a : Unit} (hread : catchKeyword text = .ok a rest) :
    Keyword "catch" text rest := by
  unfold catchKeyword at hread
  split at hread
  · rename_i hkeyword
    cases hread
    exact keyword_of_read hkeyword
  · cases hread

theorem givesStanding_catchClause : GivesStanding (· == .catchClause) (catchClause inner) := by
  intro text d rest hread
  obtain ⟨_, start, hblanks, hread⟩ := Reader.bind_eq_ok.mp hread
  obtain ⟨_, after, hposition, hread⟩ := Reader.bind_eq_ok.mp hread
  obtain ⟨_, mid, hcatch, hread⟩ := Reader.bind_eq_ok.mp hread
  obtain ⟨caught, next, hcaught, hread⟩ := Reader.bind_eq_ok.mp hread
  obtain ⟨ds, last, hbody, hreturn⟩ := Reader.bind_eq_ok.mp hread
  cases hposition
  cases hreturn
  obtain ⟨_, opening, hopening, hcaught⟩ := Reader.bind_eq_ok.mp (committed_eq_ok.mp hcaught)
  obtain ⟨_, front, hblanksType, hcaught⟩ := Reader.bind_eq_ok.mp hcaught
  obtain ⟨type, middle, htype, hcaught⟩ := Reader.bind_eq_ok.mp hcaught
  obtain ⟨_, behind, hblanksName, hcaught⟩ := Reader.bind_eq_ok.mp hcaught
  obtain ⟨name, final, hname, hcaught⟩ := Reader.bind_eq_ok.mp hcaught
  obtain ⟨_, closing, hclosing, hreturn⟩ := Reader.bind_eq_ok.mp hcaught
  cases hreturn
  have hdeclared : Declared (String.ofList type, String.ofList name) opening final :=
    .mk (afterBlanks_of_spaces hblanksType) (typeName_of_read htype)
      (afterBlanks_of_spaces hblanksName) (identifier_eq_ok.mp hname)
  exact ⟨start, afterBlanks_of_spaces hblanks, .catchClause (catch_of_read hcatch)
    (symbol_of_symbolOr hopening) hdeclared (symbol_of_symbolOr hclosing)
    (body_of_read h hbody), rfl⟩

theorem ifStatement_of_read (hread : ifStatement inner text = .ok d rest) :
    Stands (.node d) text rest ∧ d.form.kind.isStatement = true := by
  obtain ⟨start, after, hposition, hread⟩ := Reader.bind_eq_ok.mp hread
  obtain ⟨_, mid, hkeyword, hread⟩ := Reader.bind_eq_ok.mp hread
  obtain ⟨e, next, he, hread⟩ := Reader.bind_eq_ok.mp hread
  obtain ⟨ds, behind, hbody, hread⟩ := Reader.bind_eq_ok.mp hread
  obtain ⟨elseIfs, final, helseIfs, hread⟩ := Reader.bind_eq_ok.mp hread
  obtain ⟨found, last, hfound, hreturn⟩ := Reader.bind_eq_ok.mp hread
  cases hposition
  cases hreturn
  have helseIfs := list_of_read (givesStanding_elseIfClause h) helseIfs
  have hlast : Stands (.list (· == .elseClause) found.toList) final rest ∧
      found.toList.length ≤ 1 := by
    rcases optional_eq_ok hfound with ⟨c, rfl, hc⟩ | ⟨rfl, rfl⟩
    · obtain ⟨place, hblanks, hstands, hkind⟩ := givesStanding_elseClause h hc
      exact ⟨.cons hblanks hstands hkind .nil, Nat.le_refl 1⟩
    · exact ⟨.nil, Nat.zero_le 1⟩
  exact ⟨.ifStatement (keyword_of_read hkeyword) (condition_of_read he) (body_of_read h hbody)
    helseIfs hlast.1 hlast.2, rfl⟩

theorem tryStatement_of_read (hread : tryStatement inner text = .ok d rest) :
    Stands (.node d) text rest ∧ d.form.kind.isStatement = true := by
  obtain ⟨start, after, hposition, hread⟩ := Reader.bind_eq_ok.mp hread
  obtain ⟨_, mid, hkeyword, hread⟩ := Reader.bind_eq_ok.mp hread
  obtain ⟨ds, next, hbody, hread⟩ := Reader.bind_eq_ok.mp hread
  obtain ⟨c, last, hc, hreturn⟩ := Reader.bind_eq_ok.mp hread
  cases hposition
  cases hreturn
  obtain ⟨place, hblanks, hstands, hkind⟩ := givesStanding_catchClause h hc
  have hlast : Stands (.list (· == .catchClause) [c]) next rest :=
    .cons hblanks hstands hkind .nil
  exact ⟨.tryStatement (keyword_of_read hkeyword) (body_of_read h hbody) hlast rfl, rfl⟩

theorem byKeyword?_of_read {reader : Reader Draft} {w : List Char}
    (hreader : byKeyword? inner w = some reader) (hread : reader text = .ok d rest) :
    Stands (.node d) text rest ∧ d.form.kind.isStatement = true := by
  unfold byKeyword? at hreader
  split at hreader
  · cases hreader
    exact ifStatement_of_read h hread
  split at hreader
  · cases hreader
    exact whileLoop_of_read h hread
  split at hreader
  · cases hreader
    exact tryStatement_of_read h hread
  split at hreader
  · cases hreader
    exact jump_of_read .breaks hread
  split at hreader
  · cases hreader
    exact jump_of_read .continues hread
  split at hreader
  · cases hreader
    exact returnStatement_of_read hread
  split at hreader
  · cases hreader
    exact valued_of_read .reply hread
  split at hreader
  · cases hreader
    exact valued_of_read .throw hread
  · cases hreader

theorem givesStanding_statementLayer :
    GivesStanding NodeKind.isStatement (statementLayer inner) := by
  intro text d rest hread
  refine ⟨skipSpaces text, afterBlanks_skipSpaces text, ?_⟩
  have hstart := startsNot_skipSpaces text
  unfold statementLayer at hread
  split at hread
  · rename_i hskip
    obtain ⟨hd, hkind⟩ := comment_of_read hread
    rw [hskip, hkind]
    exact ⟨hd, rfl⟩
  · rename_i hskip
    rw [hskip]
    exact block_of_read h ⟨'{', _, rfl, rfl⟩ hread
  · split at hread
    · rename_i reader hreader
      exact byKeyword?_of_read h hreader hread
    · rcases orElse_eq_ok hread with hread | hread
      · exact variableDefinition_of_read hstart hread
      · exact assignmentOrCall_of_read hstart hread

end Bodies

/-- Inside of a statement there are only shorter texts. -/
theorem givesStanding_statement : GivesStanding NodeKind.isStatement statement := by
  intro text
  induction hn : text.length using Nat.strongRecOn generalizing text with
  | ind n ih =>
    intro d rest hread
    rw [statement_eq] at hread
    refine givesStanding_statementLayer (fun part e final hpart => ?_) hread
    rw [within, below] at hpart
    split at hpart
    · rename_i hlt
      exact ih part.length (hn ▸ hlt) rfl hpart
    · cases hpart

section Units

variable {text rest : List Char} {d : Draft}

theorem functionName_of_read {name : List Char} (h : functionName text = .ok name rest) :
    ∃ start, AfterBlanks text start ∧ Identifier name start rest := by
  unfold functionName at h
  split at h
  · rename_i hname
    cases h
    exact ⟨_, afterBlanks_skipSpaces text, identifier_eq_ok.mp hname⟩
  · cases h

theorem function_of_read (h : function text = .ok d rest) :
    Stands (.node d) text rest ∧ d.form.kind = .function := by
  obtain ⟨start, after, hposition, h⟩ := Reader.bind_eq_ok.mp h
  obtain ⟨_, mid, hkeyword, h⟩ := Reader.bind_eq_ok.mp h
  obtain ⟨name, opening, hname, h⟩ := Reader.bind_eq_ok.mp h
  obtain ⟨_, inside, hopening, h⟩ := Reader.bind_eq_ok.mp h
  obtain ⟨params, closing, hparams, h⟩ := Reader.bind_eq_ok.mp h
  obtain ⟨_, next, hclosing, h⟩ := Reader.bind_eq_ok.mp h
  obtain ⟨returns, behind, hreturns, h⟩ := Reader.bind_eq_ok.mp h
  obtain ⟨ds, last, hbody, hreturn⟩ := Reader.bind_eq_ok.mp h
  cases hposition
  cases hreturn
  obtain ⟨place, hblanks, hname⟩ := functionName_of_read hname
  exact ⟨.function (keyword_of_read hkeyword) hblanks hname (closing_of_committed hopening)
    (separated_of_read declared_of_read hparams) (closing_of_committed hclosing)
    (returns_of_read hreturns) (body_of_read givesStanding_statement hbody), rfl⟩

theorem givesStanding_item :
    GivesStanding (fun kind => kind == .function || kind == .comment) item := by
  intro text d rest hread
  obtain ⟨_, start, hblanks, hread⟩ := Reader.bind_eq_ok.mp hread
  refine ⟨start, afterBlanks_of_spaces hblanks, ?_⟩
  rcases orElse_eq_ok hread with hread | hread
  · obtain ⟨hd, hkind⟩ := comment_of_read hread
    exact ⟨hd, by rw [hkind]; rfl⟩
  · obtain ⟨hd, hkind⟩ := function_of_read hread
    exact ⟨hd, by rw [hkind]; rfl⟩

theorem endOfText_eq_ok {a : Unit} (h : endOfText text = .ok a rest) : text = [] := by
  cases text with
  | nil => rfl
  | cons c tail => cases h

/-- A unit stands in its text from the first character on that is no blank. -/
theorem compilationUnit_of_read (h : compilationUnit text = .ok d rest) :
    d.form.kind = .compilationUnit ∧ ∃ behind, Stands (.node d) (skipSpaces text) behind := by
  obtain ⟨_, start, hblanks, h⟩ := Reader.bind_eq_ok.mp h
  obtain ⟨_, after, hposition, h⟩ := Reader.bind_eq_ok.mp h
  obtain ⟨package, mid, hpackage, h⟩ := Reader.bind_eq_ok.mp h
  obtain ⟨items, behind, hitems, h⟩ := Reader.bind_eq_ok.mp h
  obtain ⟨_, final, hspaces, h⟩ := Reader.bind_eq_ok.mp h
  obtain ⟨_, last, hend, hreturn⟩ := Reader.bind_eq_ok.mp h
  cases hblanks
  cases hposition
  cases hspaces
  cases hreturn
  have hrest : ∀ c ∈ behind, isSpace c = true := by
    obtain ⟨blanks, hblanks, htext⟩ := afterBlanks_skipSpaces behind
    rw [endOfText_eq_ok hend, List.append_nil] at htext
    rwa [htext]
  exact ⟨rfl, behind, .compilationUnit (startsNot_skipSpaces text) (package_of_read hpackage)
    (list_of_read givesStanding_item hitems) hrest⟩

theorem unit_of_run (h : run compilationUnit text = .ok d) :
    d.form.kind = .compilationUnit ∧ ∃ behind, Stands (.node d) (skipSpaces text) behind := by
  unfold run at h
  split at h
  · rename_i hread
    cases h
    exact compilationUnit_of_read hread
  all_goals cases h

end Units

end ProgramTree.Grammar
