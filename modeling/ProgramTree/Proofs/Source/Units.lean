import ProgramTree.Proofs.Source.Statements

/-! # Units are read back

The header of a function is read back field by field, its body like that of any
statement. Between the items of a unit there may be blank lines, which are
skipped before the next item is read, so where the writer leaves them out does
not matter. -/

namespace ProgramTree

set_option autoImplicit false

namespace Reader

variable {rest : List Char}

section Headers

theorem Closes.startsNot (h : Closes rest) : StartsNot Name.isWordChar rest := by
  obtain ⟨c, tail, rfl, hc⟩ := h
  apply startsNot_cons.mpr
  simp only [closesExpression, Bool.or_eq_true, beq_iff_eq] at hc
  rcases hc with ((rfl | rfl) | rfl) | rfl <;> decide

theorem Closes.endsType (h : Closes rest) : EndsType rest := by
  refine ⟨h.startsNot, ?_, ?_⟩
  · obtain ⟨c, tail, rfl, hc⟩ := h
    rintro ⟨⟩
    cases hc
  · obtain ⟨c, tail, rfl, hc⟩ := h
    rintro ⟨⟩
    cases hc

def parameterText (p : String × String) : List Char :=
  p.1.toList ++ ' ' :: p.2.toList

theorem parameter_run {p : String × String} (htype : Name.isTypeName p.1.toList = true)
    (hname : Name.isIdentifier p.2.toList = true) (hrest : Closes rest) :
    parameter (parameterText p ++ rest) = .ok p rest := by
  obtain ⟨hskipType, htypeRun, hskipName, hnameRun⟩ := declared_run htype hname hrest.startsNot
  rw [parameterText, List.append_assoc, List.cons_append]
  simp only [parameter, bind_apply, andThen, spaces, hskipType, htypeRun, hskipName, hnameRun,
    pure_apply, String.ofList_toList]

theorem parameter_space_run {p : String × String} (htype : Name.isTypeName p.1.toList = true)
    (hname : Name.isIdentifier p.2.toList = true) (hrest : Closes rest) :
    parameter (' ' :: (parameterText p ++ rest)) = .ok p rest :=
  parameter_run htype hname hrest

theorem parameters_run {params : List (String × String)}
    (h : ∀ p ∈ params, Name.isTypeName p.1.toList = true ∧ Name.isIdentifier p.2.toList = true)
    (rest : List Char) :
    separated comma parameter
        ((", ".intercalate (params.map fun p => p.1 ++ " " ++ p.2)).toList ++ ')' :: rest) =
      .ok params (')' :: rest) := by
  have hclosing : Closes (')' :: rest) := ⟨')', rest, rfl, by decide⟩
  cases params with
  | nil =>
    obtain ⟨failure, hsoft⟩ := typeName_soft (identifier_soft hclosing.startsNot)
    have hparameter : parameter (')' :: rest) = .soft failure := by
      simp only [parameter, bind_apply, andThen, spaces, hclosing.skipSpaces, hsoft]
    exact separated_of_soft hparameter
  | cons p ps =>
    obtain ⟨hp, hps⟩ := List.forall_mem_cons.mp h
    obtain ⟨hmany, hcloses⟩ := many_items_run parameterText
      (fun p hp _ hrest => parameter_space_run (hps p hp).1 (hps p hp).2 hrest) hclosing (by simp)
    have htexts : (", ".intercalate ((p :: ps).map fun p => p.1 ++ " " ++ p.2)).toList =
        parameterText p ++ ps.flatMap fun p => ',' :: ' ' :: parameterText p := by
      rw [List.map_cons, toList_intercalate, List.flatMap_map]
      simp [parameterText]
    rw [htexts, List.append_assoc]
    exact separated_of_ok (parameter_run hp.1 hp.2 hcloses) hmany

theorem returnType_run {type : String} (htype : Name.isTypeName type.toList = true)
    (hrest : Closes rest) : returnType (type.toList ++ rest) = .ok type rest := by
  simp only [returnType, bind_apply, andThen, spaces, skipSpaces_typeName htype,
    typeName_run htype hrest.endsType, pure_apply, String.ofList_toList]

theorem returnType_space_run {type : String} (htype : Name.isTypeName type.toList = true)
    (hrest : Closes rest) : returnType (' ' :: (type.toList ++ rest)) = .ok type rest :=
  returnType_run htype hrest

/-- The return types in parentheses, or nothing. -/
def returnsText (returns : List String) : List Char :=
  (if returns.isEmpty then "" else " (" ++ ", ".intercalate returns ++ ")").toList

theorem returnTypes_run {returns : List String}
    (h : ∀ type ∈ returns, Name.isTypeName type.toList = true) (rest : List Char) :
    ∃ types, optional returnTypes (returnsText returns ++ ' ' :: '\x7b' :: rest) =
      .ok types (' ' :: '\x7b' :: rest) ∧ types.getD [] = returns := by
  cases returns with
  | nil =>
    have hhead : (skipSpaces (' ' :: '\x7b' :: rest)).head? ≠ some '(' := by
      rw [skipSpaces_space, skipSpaces_of_startsNot (startsNot_cons.mpr rfl)]
      simp
    obtain ⟨failure, hsoft⟩ := symbolOr_of_ne .unexpected hhead
    exact ⟨none, optional_of_soft (bind_of_soft hsoft), rfl⟩
  | cons type types =>
    obtain ⟨htype, htypes⟩ := List.forall_mem_cons.mp h
    have hclosing : Closes (')' :: ' ' :: '\x7b' :: rest) := ⟨')', _, rfl, by decide⟩
    obtain ⟨hmany, hcloses⟩ := many_items_run (fun type : String => type.toList)
      (fun type htype _ hrest => returnType_space_run (htypes type htype) hrest) hclosing (by simp)
    have htext : returnsText (type :: types) ++ ' ' :: '\x7b' :: rest =
        ' ' :: '(' :: (type.toList ++ (types.flatMap (fun type => ',' :: ' ' :: type.toList) ++
          ')' :: ' ' :: '\x7b' :: rest)) := by
      rw [returnsText, List.isEmpty_cons, if_neg (by decide), String.toList_append,
        String.toList_append, toList_intercalate]
      simp
    have hopen : symbol '(' (' ' :: '(' :: (type.toList ++ (types.flatMap
        (fun type => ',' :: ' ' :: type.toList) ++ ')' :: ' ' :: '\x7b' :: rest))) =
          .ok () (type.toList ++ (types.flatMap (fun type => ',' :: ' ' :: type.toList) ++
            ')' :: ' ' :: '\x7b' :: rest)) :=
      symbol_space_run _ (rfl : isSpace '(' = false)
    have hsome : separatedSome comma returnType (type.toList ++ (types.flatMap
        (fun type => ',' :: ' ' :: type.toList) ++ ')' :: ' ' :: '\x7b' :: rest)) =
          .ok (type :: types) (')' :: ' ' :: '\x7b' :: rest) := by
      simp only [separatedSome, bind_apply, bind_apply (many _), andThen,
        returnType_run htype hcloses, hmany, pure_apply]
    have hclose : expect ')' (')' :: ' ' :: '\x7b' :: rest) = .ok () (' ' :: '\x7b' :: rest) :=
      symbol_run _ (rfl : isSpace ')' = false)
    refine ⟨some (type :: types), optional_of_ok ?_, rfl⟩
    rw [htext]
    simp only [returnTypes, bind_apply, andThen, hopen, committed, hsome, hclose,
      Outcome.committed, pure_apply]

theorem toList_heading_function (name : String) (params : List Parameter) (returns : List String) :
    (SourceWriter.heading (.function name params returns)).toList =
      "function".toList ++ ' ' :: (name.toList ++ '(' ::
        ((", ".intercalate ((params.map fun p => (p.typeName, p.name)).map
          fun p => p.1 ++ " " ++ p.2)).toList ++ ')' :: (returnsText returns ++ [' ', '\x7b']))) := by
  have hfunction : "function ".toList = "function".toList ++ [' '] := rfl
  rw [SourceWriter.heading]
  delta SourceWriter.functionHeader
  simp only [String.toList_append, hfunction, List.map_map, returnsText]
  simp [Function.comp_def]

theorem functionName_run {name : List Char} (hname : Name.isIdentifier name = true) :
    functionName (' ' :: (name ++ '(' :: rest)) = .ok name ('(' :: rest) := by
  have hread : identifier (name ++ '(' :: rest) = .ok name ('(' :: rest) :=
    identifier_run (startsNot_cons.mpr rfl) hname
  rw [functionName, skipSpaces_space, skipSpaces_identifier hname, hread]

/-- Behind its header a function is its body. -/
theorem function_header {name : String} {params : List Parameter} {returns : List String}
    {text : List Char} (hconforms : (Payload.function name params returns).Conforms)
    (htext : text = (SourceWriter.heading (.function name params returns)).toList ++ rest) :
    ∃ form, function text = (closeBody statement rest).map (.node text.length form) ∧
      form.payload = .ok (.function name params returns) := by
  have hform := hconforms.form_payload
  obtain ⟨hparams, hname, _, hreturns⟩ := hconforms
  have hpairs : ∀ p ∈ params.map fun p => (p.typeName, p.name),
      Name.isTypeName p.1.toList = true ∧ Name.isIdentifier p.2.toList = true := by
    intro p hp
    obtain ⟨p', hp', rfl⟩ := List.mem_map.mp hp
    exact hparams p' hp'
  obtain ⟨types, htypes, hgetD⟩ := returnTypes_run hreturns rest
  have hread := parameters_run hpairs (returnsText returns ++ ' ' :: '\x7b' :: rest)
  have hbody : body statement (' ' :: '\x7b' :: rest) = closeBody statement rest := by
    have hopen : expect '\x7b' (' ' :: '\x7b' :: rest) = .ok () rest :=
      symbol_space_run _ (rfl : isSpace '\x7b' = false)
    simp only [body, bind_apply, andThen, committed, hopen, Outcome.committed]
  rw [toList_heading_function] at htext
  simp only [List.append_assoc, List.cons_append, List.nil_append] at htext
  have hkeyword : ∀ after, keyword "function" ("function".toList ++ ' ' :: after) =
      .ok () (' ' :: after) := fun _ =>
    keyword_run (startsNot_cons.mpr rfl) (List.all_eq_true.mp rfl)
  have hopen : ∀ after, expect '(' ('(' :: after) = .ok () after := fun _ =>
    symbol_run _ (rfl : isSpace '(' = false)
  have hclosing : ∀ after, expect ')' (')' :: after) = .ok () after := fun _ =>
    symbol_run _ (rfl : isSpace ')' = false)
  refine ⟨.function (String.ofList name.toList) (params.map fun p => (p.typeName, p.name))
    (types.getD []), ?_, ?_⟩
  · rw [← hbody, ← bind_pure_apply, htext]
    simp only [function, bind_apply, andThen, position, hkeyword, functionName_run hname, committed,
      hopen, hread, hclosing, Outcome.committed, htypes]
  · rw [String.ofList_toList, hgetD]
    exact hform

/-- A text that begins with a word is no comment. -/
theorem comment_soft {c : Char} {tail text : List Char} (hc : c ≠ '/') (h : text = c :: tail) :
    comment text = .soft ⟨.unexpected, text⟩ := by
  subst h
  have htext : commentText (c :: tail) = unexpected (c :: tail) := by
    unfold commentText
    split
    · rename_i hslash
      exact absurd (List.cons.inj hslash).1 hc
    · rfl
  simp only [comment, bind_apply, andThen, position, htext, unexpected]

end Headers

end Reader

open Reader Snapshot

namespace Snapshot

/-- An item is read up to the end of its last line, behind any blanks, and does not begin like
the clause that names a package. -/
def ItemReads (s : Snapshot) : Prop :=
  ∀ text rest : List Char, skipSpaces text = skipSpaces (s.text 0 ++ rest) →
    ∃ d, item text = .ok d ('\n' :: rest) ∧ d.Spells s ∧ rest.length + 1 < text.length ∧
      word (skipSpaces text) ≠ "package".toList

theorem itemReads_comment {content : String} (h : (Payload.comment content).Conforms) :
    (node (.comment content) []).ItemReads := by
  intro text rest htext
  obtain ⟨after, hheading, hrun⟩ := comment_heading_run h
  obtain ⟨start, form, hread, hform⟩ := hrun rest
  have hskip : skipSpaces text = '/' :: '/' :: (after ++ '\n' :: rest) := by
    rw [htext, skipSpaces_line rfl rfl ⟨_, _, hheading, by decide⟩, hheading]
    rfl
  have hlength := length_skipSpaces_le text
  refine ⟨.leaf start form, ?_, ⟨hform, trivial⟩, ?_, ?_⟩
  · simp only [item, bind_apply, andThen, spaces, hskip, orElse, hread]
  · rw [hskip] at hlength
    simp only [List.length_cons, List.length_append] at hlength
    omega
  · have hslash : StartsNot Name.isWordChar ('/' :: '/' :: (after ++ '\n' :: rest)) :=
      startsNot_cons.mpr rfl
    rw [hskip, word_eq_nil hslash]
    decide

/-- Behind its header a function among the items is its body. -/
theorem item_function_header {name : String} {params : List Parameter} {returns : List String}
    {children : List Snapshot} (hconforms : (Payload.function name params returns).Conforms)
    {text rest : List Char}
    (htext : skipSpaces text =
      skipSpaces ((node (.function name params returns) children).text 0 ++ rest)) :
    rest.length + 1 < text.length ∧ word (skipSpaces text) = "function".toList ∧
    ∃ start form, item text =
      (closeBody statement ('\n' :: bodyText 0 children [] rest)).map (.node start form) ∧
      form.payload = .ok (.function name params returns) := by
  have hheading := toList_heading_function name params returns
  have hskip : skipSpaces ((node (.function name params returns) (children ++ [])).text 0 ++ rest) =
      (SourceWriter.heading (.function name params returns)).toList ++
        '\n' :: bodyText 0 children [] rest :=
    skipSpaces_text rfl rfl ⟨'f', _, hheading, by decide⟩
  rw [List.append_nil, ← htext] at hskip
  obtain ⟨form, hread, hform⟩ := function_header hconforms hskip
  have hshorter : rest.length + 1 < (bodyText 0 children [] rest).length :=
    length_afterBrace_lt_bodyText (List.forall_mem_nil _) 0 children rest
  have hlength := length_skipSpaces_le text
  have hword : word (skipSpaces text) = "function".toList := by
    rw [hskip, hheading, List.append_assoc]
    exact (word_run (startsNot_cons.mpr rfl) (List.all_eq_true.mp rfl)).1
  obtain ⟨after, hafter, _⟩ := exists_of_word (hword : _ = 'f' :: "unction".toList)
  have hcomment := comment_soft (by decide) hafter
  refine ⟨?_, hword, (skipSpaces text).length, form, ?_, hform⟩
  · rw [hskip, List.length_append, List.length_cons] at hlength
    omega
  · simp only [item, bind_apply, andThen, spaces, orElse, hcomment]
    exact hread

theorem itemReads_function {name : String} {params : List Parameter} {returns : List String}
    {children : List Snapshot} (hconforms : (Payload.function name params returns).Conforms)
    (h : ∀ s ∈ children, s.Reads) :
    (node (.function name params returns) children).ItemReads := by
  intro text rest htext
  obtain ⟨hlength, hword, start, form, hread, hform⟩ := item_function_header hconforms htext
  obtain ⟨statements, hclose, hspells⟩ := closeBody_bodyText 0 h rest
  rw [hclose] at hread
  refine ⟨_, hread, ⟨hform, hspells⟩, hlength, ?_⟩
  rw [hword]
  decide

theorem itemReads_of_spellable {s : Snapshot} (h : s.Spellable)
    (hkind : s.kind = .function ∨ s.kind = .comment) : s.ItemReads := by
  have hconforms := h.conforms
  have hlayout := h.layout
  have hbody := h.reads.2
  obtain ⟨payload, children⟩ := s
  cases payload with
  | function name params returns =>
    exact itemReads_function hconforms (h.ready hbody rfl nofun nofun).2
  | comment content =>
    have hunit : NodeKind.comment ≠ .compilationUnit := by decide
    have hnone : children = [] :=
      List.map_eq_nil_iff.mp (Layout.eq_nil_of_check rfl hunit hlayout)
    rw [hnone]
    exact itemReads_comment hconforms
  | _ => rcases hkind with hkind | hkind <;> cases hkind

variable {items : List Snapshot}

theorem skipSpaces_itemTexts_cons (gap : Bool) (s : Snapshot) (ss : List Snapshot) :
    skipSpaces (itemTexts gap (s :: ss)) =
      skipSpaces (s.text 0 ++ itemTexts (s.kind != .comment) ss) := by
  rw [itemTexts]
  cases gap <;> rfl

theorem many_itemTexts (h : ∀ s ∈ items, s.ItemReads) (gap : Bool) {text : List Char}
    (htext : skipSpaces text = skipSpaces (itemTexts gap items)) :
    ∃ ds final, many item text = .ok ds final ∧ skipSpaces final = [] ∧
      Draft.SpellAll ds items := by
  induction items generalizing gap text with
  | nil =>
    have hitem : item text = .soft ⟨.unexpected, []⟩ := by
      rw [item, bind_apply, andThen, spaces]
      simp only [htext, itemTexts, skipSpaces_nil]
      rfl
    exact ⟨[], text, many_of_soft hitem, htext, trivial⟩
  | cons s ss ih =>
    obtain ⟨hs, hss⟩ := List.forall_mem_cons.mp h
    have hfirst := htext.trans (skipSpaces_itemTexts_cons gap s ss)
    obtain ⟨d, hread, hspell, hlength, _⟩ := hs text _ hfirst
    obtain ⟨ds, final, hmany, hfinal, hspells⟩ := ih hss _ skipSpaces_newline
    exact ⟨d :: ds, final, many_of_ok hread hlength hmany, hfinal, hspell, hspells⟩

theorem packageClause_run {package : String} {rest : List Char}
    (h : Name.isPackageName package.toList = true) :
    packageClause ("package".toList ++ ' ' :: (package.toList ++ ';' :: rest)) =
      .ok package rest := by
  obtain ⟨hne, hparts⟩ := isPart_of_isPackageName h
  have hkeyword : keyword "package" ("package".toList ++ ' ' :: (package.toList ++ ';' :: rest)) =
      .ok () (' ' :: (package.toList ++ ';' :: rest)) := keyword_space_run rfl
  have hskip : skipSpaces (' ' :: (package.toList ++ ';' :: rest)) =
      package.toList ++ ';' :: rest := by
    obtain ⟨c, tail, hc⟩ := List.exists_cons_of_ne_nil hne
    rw [skipSpaces_space, hc]
    refine skipSpaces_of_startsNot (startsNot_cons.mpr ?_)
    exact isSpace_of_isPart (hparts c (hc ▸ List.mem_cons_self))
  have hname : packageName (package.toList ++ ';' :: rest) = .ok package.toList (';' :: rest) :=
    packageName_run h (startsNot_cons.mpr rfl)
  simp only [packageClause, bind_apply, andThen, hkeyword, committed, spaces, hskip, hname,
    expect_semicolon, Outcome.committed, pure_apply, String.ofList_toList]

/-- Behind the name of its package a unit is its items, if none of them begins like that name. -/
theorem unit_header {package : Option String}
    (hconforms : (Payload.compilationUnit package).Conforms)
    (hword : word (skipSpaces (itemTexts false items)) ≠ "package".toList) :
    ∃ start first, skipSpaces first = skipSpaces (itemTexts package.isSome items) ∧
      compilationUnit (unitText package items) =
        (do
          let items ← many item
          spaces
          endOfText
          return .node start (.compilationUnit package) items : Reader Draft) first := by
  obtain ⟨first, hclause, hfirst⟩ : ∃ first,
      optional packageClause (skipSpaces (unitText package items)) = .ok package first ∧
      skipSpaces first = skipSpaces (itemTexts package.isSome items) := by
    cases package with
    | none => exact ⟨_, optional_of_soft (bind_of_soft (if_neg hword)), skipSpaces_skipSpaces _⟩
    | some package =>
      refine ⟨'\n' :: itemTexts true items, optional_of_ok ?_, rfl⟩
      have hline : skipSpaces (unitText (some package) items) =
          "package".toList ++ ' ' :: (package.toList ++ ';' :: '\n' :: itemTexts true items) := by
        have hpackage : ("package " ++ package ++ ";").toList =
            "package".toList ++ ' ' :: (package.toList ++ [';']) := by simp
        rw [unitText, skipSpaces_lineText]
        · rw [hpackage]
          simp only [List.append_assoc, List.cons_append, List.nil_append, Option.isSome_some]
        · rw [hpackage]
          exact startsNot_cons.mpr rfl
      rw [hline]
      exact packageClause_run (hconforms package rfl)
  refine ⟨(skipSpaces (unitText package items)).length, first, hfirst, ?_⟩
  simp only [compilationUnit, bind_apply, andThen, spaces, position, hclause]

theorem run_unitText {package : Option String}
    (h : (node (.compilationUnit package) items).Spellable) :
    ∃ d, Reader.run compilationUnit (unitText package items) = .ok d ∧
      d.Spells (node (.compilationUnit package) items) := by
  have hconforms := h.conforms
  have hkinds := Layout.items_of_check h.layout
  have hitems : ∀ s ∈ items, s.ItemReads := fun s hs =>
    itemReads_of_spellable (h.children s hs) (hkinds s.kind (List.mem_map_of_mem hs))
  have hword : word (skipSpaces (itemTexts false items)) ≠ "package".toList := by
    cases items with
    | nil => decide
    | cons s ss =>
      obtain ⟨_, _, _, _, hword⟩ := hitems s List.mem_cons_self (itemTexts false (s :: ss)) _ rfl
      exact hword
  obtain ⟨start, first, hfirst, hunit⟩ := unit_header hconforms hword
  obtain ⟨ds, final, hmany, hfinal, hspells⟩ := many_itemTexts hitems _ hfirst
  have hread : Reader.run compilationUnit (unitText package items) =
      .ok (.node start (.compilationUnit package) ds) := by
    rw [Reader.run, hunit]
    simp only [bind_apply, bind_apply (many _), andThen, spaces, hmany, hfinal, endOfText,
      pure_apply]
  exact ⟨_, hread, hconforms.form_payload, hspells⟩

end Snapshot

end ProgramTree
