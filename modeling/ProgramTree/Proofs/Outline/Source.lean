import ProgramTree.Proofs.Outline.Lines
import ProgramTree.Proofs.Source.Page

/-! # Labels on lines of source text

The label of a node in an outline and the line that the writer begins the node
with say the same. The line is the label with what ends a statement or opens a
body, and a clause has a brace in front of it that closes the body before. So
the source text of a node can be read off its outline: apart from blank lines
and closing braces it has one line for each entry, in the same order. -/

namespace ProgramTree

set_option autoImplicit false

/-- The line of source text for a node of a kind and with a label, without its indentation. A unit
in no package has none. -/
def Outline.lineOf? (kind : NodeKind) (label : String) : Option String :=
  match kind with
  | .compilationUnit => if label = "unit" then none else some (label ++ ";")
  | .assignment | .variableDefinition | .callStatement | .returnStatement | .replyStatement
  | .breakStatement | .continueStatement | .throwStatement => some (label ++ ";")
  | .comment => some label
  | .block => some "\x7b"
  | .function | .ifStatement | .whileLoop | .tryStatement => some (label ++ " \x7b")
  | .elseIfClause | .elseClause | .catchClause => some ("\x7d " ++ label ++ " \x7b")

/-- Whether a line is that of a node: it is not blank, and more than a closing brace. -/
def Outline.tells (line : List Char) : Bool :=
  decide (line ≠ [] ∧ line ≠ ['}'])

namespace OutlineEntry

def kind : OutlineEntry → NodeKind
  | entry _ kind _ _ _ _ => kind

/-- The line of source text for the node of an entry. -/
def sourceLine? (e : OutlineEntry) : Option String :=
  Outline.lineOf? e.kind e.label

/-- The lines of source text for the nodes of some entries. -/
def sourceLines (shown : List (Nat × OutlineEntry)) : List String :=
  shown.filterMap fun place => place.2.sourceLine?

theorem sourceLines_append (shown shown' : List (Nat × OutlineEntry)) :
    sourceLines (shown ++ shown') = sourceLines shown ++ sourceLines shown' :=
  List.filterMap_append

theorem sourceLines_cons (level : Nat) (e : OutlineEntry) (shown : List (Nat × OutlineEntry)) :
    sourceLines ((level, e) :: shown) = e.sourceLine?.toList ++ sourceLines shown := by
  rw [sourceLines, List.filterMap_cons]
  cases e.sourceLine? <;> rfl

end OutlineEntry

section Payloads

open SourceWriter Outline

variable {p : Payload} {kind : NodeKind} {label line : String}

theorem lineOf?_clause (h : p.kind.isClause = true) :
    lineOf? p.kind (Outline.label p) = some ("\x7d " ++ heading p ++ " \x7b") := by
  cases p with
  | elseIfClause condition | elseClause | catchClause typeName name => rfl
  | _ => cases h

/-- The heading of a node that is no clause is its line; a unit in no package has an empty one. -/
theorem lineOf?_heading (h : p.kind.isClause = false) :
    lineOf? p.kind (Outline.label p) = if p = .compilationUnit none then none
      else some (heading p) := by
  cases p with
  | compilationUnit package =>
    cases package with
    | none => rfl
    | some package =>
      have hunit : "package " ++ package ≠ "unit" := by simp [String.ext_iff]
      simp [lineOf?, Payload.kind, Outline.label, heading, hunit]
  | function name params returns =>
    cases returns <;>
      simp [lineOf?, Payload.kind, Outline.label, heading, functionHeader, parameterList,
        String.ext_iff]
  | variableDefinition typeName name initializer =>
    cases initializer <;>
      simp [lineOf?, Payload.kind, Outline.label, heading, String.append_assoc]
  | returnStatement values =>
    cases values <;>
      simp [lineOf?, Payload.kind, Outline.label, heading, Expression.texts_eq_map,
        String.append_assoc]
  | elseIfClause condition | elseClause | catchClause typeName name => cases h
  | _ => simp [lineOf?, Payload.kind, Outline.label, heading, String.append_assoc]

theorem tells_heading (h : p.kind.isClause = false) :
    tells (heading p).toList = (lineOf? p.kind (Outline.label p)).isSome := by
  cases p with
  | compilationUnit package =>
    cases package with
    | none => rfl
    | some package =>
      have hunit : "package " ++ package ≠ "unit" := by simp [String.ext_iff]
      simp [lineOf?, Payload.kind, Outline.label, heading, tells, hunit]
  | variableDefinition typeName name initializer =>
    cases initializer <;>
      simp [lineOf?, Payload.kind, heading, tells, List.append_eq_singleton_iff]
  | returnStatement values => cases values <;> simp [lineOf?, Payload.kind, heading, tells]
  | comment text =>
    by_cases htext : text = "" <;> simp [lineOf?, Payload.kind, heading, tells, htext]
  | elseIfClause condition | elseClause | catchClause typeName name => cases h
  | _ =>
    simp [lineOf?, Payload.kind, heading, functionHeader, tells, List.append_eq_singleton_iff]

theorem unbroken_lineOf? (h : Unbroken label) (hline : lineOf? kind label = some line) :
    Unbroken line := by
  cases kind with
  | compilationUnit =>
    obtain ⟨_, hline⟩ := Option.ite_none_left_eq_some.mp hline
    cases hline
    simp +decide [h]
  | _ =>
    cases hline
    simp +decide [h]

/-- The line of a label that begins at once begins at once. -/
theorem lineOf?_head (h : ∃ c, label.toList.head? = some c ∧ c ≠ ' ')
    (hline : lineOf? kind label = some line) : ∃ c, line.toList.head? = some c ∧ c ≠ ' ' := by
  obtain ⟨c, hhead, hc⟩ := h
  have happend (more : String) : (label ++ more).toList.head? = some c := by
    rw [String.toList_append, List.head?_append, hhead, Option.some_or]
  cases kind with
  | compilationUnit =>
    obtain ⟨_, hline⟩ := Option.ite_none_left_eq_some.mp hline
    cases hline
    exact ⟨c, happend _, hc⟩
  | block =>
    cases hline
    exact ⟨'{', rfl, by decide⟩
  | comment =>
    cases hline
    exact ⟨c, hhead, hc⟩
  | elseIfClause | elseClause | catchClause =>
    cases hline
    exact ⟨'}', by simp, by decide⟩
  | _ =>
    cases hline
    exact ⟨c, happend _, hc⟩

end Payloads

namespace Snapshot

open SourceWriter Outline

variable {p : Payload} {depth : Nat}

/-- The contents of lines that are the lines of nodes. -/
def told (page : List SourceLine) : List String :=
  (page.map SourceLine.content).filter fun content => tells content.toList

theorem told_append (page page' : List SourceLine) :
    told (page ++ page') = told page ++ told page' := by
  rw [told, List.map_append, List.filter_append]
  rfl

theorem told_cons (line : SourceLine) (page : List SourceLine) :
    told (line :: page) = told [line] ++ told page :=
  told_append [line] page

/-- Only a unit in no package has a heading that is not its line, and then there is no line. -/
theorem told_heading (h : p.kind.isClause = false) :
    told [⟨depth, heading p⟩] = (lineOf? p.kind (Outline.label p)).toList := by
  have htells := tells_heading h
  rw [lineOf?_heading h] at htells ⊢
  by_cases hunit : p = .compilationUnit none
  · rw [if_pos hunit] at htells ⊢
    simp [told, htells]
  · rw [if_neg hunit] at htells ⊢
    simp [told, htells]

theorem told_clause (h : p.kind.isClause = true) :
    told [⟨depth, "\x7d " ++ heading p ++ " \x7b"⟩] =
      (lineOf? p.kind (Outline.label p)).toList := by
  rw [lineOf?_clause h]
  simp [told, tells]

/-- Closing lines and blank lines are of no node. -/
theorem told_frame (needed : Bool) {content : String} (h : tells content.toList = false) :
    told (if needed then [⟨depth, content⟩] else []) = [] := by
  cases needed <;> simp [told, h]

end Snapshot

section Images

open OutlineEntry (leveled leveledAll sourceLines sourceLine? sourceLines_append sourceLines_cons)
open Snapshot (told told_append told_cons told_heading told_clause told_frame)

/-- With nothing to collapse no branch is shut. -/
theorem Branch.isShut_nil (b : Branch) : b.isShut [] [] = false := by
  simp [isShut]

theorem Branch.leveled_outlined (level : Nat) (id : NodeId) (payload : Payload)
    (children : List Branch) : ((Branch.node id payload children).outlined [] []).leveled level =
      (level, .entry id payload.kind (Outline.label payload) false children.length
        (outlinedAll [] [] children)) :: leveledAll (level + 1) (outlinedAll [] [] children) := by
  rw [outlined_eq, isShut_nil]
  rfl

mutual

/-- The lines of the nodes of a branch are those of the entries of its image. -/
theorem told_lines : (b : Branch) → (depth level : Nat) → b.kind.isClause = false →
    told (b.snapshot.lines depth) = sourceLines ((b.outlined [] []).leveled level)
  | .node id payload children, depth, level, h => by
    rw [Branch.snapshot, Snapshot.lines, told_cons, told_heading (p := payload) h, told_append,
      told_bodyLines children depth (level + 1), told_frame _ (by decide), List.append_nil,
      Branch.leveled_outlined, sourceLines_cons]
    rfl

theorem told_bodyLines : (bs : List Branch) → (depth level : Nat) →
    told (Snapshot.bodyLines depth (Branch.snapshots bs)) =
      sourceLines (leveledAll level (Branch.outlinedAll [] [] bs))
  | [], _, _ => rfl
  | .node id payload children :: bs, depth, level => by
    rw [Branch.snapshots, Branch.snapshot, Snapshot.bodyLines, told_append,
      told_bodyLines bs depth level, Branch.outlinedAll, leveledAll, sourceLines_append]
    congr 1
    cases hclause : payload.kind.isClause with
    | true =>
      rw [if_pos rfl, told_cons, told_clause hclause, told_bodyLines children depth (level + 1),
        Branch.leveled_outlined, sourceLines_cons]
      rfl
    | false => exact told_lines (.node id payload children) (depth + 1) level hclause

end

theorem told_itemLines {bs : List Branch} (h : ∀ b ∈ bs, b.kind.isClause = false) (gap : Bool)
    (level : Nat) : told (Snapshot.itemLines gap (Branch.snapshots bs)) =
      sourceLines (leveledAll level (Branch.outlinedAll [] [] bs)) := by
  induction bs generalizing gap with
  | nil => rfl
  | cons b bs ih =>
    obtain ⟨hb, hbs⟩ := List.forall_mem_cons.mp h
    rw [Branch.snapshots, Snapshot.itemLines, told_append, told_append, told_frame gap (by decide),
      told_lines b 0 level hb, ih hbs, Branch.outlinedAll, leveledAll, sourceLines_append,
      List.nil_append]

/-- The lines of the nodes on a page are those of the entries of the outline. -/
theorem told_page {b : Branch} (h : b.snapshot.Admissible) (hclause : b.kind.isClause = false)
    (level : Nat) : told b.snapshot.page = sourceLines ((b.outlined [] []).leveled level) := by
  by_cases hunit : b.kind = .compilationUnit
  · obtain ⟨id, payload, children⟩ := b
    cases payload with
    | compilationUnit package =>
      have hitems : ∀ b ∈ children, b.kind.isClause = false := by
        cases h with
        | node _ hlayout _ =>
          intro b hb
          have hmem : b.kind ∈ (Branch.snapshots children).map Snapshot.kind := by
            rw [Branch.snapshots_eq_map, List.map_map]
            exact List.mem_map.mpr ⟨b, hb, Branch.kind_snapshot b⟩
          rcases Layout.items_of_check hlayout b.kind hmem with hkind | hkind
          all_goals rw [hkind]; rfl
      rw [Branch.leveled_outlined, sourceLines_cons]
      cases package with
      | none => exact told_itemLines hitems false (level + 1)
      | some package =>
        have hheading := @told_heading (.compilationUnit (some package)) 0 rfl
        rw [Branch.snapshot, Snapshot.page, told_cons, told_itemLines hitems true (level + 1)]
        exact congrArg (· ++ _) hheading
    | _ => cases hunit
  · rw [Snapshot.page_of_ne (by rwa [Branch.kind_snapshot]), told_lines b 0 level hclause]

end Images

namespace SourceWriter

variable {p : Payload} {w w' : SourceWriter} {site : Site} {line : String}

/-- The writer has written one more line at a depth, and perhaps a blank line before it. -/
def Adds (w w' : SourceWriter) (depth : Nat) (line : String) : Prop :=
  ∃ blank : String, (blank = "" ∨ blank = "\n") ∧
    w'.text = w.text ++ blank ++ String.ofList (List.replicate (4 * depth) ' ') ++ line ++ "\n"

theorem text_append_lineText (w : SourceWriter) (depth : Nat) (line : String) :
    (w.append (Snapshot.lineText depth line)).text =
      w.text ++ String.ofList (List.replicate (4 * depth) ' ') ++ line ++ "\n" := by
  simp [append, Snapshot.lineText, String.ext_iff]

theorem text_prepared (w : SourceWriter) (t : Tree) (b : Branch) :
    ∃ blank, (blank = "" ∨ blank = "\n") ∧ (w.prepared t b).text = w.text ++ blank := by
  unfold prepared separate
  split
  · split
    · by_cases hblank : w.text.isEmpty || w.afterComment
      · exact ⟨"", .inl rfl, by rw [if_pos hblank, String.append_empty]⟩
      · exact ⟨"\n", .inr rfl, by rw [if_neg hblank]⟩
    · exact ⟨"", .inl rfl, String.append_empty.symm⟩
  · exact ⟨"", .inl rfl, String.append_empty.symm⟩

/-- A node that is entered has its line written, a clause one body further out. -/
theorem adds_enter {site : Site} (hpayload : site.payload = p)
    (hline : Outline.lineOf? p.kind (Outline.label p) = some line) :
    w.Adds (w.enter site) (if p.kind.isClause then w.depth - 1 else w.depth) line := by
  obtain ⟨t, b, active⟩ := site
  have hkind : b.kind = p.kind := congrArg Payload.kind hpayload
  cases hclause : p.kind.isClause with
  | true =>
    rw [lineOf?_clause hclause, Option.some.injEq] at hline
    rw [enter_clause w ⟨t, b, active⟩ (by rw [← hclause, ← hkind]; rfl), hpayload, hline,
      if_pos rfl]
    exact ⟨"", .inl rfl, by rw [String.append_empty]; exact text_append_lineText w _ _⟩
  | false =>
    rw [lineOf?_heading hclause, Option.ite_none_left_eq_some, Option.some.injEq] at hline
    obtain ⟨hpackage, rfl⟩ := hline
    by_cases hunit : b.kind = .compilationUnit
    · cases p with
      | compilationUnit package =>
        cases package with
        | none => exact absurd rfl hpackage
        | some package =>
          refine ⟨"", .inl rfl, ?_⟩
          simp only [enter, hpayload]
          simp [SourceWriter.line]
      | _ => cases hkind.symm.trans hunit
    · obtain ⟨blank, hblank, hprepared⟩ := text_prepared w t b
      refine ⟨blank, hblank, ?_⟩
      rw [enter_statement w b (by rw [hkind, hclause]) hunit, ← hprepared]
      exact (text_append_lineText _ _ _).trans (by rw [← hpayload]; rfl)

/-- A unit in no package has no line, and nothing is written when it is entered. -/
theorem enter_of_no_line {site : Site} (hpayload : site.payload = p)
    (hline : Outline.lineOf? p.kind (Outline.label p) = none) :
    p = .compilationUnit none ∧ w.enter site = w := by
  cases hclause : p.kind.isClause with
  | true =>
    rw [lineOf?_clause hclause] at hline
    cases hline
  | false =>
    rw [lineOf?_heading hclause] at hline
    by_cases hpackage : p = .compilationUnit none
    · subst hpackage
      simp only [enter, hpayload, and_self]
    · rw [if_neg hpackage] at hline
      cases hline

end SourceWriter

/-- Indentation aside, a line is its content. -/
theorem SourceLine.dropWhile_chars {line : SourceLine}
    (h : line.content.toList.head? ≠ some ' ') :
    line.chars.dropWhile (· == ' ') = line.content.toList := by
  have hcontent : line.content.toList.dropWhile (· == ' ') = line.content.toList := by
    cases hcs : line.content.toList with
    | nil => rfl
    | cons c cs =>
      rw [hcs, List.head?_cons, ne_eq, Option.some.injEq] at h
      exact List.dropWhile_cons_of_neg (by simpa using h)
  rw [chars, List.dropWhile_append_of_pos (by simp), hcontent]

section Pages

variable {t : Tree} {p : Payload}

/-- Each line of the page of a branch begins at once. -/
theorem Branch.HeldBy.head_page (h : t.ReachableWith Payload.Made) {b : Branch}
    (held : b.HeldBy t) (hadmissible : b.snapshot.Admissible) (hclause : b.kind.isClause = false) :
    ∀ line ∈ b.snapshot.page, line.content.toList.head? ≠ some ' ' := by
  intro line hmem
  by_cases htells : Outline.tells line.content.toList = true
  · have htold : line.content ∈ Snapshot.told b.snapshot.page :=
      List.mem_filter.mpr ⟨List.mem_map_of_mem hmem, htells⟩
    rw [told_page hadmissible hclause 0] at htold
    obtain ⟨shown, hshown, hline⟩ := List.mem_filterMap.mp htold
    obtain ⟨id, payload, hpayload, hlabel⟩ := held.exists_label 0 shown hshown
    have hconforms := Payload.made_iff.mp (h.admissible hpayload)
    obtain ⟨c, hhead, hc⟩ := lineOf?_head (hlabel ▸ hconforms.label_head) hline
    rw [hhead, ne_eq, Option.some.injEq]
    exact hc
  · rw [Outline.tells, decide_eq_true_eq, not_and_or, not_not, not_not] at htells
    rcases htells with hempty | hclosing
    · rw [hempty]
      nofun
    · rw [hclosing]
      decide

/-- For every payload that a constructor makes, the label in the outline and the line in the source
text say the same. Wherever a node with the payload stands and whatever came before, the renderer
shows it with its label, and the writer writes the line that belongs to its kind and label, at most
with a blank line before it. A whole source text has, apart from blank lines and closing braces,
just the lines that belong to the entries of the outline, in their order. -/
theorem labels_on_lines (hmade : p.Made) :
    (∀ (site : Site) (kinds : List NodeKind) (ids : List NodeId) (r : OutlineRenderer)
      (w : SourceWriter), site.payload = p →
      ∃ flow e w', (OutlineRenderer.visitor kinds ids).visit site r = (.ok flow, r.push e) ∧
        e.kind = p.kind ∧ e.label = Outline.label p ∧
        SourceWriter.visitor.visit site w = (.ok .proceed, w') ∧
        (e.sourceLine? = none → p = .compilationUnit none ∧ w' = w) ∧
        ∀ line, e.sourceLine? = some line →
          '\n' ∉ line.toList ∧ line.toList.head? ≠ some ' ' ∧
            w.Adds w' (if p.kind.isClause then w.depth - 1 else w.depth) line) ∧
    ∀ (t : Tree) (id : NodeId), t.ReachableWith Payload.Made → t.payload? id = some p →
      p.kind.isClause = false →
      ∃ root summary text lines, t.outline id [] [] = .ok (root, summary) ∧
        t.source id = .ok text ∧ text.toList.splitOn '\n' = lines ++ [[]] ∧
        (lines.map fun line => line.dropWhile (· == ' ')).filter Outline.tells =
          (OutlineEntry.sourceLines (root.leveled 0)).map String.toList := by
  have hconforms := Payload.made_iff.mp hmade
  refine ⟨fun site kinds ids r w hpayload => ?_, fun t id h hpayload hclause => ?_⟩
  · subst hpayload
    refine ⟨_, OutlineRenderer.entryOf site (OutlineRenderer.isCollapsed kinds ids site),
      w.enter site, rfl, rfl, rfl, SourceWriter.visitor_visit site w,
      fun hnone => SourceWriter.enter_of_no_line rfl hnone, fun line hline => ?_⟩
    obtain ⟨c, hhead, hc⟩ := lineOf?_head hconforms.label_head hline
    refine ⟨unbroken_lineOf? hconforms.unbroken_label hline, ?_, SourceWriter.adds_enter rfl hline⟩
    rw [hhead, ne_eq, Option.some.injEq]
    exact hc
  · have hlive : t.kind? id = some p.kind := congrArg (Option.map Payload.kind) hpayload
    obtain ⟨b, hb, rfl, held, houtline⟩ :=
      h.reachable.wellFormed.outline_eq (Tree.contains_of_kind? hlive) [] []
    have hs : t.snapshot? b.id = some b.snapshot := by rw [Tree.snapshot?, hb, Option.map_some]
    have hadmissible := h.admissible_snapshot hs
    have hkind : b.kind.isClause = false := by
      rw [Option.some.inj (held.kind.symm.trans hlive), hclause]
    obtain ⟨_, w, hwalk, _, htext⟩ := h.walk_page hs (by rwa [Branch.kind_snapshot])
    refine ⟨_, _, w.text, _, houtline, Tree.source_of_walk hwalk,
      htext ▸ hadmissible.splitOn_printed, ?_⟩
    have hcontents : (b.snapshot.page.map SourceLine.chars).map (List.dropWhile (· == ' ')) =
        (b.snapshot.page.map SourceLine.content).map String.toList := by
      rw [List.map_map, List.map_map]
      exact List.map_congr_left fun line hline =>
        SourceLine.dropWhile_chars (held.head_page h hadmissible hkind line hline)
    rw [hcontents, List.filter_map, ← told_page hadmissible hkind 0]
    rfl

/-- The lines of a statement with a clause are those of its four entries. -/
theorem conditional_lines :
    ∃ t : Tree, t.ReachableWith Payload.Made ∧
      t.payload? ⟨1, 0⟩ = some (.ifStatement (.name "x")) ∧
      ∃ root summary text lines, t.outline ⟨1, 0⟩ [] [] = .ok (root, summary) ∧
        OutlineEntry.sourceLines (root.leveled 0) =
          ["if (x) \x7b", "break;", "\x7d else \x7b", "continue;"] ∧
        t.source ⟨1, 0⟩ = .ok text ∧ text.toList.splitOn '\n' = lines ++ [[]] ∧
        (lines.map fun line => line.dropWhile (· == ' ')).filter Outline.tells =
          ["if (x) \x7b", "break;", "\x7d else \x7b", "continue;"].map String.toList := by
  obtain ⟨t, ht, hreach⟩ : ∃ t : Tree, t = [.create (.ifStatement (.name "x")),
      .create .breakStatement, .create .elseClause, .create .continueStatement,
      .appendChild ⟨1, 0⟩ ⟨2, 0⟩, .appendChild ⟨3, 0⟩ ⟨4, 0⟩,
      .appendChild ⟨1, 0⟩ ⟨3, 0⟩].foldl Tree.after (Tree.new none) ∧
        t.ReachableWith Payload.Made := by
    refine ⟨_, rfl, (Tree.ReachableWith.new none ⟨.compilationUnit none, rfl⟩).run _ ?_⟩
    simp only [List.forall_mem_cons, Tree.Operation.payload?, Option.some.injEq, forall_eq',
      reduceCtorEq, false_implies, implies_true, List.not_mem_nil, and_true]
    exact ⟨⟨.ifStatement (some (.name "x")), rfl⟩, ⟨.breakStatement, rfl⟩, ⟨.elseClause, rfl⟩,
      ⟨.continueStatement, rfl⟩⟩
  have hpayload : t.payload? ⟨1, 0⟩ = some (.ifStatement (.name "x")) := by rw [ht]; rfl
  have hrun : t.outline ⟨1, 0⟩ [] [] = .ok (.entry ⟨1, 0⟩ .ifStatement "if (x)" false 2
      [.entry ⟨2, 0⟩ .breakStatement "break" false 0 [], .entry ⟨3, 0⟩ .elseClause "else" false 1
        [.entry ⟨4, 0⟩ .continueStatement "continue" false 0 []]], ⟨4, 0⟩) := by rw [ht]; rfl
  obtain ⟨root, summary, text, lines, houtline, hsource, hsplit, htold⟩ :=
    (labels_on_lines ⟨.ifStatement (some (.name "x")), rfl⟩).2 t ⟨1, 0⟩ hreach hpayload rfl
  obtain ⟨rfl, rfl⟩ := Prod.mk.inj (Except.ok.inj (houtline.symm.trans hrun))
  exact ⟨t, hreach, hpayload, _, _, text, lines, houtline, rfl, hsource, hsplit, htold⟩

end Pages

end ProgramTree
