import ProgramTree.Proofs.Lines
import ProgramTree.Proofs.Source.Written

/-! # The page of a node

The text that a walk writes, line by line and with no writer in sight. A line
stands four spaces in for each body around it. A node has its heading, what
stands in its body one level further in, and a closing line; a clause takes the
closing line of the part before it for its own heading. The items of a unit are
set apart by blank lines. The lines of the text are just those of the page, and
the page is made from the snapshot of the node alone. -/

namespace ProgramTree

set_option autoImplicit false

/-- A line, and how many bodies are around it. -/
structure SourceLine where
  depth : Nat
  content : String

def SourceLine.chars (line : SourceLine) : List Char :=
  List.replicate (4 * line.depth) ' ' ++ line.content.toList

namespace Snapshot

mutual

/-- The lines of a node that is no clause, with that many bodies around it. -/
def lines (depth : Nat) : Snapshot → List SourceLine
  | node payload children =>
    ⟨depth, SourceWriter.heading payload⟩ :: (bodyLines depth children ++
      if payload.kind.hasBody then [⟨depth, "\x7d"⟩] else [])

/-- The lines in the body of a node with that many bodies around it, up to the closing line. -/
def bodyLines (depth : Nat) : List Snapshot → List SourceLine
  | [] => []
  | node payload children :: ss =>
    (if payload.kind.isClause then
      ⟨depth, "\x7d " ++ SourceWriter.heading payload ++ " \x7b"⟩ :: bodyLines depth children
    else (node payload children).lines (depth + 1)) ++ bodyLines depth ss

end

/-- The lines of the items of a unit, with a blank line before the first one if there is a gap, and
before each other one that does not follow a comment. -/
def itemLines (gap : Bool) : List Snapshot → List SourceLine
  | [] => []
  | s :: ss => (if gap then [⟨0, ""⟩] else []) ++ s.lines 0 ++ itemLines (s.kind != .comment) ss

/-- The lines of a unit or of any other node that is no clause. -/
def page : Snapshot → List SourceLine
  | node (.compilationUnit none) items => itemLines false items
  | node (.compilationUnit (some package)) items =>
    ⟨0, "package " ++ package ++ ";"⟩ :: itemLines true items
  | s => s.lines 0

/-- The text of a page. -/
def printed (s : Snapshot) : String :=
  String.ofList (unlines (s.page.map SourceLine.chars))

section Texts

theorem lineText_eq (depth : Nat) (content : String) :
    lineText depth content = (⟨depth, content⟩ : SourceLine).chars ++ ['\n'] := rfl

mutual

theorem text_eq_lines : (s : Snapshot) → (depth : Nat) → s.kind.isClause = false →
    s.text depth = unlines ((s.lines depth).map SourceLine.chars)
  | node payload children, depth, hclause => by
    have hkind : payload.kind.isClause = false := hclause
    have hcloses : SourceWriter.closes payload.kind = payload.kind.hasBody := by
      rw [closes_eq, hkind, Bool.not_false, Bool.and_true]
    rw [text, lines, hkind, hcloses, texts_eq_bodyLines children depth]
    cases payload.kind.hasBody <;> simp [unlines, lineText_eq]

theorem texts_eq_bodyLines : (ss : List Snapshot) → (depth : Nat) →
    texts (depth + 1) ss = unlines ((bodyLines depth ss).map SourceLine.chars)
  | [], _ => rfl
  | node payload children :: ss, depth => by
    rw [texts, bodyLines, texts_eq_bodyLines ss depth, List.map_append, unlines_append]
    cases hclause : payload.kind.isClause with
    | true =>
      rw [text, hclause, texts_eq_bodyLines children depth]
      simp [unlines, lineText_eq]
    | false =>
      rw [text_eq_lines (node payload children) (depth + 1) hclause]
      simp

end

theorem itemTexts_eq_lines {ss : List Snapshot} (h : ∀ s ∈ ss, s.kind.isClause = false)
    (gap : Bool) : itemTexts gap ss = unlines ((itemLines gap ss).map SourceLine.chars) := by
  induction ss generalizing gap with
  | nil => rfl
  | cons s ss ih =>
    obtain ⟨hs, hss⟩ := List.forall_mem_cons.mp h
    rw [itemTexts, itemLines, ih hss, text_eq_lines s 0 hs]
    cases gap <;> simp [unlines, SourceLine.chars]

theorem unitText_eq_page {package : Option String} {items : List Snapshot}
    (h : ∀ s ∈ items, s.kind.isClause = false) :
    String.ofList (unitText package items) = (node (.compilationUnit package) items).printed := by
  cases package with
  | none => rw [printed, unitText.eq_def, itemTexts_eq_lines h]; rfl
  | some package => simp [printed, page, unitText, itemTexts_eq_lines h, unlines, lineText_eq]

end Texts

theorem page_of_ne {s : Snapshot} (h : s.kind ≠ .compilationUnit) : s.page = s.lines 0 := by
  obtain ⟨payload, children⟩ := s
  cases payload with
  | compilationUnit package => exact absurd rfl h
  | _ => rfl

section Unbroken

mutual

theorem Admissible.unbroken_lines : (s : Snapshot) → s.Admissible → (depth : Nat) →
    ∀ line ∈ s.lines depth, Unbroken line.content
  | .node payload children, h, depth => by
    cases h with
    | node hconforms _ hbelow =>
      rw [lines]
      refine List.forall_mem_cons.mpr ⟨hconforms.unbroken_heading, List.forall_mem_append.mpr
        ⟨Admissible.unbroken_bodyLines children hbelow depth, ?_⟩⟩
      cases payload.kind.hasBody with
      | true => exact List.forall_mem_singleton.mpr (by decide : Unbroken "\x7d")
      | false => nofun

theorem Admissible.unbroken_bodyLines : (ss : List Snapshot) → (∀ s ∈ ss, s.Admissible) →
    (depth : Nat) → ∀ line ∈ bodyLines depth ss, Unbroken line.content
  | [], _, _ => nofun
  | .node payload children :: ss, h, depth => by
    obtain ⟨hs, hss⟩ := List.forall_mem_cons.mp h
    rw [bodyLines]
    refine List.forall_mem_append.mpr ⟨?_, Admissible.unbroken_bodyLines ss hss depth⟩
    cases payload.kind.isClause with
    | true =>
      cases hs with
      | node hconforms _ hbelow =>
        have hheading : Unbroken ("\x7d " ++ SourceWriter.heading payload ++ " \x7b") := by
          simp +decide [hconforms.unbroken_heading]
        exact List.forall_mem_cons.mpr
          ⟨hheading, Admissible.unbroken_bodyLines children hbelow depth⟩
    | false => exact Admissible.unbroken_lines (.node payload children) hs (depth + 1)

end

theorem unbroken_itemLines {ss : List Snapshot} (h : ∀ s ∈ ss, s.Admissible) (gap : Bool) :
    ∀ line ∈ itemLines gap ss, Unbroken line.content := by
  induction ss generalizing gap with
  | nil => nofun
  | cons s ss ih =>
    obtain ⟨hs, hss⟩ := List.forall_mem_cons.mp h
    rw [itemLines]
    refine List.forall_mem_append.mpr ⟨List.forall_mem_append.mpr ⟨?_, hs.unbroken_lines s 0⟩,
      ih hss _⟩
    cases gap with
    | true => exact List.forall_mem_singleton.mpr (by decide)
    | false => nofun

theorem Admissible.unbroken_page {s : Snapshot} (h : s.Admissible) :
    ∀ line ∈ s.page, Unbroken line.content := by
  by_cases hunit : s.kind = .compilationUnit
  · obtain ⟨payload, children⟩ := s
    cases h with
    | node hconforms _ hbelow =>
      cases payload with
      | compilationUnit package =>
        cases package with
        | none => exact unbroken_itemLines hbelow false
        | some package =>
          exact List.forall_mem_cons.mpr
            ⟨hconforms.unbroken_heading, unbroken_itemLines hbelow true⟩
      | _ => cases hunit
  · rw [page_of_ne hunit]
    exact h.unbroken_lines s 0

/-- The lines of the text are those of the page. -/
theorem Admissible.splitOn_printed {s : Snapshot} (h : s.Admissible) :
    s.printed.toList.splitOn '\n' = s.page.map SourceLine.chars ++ [[]] := by
  rw [printed, String.toList_ofList]
  refine splitOn_unlines fun chars hchars => ?_
  obtain ⟨line, hline, rfl⟩ := List.mem_map.mp hchars
  rw [SourceLine.chars, List.mem_append, not_or]
  exact ⟨by simp, h.unbroken_page line hline⟩

end Unbroken

end Snapshot

section Written

open SourceWriter

variable {t : Tree} {id : NodeId} {s : Snapshot}

/-- Nothing is set apart from the beginning of a text. -/
theorem text_prepared_empty (b : Branch) : (SourceWriter.empty.prepared t b).text = "" := by
  unfold prepared separate
  split
  · split <;> rfl
  · rfl

/-- A fresh walk over a node that is no clause writes its page. -/
theorem Tree.ReachableWith.walk_page (h : t.ReachableWith Payload.Made)
    (hs : t.snapshot? id = some s) (hclause : s.kind.isClause = false) :
    ∃ summary w, t.walk id SourceWriter.visitor .empty = (.ok summary, w) ∧ w.depth = 0 ∧
      w.text = s.printed := by
  have hwf := h.reachable.wellFormed
  have hadmissible := h.admissible_snapshot hs
  obtain ⟨b, hb, rfl, held, rfl⟩ := hwf.exists_held hs
  rw [Branch.kind_snapshot] at hclause
  by_cases hunit : b.kind = .compilationUnit
  · obtain ⟨id, payload, children⟩ := b
    cases payload with
    | compilationUnit package =>
      obtain ⟨w, hwalks, hdepth, htext⟩ := held.walksTo_unit hwf hadmissible
      obtain ⟨summary, hwalk⟩ := hwalks.walk hb
      refine ⟨summary, w, hwalk, hdepth, htext.trans (Snapshot.unitText_eq_page ?_)⟩
      cases hadmissible with
      | node _ hlayout _ =>
        intro item hitem
        rcases Layout.items_of_check hlayout item.kind (List.mem_map_of_mem hitem) with hkind | hkind
        all_goals rw [hkind]; rfl
    | _ => cases hunit
  · have hwalks := held.walksTo hwf hadmissible hunit ⟨[], ⟨0, 0⟩, .empty⟩
      (fun he => by rw [hclause] at he; cases he) (by simp)
    obtain ⟨summary, hwalk⟩ := hwalks.walk hb
    have hempty : SourceWriter.empty.depth = 0 := rfl
    refine ⟨summary, _, hwalk, by simp [hempty], ?_⟩
    have hlines := Snapshot.text_eq_lines b.snapshot 0 (by rwa [Branch.kind_snapshot])
    rw [Snapshot.printed, Snapshot.page_of_ne (by rwa [Branch.kind_snapshot]), ← hlines]
    simp [append, text_prepared_empty, hempty]

/-- A fresh walk over any node but a clause succeeds, closes all that it opened, and leaves the text
of the page that the snapshot of the node has: its lines are those of the page, each four spaces in
for each body around it. The same text is written wherever a node has that snapshot. -/
theorem source_is_page (h : t.ReachableWith Payload.Made) {kind : NodeKind}
    (hkind : t.kind? id = some kind) (hclause : kind.isClause = false) :
    ∃ s summary w, t.snapshot? id = some s ∧
      t.walk id SourceWriter.visitor .empty = (.ok summary, w) ∧ w.depth = 0 ∧
      w.text = s.printed ∧ w.text.toList.splitOn '\n' = s.page.map SourceLine.chars ++ [[]] ∧
      ∀ (t' : Tree) (id' : NodeId), t'.ReachableWith Payload.Made →
        t'.snapshot? id' = some s → t'.source id' = .ok w.text := by
  obtain ⟨b, hb, rfl, held⟩ := h.reachable.wellFormed.exists_branch? (Tree.contains_of_kind? hkind)
  have hs : t.snapshot? b.id = some b.snapshot := by rw [Tree.snapshot?, hb, Option.map_some]
  have hsame : b.snapshot.kind = kind := by
    rw [Branch.kind_snapshot]
    exact Option.some.inj (held.kind.symm.trans hkind)
  rw [← hsame] at hclause
  obtain ⟨summary, w, hwalk, hdepth, htext⟩ := h.walk_page hs hclause
  refine ⟨b.snapshot, summary, w, hs, hwalk, hdepth, htext, ?_, fun t' id' h' hs' => ?_⟩
  · rw [htext]
    exact (h.admissible_snapshot hs).splitOn_printed
  · obtain ⟨summary', w', hwalk', _, htext'⟩ := h'.walk_page hs' hclause
    rw [Tree.source_of_walk hwalk', htext', htext]

/-- A statement with a clause has the same page within a function as on its own. -/
theorem nested_clause_on_page :
    ∃ t t' : Tree, t.ReachableWith Payload.Made ∧ t'.ReachableWith Payload.Made ∧
      t.kind? ⟨1, 0⟩ = some .ifStatement ∧ t.parent? ⟨1, 0⟩ = some ⟨5, 0⟩ ∧
      t'.parent? ⟨1, 0⟩ = none ∧
      ∃ summary w, t.walk ⟨1, 0⟩ SourceWriter.visitor .empty = (.ok summary, w) ∧ w.depth = 0 ∧
        w.text = "if (x) \x7b\n    break;\n\x7d else \x7b\n    continue;\n\x7d\n" ∧
        t'.source ⟨1, 0⟩ = .ok w.text := by
  obtain ⟨t', ht', hreach'⟩ : ∃ t' : Tree, t' = [.create (.ifStatement (.name "x")),
      .create .breakStatement, .create .elseClause, .create .continueStatement,
      .create (.function "f" [] []), .appendChild ⟨1, 0⟩ ⟨2, 0⟩, .appendChild ⟨3, 0⟩ ⟨4, 0⟩,
      .appendChild ⟨1, 0⟩ ⟨3, 0⟩].foldl Tree.after (Tree.new none) ∧
        t'.ReachableWith Payload.Made := by
    refine ⟨_, rfl, (Tree.ReachableWith.new none ⟨.compilationUnit none, rfl⟩).run _ ?_⟩
    simp only [List.forall_mem_cons, Tree.Operation.payload?, Option.some.injEq, forall_eq',
      reduceCtorEq, false_implies, implies_true, List.not_mem_nil, and_true]
    exact ⟨⟨.ifStatement (some (.name "x")), rfl⟩, ⟨.breakStatement, rfl⟩, ⟨.elseClause, rfl⟩,
      ⟨.continueStatement, rfl⟩, ⟨.function "f" [] [], rfl⟩⟩
  obtain ⟨t, ht, hreach⟩ : ∃ t : Tree, t = t'.after (.appendChild ⟨5, 0⟩ ⟨1, 0⟩) ∧
      t.ReachableWith Payload.Made := ⟨_, rfl, hreach'.after _ nofun⟩
  have hkind : t.kind? ⟨1, 0⟩ = some .ifStatement := by rw [ht, ht']; rfl
  obtain ⟨s, summary, w, hs, hwalk, hdepth, _, _, hsame⟩ := source_is_page hreach hkind rfl
  have hsnapshot : t'.snapshot? ⟨1, 0⟩ = t.snapshot? ⟨1, 0⟩ := calc
    t'.snapshot? ⟨1, 0⟩ = some (.node (.ifStatement (.name "x"))
        [.node .breakStatement [], .node .elseClause [.node .continueStatement []]]) := by
      rw [ht']; rfl
    _ = t.snapshot? ⟨1, 0⟩ := by rw [ht, ht']; rfl
  have htext : t.source ⟨1, 0⟩ =
      .ok "if (x) \x7b\n    break;\n\x7d else \x7b\n    continue;\n\x7d\n" := by
    rw [ht, ht']
    decide +kernel
  have hwritten := (Tree.source_of_walk hwalk).symm.trans htext
  exact ⟨t, t', hreach, hreach', hkind, by rw [ht, ht']; rfl, by rw [ht']; rfl, summary, w, hwalk,
    hdepth, Except.ok.inj hwritten, hsame t' ⟨1, 0⟩ hreach' (hsnapshot.trans hs)⟩

end Written

end ProgramTree
