import ProgramTree.Proofs.Lines
import ProgramTree.Proofs.Outline
import ProgramTree.Proofs.Tree.Identities
import ProgramTree.Proofs.Tree.Payloads

/-! # Outlines mirror their trees

The outline of a node is told from the links and payloads of the tree, with no
mention of branches or of the renderer: an entry shows its node, and below it
are the entries of all children of the node, or none if it is collapsed. Its
text has a line for each entry. No payload breaks a line, or looks like more
indentation. -/

namespace ProgramTree

set_option autoImplicit false

namespace Tree

variable {t : Tree} {kinds : List NodeKind} {ids : List NodeId}

/-- The node is to be shown without what lies beneath it. -/
def Hides (t : Tree) (kinds : List NodeKind) (ids : List NodeId) (id : NodeId)
    (kind : NodeKind) : Prop :=
  0 < (t.children id).length ∧ (kind ∈ kinds ∨ id ∈ ids)

/-- The entry is the recursive image of the node. -/
inductive Mirrors (t : Tree) (kinds : List NodeKind) (ids : List NodeId) :
    NodeId → OutlineEntry → Prop
  | collapsed {id : NodeId} {payload : Payload} : t.payload? id = some payload →
      t.Hides kinds ids id payload.kind →
      Mirrors t kinds ids id
        (.entry id payload.kind (Outline.label payload) true (t.children id).length [])
  | spread {id : NodeId} {payload : Payload} {entries : List OutlineEntry} :
      t.payload? id = some payload → ¬ t.Hides kinds ids id payload.kind →
      List.Forall₂ (Mirrors t kinds ids) (t.children id) entries →
      Mirrors t kinds ids id
        (.entry id payload.kind (Outline.label payload) false (t.children id).length entries)

theorem isShut_iff {b : Branch} (held : b.HeldBy t) :
    b.isShut kinds ids = true ↔ t.Hides kinds ids b.id b.kind := by
  rw [Branch.isShut, Hides, held.children_eq, List.length_map]
  cases b.children <;> simp

theorem outlinedAll_eq_map (bs : List Branch) :
    Branch.outlinedAll kinds ids bs = bs.map (Branch.outlined kinds ids) := by
  induction bs with
  | nil => rfl
  | cons b bs ih => rw [Branch.outlinedAll, ih, List.map_cons]

/-- The image of a branch shows its node. -/
theorem mirrors_outlined {b : Branch} (held : b.HeldBy t) :
    t.Mirrors kinds ids b.id (b.outlined kinds ids) := by
  induction held with
  | @node id payload children hpayload hchildren hall ih =>
    have held : (Branch.node id payload children).HeldBy t := .node hpayload hchildren hall
    have hcount : children.length = (t.children id).length := by rw [hchildren, List.length_map]
    have hshut : (Branch.node id payload children).isShut kinds ids = true ↔
        t.Hides kinds ids id payload.kind := isShut_iff held
    rw [Branch.outlined, hcount]
    cases hcase : (Branch.node id payload children).isShut kinds ids with
    | true => exact .collapsed hpayload (hshut.mp hcase)
    | false =>
      refine .spread hpayload (fun hides => ?_) ?_
      · rw [hshut.mpr hides] at hcase
        cases hcase
      · change List.Forall₂ _ (t.children id) (Branch.outlinedAll kinds ids children)
        rw [hchildren, outlinedAll_eq_map, List.forall₂_map_left_iff, List.forall₂_map_right_iff,
          List.forall₂_same]
        exact ih

end Tree

namespace OutlineEntry

/-- What stands behind the label on the line of an entry. -/
def mark : OutlineEntry → String
  | entry id _ _ collapsed count _ =>
    " [" ++ id.text ++ "]" ++ if collapsed then " (+" ++ toString count ++ ")" else ""

/-- The line of an entry, without the line feed behind it. -/
def lineAt (level : Nat) (e : OutlineEntry) : List Char :=
  List.replicate (2 * level) ' ' ++ (e.label ++ e.mark).toList

theorem toList_line (level : Nat) (id : NodeId) (kind : NodeKind) (label : String)
    (collapsed : Bool) (count : Nat) (children : List OutlineEntry) :
    (line level label id collapsed count).toList =
      (entry id kind label collapsed count children).lineAt level ++ ['\n'] := by
  simp [line, lineAt, mark, OutlineEntry.label]

mutual

/-- The text of an outline is the lines of its entries. -/
theorem toList_textAt : (e : OutlineEntry) → (level : Nat) →
    (e.textAt level).toList = unlines ((e.leveled level).map fun shown => shown.2.lineAt shown.1)
  | entry id kind label collapsed count children, level => by
    rw [textAt, String.toList_append, toList_textAllAt children (level + 1), leveled,
      toList_line level id kind label collapsed count children]
    rfl

theorem toList_textAllAt : (es : List OutlineEntry) → (level : Nat) →
    (textAllAt level es).toList =
      unlines ((leveledAll level es).map fun shown => shown.2.lineAt shown.1)
  | [], _ => rfl
  | e :: es, level => by
    rw [textAllAt, String.toList_append, toList_textAt e level, toList_textAllAt es level,
      leveledAll, List.map_append, unlines_append]

end

theorem unbroken_digits (n : Nat) : Unbroken n.repr := by
  intro hmem
  have hdigit : '\n' ∈ Nat.toDigits 10 n := by simpa using hmem
  exact absurd (Nat.isDigit_of_mem_toDigits (by decide) (by decide) hdigit) (by decide)

theorem unbroken_mark (e : OutlineEntry) : Unbroken e.mark := by
  obtain ⟨id, kind, label, collapsed, count, children⟩ := e
  have hid : Unbroken id.text := by
    unfold NodeId.text
    split <;> simp +decide [unbroken_digits]
  cases collapsed <;> simp +decide [mark, hid, unbroken_digits]

/-- The line has as many spaces as the level asks for, then the label, which begins at once, and
no line feed. -/
structure ShownOn (e : OutlineEntry) (level : Nat) (line : List Char) : Prop where
  line_eq : line = List.replicate (2 * level) ' ' ++ (e.label ++ e.mark).toList
  label_head : ∃ c, e.label.toList.head? = some c ∧ c ≠ ' '
  unbroken : '\n' ∉ line

theorem shownOn_lineAt {e : OutlineEntry} {payload : Payload} (h : payload.Conforms)
    (hlabel : e.label = Outline.label payload) (level : Nat) :
    e.ShownOn level (e.lineAt level) where
  line_eq := rfl
  label_head := hlabel ▸ h.label_head
  unbroken := by
    have htext : Unbroken (e.label ++ e.mark) :=
      unbroken_append.mpr ⟨hlabel ▸ h.unbroken_label, e.unbroken_mark⟩
    rw [lineAt, List.mem_append, not_or]
    exact ⟨by simp, htext⟩

end OutlineEntry

section Outline

variable {t : Tree} {kinds : List NodeKind} {ids : List NodeId}

/-- Every entry of the image of a branch has the label of a payload of the tree. -/
theorem Branch.HeldBy.exists_label {b : Branch} (held : b.HeldBy t) (level : Nat) :
    ∀ shown ∈ (b.outlined kinds ids).leveled level,
      ∃ id payload, t.payload? id = some payload ∧ shown.2.label = Outline.label payload := by
  induction held generalizing level with
  | @node id payload children hpayload hchildren hall ih =>
    have hbelow : ∀ bs : List Branch, (∀ b ∈ bs, b ∈ children) →
        ∀ shown ∈ OutlineEntry.leveledAll (level + 1) (outlinedAll kinds ids bs),
          ∃ id payload, t.payload? id = some payload ∧ shown.2.label = Outline.label payload := by
      intro bs hbs
      induction bs with
      | nil => exact List.forall_mem_nil _
      | cons b bs ihbs =>
        obtain ⟨hb, hrest⟩ := List.forall_mem_cons.mp hbs
        rw [outlinedAll, OutlineEntry.leveledAll]
        exact List.forall_mem_append.mpr ⟨ih b hb (level + 1), ihbs hrest⟩
    rw [outlined, OutlineEntry.leveled]
    refine List.forall_mem_cons.mpr ⟨⟨id, payload, hpayload, rfl⟩, ?_⟩
    cases isShut kinds ids (.node id payload children) with
    | true => exact List.forall_mem_nil _
    | false => exact hbelow children fun _ hb => hb

/-- In every tree that a run leads to the outline of a live node is its recursive image. The summary
counts the entries and those that are collapsed. The text has one line for each entry, in the order
of the entries, each with two spaces for each level before a label that begins at once. -/
theorem outline_mirrors (h : t.ReachableWith Payload.Made) {start : NodeId}
    (hlive : t.contains start = true) (kinds : List NodeKind) (ids : List NodeId) :
    ∃ root summary lines, t.outline start kinds ids = .ok (root, summary) ∧
      t.Mirrors kinds ids start root ∧
      summary.visited = (root.leveled 0).length ∧
      summary.skipped = ((root.leveled 0).countP fun shown => shown.2.collapsed) ∧
      root.text.toList.splitOn '\n' = lines ++ [[]] ∧
      List.Forall₂ (fun shown line => shown.2.ShownOn shown.1 line) (root.leveled 0) lines := by
  obtain ⟨b, _, rfl, held, houtline⟩ := h.reachable.wellFormed.outline_eq hlive kinds ids
  have hshown : ∀ shown ∈ (b.outlined kinds ids).leveled 0,
      shown.2.ShownOn shown.1 (shown.2.lineAt shown.1) := by
    intro shown hmem
    obtain ⟨id, payload, hpayload, hlabel⟩ := held.exists_label 0 shown hmem
    exact OutlineEntry.shownOn_lineAt (Payload.made_iff.mp (h.admissible hpayload)) hlabel _
  refine ⟨_, _, ((b.outlined kinds ids).leveled 0).map fun shown => shown.2.lineAt shown.1,
    houtline, Tree.mirrors_outlined held, rfl, rfl, ?_, ?_⟩
  · rw [OutlineEntry.text, OutlineEntry.toList_textAt]
    refine splitOn_unlines fun line hline => ?_
    obtain ⟨shown, hmem, rfl⟩ := List.mem_map.mp hline
    exact (hshown shown hmem).unbroken
  · rw [List.forall₂_map_right_iff, List.forall₂_same]
    exact hshown

/-- A function is collapsed, with what stands in it. -/
theorem collapsed_function_mirrored :
    ∃ t : Tree, t.ReachableWith Payload.Made ∧ t.contains ⟨0, 0⟩ = true ∧
      ∃ root lines, t.outline ⟨0, 0⟩ [.function] [] = .ok (root, ⟨2, 1⟩) ∧
        t.Mirrors [.function] [] ⟨0, 0⟩ root ∧ (root.leveled 0).length = 2 ∧
        root.text = "unit [n0]\n  function f() [n1] (+1)\n" ∧
        "unit [n0]\n  function f() [n1] (+1)\n".toList.splitOn '\n' = lines ++ [[]] ∧
        List.Forall₂ (fun shown line => shown.2.ShownOn shown.1 line) (root.leveled 0) lines := by
  obtain ⟨t, ht, hreach⟩ : ∃ t : Tree, t = [.create (.function "f" [] []),
      .appendChild ⟨0, 0⟩ ⟨1, 0⟩, .create .breakStatement,
      .appendChild ⟨1, 0⟩ ⟨2, 0⟩].foldl Tree.after (Tree.new none) ∧
        t.ReachableWith Payload.Made := by
    refine ⟨_, rfl, (Tree.ReachableWith.new none ⟨.compilationUnit none, rfl⟩).run _ ?_⟩
    simp only [List.forall_mem_cons, Tree.Operation.payload?, Option.some.injEq, forall_eq',
      reduceCtorEq, false_implies, implies_true, true_and, List.not_mem_nil, and_true]
    exact ⟨⟨.function "f" [] [], rfl⟩, ⟨.breakStatement, rfl⟩⟩
  have hlive : t.contains ⟨0, 0⟩ = true := by rw [ht]; rfl
  have hrun : t.outline ⟨0, 0⟩ [.function] [] = .ok (.entry ⟨0, 0⟩ .compilationUnit "unit" false 1
      [.entry ⟨1, 0⟩ .function "function f()" true 1 []], ⟨2, 1⟩) := by rw [ht]; rfl
  obtain ⟨root, summary, lines, houtline, hmirrors, hvisited, _, hsplit, hlines⟩ :=
    outline_mirrors hreach hlive [.function] []
  obtain ⟨rfl, rfl⟩ := Prod.mk.inj (Except.ok.inj (houtline.symm.trans hrun))
  exact ⟨t, hreach, hlive, _, lines, houtline, hmirrors, hvisited.symm, rfl, hsplit, hlines⟩

end Outline

end ProgramTree
