import ProgramTree.Proofs.Source.Spellable
import ProgramTree.Proofs.Walk.Course
import ProgramTree.Source.Writer

/-! # What a walk writes

The text that the writer leaves can be told from the snapshot of what it walks
over: a statement is its line, what stands in its body, and the closing brace;
a clause begins on the line that closes the body before it. The walk neither
fails nor leaves a node in progress. -/

namespace ProgramTree

set_option autoImplicit false

/-- Kinds whose body is closed when they are left. -/
def SourceWriter.closes : NodeKind → Bool
  | .function | .block | .ifStatement | .whileLoop | .tryStatement => true
  | _ => false

namespace Snapshot

/-- A line with four spaces for each body around it. -/
def lineText (depth : Nat) (content : String) : List Char :=
  List.replicate (4 * depth) ' ' ++ content.toList ++ ['\n']

mutual

/-- The text of a function, a statement or a clause with that many bodies around it, where the
body before a clause counts. -/
def text (depth : Nat) : Snapshot → List Char
  | node payload children =>
    if payload.kind.isClause then
      lineText (depth - 1) ("\x7d " ++ SourceWriter.heading payload ++ " \x7b") ++
        texts depth children
    else
      lineText depth (SourceWriter.heading payload) ++ texts (depth + 1) children ++
        if SourceWriter.closes payload.kind then lineText depth "\x7d" else []

def texts (depth : Nat) : List Snapshot → List Char
  | [] => []
  | s :: ss => s.text depth ++ texts depth ss

end

/-- The items of a unit, with a blank line before the first one if there is a gap, and before
each other one that does not follow a comment. -/
def itemTexts (gap : Bool) : List Snapshot → List Char
  | [] => []
  | s :: ss => (if gap then ['\n'] else []) ++ s.text 0 ++ itemTexts (s.kind != .comment) ss

def unitText (package : Option String) (items : List Snapshot) : List Char :=
  (match package with
    | none => []
    | some package => lineText 0 ("package " ++ package ++ ";")) ++
  itemTexts package.isSome items

theorem text_ne_nil (s : Snapshot) (depth : Nat) : s.text depth ≠ [] := by
  cases s with
  | node payload children =>
    rw [text]
    split <;> simp [lineText]

end Snapshot

namespace SourceWriter

open Snapshot

/-- The writer after some more text. -/
def append (w : SourceWriter) (more : List Char) : SourceWriter :=
  { w with text := w.text ++ String.ofList more }

variable (w : SourceWriter)

@[simp] theorem depth_append (more : List Char) : (w.append more).depth = w.depth := rfl

@[simp] theorem append_nil : w.append [] = w := by
  simp [append]

@[simp] theorem append_append (more more' : List Char) :
    (w.append more).append more' = w.append (more ++ more') := by
  simp [append, String.append_assoc]

theorem line_eq (content : String) : w.line content = w.append (lineText w.depth content) := by
  simp [line, append, lineText, String.append_assoc]

/-- A gap belongs to the items of a unit only. -/
theorem separate_of_ne {site : Site}
    (h : (site.tree.parent? site.id).bind site.tree.kind? ≠ some .compilationUnit) :
    w.separate site = w := by
  unfold separate
  split
  · rename_i hunit
    exact absurd hunit h
  · rfl

/-- The writer before the line of a node. -/
def prepared (t : Tree) (b : Branch) : SourceWriter :=
  if b.kind = .function ∨ b.kind = .comment then w.separate ⟨t, b, []⟩ else w

@[simp] theorem depth_prepared (t : Tree) (b : Branch) : (w.prepared t b).depth = w.depth := by
  unfold prepared separate
  split
  · split <;> rfl
  · rfl

/-- A clause is written one body further out than what stands in it. -/
theorem enter_clause (site : Site) (h : site.kind.isClause = true) :
    w.enter site = { w.append (lineText (w.depth - 1) ("\x7d " ++ heading site.payload ++ " \x7b"))
      with depth := w.depth - 1 + 1 } := by
  obtain ⟨t, ⟨id, payload, children⟩, active⟩ := site
  cases payload with
  | elseIfClause condition | elseClause | catchClause typeName name =>
    simp only [enter, clause, openBody, line_eq, Site.payload, Branch.payload]
    rfl
  | _ => cases h

theorem enter_statement {t : Tree} (b : Branch) {active : List NodeId}
    (hclause : b.kind.isClause = false) (hunit : b.kind ≠ .compilationUnit) :
    w.enter ⟨t, b, active⟩ =
      { (w.prepared t b).append (lineText w.depth (heading b.payload)) with
        depth := if b.kind.hasBody then w.depth + 1 else w.depth } := by
  rw [← w.depth_prepared t b, ← line_eq]
  obtain ⟨id, payload, children⟩ := b
  cases payload with
  | compilationUnit package => exact absurd rfl hunit
  | elseIfClause condition | elseClause | catchClause typeName name => cases hclause
  | _ => rfl

theorem closeBody_eq :
    w.closeBody = { w.append (lineText (w.depth - 1) "\x7d") with depth := w.depth - 1 } := by
  rw [closeBody, line_eq]
  rfl

end SourceWriter

namespace SourceWriter

/-- There is a writer for every kind of node. -/
theorem visitor_visit (site : Site) (w : SourceWriter) :
    visitor.visit site w = (.ok .proceed, w.enter site) := by
  simp only [visitor, Visitor.byKind]
  cases site.kind <;> rfl

theorem visitor_leave (site : Site) (w : SourceWriter) :
    visitor.leave site w = if closes site.kind then w.closeBody else w := by
  simp only [visitor, Visitor.byKind]
  cases site.kind <;> rfl

end SourceWriter

section Walk

open SourceWriter

/-- The walk over a branch succeeds, leaves no node in progress and only appends to the text. -/
def Branch.WalksTo (t : Tree) (b : Branch) (w : WalkState SourceWriter)
    (result : SourceWriter) : Prop :=
  ∃ summary, SourceWriter.visitor.walkBranch t b w = (.ok (), ⟨w.active, summary, result⟩)

theorem walkAll_texts {t : Tree} {bs : List Branch}
    (h : ∀ b ∈ bs, ∀ w : WalkState SourceWriter, 1 ≤ w.visitor.depth →
      (∀ id ∈ b.ids, id ∉ w.active) →
        b.WalksTo t w (w.visitor.append (b.snapshot.text w.visitor.depth)))
    (w : WalkState SourceWriter) (hdepth : 1 ≤ w.visitor.depth)
    (hfree : ∀ b ∈ bs, ∀ id ∈ b.ids, id ∉ w.active) :
    ∃ summary, SourceWriter.visitor.walkAll t bs w =
      (.ok (), ⟨w.active, summary,
        w.visitor.append (Snapshot.texts w.visitor.depth (Branch.snapshots bs))⟩) := by
  induction bs generalizing w with
  | nil => exact ⟨w.summary, by simp [Visitor.walkAll, Branch.snapshots, Snapshot.texts]⟩
  | cons b bs ih =>
    obtain ⟨hb, hbs⟩ := List.forall_mem_cons.mp h
    obtain ⟨hfirst, hrest⟩ := List.forall_mem_cons.mp hfree
    obtain ⟨summary, hwalk⟩ := hb w hdepth hfirst
    obtain ⟨summary', hwalk'⟩ := ih hbs
      ⟨w.active, summary, w.visitor.append (b.snapshot.text w.visitor.depth)⟩ hdepth hrest
    refine ⟨summary', ?_⟩
    rw [Visitor.walkAll, hwalk]
    simpa [Branch.snapshots, Snapshot.texts] using hwalk'

theorem closes_eq (kind : NodeKind) : closes kind = (kind.hasBody && !kind.isClause) := by
  cases kind <;> rfl

variable {t : Tree} {id : NodeId} {payload : Payload} {children : List Branch}
  {w : WalkState SourceWriter}

theorem walkBranch_node {entered left : SourceWriter} {summary : WalkSummary}
    (hid : id ∉ w.active)
    (hentered : w.visitor.enter ⟨t, .node id payload children, id :: w.active⟩ = entered)
    (hwalk : SourceWriter.visitor.walkAll t children
      ⟨id :: w.active, (w.enter id).summary, entered⟩ =
        (.ok (), ⟨id :: w.active, summary, left⟩)) :
    (Branch.node id payload children).WalksTo t w
      (if closes payload.kind then left.closeBody else left) := by
  refine ⟨summary, ?_⟩
  rw [Visitor.walkBranch, if_neg hid]
  have hvisit : SourceWriter.visitor.visit ⟨t, .node id payload children, (w.enter id).active⟩
      (w.enter id).visitor = (.ok .proceed, entered) := by
    rw [visitor_visit, ← hentered]
    rfl
  have hstart : (w.enter id).withVisitor entered = ⟨id :: w.active, (w.enter id).summary, entered⟩ :=
    rfl
  simp only [hvisit, hstart, hwalk]
  simp [Visitor.finish, WalkState.withVisitor, WalkState.exit, visitor_leave, Site.kind, Site.id,
    Branch.kind, Branch.id, Branch.payload]
  rfl

theorem walkBranch_leaf (hunit : payload.kind ≠ .compilationUnit)
    (hbody : payload.kind.hasBody = false) (hid : id ∉ w.active) :
    (Branch.node id payload []).WalksTo t w
      ((w.visitor.prepared t (.node id payload [])).append
        ((Branch.node id payload []).snapshot.text w.visitor.depth)) := by
  have hclause : payload.kind.isClause = false := by
    cases hkind : payload.kind <;> simp_all [NodeKind.hasBody, NodeKind.isClause]
  have hcloses : closes payload.kind = false := by rw [closes_eq, hbody, Bool.false_and]
  have hentered : w.visitor.enter ⟨t, .node id payload [], id :: w.active⟩ =
      (w.visitor.prepared t (.node id payload [])).append
        (Snapshot.lineText w.visitor.depth (heading payload)) := by
    rw [enter_statement w.visitor (.node id payload []) hclause hunit]
    simp [append, Branch.kind, Branch.payload, hbody]
  have hwalk := walkBranch_node hid hentered rfl
  rw [hcloses] at hwalk
  simpa [Branch.snapshot, Branch.snapshots, Snapshot.text, Snapshot.texts, hclause, hcloses]
    using hwalk

/-- The walk over children with a node in progress, one body further in. -/
def ChildrenWalk (t : Tree) (id : NodeId) (children : List Branch) (w : WalkState SourceWriter) :
    Prop :=
  ∀ (summary : WalkSummary) (v : SourceWriter), 1 ≤ v.depth →
    ∃ summary', SourceWriter.visitor.walkAll t children ⟨id :: w.active, summary, v⟩ =
      (.ok (), ⟨id :: w.active, summary',
        v.append (Snapshot.texts v.depth (Branch.snapshots children))⟩)

theorem walkBranch_clause (hclause : payload.kind.isClause = true) (hdepth : 1 ≤ w.visitor.depth)
    (hid : id ∉ w.active) (hchildren : ChildrenWalk t id children w) :
    (Branch.node id payload children).WalksTo t w
      (w.visitor.append ((Branch.node id payload children).snapshot.text w.visitor.depth)) := by
  have hcloses : closes payload.kind = false := by
    rw [closes_eq, hclause, Bool.not_true, Bool.and_false]
  have hentered : w.visitor.enter ⟨t, .node id payload children, id :: w.active⟩ =
      w.visitor.append (Snapshot.lineText (w.visitor.depth - 1)
        ("\x7d " ++ heading payload ++ " \x7b")) := by
    rw [enter_clause w.visitor ⟨t, .node id payload children, _⟩ hclause, Nat.sub_add_cancel hdepth]
    rfl
  obtain ⟨summary, hall⟩ := hchildren (w.enter id).summary (w.visitor.append _) hdepth
  have hwalk := walkBranch_node hid hentered hall
  rw [hcloses] at hwalk
  simpa [Branch.snapshot, Snapshot.text, hclause] using hwalk

theorem walkBranch_body (hunit : payload.kind ≠ .compilationUnit)
    (hclause : payload.kind.isClause = false) (hbody : payload.kind.hasBody = true)
    (hid : id ∉ w.active) (hchildren : ChildrenWalk t id children w) :
    (Branch.node id payload children).WalksTo t w
      ((w.visitor.prepared t (.node id payload children)).append
        ((Branch.node id payload children).snapshot.text w.visitor.depth)) := by
  have hcloses : closes payload.kind = true := by rw [closes_eq, hbody, hclause]; rfl
  have hdepth : 1 ≤ (w.visitor.enter ⟨t, .node id payload children, id :: w.active⟩).depth := by
    rw [enter_statement w.visitor (.node id payload children) hclause hunit]
    simp [Branch.kind, Branch.payload, hbody]
  obtain ⟨summary, hall⟩ := hchildren (w.enter id).summary _ hdepth
  have hwalk := walkBranch_node hid rfl hall
  rw [enter_statement w.visitor (.node id payload children) hclause hunit] at hwalk
  rw [hcloses, if_pos rfl, closeBody_eq] at hwalk
  simpa [Branch.snapshot, Snapshot.text, hclause, hcloses, Branch.kind, Branch.payload, hbody, append,
    String.append_assoc] using hwalk

theorem prepared_of_ne {b : Branch} (v : SourceWriter)
    (h : (t.parent? b.id).bind t.kind? ≠ some .compilationUnit) : v.prepared t b = v := by
  unfold prepared
  split
  · exact separate_of_ne v h
  · rfl

theorem Branch.HeldBy.parent (hwf : t.WellFormed)
    (held : (Branch.node id payload children).HeldBy t) :
    ∀ c ∈ children, (t.parent? c.id).bind t.kind? = some payload.kind := by
  intro c hc
  have hkind := held.kind
  cases held with
  | node hpayload hchildren _ =>
    have hparent : t.parent? c.id = some id := by
      rw [hwf.parent_iff, hchildren]
      exact List.mem_map_of_mem hc
    rw [hparent]
    exact hkind

theorem not_mem_ids_children (hnodup : (Branch.node id payload children).ids.Nodup) :
    ∀ c ∈ children, id ∉ c.ids := by
  intro c hc hid
  rw [Branch.ids, Branch.idsAll_eq, List.nodup_cons] at hnodup
  exact hnodup.1 (List.mem_flatMap.mpr ⟨c, hc, hid⟩)

/-- The children of a statement or a clause are walked as each of them is, one body further in. -/
theorem childrenWalk (hwf : t.WellFormed) (held : (Branch.node id payload children).HeldBy t)
    (hunit : payload.kind ≠ .compilationUnit) {w : WalkState SourceWriter}
    (hfree : ∀ other ∈ (Branch.node id payload children).ids, other ∉ w.active)
    (heach : ∀ c ∈ children, ∀ w' : WalkState SourceWriter, 1 ≤ w'.visitor.depth →
      (∀ other ∈ c.ids, other ∉ w'.active) → c.WalksTo t w'
        ((w'.visitor.prepared t c).append (c.snapshot.text w'.visitor.depth))) :
    ChildrenWalk t id children w := by
  intro summary v hv
  refine walkAll_texts (fun c hc w' hdepth hfree' => ?_) ⟨id :: w.active, summary, v⟩ hv ?_
  · have hprepared : w'.visitor.prepared t c = w'.visitor := by
      apply prepared_of_ne
      rw [held.parent hwf c hc]
      exact fun he => hunit (Option.some.inj he)
    have hwalk := heach c hc w' hdepth hfree'
    rwa [hprepared] at hwalk
  · intro c hc other hother
    have hne := not_mem_ids_children (hwf.nodup_ids held) c hc
    have hin : other ∈ (Branch.node id payload children).ids := by
      rw [Branch.ids, Branch.idsAll_eq]
      exact List.mem_cons_of_mem _ (List.mem_flatMap.mpr ⟨c, hc, hother⟩)
    rw [List.mem_cons, not_or]
    exact ⟨fun he => hne (he ▸ hother), hfree other hin⟩

theorem Branch.HeldBy.walksTo (hwf : t.WellFormed) {b : Branch} (held : b.HeldBy t)
    (hadmissible : b.snapshot.Admissible) (hunit : b.kind ≠ .compilationUnit)
    (w : WalkState SourceWriter) (hdepth : b.kind.isClause = true → 1 ≤ w.visitor.depth)
    (hfree : ∀ id ∈ b.ids, id ∉ w.active) :
    b.WalksTo t w ((w.visitor.prepared t b).append (b.snapshot.text w.visitor.depth)) := by
  induction held generalizing w with
  | @node id payload children hpayload hchildren hall ih =>
    have held : (Branch.node id payload children).HeldBy t := .node hpayload hchildren hall
    have hid : id ∉ w.active := hfree id (Branch.id_mem_ids _)
    rw [Branch.snapshot] at hadmissible
    cases hadmissible with
    | node _ hlayout hbelow =>
      have hwalk : ChildrenWalk t id children w := by
        refine childrenWalk hwf held hunit hfree fun c hc w' hdepth' hfree' => ?_
        have hcadmissible : c.snapshot.Admissible := by
          apply hbelow _
          rw [Branch.snapshots_eq_map]
          exact List.mem_map_of_mem hc
        have hcunit : c.kind ≠ .compilationUnit := by
          have hmem : c.kind ∈ (Branch.snapshots children).map Snapshot.kind := by
            rw [Branch.snapshots_eq_map, List.map_map]
            exact List.mem_map.mpr ⟨c, hc, c.kind_snapshot⟩
          intro he
          have hck := Layout.statement_or_clause_of_check hunit hlayout c.kind hmem
          rw [he] at hck
          rcases hck with hck | hck <;> cases hck
        exact ih c hc hcadmissible hcunit w' (fun _ => hdepth') hfree'
      by_cases hclause : payload.kind.isClause = true
      · have hprepared : w.visitor.prepared t (.node id payload children) = w.visitor := by
          rw [prepared, if_neg]
          rintro (he | he) <;>
          · rw [Branch.kind, Branch.payload] at he
            rw [he] at hclause
            cases hclause
        rw [hprepared]
        exact walkBranch_clause hclause (hdepth hclause) hid hwalk
      have hclause : payload.kind.isClause = false := by simpa using hclause
      cases hbody : payload.kind.hasBody with
      | true => exact walkBranch_body hunit hclause hbody hid hwalk
      | false =>
        have hnil : children = [] := by
          have hkindsNil := Layout.eq_nil_of_check hbody hunit hlayout
          rw [Branch.snapshots_eq_map, List.map_map] at hkindsNil
          exact List.map_eq_nil_iff.mp hkindsNil
        subst hnil
        exact walkBranch_leaf hunit hbody hid

/-- Whether a blank line stands before the next item of a unit. -/
def SourceWriter.gap (w : SourceWriter) : Bool :=
  !(w.text.isEmpty || w.afterComment)

theorem prepared_item {b : Branch} (v : SourceWriter)
    (hkind : b.kind = .function ∨ b.kind = .comment)
    (hparent : (t.parent? b.id).bind t.kind? = some .compilationUnit) :
    v.prepared t b =
      { v.append (if v.gap then ['\n'] else []) with afterComment := b.kind == .comment } := by
  have htext : (if v.text.isEmpty || v.afterComment then v.text else v.text ++ "\n") =
      v.text ++ String.ofList (if v.gap then ['\n'] else []) := by
    unfold gap
    cases v.text.isEmpty || v.afterComment <;> simp
  rw [prepared, if_pos hkind, separate]
  simp only [Site.id, hparent, htext]
  rfl

/-- An item of a unit is written after the gap that the item before it leaves. -/
theorem walkBranch_item {b : Branch} (hkind : b.kind = .function ∨ b.kind = .comment)
    (hparent : (t.parent? b.id).bind t.kind? = some .compilationUnit)
    (hdepth : w.visitor.depth = 0)
    (hwalk : b.WalksTo t w ((w.visitor.prepared t b).append (b.snapshot.text w.visitor.depth))) :
    ∃ result : SourceWriter, b.WalksTo t w result ∧ result.depth = 0 ∧
      result.gap = (b.snapshot.kind != .comment) ∧
      result.text = w.visitor.text ++
        String.ofList ((if w.visitor.gap then ['\n'] else []) ++ b.snapshot.text 0) := by
  rw [prepared_item w.visitor hkind hparent, hdepth] at hwalk
  refine ⟨_, hwalk, hdepth, ?_, ?_⟩
  · simp [gap, append, bne, b.snapshot.text_ne_nil 0]
  · simp [append, String.append_assoc]

theorem walkAll_items {bs : List Branch}
    (h : ∀ b ∈ bs, (b.kind = .function ∨ b.kind = .comment) ∧
      (t.parent? b.id).bind t.kind? = some .compilationUnit ∧
      ∀ w : WalkState SourceWriter, (∀ id ∈ b.ids, id ∉ w.active) →
        b.WalksTo t w ((w.visitor.prepared t b).append (b.snapshot.text w.visitor.depth)))
    (w : WalkState SourceWriter) (hdepth : w.visitor.depth = 0)
    (hfree : ∀ b ∈ bs, ∀ id ∈ b.ids, id ∉ w.active) :
    ∃ (summary : WalkSummary) (result : SourceWriter),
      SourceWriter.visitor.walkAll t bs w = (.ok (), ⟨w.active, summary, result⟩) ∧
      result.depth = 0 ∧ result.text = w.visitor.text ++
        String.ofList (Snapshot.itemTexts w.visitor.gap (Branch.snapshots bs)) := by
  induction bs generalizing w with
  | nil =>
    exact ⟨w.summary, w.visitor, rfl, hdepth, by simp [Branch.snapshots, Snapshot.itemTexts]⟩
  | cons b bs ih =>
    obtain ⟨⟨hkind, hparent, hb⟩, hbs⟩ := List.forall_mem_cons.mp h
    obtain ⟨hfirst, hrest⟩ := List.forall_mem_cons.mp hfree
    obtain ⟨next, ⟨summary, hwalk⟩, hdepth', hgap, htext⟩ :=
      walkBranch_item hkind hparent hdepth (hb w hfirst)
    obtain ⟨summary', result, hwalk', hend, hresult⟩ :=
      ih hbs ⟨w.active, summary, next⟩ hdepth' hrest
    refine ⟨summary', result, ?_, hend, ?_⟩
    · rw [Visitor.walkAll, hwalk]
      exact hwalk'
    · rw [hresult, hgap, htext, Branch.snapshots, Snapshot.itemTexts]
      simp [String.append_assoc]

theorem enter_unit (package : Option String) (site : Site)
    (hpayload : site.payload = .compilationUnit package) :
    (SourceWriter.empty.enter site).depth = 0 ∧
      (SourceWriter.empty.enter site).gap = package.isSome ∧
      ∀ items, (SourceWriter.empty.enter site).text ++
        String.ofList (Snapshot.itemTexts package.isSome items) =
          String.ofList (Snapshot.unitText package items) := by
  cases package with
  | none =>
    have hentered : SourceWriter.empty.enter site = SourceWriter.empty := by
      simp only [enter, hpayload]
    rw [hentered]
    exact ⟨rfl, rfl, fun items => by simp [SourceWriter.empty, Snapshot.unitText]⟩
  | some package =>
    have hentered : SourceWriter.empty.enter site =
        SourceWriter.empty.append (Snapshot.lineText 0 ("package " ++ package ++ ";")) := by
      simp only [enter, hpayload]
      exact line_eq ..
    rw [hentered]
    refine ⟨rfl, ?_, fun items => ?_⟩
    · simp [SourceWriter.empty, gap, append, Snapshot.lineText]
    · simp [SourceWriter.empty, append, Snapshot.unitText]

/-- A unit is written by its package line and its items. -/
theorem Branch.HeldBy.walksTo_unit (hwf : t.WellFormed) {package : Option String}
    (held : (Branch.node id (.compilationUnit package) children).HeldBy t)
    (hadmissible : (Branch.node id (.compilationUnit package) children).snapshot.Admissible) :
    ∃ result : SourceWriter, (Branch.node id (.compilationUnit package) children).WalksTo t
        ⟨[], ⟨0, 0⟩, .empty⟩ result ∧ result.depth = 0 ∧
      result.text = String.ofList (Snapshot.unitText package (Branch.snapshots children)) := by
  rw [Branch.snapshot, Branch.snapshots_eq_map] at hadmissible
  cases hadmissible with
  | node _ hlayout hbelow =>
    have hitem : ∀ c ∈ children, (c.kind = .function ∨ c.kind = .comment) ∧
        (t.parent? c.id).bind t.kind? = some .compilationUnit ∧
        ∀ w : WalkState SourceWriter, (∀ id ∈ c.ids, id ∉ w.active) →
          c.WalksTo t w ((w.visitor.prepared t c).append (c.snapshot.text w.visitor.depth)) := by
      intro c hc
      rw [List.map_map] at hlayout
      have hkind := Layout.items_of_check hlayout c.kind (List.mem_map.mpr ⟨c, hc, c.kind_snapshot⟩)
      refine ⟨hkind, held.parent hwf c hc, fun w hfree => ?_⟩
      cases held with
      | node _ _ hall =>
        refine (hall c hc).walksTo hwf (hbelow _ (List.mem_map_of_mem hc)) ?_ w ?_ hfree
        · rcases hkind with hkind | hkind <;> rw [hkind] <;> exact NodeKind.noConfusion
        · rcases hkind with hkind | hkind <;> rw [hkind] <;> exact fun he => absurd he (by decide)
    obtain ⟨hdepth, hgap, htext⟩ :=
      enter_unit package ⟨t, .node id (.compilationUnit package) children, [id]⟩ rfl
    obtain ⟨summary, result, hwalk, hend, hresult⟩ := walkAll_items hitem
      ⟨[id], ⟨1, 0⟩, SourceWriter.empty.enter ⟨t, .node id (.compilationUnit package) children, [id]⟩⟩
      hdepth fun c hc other hother => by
        rw [List.mem_singleton]
        rintro rfl
        exact not_mem_ids_children (hwf.nodup_ids held) c hc hother
    have hwalks : (Branch.node id (.compilationUnit package) children).WalksTo t
        ⟨[], ⟨0, 0⟩, SourceWriter.empty⟩ result := walkBranch_node (by simp) rfl hwalk
    rw [hgap, htext] at hresult
    exact ⟨result, hwalks, hend, hresult⟩

theorem Branch.WalksTo.walk {b : Branch} {result : SourceWriter}
    (h : b.WalksTo t ⟨[], ⟨0, 0⟩, .empty⟩ result) (hbranch : t.branch? id = some b) :
    ∃ summary, t.walk id SourceWriter.visitor .empty = (.ok summary, result) := by
  obtain ⟨summary, hwalk⟩ := h
  exact ⟨summary, by simp only [Tree.walk, Tree.walkFrom, hbranch, hwalk]⟩

end Walk

theorem Tree.source_of_walk {t : Tree} {id : NodeId} {summary : WalkSummary} {w : SourceWriter}
    (h : t.walk id SourceWriter.visitor .empty = (.ok summary, w)) : t.source id = .ok w.text := by
  simp only [Tree.source, h]

/-- Any live node can be written. -/
theorem Tree.WellFormed.source_ok {t : Tree} (h : t.WellFormed) {id : NodeId}
    (hlive : t.contains id = true) : ∃ text, t.source id = .ok text := by
  have hwilling : SourceWriter.visitor.Willing :=
    fun site w => ⟨_, _, SourceWriter.visitor_visit site w⟩
  obtain ⟨summary, w, hwalk⟩ := h.walk_ok hlive hwilling .empty
  exact ⟨w.text, source_of_walk hwalk⟩

theorem Tree.source_root {t : Tree} (hwf : t.WellFormed) {package : Option String}
    {items : List Snapshot}
    (hroot : t.snapshot? t.root = some (.node (.compilationUnit package) items))
    (hadmissible : (Snapshot.node (.compilationUnit package) items).Admissible) :
    t.source t.root = .ok (String.ofList (Snapshot.unitText package items)) := by
  obtain ⟨⟨id, payload, children⟩, hb, hid, held⟩ := hwf.exists_branch? hwf.root_live
  rw [snapshot?, hb] at hroot
  simp only [Option.map_some, Option.some.injEq, Branch.snapshot, Snapshot.node.injEq] at hroot
  obtain ⟨rfl, rfl⟩ := hroot
  obtain ⟨result, hwalks, _, htext⟩ := held.walksTo_unit hwf hadmissible
  obtain ⟨summary, hwalk⟩ := hwalks.walk hb
  rw [source_of_walk hwalk, htext]

end ProgramTree
