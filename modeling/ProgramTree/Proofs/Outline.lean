import ProgramTree.Outline
import ProgramTree.Proofs.Walk.Course

/-! # What the renderer shows

The renderer keeps a stack of open entries. Seen from outside it does something
simple: for each node next to another it puts one finished entry under the entry
that is open, and the finished entry is the image of the node's branch. So the
outline of a live node is the image of its branch, and rendering it does not
fail. The walk visits one node for each entry, and skips the children of those
that are collapsed. -/

namespace ProgramTree

set_option autoImplicit false

namespace Branch

/-- Whether a branch is shown without what lies beneath it. -/
def isShut (kinds : List NodeKind) (ids : List NodeId) (b : Branch) : Bool :=
  !b.children.isEmpty && (kinds.contains b.kind || ids.contains b.id)

mutual

/-- The image of a branch in an outline. -/
def outlined (kinds : List NodeKind) (ids : List NodeId) : Branch → OutlineEntry
  | .node id payload children =>
    let shut := isShut kinds ids (.node id payload children)
    .entry id payload.kind (Outline.label payload) shut children.length
      (if shut then [] else outlinedAll kinds ids children)

def outlinedAll (kinds : List NodeKind) (ids : List NodeId) : List Branch → List OutlineEntry
  | [] => []
  | b :: bs => b.outlined kinds ids :: outlinedAll kinds ids bs

end

theorem outlined_eq (kinds : List NodeKind) (ids : List NodeId) (b : Branch) :
    b.outlined kinds ids = .entry b.id b.kind (Outline.label b.payload) (b.isShut kinds ids)
      b.children.length (if b.isShut kinds ids then [] else outlinedAll kinds ids b.children) := by
  cases b
  rfl

end Branch

namespace OutlineEntry

def label : OutlineEntry → String
  | entry _ _ label _ _ _ => label

def collapsed : OutlineEntry → Bool
  | entry _ _ _ collapsed _ _ => collapsed

mutual

/-- An entry and all beneath it with their levels, each entry before its children. -/
def leveled (level : Nat) : OutlineEntry → List (Nat × OutlineEntry)
  | entry id kind label collapsed count children =>
    (level, entry id kind label collapsed count children) :: leveledAll (level + 1) children

def leveledAll (level : Nat) : List OutlineEntry → List (Nat × OutlineEntry)
  | [] => []
  | e :: es => e.leveled level ++ leveledAll level es

end

@[simp] theorem collapsed_entry (id : NodeId) (kind : NodeKind) (label : String) (collapsed : Bool)
    (count : Nat) (children : List OutlineEntry) :
    (entry id kind label collapsed count children).collapsed = collapsed := rfl

end OutlineEntry

namespace OutlineRenderer

/-- The renderer with one more open entry. -/
def push (r : OutlineRenderer) (e : OutlineEntry) : OutlineRenderer :=
  { r with stack := e :: r.stack }

/-- The renderer with a finished entry under the one that is open. -/
def put (r : OutlineRenderer) (e : OutlineEntry) : OutlineRenderer :=
  (r.push e).close

theorem put_push (r : OutlineRenderer) (parent e : OutlineEntry) :
    (r.push parent).put e = r.push (parent.addChild e) := rfl

theorem foldl_put_push (r : OutlineRenderer) (es : List OutlineEntry) (parent : OutlineEntry) :
    es.foldl put (r.push parent) = r.push (es.foldl OutlineEntry.addChild parent) := by
  induction es generalizing parent with
  | nil => rfl
  | cons e es ih => rw [List.foldl_cons, put_push, ih, List.foldl_cons]

theorem foldl_addChild (id : NodeId) (kind : NodeKind) (label : String) (shut : Bool) (count : Nat)
    (es present : List OutlineEntry) :
    es.foldl OutlineEntry.addChild (.entry id kind label shut count present) =
      .entry id kind label shut count (present ++ es) := by
  induction es generalizing present with
  | nil => rw [List.append_nil, List.foldl_nil]
  | cons e es ih => rw [List.foldl_cons, OutlineEntry.addChild, ih, List.append_assoc]; rfl

end OutlineRenderer

section Walk

open OutlineRenderer

variable {t : Tree} {kinds : List NodeKind} {ids active : List NodeId} {bs : List Branch}
  {r r' : OutlineRenderer} {log : List (Call × OutlineRenderer)} {stop : Option Unsupported}

theorem OutlineRenderer.isCollapsed_siteIn {b : Branch} (held : b.HeldBy t) :
    isCollapsed kinds ids (b.siteIn t active) = b.isShut kinds ids := by
  have hempty : (t.children b.id).isEmpty = b.children.isEmpty := by
    rw [held.children_eq, List.isEmpty_map]
  rw [isCollapsed, Branch.isShut, ← hempty]
  rfl

theorem OutlineRenderer.entryOf_siteIn {b : Branch} (held : b.HeldBy t) (shut : Bool) :
    entryOf (b.siteIn t active) shut =
      .entry b.id b.kind (Outline.label b.payload) shut b.children.length [] := by
  have hcount : (t.children b.id).length = b.children.length := by
    rw [held.children_eq, List.length_map]
  rw [entryOf, ← hcount]
  rfl

/-- A node is shown by an open entry for it, and the walk goes on to its children unless they are
shut away. -/
theorem OutlineRenderer.visit_siteIn {b : Branch} (held : b.HeldBy t) :
    (OutlineRenderer.visitor kinds ids).visit (b.siteIn t active) r =
      (.ok (.ofDescend !b.isShut kinds ids), r.push (.entry b.id b.kind (Outline.label b.payload)
        (b.isShut kinds ids) b.children.length [])) := by
  simp only [visitor, isCollapsed_siteIn held, entryOf_siteIn held]
  rfl

/-- The walk skips the children of a node if and only if its branch is shut. -/
theorem OutlineRenderer.of_visit {b : Branch} (held : b.HeldBy t) {flow : Flow}
    (hv : (OutlineRenderer.visitor kinds ids).visit (b.siteIn t active) r = (.ok flow, r')) :
    b.isShut kinds ids = decide (flow = .skipChildren) ∧
      r' = r.push (.entry b.id b.kind (Outline.label b.payload) (b.isShut kinds ids)
        b.children.length []) := by
  rw [visit_siteIn held, Prod.mk.injEq, Except.ok.injEq] at hv
  refine ⟨?_, hv.2.symm⟩
  rw [← hv.1]
  cases b.isShut kinds ids <;> rfl

/-- Over branches next to one another the renderer puts their images under the open entry. -/
theorem Course.outline (h : Course (OutlineRenderer.visitor kinds ids) t active bs r log stop r')
    (hheld : ∀ b ∈ bs, b.HeldBy t) :
    stop = none ∧ r' = (Branch.outlinedAll kinds ids bs).foldl put r ∧ ∀ level,
      (visits (callsOf log)).length =
          (OutlineEntry.leveledAll level (Branch.outlinedAll kinds ids bs)).length ∧
        (callsOf log).countP Call.skips =
          (OutlineEntry.leveledAll level (Branch.outlinedAll kinds ids bs)).countP
            fun shown => shown.2.collapsed := by
  induction h with
  | nil => exact ⟨rfl, rfl, fun _ => ⟨rfl, rfl⟩⟩
  | refused hv => cases hv
  | @skipped active b bs _ _ _ _ _ hv _ ih =>
    obtain ⟨hb, hbs⟩ := List.forall_mem_cons.mp hheld
    obtain ⟨hshut, rfl⟩ := of_visit hb hv
    obtain ⟨rfl, rfl, hcounts⟩ := ih hbs
    rw [Branch.outlinedAll, List.foldl_cons, Branch.outlined_eq, hshut]
    refine ⟨rfl, rfl, fun level => ?_⟩
    obtain ⟨hvisits, hskips⟩ := hcounts level
    simp [OutlineEntry.leveledAll, OutlineEntry.leveled, List.countP_cons, hvisits, hskips]
  | @through active b bs _ _ _ _ _ _ _ hv _ _ ihInside ihRest =>
    obtain ⟨hb, hbs⟩ := List.forall_mem_cons.mp hheld
    obtain ⟨hshut, rfl⟩ := of_visit hb hv
    obtain ⟨_, rfl, hinside⟩ := ihInside hb.children
    obtain ⟨rfl, rfl, hrest⟩ := ihRest hbs
    rw [Branch.outlinedAll, List.foldl_cons, Branch.outlined_eq, hshut, foldl_put_push,
      foldl_addChild]
    refine ⟨rfl, rfl, fun level => ?_⟩
    obtain ⟨hvisits, hskips⟩ := hinside (level + 1)
    obtain ⟨hvisits', hskips'⟩ := hrest level
    simp [OutlineEntry.leveledAll, OutlineEntry.leveled, hvisits, hskips, hvisits', hskips']
  | broken hv _ ih =>
    obtain ⟨hb, _⟩ := List.forall_mem_cons.mp hheld
    cases (ih hb.children).1

/-- The outline of a live node is the image of its branch, and the summary counts its entries. -/
theorem Tree.WellFormed.outline_eq (h : t.WellFormed) {top : NodeId}
    (hlive : t.contains top = true) (kinds : List NodeKind) (ids : List NodeId) :
    ∃ b, t.branch? top = some b ∧ b.id = top ∧ b.HeldBy t ∧
      t.outline top kinds ids = .ok (b.outlined kinds ids,
        ⟨((b.outlined kinds ids).leveled 0).length,
          ((b.outlined kinds ids).leveled 0).countP fun shown => shown.2.collapsed⟩) := by
  obtain ⟨b, log, stop, r', hb, rfl, held, hcourse, hwalk⟩ :=
    h.exists_course hlive (OutlineRenderer.visitor kinds ids) .empty
  obtain ⟨rfl, rfl, hcounts⟩ := hcourse.outline (by simpa using held)
  obtain ⟨hvisits, hskips⟩ := hcounts 0
  have hone : OutlineEntry.leveledAll 0 (Branch.outlinedAll kinds ids [b]) =
      (b.outlined kinds ids).leveled 0 := by
    simp [Branch.outlinedAll, OutlineEntry.leveledAll]
  rw [hone] at hvisits hskips
  refine ⟨b, hb, rfl, held, ?_⟩
  simp only [Tree.outline, hwalk, walkAnswer, WalkSummary.after, hvisits, hskips, Nat.zero_add]
  rfl

end Walk

end ProgramTree
