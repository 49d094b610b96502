import ProgramTree.Lint
import ProgramTree.Proofs.Tree.Paths
import ProgramTree.Proofs.Walk.Order

/-! # What the linter finds

The findings at a node depend on the tree alone: on the kinds of its siblings,
its children and its ancestors. The linter does not look at ancestors; it counts
loops and nesting levels on its way. Its counters are right when it enters a
node, it makes them right for the children, and when it leaves the node they are
as they were. So a walk finds the faults of the nodes it is shown, in their
order. -/

namespace ProgramTree

set_option autoImplicit false

/-- The rules in the order in which they are tried on a node. -/
def Rule.order : List Rule :=
  [.unreachableCode, .emptyBody, .maxDepth, .loopControlOutsideLoop]

namespace Tree

/-- The kinds of the nodes above a node. -/
def kindsAbove (t : Tree) (id : NodeId) : List NodeKind :=
  t.kindsOf (t.ancestors id)

/-- What a rule has to say about a node of the given kind. -/
def complaint? (t : Tree) (limit : Nat) (id : NodeId) (kind : NodeKind) : Rule → Option String
  | .unreachableCode =>
    if kind.isStatement && kind != .comment then
      ((Linter.previousKind? t id).filter NodeKind.isTerminator).map fun before =>
        "unreachable " ++ kind.name ++ " after " ++ before.name
    else none
  | .emptyBody =>
    if Linter.needsBody kind && (t.kindsOf (t.statements id)).all (· == .comment) then
      some (kind.name ++ " has an empty body")
    else none
  | .maxDepth =>
    if Linter.nests kind && (t.kindsAbove id).countP Linter.nests == limit then
      some ("nesting level " ++ toString (limit + 1) ++ " exceeds the limit of " ++ toString limit)
    else none
  | .loopControlOutsideLoop =>
    if (kind == .breakStatement || kind == .continueStatement) &&
        (t.kindsAbove id).count .whileLoop == 0 then
      some (kind.name ++ " outside of a while loop")
    else none

/-- The finding of a rule at a node, if it is enabled and has something to say. -/
def fault? (t : Tree) (settings : LintSettings) (id : NodeId) (kind : NodeKind) (rule : Rule) :
    Option Finding :=
  if settings.disabled.contains rule then none
  else (t.complaint? settings.maxDepth id kind rule).map fun message => ⟨rule, id, kind, message⟩

/-- The findings at a node. -/
def faults (t : Tree) (settings : LintSettings) (id : NodeId) : List Finding :=
  match t.kind? id with
  | none => []
  | some kind => Rule.order.filterMap (t.fault? settings id kind)

theorem WellFormed.kindsAbove_cons {t : Tree} (h : t.WellFormed) {id parent : NodeId}
    {kind : NodeKind} (hparent : t.parent? id = some parent) (hkind : t.kind? parent = some kind) :
    t.kindsAbove id = kind :: t.kindsAbove parent := by
  simp [kindsAbove, kindsOf, h.ancestors_cons hparent, hkind]

end Tree

namespace Linter

/-- The linter with more findings. -/
def note (l : Linter) (found : List Finding) : Linter :=
  { l with findings := l.findings ++ found }

/-- The linter below nodes of the given kinds, when it has come to the given findings. -/
def below (kinds : List NodeKind) (findings : List Finding) : Linter :=
  ⟨kinds.count .whileLoop, kinds.countP nests, findings⟩

section Enter

variable (l : Linter) (settings : LintSettings) (site : Site)

@[simp] theorem note_nil : l.note [] = l := by
  simp [note]

@[simp] theorem note_note (found found' : List Finding) :
    (l.note found).note found' = l.note (found ++ found') := by
  simp [note]

theorem report_eq (rule : Rule) (message : String) :
    l.report settings rule site message =
      if settings.disabled.contains rule then l
      else l.note [⟨rule, site.id, site.kind, message⟩] := rfl

/-- The finding of a rule at the site, as a list. -/
def found (rule : Rule) : List Finding :=
  (site.tree.fault? settings site.id site.kind rule).toList

/-- A check reports what its rule has to say, if it has. -/
theorem note_found (rule : Rule) : l.note (found settings site rule) =
    match site.tree.complaint? settings.maxDepth site.id site.kind rule with
    | some message => l.report settings rule site message
    | none => l := by
  rw [found, Tree.fault?]
  cases site.tree.complaint? settings.maxDepth site.id site.kind rule with
  | none => simp
  | some message =>
    simp only [report_eq, Option.map_some]
    split <;> simp

theorem checkReachable_eq :
    l.checkReachable settings site = l.note (found settings site .unreachableCode) := by
  rw [note_found, Tree.complaint?, checkReachable]
  split
  · cases previousKind? site.tree site.id with
    | none => rfl
    | some before => cases hterminator : before.isTerminator <;> simp [Option.filter, hterminator]
  · rfl

theorem checkBody_eq :
    l.checkBody settings site = l.note (found settings site .emptyBody) := by
  rw [note_found, Tree.complaint?, checkBody, Tree.kindsOf]
  cases needsBody site.kind &&
    ((site.tree.statements site.id).filterMap site.tree.kind?).all (· == .comment) <;> rfl

end Enter

section Counters

variable {l : Linter} {settings : LintSettings} {site : Site} (above : List NodeKind)

/-- Only a node that nests adds a level. It is reported if it is the first one beyond the limit. -/
theorem nested_eq (habove : site.tree.kindsAbove site.id = above)
    (hnesting : l.nesting = above.countP nests) :
    (if nests site.kind then l.enterNested settings site else l) =
      { l with nesting := (site.kind :: above).countP nests }.note
        (found settings site .maxDepth) := by
  cases hnests : nests site.kind with
  | true =>
    rw [if_pos rfl, enterNested, List.countP_cons_of_pos hnests, note_found, Tree.complaint?,
      hnests, habove, Bool.true_and, hnesting]
    by_cases hlimit : above.countP nests = settings.maxDepth <;> simp [hlimit]
  | false =>
    have hfound : found settings site .maxDepth = [] := by
      simp [found, Tree.fault?, Tree.complaint?, hnests]
    rw [if_neg Bool.false_ne_true, hfound, note_nil,
      List.countP_cons_of_neg (by simp [hnests]), ← hnesting]

/-- Only a loop adds a loop. -/
theorem looped_eq {kind : NodeKind} (hloops : l.loops = above.count .whileLoop) :
    (if kind = .whileLoop then { l with loops := l.loops + 1 } else l) =
      { l with loops := (kind :: above).count .whileLoop } := by
  split
  · rename_i hkind
    rw [hkind, List.count_cons_self, hloops]
  · rename_i hkind
    rw [List.count_cons_of_ne hkind, ← hloops]

theorem checkLoopControl_eq (habove : site.tree.kindsAbove site.id = above)
    (hloops : l.loops = (site.kind :: above).count .whileLoop) :
    l.checkLoopControl settings site = l.note (found settings site .loopControlOutsideLoop) := by
  rw [note_found, Tree.complaint?, checkLoopControl, habove, hloops]
  by_cases hwhile : site.kind = .whileLoop
  · simp [hwhile]
  · rw [List.count_cons_of_ne hwhile]
    split <;> rfl

/-- Entering a node finds its faults and makes the counters right for its children. -/
theorem enter_below {findings : List Finding} (hkind : site.tree.kind? site.id = some site.kind)
    (habove : site.tree.kindsAbove site.id = above) :
    enter settings site (below above findings) =
      below (site.kind :: above) (findings ++ site.tree.faults settings site.id) := by
  have hfaults : site.tree.faults settings site.id =
      found settings site .unreachableCode ++ (found settings site .emptyBody ++
        (found settings site .maxDepth ++ found settings site .loopControlOutsideLoop)) := by
    simp only [Tree.faults, hkind, List.filterMap_eq_flatMap_toList]
    simp [Rule.order, found]
  simp only [enter, checkReachable_eq, checkBody_eq, note_note]
  rw [nested_eq above habove, looped_eq above, checkLoopControl_eq above habove]
  · simp [note, below, hfaults]
  all_goals rfl

/-- Leaving a node makes the counters what they were before it. -/
theorem exit_below {findings : List Finding} :
    exit site (below (site.kind :: above) findings) = below above findings := by
  rw [exit, below, List.count_cons, List.countP_cons]
  by_cases hwhile : site.kind = .whileLoop
  · simp [hwhile, nests, below]
  · cases hnests : nests site.kind <;> simp [hwhile, below]

end Counters

end Linter

section Walk

variable {t : Tree} {settings : LintSettings} {active : List NodeId} {bs : List Branch}
  {l l' : Linter} {log : List (Call × Linter)} {stop : Option Unsupported}

/-- The nodes above the children of a node are the node and those above it. -/
theorem Branch.HeldBy.kindsAbove_children {b : Branch} (held : b.HeldBy t) (hwf : t.WellFormed)
    {above : List NodeKind} (habove : t.kindsAbove b.id = above) :
    ∀ c ∈ b.children, t.kindsAbove c.id = b.kind :: above := by
  intro c hc
  rw [hwf.kindsAbove_cons (held.parent?_child hwf hc) held.kind, habove]

theorem Linter.visit_below {b : Branch} {l₁ : Linter} {above : List NodeKind}
    {findings : List Finding} (held : b.HeldBy t) (habove : t.kindsAbove b.id = above)
    (hl : l = .below above findings)
    (hv : (Linter.visitor settings).visit (b.siteIn t active) l = (.ok .proceed, l₁)) :
    l₁ = .below (b.kind :: above) (findings ++ t.faults settings b.id) := by
  subst hl
  obtain ⟨_, rfl⟩ := Prod.mk.inj hv
  exact Linter.enter_below above held.kind habove

/-- Over branches beneath the same nodes the linter finds the faults of all their nodes, refuses
none of them, and has the counters at the end that it had at the start. -/
theorem Course.lint (h : Course (Linter.visitor settings) t active bs l log stop l')
    (hwf : t.WellFormed) (hheld : ∀ b ∈ bs, b.HeldBy t) {above : List NodeKind}
    (habove : ∀ b ∈ bs, t.kindsAbove b.id = above) {findings : List Finding}
    (hl : l = .below above findings) :
    stop = none ∧
      l' = .below above (findings ++ (Branch.idsAll bs).flatMap (t.faults settings)) := by
  induction h generalizing above findings with
  | nil => exact ⟨rfl, by simp [hl]⟩
  | refused hv | skipped hv => cases hv
  | @through active b bs _ _ _ _ _ _ _ hv _ _ ihInside ihRest =>
    obtain ⟨hb, hbs⟩ := List.forall_mem_cons.mp hheld
    obtain ⟨hbAbove, hbsAbove⟩ := List.forall_mem_cons.mp habove
    obtain ⟨_, rfl⟩ := ihInside hb.children (hb.kindsAbove_children hwf hbAbove)
      (Linter.visit_below hb hbAbove hl hv)
    have hleave : (Linter.visitor settings).leave (b.siteIn t active)
        (.below (b.kind :: above) (findings ++ t.faults settings b.id ++
          (Branch.idsAll b.children).flatMap (t.faults settings))) = .below above _ :=
      Linter.exit_below above
    obtain ⟨rfl, rfl⟩ := ihRest hbs hbsAbove hleave
    refine ⟨rfl, ?_⟩
    rw [Branch.idsAll_cons]
    simp
  | @broken active b bs _ _ _ _ _ hv _ ih =>
    obtain ⟨hb, _⟩ := List.forall_mem_cons.mp hheld
    obtain ⟨hbAbove, _⟩ := List.forall_mem_cons.mp habove
    obtain ⟨hstop, _⟩ := ih hb.children (hb.kindsAbove_children hwf hbAbove)
      (Linter.visit_below hb hbAbove hl hv)
    cases hstop

/-- The linter finds the faults of the nodes within a live one, each before its children. -/
theorem Tree.WellFormed.lint_eq (h : t.WellFormed) {top : NodeId} (hlive : t.contains top = true)
    (settings : LintSettings) :
    ∃ b summary, t.branch? top = some b ∧ b.id = top ∧ b.HeldBy t ∧
      t.lint top settings = .ok (b.ids.flatMap (t.faults settings), summary) := by
  obtain ⟨b, log, stop, l', hb, rfl, held, hcourse, hwalk⟩ :=
    h.exists_course hlive (Linter.visitor settings) (.below (t.kindsAbove top) [])
  obtain ⟨rfl, rfl⟩ := hcourse.lint h (by simpa using held) (by simp) rfl
  refine ⟨b, WalkSummary.after ⟨0, 0⟩ (callsOf log), hb, rfl, held, ?_⟩
  have hstart : (⟨((t.ancestors b.id).filterMap t.kind?).count .whileLoop,
      ((t.ancestors b.id).filterMap t.kind?).countP Linter.nests, []⟩ : Linter) =
        .below (t.kindsAbove b.id) [] := rfl
  simp only [Tree.lint, hstart, hwalk]
  simp [walkAnswer, Linter.below]

end Walk

end ProgramTree
