import ProgramTree.Proofs.Lint.Faults
import ProgramTree.Proofs.Tree.Detached

/-! # What the findings mean

Each rule says on its own what is wrong with a node, in terms of the links and
kinds of the tree. The findings of the linter are what the enabled rules say,
node by node in the order of the branch. So a part gives the findings that the
whole gives for it, and on a way up from a node at most one node is reported for
its depth. -/

namespace ProgramTree

set_option autoImplicit false

namespace Tree

/-- The nearest sibling before a node that is no comment. -/
def NearestBefore (t : Tree) (id sibling : NodeId) : Prop :=
  ∃ parent earlier between later, t.parent? id = some parent ∧
    t.children parent = earlier ++ sibling :: (between ++ id :: later) ∧
    (∀ other ∈ between, t.kind? other = some .comment) ∧ t.kind? sibling ≠ some .comment

/-- Whether a node adds a nesting level to what is inside it. -/
def addsLevel (t : Tree) (id : NodeId) : Bool :=
  (t.kind? id).any [.whileLoop, .ifStatement, .block, .tryStatement].contains

/-- What a rule finds wrong with a node, and how it says it. -/
inductive Flaw (t : Tree) (limit : Nat) (id : NodeId) : Rule → String → Prop
  | unreachable {kind before : NodeKind} {sibling : NodeId} :
      t.kind? id = some kind → kind.isStatement = true → kind ≠ .comment →
      t.NearestBefore id sibling → t.kind? sibling = some before →
      before ∈ [.returnStatement, .replyStatement, .breakStatement, .continueStatement,
        .throwStatement] →
      t.Flaw limit id .unreachableCode ("unreachable " ++ kind.name ++ " after " ++ before.name)
  | emptyBody {kind : NodeKind} :
      t.kind? id = some kind →
      kind ∈ [.function, .whileLoop, .ifStatement, .elseIfClause, .elseClause, .catchClause] →
      (∀ child ∈ t.children id, ∀ kind', t.kind? child = some kind' →
        kind'.isStatement = true → kind' = .comment) →
      t.Flaw limit id .emptyBody (kind.name ++ " has an empty body")
  | tooDeep :
      t.addsLevel id = true → (t.ancestors id).countP t.addsLevel = limit →
      t.Flaw limit id .maxDepth
        ("nesting level " ++ toString (limit + 1) ++ " exceeds the limit of " ++ toString limit)
  | outsideLoop {kind : NodeKind} :
      t.kind? id = some kind → kind ∈ [.breakStatement, .continueStatement] →
      (∀ above ∈ t.ancestors id, t.kind? above ≠ some .whileLoop) →
      t.Flaw limit id .loopControlOutsideLoop (kind.name ++ " outside of a while loop")

/-- The findings at a node: what the enabled rules say, each at most once and in their order. -/
structure FoundAt (t : Tree) (settings : LintSettings) (id : NodeId) (found : List Finding) :
    Prop where
  in_order : (found.map Finding.rule).Sublist
    [.unreachableCode, .emptyBody, .maxDepth, .loopControlOutsideLoop]
  mem_iff : ∀ f, f ∈ found ↔ f.node = id ∧ t.kind? id = some f.kind ∧
    f.rule ∉ settings.disabled ∧ t.Flaw settings.maxDepth id f.rule f.message

section Rules

variable {t : Tree} {limit : Nat} {id : NodeId} {kind : NodeKind} {message : String}

theorem addsLevel_eq (t : Tree) (id : NodeId) :
    t.addsLevel id = (t.kind? id).any Linter.nests := by
  rw [addsLevel]
  cases t.kind? id with
  | none => rfl
  | some kind => cases kind <;> rfl

theorem countP_kindsAbove (t : Tree) (id : NodeId) :
    (t.kindsAbove id).countP Linter.nests = (t.ancestors id).countP t.addsLevel := by
  rw [kindsAbove, kindsOf, List.countP_filterMap]
  congr 1
  funext above
  rw [addsLevel_eq]
  cases t.kind? above <;> rfl

theorem count_kindsAbove_eq_zero :
    (t.kindsAbove id).count .whileLoop = 0 ↔
      ∀ above ∈ t.ancestors id, t.kind? above ≠ some .whileLoop := by
  simp [List.count_eq_zero, kindsAbove, kindsOf]

/-- The last entry of a list that passes a test, with what comes after it. -/
theorem find?_reverse_eq_some {α : Type} {test : α → Bool} {xs : List α} {x : α} :
    xs.reverse.find? test = some x ↔ test x = true ∧
      ∃ before after, xs = before ++ x :: after ∧ ∀ y ∈ after, test y = false := by
  rw [List.find?_eq_some_iff_append]
  refine and_congr_right fun _ => ?_
  constructor
  · rintro ⟨after, before, hxs, hafter⟩
    refine ⟨before.reverse, after.reverse, ?_, by simpa using hafter⟩
    rw [List.reverse_eq_append_iff] at hxs
    simpa using hxs
  · rintro ⟨before, after, rfl, hafter⟩
    exact ⟨after.reverse, before.reverse, by simp, by simpa using hafter⟩

section Siblings

variable (h : t.WellFormed) {parent : NodeId} {front later : List NodeId}
  (hparent : t.parent? id = some parent) (hchildren : t.children parent = front ++ id :: later)
include h hchildren

theorem WellFormed.not_mem_front : id ∉ front := by
  have hnodup := h.children_nodup parent
  rw [hchildren] at hnodup
  have hout := (List.nodup_cons.mp (List.nodup_middle.mp hnodup)).1
  exact fun hmem => hout (List.mem_append_left later hmem)

theorem WellFormed.live_of_mem_front {other : NodeId} (hmem : other ∈ front) :
    t.contains other = true :=
  h.child_live (hchildren ▸ List.mem_append_left (id :: later) hmem)

include hparent

/-- The kind that the linter looks for among the siblings before a node. -/
theorem WellFormed.previousKind?_eq :
    Linter.previousKind? t id =
      (front.reverse.find? fun other => (t.kind? other).any (· != .comment)).bind t.kind? := by
  have hfront : (front ++ id :: later).takeWhile (· != id) = front := by
    rw [List.takeWhile_append_of_pos, List.takeWhile_cons_of_neg (by simp), List.append_nil]
    intro other hother
    exact bne_iff_ne.mpr fun heq => h.not_mem_front hchildren (heq ▸ hother)
  rw [Linter.previousKind?, hparent, Option.map_some, Option.getD_some, hchildren, hfront,
    List.find?_filterMap]

end Siblings

theorem WellFormed.previousKind?_eq_some (h : t.WellFormed) {before : NodeKind} :
    Linter.previousKind? t id = some before ↔
      ∃ sibling, t.NearestBefore id sibling ∧ t.kind? sibling = some before := by
  constructor
  · intro hprevious
    cases hparent : t.parent? id with
    | none => simp [Linter.previousKind?, hparent] at hprevious
    | some parent =>
      obtain ⟨front, later, hchildren⟩ := List.append_of_mem (h.parent_iff.mp hparent)
      rw [h.previousKind?_eq hparent hchildren] at hprevious
      obtain ⟨sibling, hfind, hkind⟩ := Option.bind_eq_some_iff.mp hprevious
      obtain ⟨htest, earlier, between, rfl, hbetween⟩ := find?_reverse_eq_some.mp hfind
      refine ⟨sibling, ⟨parent, earlier, between, later, hparent, by simpa using hchildren,
        ?_, ?_⟩, hkind⟩
      · intro other hother
        have hfront : other ∈ earlier ++ sibling :: between :=
          List.mem_append_right earlier (List.mem_cons_of_mem sibling hother)
        obtain ⟨kind, hkind⟩ := exists_kind? (h.live_of_mem_front hchildren hfront)
        simpa [hkind] using hbetween other hother
      · intro hcomment
        simp [hcomment] at htest
  · rintro ⟨sibling, ⟨parent, earlier, between, later, hparent, hchildren, hbetween, hcomment⟩,
      hkind⟩
    have hsplit : t.children parent = (earlier ++ sibling :: between) ++ id :: later := by
      simpa using hchildren
    rw [h.previousKind?_eq hparent hsplit, Option.bind_eq_some_iff]
    refine ⟨sibling, find?_reverse_eq_some.mpr ⟨?_, earlier, between, rfl, ?_⟩, hkind⟩
    · rw [hkind] at hcomment ⊢
      simpa using hcomment
    · intro other hother
      simp [hbetween other hother]

theorem isTerminator_iff (kind : NodeKind) : kind.isTerminator = true ↔
    kind ∈ [.returnStatement, .replyStatement, .breakStatement, .continueStatement,
      .throwStatement] := by
  cases kind <;> decide

theorem needsBody_iff (kind : NodeKind) : Linter.needsBody kind = true ↔
    kind ∈ [.function, .whileLoop, .ifStatement, .elseIfClause, .elseClause, .catchClause] := by
  cases kind <;> decide

theorem all_comments_iff (t : Tree) (id : NodeId) :
    (t.kindsOf (t.statements id)).all (· == .comment) = true ↔
      ∀ child ∈ t.children id, ∀ kind, t.kind? child = some kind →
        kind.isStatement = true → kind = .comment := by
  simp only [kindsOf, statements, childrenOfKind, List.all_eq_true, List.mem_filterMap,
    List.mem_filter, beq_iff_eq]
  constructor
  · intro hall child hchild kind hkind hstatement
    exact hall kind ⟨child, ⟨hchild, by simp [hkind, hstatement]⟩, hkind⟩
  · rintro hall kind ⟨child, ⟨hchild, hstatement⟩, hkind⟩
    exact hall child hchild kind hkind (by simpa [hkind] using hstatement)

variable (hkind : t.kind? id = some kind)
include hkind

theorem flaw_unreachable_iff (h : t.WellFormed) :
    t.Flaw limit id .unreachableCode message ↔
      t.complaint? limit id kind .unreachableCode = some message := by
  rw [complaint?]
  constructor
  · rintro (@⟨kind', before, sibling, hkind', hstatement, hcomment, hnearest, hbefore, hends⟩)
    obtain rfl : kind = kind' := Option.some.inj (hkind.symm.trans hkind')
    have hprevious := h.previousKind?_eq_some.mpr ⟨sibling, hnearest, hbefore⟩
    simp [hstatement, hcomment, hprevious, Option.filter, (isTerminator_iff before).mpr hends]
  · intro hsays
    split at hsays
    · rename_i hreach
      simp only [Bool.and_eq_true, bne_iff_ne] at hreach
      obtain ⟨before, hfilter, rfl⟩ := Option.map_eq_some_iff.mp hsays
      obtain ⟨hprevious, hends⟩ := Option.filter_eq_some_iff.mp hfilter
      obtain ⟨sibling, hnearest, hbefore⟩ := h.previousKind?_eq_some.mp hprevious
      exact .unreachable hkind hreach.1 hreach.2 hnearest hbefore
        ((isTerminator_iff before).mp hends)
    · cases hsays

theorem flaw_emptyBody_iff :
    t.Flaw limit id .emptyBody message ↔
      t.complaint? limit id kind .emptyBody = some message := by
  simp only [complaint?, Option.ite_none_right_eq_some, Bool.and_eq_true, needsBody_iff,
    all_comments_iff, Option.some.injEq]
  constructor
  · rintro (_ | @⟨kind', hkind', hbody, hall⟩)
    obtain rfl : kind = kind' := Option.some.inj (hkind.symm.trans hkind')
    exact ⟨⟨hbody, hall⟩, rfl⟩
  · rintro ⟨⟨hbody, hall⟩, rfl⟩
    exact .emptyBody hkind hbody hall

theorem flaw_maxDepth_iff :
    t.Flaw limit id .maxDepth message ↔
      t.complaint? limit id kind .maxDepth = some message := by
  have hadds : t.addsLevel id = Linter.nests kind := by rw [addsLevel_eq, hkind]; rfl
  simp only [complaint?, Option.ite_none_right_eq_some, Bool.and_eq_true, beq_iff_eq,
    countP_kindsAbove, ← hadds, Option.some.injEq]
  constructor
  · rintro (_ | _ | ⟨hlevel, hcount⟩)
    exact ⟨⟨hlevel, hcount⟩, rfl⟩
  · rintro ⟨⟨hlevel, hcount⟩, rfl⟩
    exact .tooDeep hlevel hcount

theorem flaw_loopControl_iff :
    t.Flaw limit id .loopControlOutsideLoop message ↔
      t.complaint? limit id kind .loopControlOutsideLoop = some message := by
  simp only [complaint?, Option.ite_none_right_eq_some, Bool.and_eq_true, Bool.or_eq_true,
    beq_iff_eq, count_kindsAbove_eq_zero, Option.some.injEq]
  constructor
  · rintro (_ | _ | _ | @⟨kind', hkind', hcontrol, hloops⟩)
    obtain rfl : kind = kind' := Option.some.inj (hkind.symm.trans hkind')
    exact ⟨⟨by simpa using hcontrol, hloops⟩, rfl⟩
  · rintro ⟨⟨hcontrol, hloops⟩, rfl⟩
    exact .outsideLoop hkind (by simpa using hcontrol) hloops

/-- What a rule says about a node is what it finds wrong with it. -/
theorem flaw_iff (h : t.WellFormed) (rule : Rule) :
    t.Flaw limit id rule message ↔ t.complaint? limit id kind rule = some message := by
  cases rule with
  | unreachableCode => exact flaw_unreachable_iff hkind h
  | emptyBody => exact flaw_emptyBody_iff hkind
  | maxDepth => exact flaw_maxDepth_iff hkind
  | loopControlOutsideLoop => exact flaw_loopControl_iff hkind

end Rules

section Found

variable {t : Tree} {settings : LintSettings} {id : NodeId} {kind : NodeKind}

theorem fault?_eq_some {rule : Rule} {f : Finding} :
    t.fault? settings id kind rule = some f ↔ rule ∉ settings.disabled ∧
      ∃ message, t.complaint? settings.maxDepth id kind rule = some message ∧
        f = ⟨rule, id, kind, message⟩ := by
  rw [fault?]
  split
  · rename_i hdisabled
    simp only [List.contains_iff_mem] at hdisabled
    simp [hdisabled]
  · rename_i henabled
    simp only [List.contains_iff_mem] at henabled
    simp only [henabled, not_false_eq_true, true_and, Option.map_eq_some_iff, eq_comm (a := f)]

theorem map_rule_sublist (rules : List Rule) :
    ((rules.filterMap (t.fault? settings id kind)).map Finding.rule).Sublist rules := by
  induction rules with
  | nil => exact .slnil
  | cons rule rules ih =>
    cases hfault : t.fault? settings id kind rule with
    | none =>
      rw [List.filterMap_cons_none hfault]
      exact ih.cons rule
    | some f =>
      obtain ⟨_, _, _, rfl⟩ := fault?_eq_some.mp hfault
      rw [List.filterMap_cons_some hfault]
      exact ih.cons_cons rule

theorem WellFormed.foundAt_faults (h : t.WellFormed) (settings : LintSettings)
    (hlive : t.contains id = true) : t.FoundAt settings id (t.faults settings id) := by
  obtain ⟨kind, hkind⟩ := exists_kind? hlive
  have hfaults : t.faults settings id = Rule.order.filterMap (t.fault? settings id kind) := by
    rw [faults, hkind]
  have horder (rule : Rule) : rule ∈ Rule.order := by cases rule <;> decide
  constructor
  · rw [hfaults]
    exact map_rule_sublist Rule.order
  · rintro ⟨rule, node, kind', message⟩
    rw [hfaults, List.mem_filterMap, hkind]
    constructor
    · rintro ⟨rule', _, hfault⟩
      obtain ⟨henabled, message', hsays, heq⟩ := fault?_eq_some.mp hfault
      cases heq
      exact ⟨rfl, rfl, henabled, (flaw_iff hkind h rule).mpr hsays⟩
    · rintro ⟨rfl, hsame, henabled, hflaw⟩
      cases hsame
      exact ⟨rule, horder rule, fault?_eq_some.mpr
        ⟨henabled, message, (flaw_iff hkind h rule).mp hflaw, rfl⟩⟩

theorem WellFormed.live_of_mem_ids (h : t.WellFormed) {b : Branch} (held : b.HeldBy t) :
    ∀ other ∈ b.ids, t.contains other = true :=
  fun other hmem => ((h.mem_ids_iff held other).mp hmem).live held.live

theorem node_of_mem_faults {f : Finding} (hf : f ∈ t.faults settings id) : f.node = id := by
  rw [faults] at hf
  split at hf
  · cases hf
  · obtain ⟨rule, _, hfault⟩ := List.mem_filterMap.mp hf
    obtain ⟨_, _, _, rfl⟩ := fault?_eq_some.mp hfault
    rfl

end Found

section Depth

variable {t : Tree} {settings : LintSettings}

/-- The findings for depth at the nodes on the way up from a node. -/
def depthFindings (t : Tree) (findings : List Finding) (id : NodeId) : List Finding :=
  findings.filter fun f => f.rule == .maxDepth && (id :: t.ancestors id).contains f.node

/-- Whether a node is the first one beyond the limit on the way down to it. -/
def exceeds (t : Tree) (limit : Nat) (id : NodeId) : Bool :=
  t.addsLevel id && (t.ancestors id).countP t.addsLevel == limit

theorem filter_fault? {id : NodeId} {kind : NodeKind} (rule : Rule) :
    (t.fault? settings id kind rule).filter (·.rule == .maxDepth) =
      if rule = .maxDepth then t.fault? settings id kind .maxDepth else none := by
  cases hfault : t.fault? settings id kind rule with
  | none =>
    split
    · rename_i hrule
      rw [← hrule, hfault]
      rfl
    · rfl
  | some f =>
    obtain ⟨_, message, _, rfl⟩ := fault?_eq_some.mp hfault
    split
    · rename_i hrule
      subst hrule
      simp [Option.filter, hfault]
    · rename_i hrule
      simp [Option.filter, hrule]

/-- One finding for depth, or none, at a single node. -/
theorem length_filter_faults {id : NodeId} (hlive : t.contains id = true) :
    ((t.faults settings id).filter (·.rule == .maxDepth)).length =
      if !settings.disabled.contains .maxDepth && t.exceeds settings.maxDepth id then 1 else 0 := by
  obtain ⟨kind, hkind⟩ := exists_kind? hlive
  have hadds : Linter.nests kind = t.addsLevel id := by rw [addsLevel_eq, hkind]; rfl
  have hfaults : (t.faults settings id).filter (·.rule == .maxDepth) =
      (t.fault? settings id kind .maxDepth).toList := by
    simp only [faults, hkind, List.filter_filterMap, filter_fault?]
    cases t.fault? settings id kind .maxDepth <;> simp [Rule.order]
  rw [hfaults, fault?, complaint?, hadds, countP_kindsAbove, ← exceeds]
  cases settings.disabled.contains .maxDepth <;>
    cases t.exceeds settings.maxDepth id <;> simp

theorem length_depthFindings {ids : List NodeId} (hlive : ∀ id ∈ ids, t.contains id = true)
    (id : NodeId) :
    (t.depthFindings (ids.flatMap (t.faults settings)) id).length =
      ids.countP fun other => decide (other ∈ id :: t.ancestors id) &&
        (!settings.disabled.contains .maxDepth && t.exceeds settings.maxDepth other) := by
  induction ids with
  | nil => rfl
  | cons first ids ih =>
    obtain ⟨hfirst, hids⟩ := List.forall_mem_cons.mp hlive
    have hat : (t.depthFindings (t.faults settings first) id).length =
        if decide (first ∈ id :: t.ancestors id) && (!settings.disabled.contains .maxDepth &&
          t.exceeds settings.maxDepth first) then 1 else 0 := by
      have hnode : t.depthFindings (t.faults settings first) id =
          (t.faults settings first).filter fun f =>
            f.rule == .maxDepth && decide (first ∈ id :: t.ancestors id) := by
        refine List.filter_congr fun f hf => ?_
        rw [node_of_mem_faults hf, List.contains_eq_mem]
      rw [hnode]
      by_cases hway : first ∈ id :: t.ancestors id
      · simp only [hway, decide_true, Bool.and_true, Bool.true_and]
        exact length_filter_faults hfirst
      · simp only [hway, decide_false, Bool.and_false, Bool.false_and]
        simp
    rw [List.flatMap_cons, List.countP_cons, ← ih hids, ← hat, depthFindings, List.filter_append,
      List.length_append, Nat.add_comm]
    rfl

theorem WellFormed.countP_way_exceeds (h : t.WellFormed) (limit : Nat) (id : NodeId) :
    (id :: t.ancestors id).countP (t.exceeds limit) =
      if limit < (id :: t.ancestors id).countP t.addsLevel then 1 else 0 :=
  h.countP_way t.addsLevel limit id

/-- On the way up from a node no more than one is reported for its depth. -/
theorem WellFormed.length_depthFindings_le (h : t.WellFormed) {b : Branch} (held : b.HeldBy t)
    (id : NodeId) : (t.depthFindings (b.ids.flatMap (t.faults settings)) id).length ≤ 1 := by
  rw [length_depthFindings (h.live_of_mem_ids held),
    countP_mem_comm (h.nodup_ids held) (h.ancestors_nodup id)]
  calc ((id :: t.ancestors id).countP fun other => decide (other ∈ b.ids) &&
          (!settings.disabled.contains .maxDepth && t.exceeds settings.maxDepth other))
      ≤ (id :: t.ancestors id).countP (t.exceeds settings.maxDepth) := by
        refine List.countP_mono_left fun other _ hother => ?_
        simp only [Bool.and_eq_true] at hother
        exact hother.2.2
    _ ≤ 1 := by
        rw [h.countP_way_exceeds]
        split <;> decide

/-- If the way leads up to the top of what was linted, one is reported just if there are more
levels on it than the limit. -/
theorem WellFormed.length_depthFindings_top (h : t.WellFormed) {b : Branch} (held : b.HeldBy t)
    (henabled : .maxDepth ∉ settings.disabled) (htop : t.parent? b.id = none) {id : NodeId}
    (hw : t.Within id b.id) :
    (t.depthFindings (b.ids.flatMap (t.faults settings)) id).length =
      if settings.maxDepth < (id :: t.ancestors id).countP t.addsLevel then 1 else 0 := by
  rw [length_depthFindings (h.live_of_mem_ids held),
    countP_mem_comm (h.nodup_ids held) (h.ancestors_nodup id), ← h.countP_way_exceeds]
  refine List.countP_congr fun other hother => ?_
  -- every node of the way lies within the top
  have hway : t.Within id other := (h.mem_way_iff id other).mp hother
  have hinside : other ∈ b.ids := by
    rw [h.mem_ids_iff held]
    rcases hw.comparable hway with habove | hbelow
    · rw [← within_of_parent?_eq_none htop habove]
      exact .refl b.id
    · exact hbelow
  simp [hinside, henabled]

end Depth

section Results

variable {t : Tree} {settings : LintSettings}

/-- Linting a live node finds at each node within it, in the order of the branch, what the enabled
rules find wrong with that node, and nothing else. On the way up from a node at most one is
reported for its depth; when a whole tree was linted, one is reported just if there are more
levels on the way than the limit. -/
theorem lint_meaning (h : t.Reachable) {top : NodeId} (hlive : t.contains top = true)
    (settings : LintSettings) :
    ∃ b findings summary, ∃ at' : NodeId → List Finding,
      t.branch? top = some b ∧ t.lint top settings = .ok (findings, summary) ∧
      (∀ id, id ∈ b.ids ↔ t.isWithin id top = true) ∧
      findings = b.ids.flatMap at' ∧ (∀ id ∈ b.ids, t.FoundAt settings id (at' id)) ∧
      (∀ id, (t.depthFindings findings id).length ≤ 1) ∧
      (t.parent? top = none → .maxDepth ∉ settings.disabled → ∀ id, t.isWithin id top = true →
        ((t.depthFindings findings id).length = 1 ↔
          settings.maxDepth < (id :: t.ancestors id).countP t.addsLevel)) := by
  have hwf := h.wellFormed
  obtain ⟨b, summary, hb, rfl, held, hlint⟩ := hwf.lint_eq hlive settings
  refine ⟨b, _, summary, t.faults settings, hb, hlint, ?_, rfl, ?_, ?_, ?_⟩
  · intro id
    rw [isWithin_iff hwf, hwf.mem_ids_iff held]
  · exact fun id hid => hwf.foundAt_faults settings (hwf.live_of_mem_ids held id hid)
  · exact hwf.length_depthFindings_le held
  · intro htop henabled id hwithin
    rw [hwf.length_depthFindings_top held henabled htop ((isWithin_iff hwf id _).mp hwithin)]
    split <;> simp [*]

/-- Two breaks in a block, linted with no level allowed: the block is too deep, the second break is
not reached, and both are outside of a loop. -/
theorem lint_two_breaks :
    ∃ t : Tree, ∃ at' : NodeId → List Finding, t.Reachable ∧ t.contains ⟨0, 0⟩ = true ∧
      [⟨0, 0⟩, ⟨1, 0⟩, ⟨2, 0⟩, ⟨3, 0⟩, ⟨4, 0⟩].flatMap at' =
        [⟨.maxDepth, ⟨2, 0⟩, .block, "nesting level 1 exceeds the limit of 0"⟩,
         ⟨.loopControlOutsideLoop, ⟨3, 0⟩, .breakStatement, "break outside of a while loop"⟩,
         ⟨.unreachableCode, ⟨4, 0⟩, .breakStatement, "unreachable break after break"⟩,
         ⟨.loopControlOutsideLoop, ⟨4, 0⟩, .breakStatement, "break outside of a while loop"⟩] ∧
      t.lint ⟨0, 0⟩ ⟨0, []⟩ =
        .ok ([⟨0, 0⟩, ⟨1, 0⟩, ⟨2, 0⟩, ⟨3, 0⟩, ⟨4, 0⟩].flatMap at', ⟨5, 0⟩) ∧
      t.FoundAt ⟨0, []⟩ ⟨2, 0⟩ (at' ⟨2, 0⟩) ∧ t.FoundAt ⟨0, []⟩ ⟨4, 0⟩ (at' ⟨4, 0⟩) := by
  obtain ⟨t, ht, hreach⟩ : ∃ t : Tree, t = [.create (.function "f" [] []), .create .block,
      .create .breakStatement, .create .breakStatement, .appendChild ⟨0, 0⟩ ⟨1, 0⟩,
      .appendChild ⟨1, 0⟩ ⟨2, 0⟩, .appendChild ⟨2, 0⟩ ⟨3, 0⟩,
      .appendChild ⟨2, 0⟩ ⟨4, 0⟩].foldl after (new none) ∧ t.Reachable :=
    ⟨_, rfl, (reachable_new none).run _⟩
  have hlive : t.contains ⟨0, 0⟩ = true := by rw [ht]; rfl
  have hids : (t.branch? ⟨0, 0⟩).map Branch.ids =
      some [⟨0, 0⟩, ⟨1, 0⟩, ⟨2, 0⟩, ⟨3, 0⟩, ⟨4, 0⟩] := by rw [ht]; rfl
  have hrun : t.lint ⟨0, 0⟩ ⟨0, []⟩ = .ok
      ([⟨.maxDepth, ⟨2, 0⟩, .block, "nesting level 1 exceeds the limit of 0"⟩,
        ⟨.loopControlOutsideLoop, ⟨3, 0⟩, .breakStatement, "break outside of a while loop"⟩,
        ⟨.unreachableCode, ⟨4, 0⟩, .breakStatement, "unreachable break after break"⟩,
        ⟨.loopControlOutsideLoop, ⟨4, 0⟩, .breakStatement, "break outside of a while loop"⟩],
      ⟨5, 0⟩) := by rw [ht]; rfl
  obtain ⟨b, findings, summary, at', hb, hlint, _, rfl, hfound, _⟩ :=
    lint_meaning hreach hlive ⟨0, []⟩
  rw [hb, Option.map_some, Option.some.injEq] at hids
  rw [hids] at hlint hfound
  obtain ⟨hfindings, rfl⟩ := Prod.mk.inj (Except.ok.inj (hlint.symm.trans hrun))
  exact ⟨t, at', hreach, hlive, hfindings, hlint, hfound ⟨2, 0⟩ (by decide),
    hfound ⟨4, 0⟩ (by decide)⟩

/-- A test that tells apart only what the entries of a list give picks the entries. -/
theorem filter_flatMap_eq {α β : Type} {f : α → List β} {test : β → Bool} {test' : α → Bool}
    (h : ∀ x, ∀ y ∈ f x, test y = test' x) (xs : List α) :
    (xs.flatMap f).filter test = (xs.filter test').flatMap f := by
  induction xs with
  | nil => rfl
  | cons x xs ih =>
    rw [List.flatMap_cons, List.filter_append, ih]
    cases hx : test' x with
    | true =>
      rw [List.filter_cons_of_pos hx, List.flatMap_cons,
        List.filter_eq_self.mpr fun y hy => (h x y hy).trans hx]
    | false =>
      rw [List.filter_cons_of_neg (by simp [hx]),
        List.filter_eq_nil_iff.mpr fun y hy => by simp [h x y hy, hx], List.nil_append]

/-- Linting a part of what lies within a node gives those findings of linting the whole whose
nodes are in the part, in the same order. -/
theorem lint_part (h : t.Reachable) {outer inner : NodeId} (hlive : t.contains outer = true)
    (hwithin : t.isWithin inner outer = true) (settings : LintSettings) :
    ∃ whole part summary summary', t.lint outer settings = .ok (whole, summary) ∧
      t.lint inner settings = .ok (part, summary') ∧
      part = whole.filter fun f => t.isWithin f.node inner := by
  have hwf := h.wellFormed
  have hw := (isWithin_iff hwf inner outer).mp hwithin
  obtain ⟨b, summary, _, rfl, held, hlint⟩ := hwf.lint_eq hlive settings
  obtain ⟨b', summary', _, rfl, held', hlint'⟩ := hwf.lint_eq (hw.live hlive) settings
  refine ⟨_, _, summary, summary', hlint, hlint', ?_⟩
  have hnode : ∀ id, ∀ f ∈ t.faults settings id, t.isWithin f.node b'.id = t.isWithin id b'.id :=
    fun id f hf => by rw [node_of_mem_faults hf]
  rw [filter_flatMap_eq hnode, held.filter_ids hwf held' ((hwf.mem_ids_iff held _).mpr hw)]

/-- A continue after a break in a loop: linted alone it is unreachable too, and is not outside of a
loop. The break after the loop is. -/
theorem lint_continue_alone :
    ∃ (t : Tree) (summary : WalkSummary), t.Reachable ∧ t.contains ⟨0, 0⟩ = true ∧
      t.isWithin ⟨4, 0⟩ ⟨0, 0⟩ = true ∧
      t.lint ⟨0, 0⟩ ⟨8, []⟩ = .ok (
        [⟨.unreachableCode, ⟨4, 0⟩, .continueStatement, "unreachable continue after break"⟩,
         ⟨.loopControlOutsideLoop, ⟨5, 0⟩, .breakStatement, "break outside of a while loop"⟩],
        ⟨6, 0⟩) ∧
      t.lint ⟨4, 0⟩ ⟨8, []⟩ = .ok (
        [⟨.unreachableCode, ⟨4, 0⟩, .continueStatement, "unreachable continue after break"⟩],
        summary) := by
  obtain ⟨t, ht, hreach⟩ : ∃ t : Tree, t = [.create (.function "f" [] []),
      .create (.whileLoop (.name "x")), .create .breakStatement, .create .continueStatement,
      .create .breakStatement, .appendChild ⟨0, 0⟩ ⟨1, 0⟩, .appendChild ⟨1, 0⟩ ⟨2, 0⟩,
      .appendChild ⟨2, 0⟩ ⟨3, 0⟩, .appendChild ⟨2, 0⟩ ⟨4, 0⟩,
      .appendChild ⟨1, 0⟩ ⟨5, 0⟩].foldl after (new none) ∧ t.Reachable :=
    ⟨_, rfl, (reachable_new none).run _⟩
  have hlive : t.contains ⟨0, 0⟩ = true := by rw [ht]; rfl
  have hwithin : t.isWithin ⟨4, 0⟩ ⟨0, 0⟩ = true := by rw [ht]; rfl
  have hrun : t.lint ⟨0, 0⟩ ⟨8, []⟩ = .ok
      ([⟨.unreachableCode, ⟨4, 0⟩, .continueStatement, "unreachable continue after break"⟩,
        ⟨.loopControlOutsideLoop, ⟨5, 0⟩, .breakStatement, "break outside of a while loop"⟩],
      ⟨6, 0⟩) := by rw [ht]; rfl
  obtain ⟨whole, part, _, summary, hwhole, hpart, hfilter⟩ :=
    lint_part hreach hlive hwithin ⟨8, []⟩
  obtain ⟨rfl, -⟩ := Prod.mk.inj (Except.ok.inj (hwhole.symm.trans hrun))
  refine ⟨t, summary, hreach, hlive, hwithin, hrun, ?_⟩
  rw [hpart, hfilter, ht]
  rfl

end Results

end Tree
end ProgramTree
