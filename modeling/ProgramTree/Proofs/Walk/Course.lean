import ProgramTree.Proofs.Walk.Calls
import ProgramTree.Proofs.Tree.Branches

/-! # The course of a walk

A walk over branches that hold no node twice never meets a node in progress. So
its course depends on the answers of the visitor alone: it makes certain calls
and ends after the last branch or at the first refusal. The relation `Course`
says this step by step, and the walk itself is shown to follow it. -/

namespace ProgramTree

set_option autoImplicit false

variable {σ : Type}

/-- What is shown of a branch while the given nodes above it are in progress. -/
def Branch.siteIn (b : Branch) (t : Tree) (active : List NodeId) : Site :=
  ⟨t, b, b.id :: active⟩

@[simp] theorem Branch.id_siteIn (b : Branch) (t : Tree) (active : List NodeId) :
    (b.siteIn t active).id = b.id := rfl

@[simp] theorem Branch.branch_siteIn (b : Branch) (t : Tree) (active : List NodeId) :
    (b.siteIn t active).branch = b := rfl

/-- The parts of branches that hold no node twice: the first top, what lies beneath it, and the
branches after it. -/
structure Branch.Separate (b : Branch) (bs : List Branch) : Prop where
  inside : (idsAll b.children).Nodup
  rest : (idsAll bs).Nodup
  top_inside : b.id ∉ idsAll b.children
  top_rest : b.id ∉ idsAll bs
  apart : ∀ id ∈ idsAll b.children, id ∉ idsAll bs

theorem Branch.separate_of_nodup {b : Branch} {bs : List Branch} (h : (idsAll (b :: bs)).Nodup) :
    b.Separate bs := by
  rw [idsAll_cons] at h
  obtain ⟨htop, hboth⟩ := List.nodup_cons.mp h
  obtain ⟨hinside, hrest, happart⟩ := List.nodup_append.mp hboth
  refine ⟨hinside, hrest, fun hid => htop (List.mem_append_left _ hid),
    fun hid => htop (List.mem_append_right _ hid), ?_⟩
  intro id hid hid'
  exact happart id hid id hid' rfl

/-- The branches hold no node twice, and none that is in progress. -/
structure Fresh (active : List NodeId) (bs : List Branch) : Prop where
  nodup : (Branch.idsAll bs).Nodup
  out : ∀ id ∈ Branch.idsAll bs, id ∉ active

namespace Fresh

variable {active : List NodeId} {b : Branch} {bs : List Branch} (h : Fresh active (b :: bs))
include h

theorem top : b.id ∉ active :=
  h.out b.id (by rw [Branch.idsAll_cons]; exact List.mem_cons_self)

theorem inside : Fresh (b.id :: active) b.children where
  nodup := (Branch.separate_of_nodup h.nodup).inside
  out := by
    intro id hid
    refine List.not_mem_cons_of_ne_of_not_mem ?_ (h.out id ?_)
    · rintro rfl
      exact (Branch.separate_of_nodup h.nodup).top_inside hid
    · rw [Branch.idsAll_cons]
      exact List.mem_cons_of_mem _ (List.mem_append_left _ hid)

theorem rest : Fresh active bs where
  nodup := (Branch.separate_of_nodup h.nodup).rest
  out := by
    intro id hid
    apply h.out
    rw [Branch.idsAll_cons]
    exact List.mem_cons_of_mem _ (List.mem_append_right _ hid)

end Fresh

/-- The calls that a visitor gets over branches next to one another, from its first state to
its last, and the refusal that ended the walk, if one did. -/
inductive Course (v : Visitor σ) (t : Tree) :
    List NodeId → List Branch → σ → List (Call × σ) → Option Unsupported → σ → Prop
  | nil {active : List NodeId} {s : σ} : Course v t active [] s [] none s
  | refused {active : List NodeId} {b : Branch} {bs : List Branch} {s s' : σ}
      {refusal : Unsupported} :
      v.visit (b.siteIn t active) s = (.error refusal, s') →
      Course v t active (b :: bs) s [(.visit (b.siteIn t active) (.error refusal), s')]
        (some refusal) s'
  | skipped {active : List NodeId} {b : Branch} {bs : List Branch} {s s₁ s' : σ}
      {log : List (Call × σ)} {stop : Option Unsupported} :
      v.visit (b.siteIn t active) s = (.ok .skipChildren, s₁) →
      Course v t active bs (v.leave (b.siteIn t active) s₁) log stop s' →
      Course v t active (b :: bs) s
        ((.visit (b.siteIn t active) (.ok .skipChildren), s₁) ::
          (.leave (b.siteIn t active), v.leave (b.siteIn t active) s₁) :: log) stop s'
  | through {active : List NodeId} {b : Branch} {bs : List Branch} {s s₁ s₂ s' : σ}
      {inside log : List (Call × σ)} {stop : Option Unsupported} :
      v.visit (b.siteIn t active) s = (.ok .proceed, s₁) →
      Course v t (b.id :: active) b.children s₁ inside none s₂ →
      Course v t active bs (v.leave (b.siteIn t active) s₂) log stop s' →
      Course v t active (b :: bs) s
        ((.visit (b.siteIn t active) (.ok .proceed), s₁) :: (inside ++
          (.leave (b.siteIn t active), v.leave (b.siteIn t active) s₂) :: log)) stop s'
  | broken {active : List NodeId} {b : Branch} {bs : List Branch} {s s₁ s₂ : σ}
      {inside : List (Call × σ)} {refusal : Unsupported} :
      v.visit (b.siteIn t active) s = (.ok .proceed, s₁) →
      Course v t (b.id :: active) b.children s₁ inside (some refusal) s₂ →
      Course v t active (b :: bs) s
        ((.visit (b.siteIn t active) (.ok .proceed), s₁) :: inside) (some refusal) s₂

namespace Course

variable (v : Visitor σ) (t : Tree)

section Existence

/-- Whatever the state, the branches are walked over in some way. -/
def Walkable (bs : List Branch) : Prop :=
  ∀ active s, ∃ log stop s', Course v t active bs s log stop s'

variable {v t} in
theorem Walkable.cons {b : Branch} {bs : List Branch} (hinside : Walkable v t b.children)
    (hrest : Walkable v t bs) : Walkable v t (b :: bs) := by
  intro active s
  rcases hv : v.visit (b.siteIn t active) s with ⟨_ | flow, s₁⟩
  · exact ⟨_, _, _, .refused hv⟩
  cases flow with
  | skipChildren =>
    obtain ⟨log, stop, s', hcourse⟩ := hrest active (v.leave (b.siteIn t active) s₁)
    exact ⟨_, _, _, .skipped hv hcourse⟩
  | proceed =>
    obtain ⟨inside, stop, s₂, hin⟩ := hinside (b.id :: active) s₁
    cases stop with
    | some refusal => exact ⟨_, _, _, .broken hv hin⟩
    | none =>
      obtain ⟨log, stop, s', hcourse⟩ := hrest active (v.leave (b.siteIn t active) s₂)
      exact ⟨_, _, _, .through hv hin hcourse⟩

mutual

theorem walkable_children : (b : Branch) → Walkable v t b.children
  | .node _ _ children => walkable children

theorem walkable : (bs : List Branch) → Walkable v t bs
  | [] => fun _ _ => ⟨_, _, _, .nil⟩
  | b :: bs => (walkable_children b).cons (walkable bs)

end

end Existence

end Course

/-- How a walk ends that was ended by a refusal or by nothing. -/
def walkResult : Option Unsupported → Except WalkError Unit
  | none => .ok ()
  | some refusal => .error (.unsupported refusal)

section Walk

variable {v : Visitor σ} {t : Tree} {active : List NodeId} {b : Branch} {bs : List Branch}
  {s s₁ s' : σ} {summary : WalkSummary} {log : List (Call × σ)} {stop : Option Unsupported}

theorem walkBranch_of_refused {refusal : Unsupported}
    (hv : v.visit (b.siteIn t active) s = (.error refusal, s')) (hid : b.id ∉ active) :
    v.walkBranch t b ⟨active, summary, s⟩ = (.error (.unsupported refusal),
      ⟨active, summary.after [.visit (b.siteIn t active) (.error refusal)], s'⟩) := by
  obtain ⟨id, payload, children⟩ := b
  simp only [Branch.siteIn, Branch.id] at hv hid
  simp [Visitor.walkBranch, hid, hv, WalkState.enter, WalkState.exit, WalkState.withVisitor]
  rfl

theorem walkBranch_of_skipped
    (hv : v.visit (b.siteIn t active) s = (.ok .skipChildren, s₁)) (hid : b.id ∉ active) :
    v.walkBranch t b ⟨active, summary, s⟩ = (.ok (),
      ⟨active, summary.after [.visit (b.siteIn t active) (.ok .skipChildren),
        .leave (b.siteIn t active)], v.leave (b.siteIn t active) s₁⟩) := by
  obtain ⟨id, payload, children⟩ := b
  simp only [Branch.siteIn, Branch.id] at hv hid
  simp [Visitor.walkBranch, hid, hv, WalkState.enter, WalkState.exit, WalkState.withVisitor,
    WalkState.skip, Visitor.finish, Site.id, Branch.id]
  refine ⟨rfl, rfl⟩

theorem walkBranch_of_proceed
    (hv : v.visit (b.siteIn t active) s = (.ok .proceed, s₁)) (hid : b.id ∉ active) :
    v.walkBranch t b ⟨active, summary, s⟩ =
      match v.walkAll t b.children ⟨b.id :: active,
        summary.after [.visit (b.siteIn t active) (.ok .proceed)], s₁⟩ with
      | (.error e, w) => (.error e, w.exit b.id)
      | (.ok (), w) => (.ok (), v.finish (b.siteIn t active) w) := by
  obtain ⟨id, payload, children⟩ := b
  simp only [Branch.siteIn, Branch.id] at hv hid
  simp only [Visitor.walkBranch, hid, if_false, hv, WalkState.enter, WalkState.withVisitor]
  rfl

theorem finish_siteIn :
    v.finish (b.siteIn t active) ⟨b.id :: active, summary, s⟩ =
      ⟨active, summary, v.leave (b.siteIn t active) s⟩ := by
  simp [Visitor.finish, WalkState.withVisitor, WalkState.exit]

/-- A walk over fresh branches follows its course, and leaves the nodes in progress as they were. -/
theorem Course.walkAll (h : Course v t active bs s log stop s') (hfresh : Fresh active bs)
    (summary : WalkSummary) :
    v.walkAll t bs ⟨active, summary, s⟩ =
      (walkResult stop, ⟨active, summary.after (callsOf log), s'⟩) := by
  induction h generalizing summary with
  | nil => rfl
  | refused hv =>
    rw [Visitor.walkAll, walkBranch_of_refused hv hfresh.top]
    rfl
  | skipped hv _ ih =>
    rw [Visitor.walkAll, walkBranch_of_skipped hv hfresh.top]
    refine (ih hfresh.rest _).trans ?_
    rw [← WalkSummary.after_append]
    rfl
  | @through active b bs s s₁ s₂ s' inside log stop hv _ _ ihInside ihRest =>
    rw [Visitor.walkAll, walkBranch_of_proceed hv hfresh.top, ihInside hfresh.inside]
    simp only [walkResult, finish_siteIn]
    refine (ihRest hfresh.rest _).trans ?_
    rw [callsOf_cons, callsOf_append, callsOf_cons,
      summary.after_cons _ (callsOf inside ++ _), WalkSummary.after_append]
    rfl
  | @broken active b bs s s₁ s₂ inside refusal hv _ ih =>
    rw [Visitor.walkAll, walkBranch_of_proceed hv hfresh.top, ih hfresh.inside, callsOf_cons,
      summary.after_cons _ (callsOf inside)]
    simp [walkResult, WalkState.exit]

/-- The answer of a walk that made the given calls. -/
def walkAnswer (calls : List Call) : Option Unsupported → Except WalkError WalkSummary
  | none => .ok (WalkSummary.after ⟨0, 0⟩ calls)
  | some refusal => .error (.unsupported refusal)

theorem walkBranch_eq_walkAll (w : WalkState σ) : v.walkBranch t b w = v.walkAll t [b] w := by
  rw [Visitor.walkAll]
  rcases v.walkBranch t b w with ⟨_ | _, _⟩ <;> rfl

theorem Course.walkFrom {start : NodeId} (h : Course v t active [b] s log stop s')
    (hbranch : t.branch? start = some b) (hfresh : Fresh active [b]) :
    t.walkFrom active start v s = (walkAnswer (callsOf log) stop,
      ⟨active, WalkSummary.after ⟨0, 0⟩ (callsOf log), s'⟩) := by
  simp only [Tree.walkFrom, hbranch, walkBranch_eq_walkAll, h.walkAll hfresh]
  cases stop <;> rfl

end Walk

/-- A live node has a branch, and a walk over it meets no node in progress if none of those lies
within it. -/
theorem Tree.WellFormed.exists_fresh {t : Tree} (h : t.WellFormed) {start : NodeId}
    (hlive : t.contains start = true) {active : List NodeId}
    (hout : ∀ id ∈ active, ¬ t.Within id start) :
    ∃ b, t.branch? start = some b ∧ b.id = start ∧ b.HeldBy t ∧ Fresh active [b] := by
  obtain ⟨b, hb, rfl, held⟩ := h.exists_branch? hlive
  refine ⟨b, hb, rfl, held, ⟨?_, ?_⟩⟩
  · simpa using h.nodup_ids held
  · intro id hid hactive
    exact hout id hactive ((h.mem_ids_iff held id).mp (by simpa using hid))

/-- A visitor that refuses no node. -/
def Visitor.Willing (v : Visitor σ) : Prop :=
  ∀ site s, ∃ flow s', v.visit site s = (.ok flow, s')

theorem Visitor.Willing.not_refused {v : Visitor σ} (hv : v.Willing) {site : Site} {s s' : σ}
    {refusal : Unsupported} : v.visit site s ≠ (.error refusal, s') := by
  obtain ⟨flow, s'', hvisit⟩ := hv site s
  rw [hvisit]
  exact nofun

theorem Course.stop_eq_none {v : Visitor σ} {t : Tree} {active : List NodeId} {bs : List Branch}
    {s s' : σ} {log : List (Call × σ)} {stop : Option Unsupported}
    (h : Course v t active bs s log stop s') (hv : v.Willing) : stop = none := by
  induction h with
  | nil => rfl
  | refused hvisit => exact absurd hvisit hv.not_refused
  | skipped _ _ ih => exact ih
  | through _ _ _ _ ih => exact ih
  | broken _ _ ih => cases ih

/-- A walk over a live node follows the course of a walk over its branch. -/
theorem Tree.WellFormed.exists_course {t : Tree} (h : t.WellFormed) {start : NodeId}
    (hlive : t.contains start = true) (v : Visitor σ) (s : σ) :
    ∃ b log stop s', t.branch? start = some b ∧ b.id = start ∧ b.HeldBy t ∧
      Course v t [] [b] s log stop s' ∧ t.walk start v s = (walkAnswer (callsOf log) stop, s') := by
  obtain ⟨b, hb, hid, held, hfresh⟩ := h.exists_fresh hlive (List.forall_mem_nil _)
  obtain ⟨log, stop, s', hcourse⟩ := Course.walkable v t [b] [] s
  exact ⟨b, log, stop, s', hb, hid, held, hcourse,
    by rw [Tree.walk, hcourse.walkFrom hb hfresh]⟩

/-- A walk over a live node with a visitor that refuses no node succeeds. -/
theorem Tree.WellFormed.walk_ok {t : Tree} (h : t.WellFormed) {start : NodeId}
    (hlive : t.contains start = true) {v : Visitor σ} (hv : v.Willing) (s : σ) :
    ∃ summary s', t.walk start v s = (.ok summary, s') := by
  obtain ⟨_, log, stop, s', _, _, _, hcourse, hwalk⟩ := h.exists_course hlive v s
  obtain rfl := hcourse.stop_eq_none hv
  exact ⟨_, s', hwalk⟩

section Logged

variable {v : Visitor σ} {t : Tree} {active : List NodeId} {bs : List Branch} {s s' : σ}
  {log : List (Call × σ)} {stop : Option Unsupported}

/-- A log in which each state comes with the log up to it. -/
def annotated (prior : List (Call × σ)) :
    List (Call × σ) → List (Call × (σ × List (Call × σ)))
  | [] => []
  | (call, s) :: rest =>
    (call, (s, prior ++ [(call, s)])) :: annotated (prior ++ [(call, s)]) rest

theorem annotated_append (prior log log' : List (Call × σ)) :
    annotated prior (log ++ log') = annotated prior log ++ annotated (prior ++ log) log' := by
  induction log generalizing prior with
  | nil => simp [annotated]
  | cons entry log ih => simp [annotated, ih]

theorem mem_of_mem_annotated {prior log : List (Call × σ)}
    {entry : Call × (σ × List (Call × σ))} (h : entry ∈ annotated prior log) :
    (entry.1, entry.2.1) ∈ log := by
  induction log generalizing prior with
  | nil => cases h
  | cons first log ih =>
    rcases List.mem_cons.mp h with rfl | h
    · exact List.mem_cons_self
    · exact List.mem_cons_of_mem _ (ih h)

@[simp] theorem callsOf_annotated (prior log : List (Call × σ)) :
    callsOf (annotated prior log) = callsOf log := by
  induction log generalizing prior with
  | nil => rfl
  | cons entry log ih =>
    obtain ⟨call, s⟩ := entry
    simp [annotated, ih]

theorem Visitor.logged_visit {site : Site} {answer : Except Unsupported Flow}
    (hv : v.visit site s = (answer, s')) (prior : List (Call × σ)) :
    v.logged.visit site (s, prior) = (answer, (s', prior ++ [(.visit site answer, s')])) := by
  simp [logged, hv]

/-- A visitor that notes its calls goes through the same course, and notes the log of it. -/
theorem Course.logged (h : Course v t active bs s log stop s') (prior : List (Call × σ)) :
    Course v.logged t active bs (s, prior) (annotated prior log) stop (s', prior ++ log) := by
  induction h generalizing prior with
  | nil => simpa [annotated] using Course.nil
  | refused hv => exact .refused (Visitor.logged_visit hv prior)
  | skipped hv _ ih =>
    have hcourse := Course.skipped (Visitor.logged_visit hv prior) (ih _)
    simpa [annotated, Visitor.logged] using hcourse
  | through hv _ _ ihInside ihRest =>
    have hcourse := Course.through (Visitor.logged_visit hv prior) (ihInside _) (ihRest _)
    simpa [annotated, annotated_append, Visitor.logged] using hcourse
  | @broken active b bs _ _ _ _ _ hv _ ih =>
    have hcourse : Course v.logged t active (b :: bs) _ _ _ _ :=
      .broken (Visitor.logged_visit hv prior) (ih _)
    simpa [annotated] using hcourse

theorem Course.walkFrom_logged {b : Branch} {start : NodeId}
    (h : Course v t active [b] s log stop s') (hbranch : t.branch? start = some b)
    (hfresh : Fresh active [b]) :
    t.walkFrom active start v.logged (s, []) = (walkAnswer (callsOf log) stop,
      ⟨active, WalkSummary.after ⟨0, 0⟩ (callsOf log), (s', log)⟩) := by
  simpa using (h.logged []).walkFrom hbranch hfresh

end Logged

end ProgramTree
