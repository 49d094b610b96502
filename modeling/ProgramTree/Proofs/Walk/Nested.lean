import ProgramTree.Proofs.Tree.Runs
import ProgramTree.Proofs.Walk.Order

/-! # Walks within walks

A handler of a walk may start another walk, while the nodes that the first one
is inside of are in progress. The second walk leaves them so, however it ends.
It is refused where it would enter one of them, and what those are can be told
from the calls that the walks in progress have made. -/

namespace ProgramTree

set_option autoImplicit false

variable {σ : Type}

section Restored

variable (v : Visitor σ) (t : Tree)

mutual

theorem active_walkBranch : (b : Branch) → (w : WalkState σ) →
    (v.walkBranch t b w).2.active = w.active
  | .node id payload children, w => by
    have hexit : ∀ w' : WalkState σ, w'.active = id :: w.active →
        (w'.exit id).active = w.active := by
      intro w' hw'
      rw [WalkState.exit, hw', List.erase_cons_head]
    rw [Visitor.walkBranch]
    split
    · rfl
    · dsimp only
      split
      · exact hexit _ rfl
      · exact hexit _ rfl
      · rename_i s _
        have hinside := active_walkAll children ((w.enter id).withVisitor s)
        rcases hw : v.walkAll t children ((w.enter id).withVisitor s) with ⟨_ | _, w'⟩
        · rw [hw] at hinside
          exact hexit _ hinside
        · rw [hw] at hinside
          exact hexit _ hinside

theorem active_walkAll : (bs : List Branch) → (w : WalkState σ) →
    (v.walkAll t bs w).2.active = w.active
  | [], w => rfl
  | b :: bs, w => by
    have hfirst := active_walkBranch b w
    rw [Visitor.walkAll]
    rcases hw : v.walkBranch t b w with ⟨_ | _, w'⟩
    · rw [hw] at hfirst
      exact hfirst
    · rw [hw] at hfirst
      exact (active_walkAll bs w').trans hfirst

end

/-- However a walk ends, the nodes in progress are those that were in progress before it. -/
theorem Tree.active_walkFrom (active : List NodeId) (start : NodeId) (s : σ) :
    (t.walkFrom active start v s).2.active = active := by
  rw [walkFrom]
  cases t.branch? start with
  | none => rfl
  | some b =>
    have hactive := active_walkBranch v t b ⟨active, ⟨0, 0⟩, s⟩
    dsimp only
    split
    · rename_i hw
      rwa [hw] at hactive
    · rename_i hw
      rwa [hw] at hactive

end Restored

section Proceeding

/-- The visitor goes on to the children of every node, and refuses none. -/
def Visitor.Proceeds (v : Visitor σ) : Prop :=
  ∀ site s, (v.visit site s).1 = .ok .proceed

/-- How a walk over the nodes ends that nothing stops but a node in progress. -/
def unlessMet (active ids : List NodeId) : Except WalkError Unit :=
  match ids.find? (· ∈ active) with
  | some id => .error (.reentrant id)
  | none => .ok ()

theorem unlessMet_cons_active {active ids : List NodeId} {id : NodeId} (h : id ∉ ids) :
    unlessMet (id :: active) ids = unlessMet active ids := by
  have hfind : ids.find? (· ∈ id :: active) = ids.find? (· ∈ active) := by
    rw [← List.head?_filter, ← List.head?_filter]
    refine congrArg List.head? (List.filter_congr ?_)
    intro other hother
    have hne : other ≠ id := by
      rintro rfl
      exact h hother
    simp [hne]
  rw [unlessMet, hfind]
  rfl

theorem unlessMet_append (active ids ids' : List NodeId) :
    unlessMet active (ids ++ ids') =
      match unlessMet active ids with
      | .error e => .error e
      | .ok () => unlessMet active ids' := by
  unfold unlessMet
  rw [List.find?_append]
  cases ids.find? (· ∈ active) <;> rfl

variable {v : Visitor σ} (t : Tree)

mutual

theorem walkBranch_of_proceeds (hv : v.Proceeds) : (b : Branch) → (w : WalkState σ) →
    b.ids.Nodup → (v.walkBranch t b w).1 = unlessMet w.active b.ids
  | .node id payload children, ⟨active, summary, s⟩, hnodup => by
    obtain ⟨htop, hinside⟩ := List.nodup_cons.mp hnodup
    by_cases hid : id ∈ active
    · simp [Visitor.walkBranch, unlessMet, Branch.ids, hid]
    · rcases hvisit : v.visit ((Branch.node id payload children).siteIn t active) s
        with ⟨answer, s₁⟩
      have hanswer := hv ((Branch.node id payload children).siteIn t active) s
      rw [hvisit] at hanswer
      obtain rfl : answer = .ok .proceed := hanswer
      have hids : unlessMet active (id :: Branch.idsAll children) =
          unlessMet active (Branch.idsAll children) := by simp [unlessMet, hid]
      have hlast : ∀ r : Except WalkError Unit × WalkState σ,
          (match r with
            | (.error e, w) => (Except.error e, w.exit id)
            | (.ok (), w) => (.ok (), v.finish ((Branch.node id payload children).siteIn t active) w)).1
            = r.1 := by
        rintro ⟨_ | _, w⟩ <;> rfl
      rw [walkBranch_of_proceed hvisit hid, Branch.ids, hids, ← unlessMet_cons_active htop]
      exact (hlast _).trans (walkAll_of_proceeds hv children ⟨id :: active, _, s₁⟩ hinside)

theorem walkAll_of_proceeds (hv : v.Proceeds) : (bs : List Branch) → (w : WalkState σ) →
    (Branch.idsAll bs).Nodup → (v.walkAll t bs w).1 = unlessMet w.active (Branch.idsAll bs)
  | [], w, _ => rfl
  | b :: bs, w, hnodup => by
    have hfirst := walkBranch_of_proceeds hv b w (List.nodup_append.mp hnodup).1
    have hactive := active_walkBranch v t b w
    rw [Branch.idsAll, unlessMet_append, ← hfirst, Visitor.walkAll]
    rcases hw : v.walkBranch t b w with ⟨_ | _, w'⟩
    · rfl
    · rw [hw] at hactive
      have hrest := walkAll_of_proceeds hv bs w' (List.nodup_append.mp hnodup).2.1
      rw [hactive] at hrest
      exact hrest

end

end Proceeding

section Beginning

variable {v : Visitor σ} {t : Tree} {active : List NodeId} {b : Branch} {bs : List Branch}
  {s s' : σ} {log : List (Call × σ)} {stop : Option Unsupported}

theorem walkBranch_of_met (hid : b.id ∈ active) (summary : WalkSummary) (s : σ) :
    v.walkBranch t b ⟨active, summary, s⟩ =
      (.error (.reentrant b.id), ⟨active, summary, s⟩) := by
  obtain ⟨id, payload, children⟩ := b
  simp only [Branch.id] at hid
  simp [Visitor.walkBranch, hid, Branch.id]

/-- How a walk ends that has noted the first entries of a log after earlier ones: it has met a node
in progress, or it has noted them all and ends as stated. -/
inductive Begins (prior log : List (Call × σ)) (stop : Option Unsupported) (s' : σ) :
    Except WalkError Unit × WalkState (σ × List (Call × σ)) → Prop
  | met {shown rest : List (Call × σ)} {id : NodeId} {w : WalkState (σ × List (Call × σ))} :
      log = shown ++ rest → w.visitor.2 = prior ++ shown →
      Begins prior log stop s' (.error (.reentrant id), w)
  | whole {w : WalkState (σ × List (Call × σ))} : w.visitor = (s', prior ++ log) →
      Begins prior log stop s' (walkResult stop, w)

theorem Begins.prepend {prior first log : List (Call × σ)}
    {r : Except WalkError Unit × WalkState (σ × List (Call × σ))}
    (h : Begins (prior ++ first) log stop s' r) : Begins prior (first ++ log) stop s' r := by
  cases h with
  | @met shown rest id w hlog hnoted =>
    have hlog' : first ++ log = (first ++ shown) ++ rest := by rw [hlog, List.append_assoc]
    have hnoted' : w.visitor.2 = prior ++ (first ++ shown) := by rw [hnoted, List.append_assoc]
    exact .met hlog' hnoted'
  | whole hstate => exact .whole (by rw [hstate, List.append_assoc])

theorem Begins.cons {prior log : List (Call × σ)} {entry : Call × σ}
    {r : Except WalkError Unit × WalkState (σ × List (Call × σ))}
    (h : Begins (prior ++ [entry]) log stop s' r) : Begins prior (entry :: log) stop s' r :=
  h.prepend

theorem Begins.of_met (hid : b.id ∈ active) {summary : WalkSummary} {prior : List (Call × σ)} :
    Begins prior log stop s' (v.logged.walkAll t (b :: bs) ⟨active, summary, (s, prior)⟩) := by
  rw [Visitor.walkAll, walkBranch_of_met hid]
  have hnoted : prior = prior ++ [] := (List.append_nil prior).symm
  exact .met (List.nil_append log).symm hnoted

/-- A walk makes the first calls of its course, and all of them unless it meets a node in
progress. -/
theorem Course.begins (h : Course v t active bs s log stop s')
    (hnodup : (Branch.idsAll bs).Nodup) (summary : WalkSummary) (prior : List (Call × σ)) :
    Begins prior log stop s' (v.logged.walkAll t bs ⟨active, summary, (s, prior)⟩) := by
  induction h generalizing summary prior with
  | nil => exact .whole (by rw [List.append_nil])
  | @refused active b bs s s' refusal hv =>
    by_cases hid : b.id ∈ active
    · exact .of_met hid
    rw [Visitor.walkAll, walkBranch_of_refused (Visitor.logged_visit hv prior) hid]
    exact .whole rfl
  | @skipped active b bs s s₁ s' log stop hv _ ih =>
    by_cases hid : b.id ∈ active
    · exact .of_met hid
    have hrest := ih (Branch.separate_of_nodup hnodup).rest
    rw [Visitor.walkAll, walkBranch_of_skipped (Visitor.logged_visit hv prior) hid]
    apply Begins.cons
    apply Begins.cons
    exact hrest _ _
  | @through active b bs s s₁ s₂ s' inside log stop hv _ _ ihInside ihRest =>
    by_cases hid : b.id ∈ active
    · exact .of_met hid
    have hin := ihInside (Branch.separate_of_nodup hnodup).inside
      (summary.after [.visit (b.siteIn t active) (.ok .proceed)])
      (prior ++ [(.visit (b.siteIn t active) (.ok .proceed), s₁)])
    have hactive := active_walkAll v.logged t b.children ⟨b.id :: active,
      summary.after [.visit (b.siteIn t active) (.ok .proceed)],
      (s₁, prior ++ [(.visit (b.siteIn t active) (.ok .proceed), s₁)])⟩
    have hrest := ihRest (Branch.separate_of_nodup hnodup).rest
    apply Begins.cons
    rw [Visitor.walkAll, walkBranch_of_proceed (Visitor.logged_visit hv prior) hid]
    generalize v.logged.walkAll t b.children _ = r at hin hactive ⊢
    cases hin with
    | met hlog hnoted => exact .met (by rw [hlog]; exact List.append_assoc _ _ _) hnoted
    | @whole w hstate =>
      obtain ⟨active', summary', _⟩ := w
      cases hactive
      cases hstate
      apply Begins.prepend
      apply Begins.cons
      simp only [walkResult, finish_siteIn]
      exact hrest _ _
  | @broken active b bs s s₁ s₂ inside refusal hv _ ih =>
    by_cases hid : b.id ∈ active
    · exact .of_met hid
    have hin := ih (Branch.separate_of_nodup hnodup).inside
      (summary.after [.visit (b.siteIn t active) (.ok .proceed)])
      (prior ++ [(.visit (b.siteIn t active) (.ok .proceed), s₁)])
    apply Begins.cons
    rw [Visitor.walkAll, walkBranch_of_proceed (Visitor.logged_visit hv prior) hid]
    generalize v.logged.walkAll t b.children _ = r at hin ⊢
    cases hin with
    | met hlog hnoted => exact .met hlog hnoted
    | whole hstate => exact .whole hstate

theorem Begins.noted {r : Except WalkError Unit × WalkState (σ × List (Call × σ))}
    (h : Begins [] log stop s' r) : ∃ rest, log = r.2.visitor.2 ++ rest := by
  cases h with
  | @met shown rest _ _ hlog hnoted => exact ⟨rest, by rw [hnoted, hlog, List.nil_append]⟩
  | whole hstate => exact ⟨[], by rw [hstate, List.nil_append, List.append_nil]⟩

end Beginning

section Path

/-- When the call is made after the given ones, the visit of the node has begun, and its leave is
not over. -/
def InsideAt (before : List Call) (call : Call) (id : NodeId) : Prop :=
  id ∈ visits (before ++ [call]) ∧ id ∉ leaves before

/-- The path is what the walk is inside of when the call is made after the given ones, and what
lies above the node of the call among the given nodes. -/
structure PathTo (t : Tree) (ids : List NodeId) (before : List Call) (call : Call)
    (path : List NodeId) : Prop where
  inside_iff : ∀ id, id ∈ path ↔ InsideAt before call id
  above_iff : ∀ id, id ∈ path ↔ id ∈ ids ∧ t.Within call.id id

variable {t : Tree} (hwf : t.WellFormed)
include hwf

/-- With a node the branches hold what lies within it. -/
theorem mem_idsAll_of_within {bs : List Branch} (hheld : ∀ b ∈ bs, b.HeldBy t) {id other : NodeId}
    (hid : id ∈ Branch.idsAll bs) (hw : t.Within other id) : other ∈ Branch.idsAll bs := by
  rw [Branch.idsAll_eq, List.mem_flatMap] at hid ⊢
  obtain ⟨b, hb, hid⟩ := hid
  have hup := (hwf.mem_ids_iff (hheld b hb) id).mp hid
  exact ⟨b, hb, (hwf.mem_ids_iff (hheld b hb) other).mpr (hw.trans hup)⟩

namespace PathTo

variable {active : List NodeId} {b : Branch} {bs : List Branch} {call : Call}
  {before : List Call} {path : List NodeId}
  (hb : b.HeldBy t) (hbs : ∀ c ∈ bs, c.HeldBy t) (hseparate : b.Separate bs)
include hb hbs hseparate

theorem above_top (id : NodeId) :
    id ∈ [b.id] ↔ id ∈ Branch.idsAll (b :: bs) ∧ t.Within b.id id := by
  rw [List.mem_singleton, Branch.idsAll_cons]
  constructor
  · rintro rfl
    exact ⟨List.mem_cons_self, .refl _⟩
  · rintro ⟨hid, hw⟩
    rcases List.mem_cons.mp hid with hid | hid
    · exact hid
    rcases List.mem_append.mp hid with hid | hid
    · exact absurd (mem_idsAll_of_within hwf hb.children hid hw) hseparate.top_inside
    · exact absurd (mem_idsAll_of_within hwf hbs hid hw) hseparate.top_rest

theorem visit (answer : Except Unsupported Flow) :
    PathTo t (Branch.idsAll (b :: bs)) [] (.visit (b.siteIn t active) answer) [b.id] where
  inside_iff := by simp [InsideAt]
  above_iff := above_top hwf hb hbs hseparate

theorem leave {calls : List Call} (hinside : visits calls ⊆ Branch.idsAll b.children)
    (hleft : (leaves calls).Perm (visits calls)) {flow : Flow} :
    PathTo t (Branch.idsAll (b :: bs)) (.visit (b.siteIn t active) (.ok flow) :: calls)
      (.leave (b.siteIn t active)) [b.id] where
  inside_iff := by
    intro id
    have htop : b.id ∉ leaves calls := fun hid =>
      hseparate.top_inside (hinside (hleft.mem_iff.mp hid))
    simp only [InsideAt, List.cons_append, visits_visit, visits_append, visits_leave, visits_nil,
      List.append_nil, leaves_visit, Branch.id_siteIn, List.mem_cons, hleft.mem_iff] at htop ⊢
    grind
  above_iff := above_top hwf hb hbs hseparate

theorem inside (h : PathTo t (Branch.idsAll b.children) before call path)
    (hids : ∀ other ∈ before ++ [call], other.id ∈ Branch.idsAll b.children) {flow : Flow} :
    PathTo t (Branch.idsAll (b :: bs)) (.visit (b.siteIn t active) (.ok flow) :: before) call
      (path ++ [b.id]) where
  inside_iff := by
    intro id
    have htop : b.id ∉ leaves before := by
      intro hleft
      obtain ⟨site, hsite, hmem⟩ := exists_of_mem_leaves _ hleft
      apply hseparate.top_inside
      rw [← hsite]
      exact hids (.leave site) (List.mem_append_left _ hmem)
    rw [List.mem_append, h.inside_iff, List.mem_singleton]
    simp only [InsideAt, List.cons_append, visits_visit, leaves_visit, Branch.id_siteIn,
      List.mem_cons]
    grind
  above_iff := by
    intro id
    have hcall := hids call (List.mem_append_right _ List.mem_cons_self)
    rw [List.mem_append, h.above_iff, List.mem_singleton, Branch.idsAll_cons]
    constructor
    · rintro (⟨hid, hw⟩ | rfl)
      · exact ⟨List.mem_cons_of_mem _ (List.mem_append_left _ hid), hw⟩
      · refine ⟨List.mem_cons_self, (hwf.mem_ids_iff hb call.id).mp ?_⟩
        rw [Branch.ids_eq]
        exact List.mem_cons_of_mem _ hcall
    · rintro ⟨hid, hw⟩
      rcases List.mem_cons.mp hid with hid | hid
      · exact Or.inr hid
      rcases List.mem_append.mp hid with hid | hid
      · exact Or.inl ⟨hid, hw⟩
      · exact absurd (mem_idsAll_of_within hwf hbs hid hw) (hseparate.apart _ hcall)

omit hbs in
theorem rest (h : PathTo t (Branch.idsAll bs) before call path)
    (hids : ∀ other ∈ before ++ [call], other.id ∈ Branch.idsAll bs) {prior : List Call}
    (hprior : visits prior ⊆ b.ids) (hleft : (leaves prior).Perm (visits prior)) :
    PathTo t (Branch.idsAll (b :: bs)) (prior ++ before) call path where
  inside_iff := by
    intro id
    have hapart : id ∈ visits (before ++ [call]) → id ∉ visits prior := by
      intro hvisit hin
      obtain ⟨other, hother, rfl⟩ := exists_of_mem_visits _ hvisit
      exact hseparate.not_mem_ids (hids other hother) (hprior hin)
    rw [h.inside_iff, InsideAt, InsideAt, List.append_assoc, visits_append prior, leaves_append,
      List.mem_append, List.mem_append, hleft.mem_iff]
    tauto
  above_iff := by
    intro id
    rw [h.above_iff]
    constructor
    · exact fun ⟨hid, hw⟩ => ⟨b.idsAll_rest_subset bs hid, hw⟩
    · rintro ⟨hid, hw⟩
      rcases List.mem_append.mp hid with hid | hid
      · have hup := (hwf.mem_ids_iff hb id).mp hid
        have hin := (hwf.mem_ids_iff hb call.id).mpr (hw.trans hup)
        have hcall := hids call (List.mem_append_right _ List.mem_cons_self)
        exact absurd hin (hseparate.not_mem_ids hcall)
      · exact ⟨hid, hw⟩

end PathTo

omit hwf in
theorem Course.id_mem_of_split {v : Visitor σ} {active : List NodeId} {bs : List Branch} {s s' : σ}
    {log : List (Call × σ)} {stop : Option Unsupported} (h : Course v t active bs s log stop s')
    {before after : List Call} {call : Call} (hcalls : callsOf log = before ++ call :: after) :
    ∀ other ∈ before ++ [call], other.id ∈ Branch.idsAll bs := by
  intro other hother
  apply h.id_mem
  rw [hcalls, List.append_cons]
  exact List.mem_append_left _ hother

/-- While a call is made, the nodes in progress are those from before the walk and the path to the
node of the call. -/
theorem Course.exists_path {v : Visitor σ} {active : List NodeId} {bs : List Branch} {s s' : σ}
    {log : List (Call × σ)} {stop : Option Unsupported} (h : Course v t active bs s log stop s')
    (hheld : ∀ b ∈ bs, b.HeldBy t) (hnodup : (Branch.idsAll bs).Nodup) {before after : List Call}
    {call : Call} (hcalls : callsOf log = before ++ call :: after) :
    ∃ path, call.site.active = path ++ active ∧
      PathTo t (Branch.idsAll bs) before call path := by
  induction h generalizing before after with
  | nil => simp at hcalls
  | @refused active b bs _ _ refusal _ =>
    obtain ⟨hb, hbs⟩ := List.forall_mem_cons.mp hheld
    rcases split_cons hcalls with ⟨rfl, rfl, _⟩ | ⟨_, _, hnone⟩
    · exact ⟨_, rfl, .visit hwf hb hbs (Branch.separate_of_nodup hnodup) _⟩
    · simp at hnone
  | @skipped active b bs _ _ _ _ _ _ hrest ih =>
    obtain ⟨hb, hbs⟩ := List.forall_mem_cons.mp hheld
    have hseparate := Branch.separate_of_nodup hnodup
    rw [callsOf_cons, callsOf_cons] at hcalls
    rcases split_cons hcalls with ⟨rfl, rfl, _⟩ | ⟨_, rfl, hnext⟩
    · exact ⟨_, rfl, .visit hwf hb hbs hseparate _⟩
    rcases split_cons hnext with ⟨rfl, rfl, _⟩ | ⟨before, rfl, hafter⟩
    · have hnone : visits [] ⊆ Branch.idsAll b.children := List.nil_subset _
      exact ⟨_, rfl, .leave hwf hb hbs hseparate hnone (.refl _)⟩
    · obtain ⟨path, hactive, hpath⟩ := ih hbs hseparate.rest hafter
      have hvisits : visits [.visit (b.siteIn t active) (.ok .skipChildren),
          .leave (b.siteIn t active)] ⊆ b.ids := by simp [Branch.id_mem_ids]
      exact ⟨path, hactive,
        hpath.rest hwf hb hseparate (hrest.id_mem_of_split hafter) hvisits (by simp)⟩
  | @through active b bs _ _ _ _ inside _ _ _ hinside hrest ihInside ihRest =>
    obtain ⟨hb, hbs⟩ := List.forall_mem_cons.mp hheld
    have hseparate := Branch.separate_of_nodup hnodup
    rw [callsOf_cons, callsOf_append, callsOf_cons] at hcalls
    rcases split_cons hcalls with ⟨rfl, rfl, _⟩ | ⟨_, rfl, hboth⟩
    · exact ⟨_, rfl, .visit hwf hb hbs hseparate _⟩
    rcases split_append hboth with ⟨_, hin, _⟩ | ⟨_, rfl, hnext⟩
    · obtain ⟨path, hactive, hpath⟩ := ihInside hb.children hseparate.inside hin
      refine ⟨path ++ [b.id], by rw [hactive, List.append_assoc]; rfl, ?_⟩
      exact hpath.inside hwf hb hbs hseparate (hinside.id_mem_of_split hin)
    rcases split_cons hnext with ⟨rfl, rfl, _⟩ | ⟨before, rfl, hafter⟩
    · rw [List.append_nil]
      exact ⟨_, rfl, .leave hwf hb hbs hseparate hinside.visits_sublist.subset hinside.leaves_perm⟩
    · obtain ⟨path, hactive, hpath⟩ := ihRest hbs hseparate.rest hafter
      have hvisits : visits (.visit (b.siteIn t active) (.ok .proceed) ::
          (callsOf inside ++ [.leave (b.siteIn t active)])) ⊆ b.ids := by
        rw [Branch.ids_eq]
        simpa using List.cons_subset_cons b.id hinside.visits_sublist.subset
      have hwhole := hpath.rest hwf hb hseparate (hrest.id_mem_of_split hafter) hvisits
        (by simpa using (List.perm_append_singleton _ _).trans (hinside.leaves_perm.cons b.id))
      exact ⟨path, hactive, by simpa using hwhole⟩
  | @broken active b bs _ _ _ _ _ _ hinside ih =>
    obtain ⟨hb, hbs⟩ := List.forall_mem_cons.mp hheld
    have hseparate := Branch.separate_of_nodup hnodup
    rcases split_cons hcalls with ⟨rfl, rfl, _⟩ | ⟨_, rfl, hin⟩
    · exact ⟨_, rfl, .visit hwf hb hbs hseparate _⟩
    · obtain ⟨path, hactive, hpath⟩ := ih hb.children hseparate.inside hin
      refine ⟨path ++ [b.id], by rw [hactive, List.append_assoc]; rfl, ?_⟩
      exact hpath.inside hwf hb hbs hseparate (hinside.id_mem_of_split hin)

end Path

end ProgramTree
