import Mathlib.Data.List.DropRight
import ProgramTree.Walk.Cancellable
import ProgramTree.Proofs.Walk.Contract

/-! # Walks that are cancelled

A visitor that may be cancelled is shown the beginning of the walk that it would
be shown otherwise, up to the call that cancels it, and after that only the last
of the nodes that it is inside of. Whatever earlier walks left in the memory of
the wrapper lies beneath what this walk puts there, and is never looked at. -/

namespace ProgramTree

set_option autoImplicit false

variable {σ : Type}

/-- The state after the given nodes have been left. -/
def Visitor.leaveAll (v : Visitor σ) (sites : List Site) (s : σ) : σ :=
  sites.foldl (fun s site => v.leave site s) s

theorem Visitor.leaveAll_enter (v : Visitor σ) {site : Site} {flow : Flow} {calls : List Call}
    (h : site.id ∉ leaves calls) (s : σ) :
    v.leaveAll (openSites (.visit site (.ok flow) :: calls)) s =
      v.leave site (v.leaveAll (openSites calls) s) := by
  simp [openSites_enter h, leaveAll]

theorem Visitor.leaveAll_induction {P : σ → Prop} {v : Visitor σ}
    (hleave : ∀ site s, P s → P (v.leave site s)) (sites : List Site) {s : σ} (h : P s) :
    P (v.leaveAll sites s) := by
  induction sites generalizing s with
  | nil => exact h
  | cons site sites ih => exact ih (hleave site s h)

namespace Cancellable

variable {isCancelled : σ → Bool} {v : Visitor σ} {t : Tree} {active : List NodeId} {b : Branch}
  {bs : List Branch} {s s₁ s₂ s' : σ} {c' : Cancellable σ} {entered : List (NodeId × Bool)}
  {log : List (Call × σ)} {stop : Option Unsupported}

section Steps

variable {site : Site} (entered)

theorem visit_of_cancelled (hs : isCancelled s = true) :
    (visitor isCancelled v).visit site ⟨s, entered⟩ =
      (.ok .skipChildren, ⟨s, (site.id, false) :: unwind site entered⟩) := by
  simp [visitor, hs]

theorem visit_of_refused {refusal : Unsupported} (hs : isCancelled s = false)
    (hv : v.visit site s = (.error refusal, s')) :
    (visitor isCancelled v).visit site ⟨s, entered⟩ =
      (.error refusal, ⟨s', unwind site entered⟩) := by
  simp [visitor, hs, hv]

theorem visit_of_ok {flow : Flow} (hs : isCancelled s = false)
    (hv : v.visit site s = (.ok flow, s')) :
    (visitor isCancelled v).visit site ⟨s, entered⟩ =
      (.ok flow, ⟨s', (site.id, true) :: unwind site entered⟩) := by
  simp [visitor, hs, hv]

variable (isCancelled v site s)

theorem leave_asked :
    (visitor isCancelled v).leave site ⟨s, (site.id, true) :: entered⟩ =
      ⟨v.leave site s, entered⟩ := by
  simp [visitor]

theorem leave_unasked :
    (visitor isCancelled v).leave site ⟨s, (site.id, false) :: entered⟩ = ⟨s, entered⟩ := by
  simp [visitor]

end Steps

theorem unwind_unwind (site : Site) (entered : List (NodeId × Bool)) :
    unwind site (unwind site entered) = unwind site entered :=
  List.dropWhile_idempotent _ entered

/-- What a walk finds in the memory and drops at its first visit makes no difference. -/
theorem of_unwind {entered : List (NodeId × Bool)} {log : List (Call × Cancellable σ)}
    (h : Course (visitor isCancelled v) t active (b :: bs)
      ⟨s, unwind (b.siteIn t active) entered⟩ log stop c') :
    Course (visitor isCancelled v) t active (b :: bs) ⟨s, entered⟩ log stop c' := by
  have hvisit : (visitor isCancelled v).visit (b.siteIn t active)
      ⟨s, unwind (b.siteIn t active) entered⟩ =
        (visitor isCancelled v).visit (b.siteIn t active) ⟨s, entered⟩ := by
    simp [visitor, unwind_unwind]
  cases h with
  | refused hv => exact .refused (hvisit ▸ hv)
  | skipped hv hrest => exact .skipped (hvisit ▸ hv) hrest
  | through hv hinside hrest => exact .through (hvisit ▸ hv) hinside hrest
  | broken hv hinside => exact .broken (hvisit ▸ hv) hinside

/-- Nothing is dropped from the memory when one of the branches is visited. -/
def Settled (t : Tree) (entered : List (NodeId × Bool)) (bs : List Branch) : Prop :=
  ∀ b ∈ bs, ∀ active, unwind (b.siteIn t active) entered = entered

theorem settled_unwind (t : Tree) (active : List NodeId) (b : Branch)
    (entered : List (NodeId × Bool)) : Settled t (unwind (b.siteIn t active) entered) [b] := by
  intro c hc active'
  rw [List.mem_singleton.mp hc]
  exact unwind_unwind (b.siteIn t active) entered

theorem Settled.children (hwf : t.WellFormed) (held : b.HeldBy t) (asked : Bool) :
    Settled t ((b.id, asked) :: entered) b.children := by
  intro c hc active
  have hparent : t.parent? c.id = some b.id :=
    hwf.parent_iff.mpr (held.children_eq ▸ List.mem_map_of_mem hc)
  apply List.dropWhile_cons_of_neg
  simp [Branch.siteIn, Site.id, hparent]

section Courses

variable {log inside : List (Call × Cancellable σ)} {refusal : Unsupported}
  (hs : isCancelled s = false) (htop : ∀ active, unwind (b.siteIn t active) entered = entered)
include hs htop

theorem refused (hv : v.visit (b.siteIn t active) s = (.error refusal, s')) :
    Course (visitor isCancelled v) t active (b :: bs) ⟨s, entered⟩
      [(.visit (b.siteIn t active) (.error refusal), ⟨s', entered⟩)] (some refusal)
      ⟨s', entered⟩ := by
  have hvisit := visit_of_refused entered hs hv
  rw [htop active] at hvisit
  exact .refused hvisit

theorem skipped (hv : v.visit (b.siteIn t active) s = (.ok .skipChildren, s₁))
    (hrest : Course (visitor isCancelled v) t active bs
      ⟨v.leave (b.siteIn t active) s₁, entered⟩ log stop c') :
    Course (visitor isCancelled v) t active (b :: bs) ⟨s, entered⟩
      ((.visit (b.siteIn t active) (.ok .skipChildren), ⟨s₁, (b.id, true) :: entered⟩) ::
        (.leave (b.siteIn t active), ⟨v.leave (b.siteIn t active) s₁, entered⟩) :: log)
      stop c' := by
  have hvisit := visit_of_ok entered hs hv
  rw [htop active] at hvisit
  rw [← leave_asked isCancelled v s₁ entered (b.siteIn t active)] at hrest ⊢
  exact .skipped hvisit hrest

theorem through (hv : v.visit (b.siteIn t active) s = (.ok .proceed, s₁))
    (hinside : Course (visitor isCancelled v) t (b.id :: active) b.children
      ⟨s₁, (b.id, true) :: entered⟩ inside none ⟨s₂, (b.id, true) :: entered⟩)
    (hrest : Course (visitor isCancelled v) t active bs
      ⟨v.leave (b.siteIn t active) s₂, entered⟩ log stop c') :
    Course (visitor isCancelled v) t active (b :: bs) ⟨s, entered⟩
      ((.visit (b.siteIn t active) (.ok .proceed), ⟨s₁, (b.id, true) :: entered⟩) ::
        (inside ++ (.leave (b.siteIn t active), ⟨v.leave (b.siteIn t active) s₂, entered⟩) :: log))
      stop c' := by
  have hvisit := visit_of_ok entered hs hv
  rw [htop active] at hvisit
  rw [← leave_asked isCancelled v s₂ entered (b.siteIn t active)] at hrest ⊢
  exact .through hvisit hinside hrest

theorem broken (hv : v.visit (b.siteIn t active) s = (.ok .proceed, s₁))
    (hinside : Course (visitor isCancelled v) t (b.id :: active) b.children
      ⟨s₁, (b.id, true) :: entered⟩ inside (some refusal) c') :
    Course (visitor isCancelled v) t active (b :: bs) ⟨s, entered⟩
      ((.visit (b.siteIn t active) (.ok .proceed), ⟨s₁, (b.id, true) :: entered⟩) :: inside)
      (some refusal) c' := by
  have hvisit := visit_of_ok entered hs hv
  rw [htop active] at hvisit
  exact .broken hvisit hinside

end Courses

variable (isCancelled)

/-- A cancelled visitor is asked nothing any more, and the branches are passed without a trace. -/
theorem silent (v : Visitor σ) (active : List NodeId) (hs : isCancelled s = true)
    (hsettled : Settled t entered bs) :
    ∃ log, Course (visitor isCancelled v) t active bs ⟨s, entered⟩ log none ⟨s, entered⟩ := by
  induction bs with
  | nil => exact ⟨[], .nil⟩
  | cons b bs ih =>
    obtain ⟨htop, hrest⟩ := List.forall_mem_cons.mp hsettled
    obtain ⟨log, hcourse⟩ := ih hrest
    have hvisit : (visitor isCancelled v).visit (b.siteIn t active) ⟨s, entered⟩ =
        (.ok .skipChildren, ⟨s, (b.id, false) :: entered⟩) := by
      rw [visit_of_cancelled entered hs, htop active, Branch.id_siteIn]
    have hbeside : Course (visitor isCancelled v) t active bs
        ((visitor isCancelled v).leave (b.siteIn t active) ⟨s, (b.id, false) :: entered⟩) log none
        ⟨s, entered⟩ := by
      rwa [← Branch.id_siteIn b t active, leave_unasked]
    exact ⟨_, .skipped hvisit hbeside⟩

section Stretches

variable {before after : List (Call × σ)} {call : Call}
  (hlog : log = before ++ (call, s₁) :: after)
include hlog

theorem not_left_inside (h : Course v t active b.children s log stop s')
    (htop : b.id ∉ Branch.idsAll b.children) : b.id ∉ leaves (callsOf before ++ [call]) := by
  intro hleft
  apply htop
  apply h.visits_sublist.subset
  apply h.leaves_subperm.subset
  rw [hlog, callsOf_split, leaves_append]
  exact List.mem_append_left _ hleft

theorem openSites_beside (h : Course v t active bs s log stop s') (hseparate : b.Separate bs)
    {prior : List Call} (hclosed : openSites prior = []) (hprior : leaves prior ⊆ b.ids) :
    openSites (prior ++ (callsOf before ++ [call])) = openSites (callsOf before ++ [call]) := by
  apply openSites_append hclosed
  intro id hid hleft
  refine hseparate.not_mem_ids (h.visits_sublist.subset ?_) (hprior hleft)
  rw [hlog, callsOf_split, visits_append]
  exact List.mem_append_left _ hid

end Stretches

/-- As long as the visitor is not cancelled it gets the calls that it would get otherwise, and
the memory is at last as it was. A refusal ends the walk whether it cancels the visitor or not. -/
theorem forwarded (hwf : t.WellFormed) (h : Course v t active bs s log stop s')
    (hheld : ∀ b ∈ bs, b.HeldBy t) (hs : isCancelled s = false)
    (hlog : ∀ entry ∈ log, isCancelled entry.2 = true → entry.1.fails = true)
    (hsettled : Settled t entered bs) :
    ∃ log' entered', Course (visitor isCancelled v) t active bs ⟨s, entered⟩ log' stop
      ⟨s', entered'⟩ ∧ callsOf log' = callsOf log ∧ (stop = none → entered' = entered) := by
  induction h generalizing entered with
  | nil => exact ⟨_, _, .nil, rfl, fun _ => rfl⟩
  | refused hv =>
    have htop := hsettled _ List.mem_cons_self
    exact ⟨_, _, refused hs htop hv, rfl, by simp⟩
  | skipped hv _ ih =>
    obtain ⟨htop, hbeside⟩ := List.forall_mem_cons.mp hsettled
    obtain ⟨_, hbs⟩ := List.forall_mem_cons.mp hheld
    obtain ⟨_, hlog⟩ := List.forall_mem_cons.mp hlog
    obtain ⟨hleave, hlog⟩ := List.forall_mem_cons.mp hlog
    obtain ⟨log', entered', hcourse, hcalls, hkept⟩ :=
      ih hbs (by simpa [Call.fails] using hleave) hlog hbeside
    exact ⟨_, _, skipped hs htop hv hcourse, by simp [hcalls], hkept⟩
  | through hv _ _ ihInside ihRest =>
    obtain ⟨htop, hbeside⟩ := List.forall_mem_cons.mp hsettled
    obtain ⟨hb, hbs⟩ := List.forall_mem_cons.mp hheld
    obtain ⟨hvisit, hlog⟩ := List.forall_mem_cons.mp hlog
    obtain ⟨hlogInside, hlog⟩ := List.forall_mem_append.mp hlog
    obtain ⟨hleave, hlogRest⟩ := List.forall_mem_cons.mp hlog
    obtain ⟨inside', _, hinside, hcallsInside, hkeptInside⟩ := ihInside hb.children
      (by simpa [Call.fails] using hvisit) hlogInside (.children hwf hb true)
    obtain ⟨log', entered', hrest, hcallsRest, hkept⟩ := ihRest hbs
      (by simpa [Call.fails] using hleave) hlogRest hbeside
    rw [hkeptInside rfl] at hinside
    exact ⟨_, _, through hs htop hv hinside hrest, by simp [hcallsInside, hcallsRest], hkept⟩
  | broken hv _ ih =>
    have htop := hsettled _ List.mem_cons_self
    obtain ⟨hb, _⟩ := List.forall_mem_cons.mp hheld
    obtain ⟨hvisit, hlog⟩ := List.forall_mem_cons.mp hlog
    obtain ⟨inside', _, hinside, hcalls, _⟩ := ih hb.children
      (by simpa [Call.fails] using hvisit) hlog (.children hwf hb true)
    exact ⟨_, _, broken hs htop hv hinside, by simp [hcalls], by simp⟩

/-- A walk that is cancelled inside a node comes back out of it, shows it for the last time, and
passes what is beside it. -/
theorem closing (hs : isCancelled s = false) (hsettled : Settled t entered (b :: bs))
    (hv : v.visit (b.siteIn t active) s = (.ok .proceed, s₁))
    (hleft : isCancelled (v.leave (b.siteIn t active) s₂) = true)
    (hinside : ∃ log, Course (visitor isCancelled v) t (b.id :: active) b.children
      ⟨s₁, (b.id, true) :: entered⟩ log none ⟨s₂, (b.id, true) :: entered⟩) :
    ∃ log, Course (visitor isCancelled v) t active (b :: bs) ⟨s, entered⟩ log none
      ⟨v.leave (b.siteIn t active) s₂, entered⟩ := by
  obtain ⟨htop, hbeside⟩ := List.forall_mem_cons.mp hsettled
  obtain ⟨inside, hinside⟩ := hinside
  obtain ⟨log, hrest⟩ := silent isCancelled v active hleft hbeside
  exact ⟨_, through hs htop hv hinside hrest⟩

/-- The call that cancels the visitor is its last one but for those that leave the open nodes. -/
theorem cut (hwf : t.WellFormed)
    (hstay : ∀ site s, isCancelled s = true → isCancelled (v.leave site s) = true)
    (h : Course v t active bs s log stop s') (hheld : ∀ b ∈ bs, b.HeldBy t)
    (hfresh : Fresh active bs) (hs : isCancelled s = false) {before after : List (Call × σ)}
    {call : Call} {s₁ : σ} (hlog : log = before ++ (call, s₁) :: after)
    (hbefore : ∀ entry ∈ before, isCancelled entry.2 = false) (hs₁ : isCancelled s₁ = true)
    (hfails : call.fails = false) (hsettled : Settled t entered bs) :
    ∃ log', Course (visitor isCancelled v) t active bs ⟨s, entered⟩ log' none
      ⟨v.leaveAll (openSites (callsOf before ++ [call])) s₁, entered⟩ := by
  induction h generalizing entered before after with
  | nil => simp at hlog
  | refused =>
    rcases split_cons hlog with ⟨_, hentry, _⟩ | ⟨_, _, hnone⟩
    · cases hentry
      cases hfails
    · simp at hnone
  | @skipped active b bs _ _ _ _ _ hv hrest ih =>
    obtain ⟨htop, hbeside⟩ := List.forall_mem_cons.mp hsettled
    obtain ⟨_, hbs⟩ := List.forall_mem_cons.mp hheld
    have hopen := openSites_pass (b.siteIn t active) .skipChildren openSites_nil
    rcases split_cons hlog with ⟨rfl, hentry, _⟩ | ⟨_, rfl, hnext⟩
    · cases hentry
      obtain ⟨_, hsilent⟩ := silent isCancelled v active (hstay (b.siteIn t active) s₁ hs₁) hbeside
      exact ⟨_, skipped hs htop hv hsilent⟩
    obtain ⟨_, hbefore⟩ := List.forall_mem_cons.mp hbefore
    rcases split_cons hnext with ⟨rfl, hentry, _⟩ | ⟨later, rfl, hsplit⟩
    · cases hentry
      obtain ⟨_, hsilent⟩ := silent isCancelled v active hs₁ hbeside
      rw [callsOf_cons, callsOf_nil, List.cons_append, hopen]
      exact ⟨_, skipped hs htop hv hsilent⟩
    · obtain ⟨hleave, hlater⟩ := List.forall_mem_cons.mp hbefore
      obtain ⟨_, hcourse⟩ := ih hbs hfresh.rest hleave hsplit hlater hbeside
      have hsame := openSites_beside hsplit hrest (Branch.separate_of_nodup hfresh.nodup) hopen
        (by simp [Branch.id_mem_ids])
      rw [← hsame] at hcourse
      exact ⟨_, skipped hs htop hv hcourse⟩
  | @through active b bs _ _ _ _ inside _ _ hv hinside hrest ihInside ihRest =>
    obtain ⟨htop, hbeside⟩ := List.forall_mem_cons.mp hsettled
    obtain ⟨hb, hbs⟩ := List.forall_mem_cons.mp hheld
    have hseparate := Branch.separate_of_nodup hfresh.nodup
    have hopen := openSites_pass (b.siteIn t active) .proceed hinside.openSites_eq_nil
    rcases split_cons hlog with ⟨rfl, hentry, _⟩ | ⟨_, rfl, hnext⟩
    · cases hentry
      exact closing isCancelled hs hsettled hv (hstay _ _ hs₁)
        (silent isCancelled v (b.id :: active) hs₁ (.children hwf hb true))
    obtain ⟨hvisit, hbefore⟩ := List.forall_mem_cons.mp hbefore
    rcases split_append hnext with ⟨_, hsplit, _⟩ | ⟨_, rfl, hafter⟩
    -- Cancelled beneath the node: it is the outermost of the open nodes, and left last.
    · rw [callsOf_cons, List.cons_append,
        v.leaveAll_enter (not_left_inside hsplit hinside hseparate.top_inside)]
      exact closing isCancelled hs hsettled hv (hstay _ _ (v.leaveAll_induction hstay _ hs₁))
        (ihInside hb.children hfresh.inside hvisit hsplit hbefore (.children hwf hb true))
    -- Cancelled later: all that lies beneath the node has been shown, and left.
    obtain ⟨hbefore, hlater⟩ := List.forall_mem_append.mp hbefore
    obtain ⟨inside', _, hinside', _, hkept⟩ := forwarded isCancelled hwf hinside hb.children hvisit
      (fun entry hentry htrue => by simp [hbefore entry hentry] at htrue) (.children hwf hb true)
    rw [hkept rfl] at hinside'
    rcases split_cons hafter with ⟨rfl, hentry, _⟩ | ⟨_, rfl, hsplit⟩
    · cases hentry
      rw [List.append_nil, callsOf_cons, List.cons_append, hopen]
      exact closing isCancelled hs hsettled hv hs₁ ⟨_, hinside'⟩
    · obtain ⟨hleave, hlater⟩ := List.forall_mem_cons.mp hlater
      obtain ⟨_, hcourse⟩ := ihRest hbs hfresh.rest hleave hsplit hlater hbeside
      have hleft : leaves (callsOf inside) ⊆ Branch.idsAll b.children :=
        List.Subset.trans hinside.leaves_subperm.subset hinside.visits_sublist.subset
      have hsame := openSites_beside hsplit hrest hseparate hopen (by
        rw [Branch.ids_eq]
        simpa using List.subset_cons_of_subset b.id hleft)
      rw [← hsame] at hcourse
      simp only [List.cons_append, List.append_assoc, List.nil_append] at hcourse
      rw [callsOf_cons, callsOf_append, callsOf_cons, List.cons_append, List.append_assoc]
      exact ⟨_, through hs htop hv hinside' hcourse⟩
  | @broken active b bs _ _ _ inside _ hv hinside ih =>
    obtain ⟨hb, _⟩ := List.forall_mem_cons.mp hheld
    rcases split_cons hlog with ⟨rfl, hentry, _⟩ | ⟨_, rfl, hsplit⟩
    · cases hentry
      exact closing isCancelled hs hsettled hv (hstay _ _ hs₁)
        (silent isCancelled v (b.id :: active) hs₁ (.children hwf hb true))
    · obtain ⟨hvisit, hbefore⟩ := List.forall_mem_cons.mp hbefore
      rw [callsOf_cons, List.cons_append, v.leaveAll_enter (not_left_inside hsplit hinside
        (Branch.separate_of_nodup hfresh.nodup).top_inside)]
      exact closing isCancelled hs hsettled hv (hstay _ _ (v.leaveAll_induction hstay _ hs₁))
        (ih hb.children hfresh.inside hvisit hsplit hbefore (.children hwf hb true))

end Cancellable
end ProgramTree
