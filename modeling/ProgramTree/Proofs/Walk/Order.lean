import Mathlib.Data.List.Perm.Subperm
import ProgramTree.Proofs.Walk.Course

/-! # The order of the calls of a walk

What the calls of every course have in common, whatever the visitor answers. A
node is visited at most once, after its parent and after all that lies within
the siblings before it; a node is left once all that lies within it has been
left; and after a refusal there are no calls, so that just the nodes on the way
down to the refused one stay entered. -/

namespace ProgramTree

set_option autoImplicit false

namespace Branch

theorem ids_eq (b : Branch) : b.ids = b.id :: idsAll b.children := by
  cases b
  rfl

theorem ids_subset_cons (b : Branch) (bs : List Branch) : b.ids ⊆ idsAll (b :: bs) :=
  List.subset_append_left _ _

theorem idsAll_rest_subset (b : Branch) (bs : List Branch) : idsAll bs ⊆ idsAll (b :: bs) :=
  List.subset_append_right _ _

theorem idsAll_children_subset (b : Branch) (bs : List Branch) :
    idsAll b.children ⊆ idsAll (b :: bs) := by
  rw [idsAll_cons]
  exact fun id hid => List.mem_cons_of_mem _ (List.mem_append_left _ hid)

theorem Separate.not_mem_ids {b : Branch} {bs : List Branch} (h : b.Separate bs) {id : NodeId}
    (hid : id ∈ idsAll bs) : id ∉ b.ids := by
  rw [ids_eq]
  exact List.not_mem_cons_of_ne_of_not_mem (by rintro rfl; exact h.top_rest hid)
    fun hin => h.apart id hin hid

end Branch

variable {σ : Type} {v : Visitor σ} {t : Tree} {active : List NodeId} {bs : List Branch}
  {s s' : σ} {log : List (Call × σ)} {stop : Option Unsupported}

namespace Course

/-- Each call is about a branch within those that are walked over. -/
theorem ids_subset (h : Course v t active bs s log stop s') :
    ∀ call ∈ callsOf log, call.site.branch.ids ⊆ Branch.idsAll bs := by
  induction h with
  | nil => simp
  | refused => simp [Call.site]
  | @skipped active b bs _ _ _ _ _ _ _ ih =>
    simp only [callsOf_cons, List.forall_mem_cons, Call.site, Branch.branch_siteIn]
    exact ⟨b.ids_subset_cons bs, b.ids_subset_cons bs,
      fun call hcall => List.Subset.trans (ih call hcall) (b.idsAll_rest_subset bs)⟩
  | @through active b bs _ _ _ _ _ _ _ _ _ _ ihInside ihRest =>
    simp only [callsOf_cons, callsOf_append, List.forall_mem_cons, List.forall_mem_append,
      Call.site, Branch.branch_siteIn]
    exact ⟨b.ids_subset_cons bs,
      fun call hcall => List.Subset.trans (ihInside call hcall) (b.idsAll_children_subset bs),
      b.ids_subset_cons bs,
      fun call hcall => List.Subset.trans (ihRest call hcall) (b.idsAll_rest_subset bs)⟩
  | @broken active b bs _ _ _ _ _ _ _ ih =>
    simp only [callsOf_cons, List.forall_mem_cons, Call.site, Branch.branch_siteIn]
    exact ⟨b.ids_subset_cons bs,
      fun call hcall => List.Subset.trans (ih call hcall) (b.idsAll_children_subset bs)⟩

theorem id_mem (h : Course v t active bs s log stop s') {call : Call}
    (hcall : call ∈ callsOf log) : call.id ∈ Branch.idsAll bs :=
  h.ids_subset call hcall (Branch.id_mem_ids _)

/-- Each call shows the tree, and a branch that the tree holds. -/
theorem held (h : Course v t active bs s log stop s') (hheld : ∀ b ∈ bs, b.HeldBy t) :
    ∀ call ∈ callsOf log, call.site.tree = t ∧ call.site.branch.HeldBy t := by
  induction h with
  | nil => simp
  | refused => simpa [Call.site, Branch.siteIn] using hheld _ List.mem_cons_self
  | skipped _ _ ih =>
    obtain ⟨htop, hrest⟩ := List.forall_mem_cons.mp hheld
    simp only [callsOf_cons, List.forall_mem_cons, Call.site, Branch.siteIn, true_and]
    exact ⟨htop, htop, ih hrest⟩
  | through _ _ _ ihInside ihRest =>
    obtain ⟨htop, hrest⟩ := List.forall_mem_cons.mp hheld
    simp only [callsOf_cons, callsOf_append, List.forall_mem_cons, List.forall_mem_append,
      Call.site, Branch.siteIn, true_and]
    exact ⟨htop, ihInside htop.children, htop, ihRest hrest⟩
  | broken _ _ ih =>
    obtain ⟨htop, _⟩ := List.forall_mem_cons.mp hheld
    simp only [callsOf_cons, List.forall_mem_cons, Call.site, Branch.siteIn, true_and]
    exact ⟨htop, ih htop.children⟩

section Visits

theorem visits_sublist (h : Course v t active bs s log stop s') :
    (visits (callsOf log)).Sublist (Branch.idsAll bs) := by
  induction h with
  | nil => exact .slnil
  | refused =>
    rw [Branch.idsAll_cons]
    exact (List.nil_sublist _).cons_cons _
  | skipped _ _ ih =>
    rw [Branch.idsAll_cons]
    exact (List.sublist_append_of_sublist_right ih).cons_cons _
  | through _ _ _ ihInside ihRest =>
    rw [Branch.idsAll_cons]
    simpa using ihInside.append ihRest
  | broken _ _ ih =>
    rw [Branch.idsAll_cons]
    exact (List.sublist_append_of_sublist_left ih).cons_cons _

theorem visits_nodup (h : Course v t active bs s log stop s') (hfresh : Fresh active bs) :
    (visits (callsOf log)).Nodup :=
  h.visits_sublist.nodup hfresh.nodup

/-- A visitor that goes on at every visit is shown everything. -/
theorem visits_eq (h : Course v t active bs s log stop s')
    (hproceed : ∀ site answer, .visit site answer ∈ callsOf log → answer = .ok .proceed) :
    stop = none ∧ visits (callsOf log) = Branch.idsAll bs := by
  induction h with
  | nil => exact ⟨rfl, rfl⟩
  | refused | skipped =>
    have hanswer := hproceed _ _ List.mem_cons_self
    cases hanswer
  | through _ _ _ ihInside ihRest =>
    rw [callsOf_cons, callsOf_append, callsOf_cons] at hproceed
    have hin := ihInside fun site answer hmem => hproceed site answer
      (List.mem_cons_of_mem _ (List.mem_append_left _ hmem))
    have hafter := ihRest fun site answer hmem => hproceed site answer
      (List.mem_cons_of_mem _ (List.mem_append_right _ (List.mem_cons_of_mem _ hmem)))
    rw [Branch.idsAll_cons]
    simp [hin.2, hafter.1, hafter.2]
  | broken _ _ ih =>
    have hin := ih fun site answer hmem => hproceed site answer (List.mem_cons_of_mem _ hmem)
    exact absurd hin.1 (by simp)

end Visits

section Leaves

/-- No node is left without a visit, or more often than it was visited. -/
theorem leaves_subperm (h : Course v t active bs s log stop s') :
    (leaves (callsOf log)).Subperm (visits (callsOf log)) := by
  induction h with
  | nil => exact .refl _
  | refused => exact List.nil_subperm
  | skipped _ _ ih => exact (List.subperm_cons _).mpr ih
  | through _ _ _ ihInside ihRest =>
    simp only [callsOf_cons, callsOf_append, visits_visit, visits_leave, visits_append,
      leaves_visit, leaves_append, leaves_leave]
    exact List.perm_middle.subperm.trans ((List.subperm_cons _).mpr (ihInside.append ihRest))
  | broken _ _ ih => exact ih.trans (List.sublist_cons_self _ _).subperm

theorem leaves_nodup (h : Course v t active bs s log stop s') (hfresh : Fresh active bs) :
    (leaves (callsOf log)).Nodup := by
  obtain ⟨kept, hperm, hsub⟩ := h.leaves_subperm
  exact hperm.nodup_iff.mp (hsub.nodup (h.visits_nodup hfresh))

/-- When the walk comes to its end, every node visited has been left. -/
theorem leaves_perm (h : Course v t active bs s log none s') :
    (leaves (callsOf log)).Perm (visits (callsOf log)) := by
  generalize hstop : none = stop at h
  induction h with
  | nil => exact .refl _
  | refused | broken => cases hstop
  | skipped _ _ ih => simpa using ih hstop
  | through _ _ _ ihInside ihRest =>
    simp only [callsOf_cons, callsOf_append, visits_visit, visits_leave, visits_append,
      leaves_visit, leaves_append, leaves_leave]
    exact List.perm_middle.trans (((ihInside rfl).append (ihRest hstop)).cons _)

theorem openSites_eq_nil (h : Course v t active bs s log none s') :
    openSites (callsOf log) = [] := by
  rw [List.eq_nil_iff_forall_not_mem]
  intro site hsite
  obtain ⟨⟨flow, hvisit⟩, hopen⟩ := mem_openSites.mp hsite
  exact hopen (h.leaves_perm.mem_iff.mpr (mem_visits_of_mem _ _ hvisit))

/-- After a node has been left there is no call about what lies within it. -/
theorem left_last (h : Course v t active bs s log stop s') (hfresh : Fresh active bs) :
    (callsOf log).Pairwise fun call later =>
      ∀ site, call = .leave site → later.id ∉ site.branch.ids := by
  induction h with
  | nil => exact .nil
  | refused => simp
  | @skipped active b bs _ _ _ _ _ _ hrest ih =>
    have hseparate := Branch.separate_of_nodup hfresh.nodup
    refine .cons (by simp) (.cons ?_ (ih hfresh.rest))
    rintro later hlater _ ⟨⟩
    exact hseparate.not_mem_ids (hrest.id_mem hlater)
  | @through active b bs _ _ _ _ _ _ _ _ hinside hrest ihInside ihRest =>
    have hseparate := Branch.separate_of_nodup hfresh.nodup
    rw [callsOf_cons, callsOf_append, callsOf_cons]
    refine .cons (by simp) (List.pairwise_append.mpr ⟨ihInside hfresh.inside, ?_, ?_⟩)
    · refine .cons ?_ (ihRest hfresh.rest)
      rintro later hlater _ ⟨⟩
      exact hseparate.not_mem_ids (hrest.id_mem hlater)
    · rintro call hcall later hlater site rfl hin
      have hid := hinside.ids_subset _ hcall hin
      rcases List.mem_cons.mp hlater with rfl | hlater
      · exact hseparate.top_inside hid
      · exact hseparate.apart _ hid (hrest.id_mem hlater)
  | broken _ _ ih => exact .cons (by simp) (ih hfresh.inside)

end Leaves

end Course

section Splits

variable {α : Type} {x y : α} {xs ys before after : List α}

/-- An entry of two lists in a row is one of the first or one of the second. -/
theorem split_append (h : xs ++ ys = before ++ x :: after) :
    (∃ rest, xs = before ++ x :: rest ∧ after = rest ++ ys) ∨
      ∃ rest, before = xs ++ rest ∧ ys = rest ++ x :: after := by
  rcases List.append_eq_append_iff.mp h with ⟨rest, rfl, hrest⟩ | ⟨rest, rfl, hrest⟩
  · exact Or.inr ⟨rest, rfl, hrest⟩
  · cases rest with
    | nil => exact Or.inr ⟨[], by simp, hrest.symm⟩
    | cons first rest =>
      obtain ⟨rfl, rfl⟩ := List.cons.inj hrest
      exact Or.inl ⟨rest, rfl, rfl⟩

theorem split_cons (h : y :: xs = before ++ x :: after) :
    (before = [] ∧ x = y ∧ after = xs) ∨ ∃ rest, before = y :: rest ∧ xs = rest ++ x :: after := by
  cases before with
  | nil =>
    obtain ⟨rfl, rfl⟩ := List.cons.inj h
    exact Or.inl ⟨rfl, rfl, rfl⟩
  | cons other rest =>
    obtain ⟨rfl, hrest⟩ := List.cons.inj h
    exact Or.inr ⟨rest, rfl, hrest⟩

end Splits

/-- All the nodes have been visited and left. -/
def Passed (ids : List NodeId) (calls : List Call) : Prop :=
  ∀ id ∈ ids, id ∈ visits calls ∧ id ∈ leaves calls

/-- It is the turn of the node: its parent has been entered, and what comes before the node among
the children has been visited and left. -/
def TurnOf (t : Tree) (id : NodeId) (calls : List Call) : Prop :=
  ∃ parent earlier later, t.parent? id = some parent ∧
    t.children parent = earlier ++ id :: later ∧
    (∃ site, site.id = parent ∧ .visit site (.ok .proceed) ∈ calls) ∧ Passed earlier calls

theorem Passed.prepend {ids : List NodeId} {calls : List Call} (h : Passed ids calls)
    (prior : List Call) : Passed ids (prior ++ calls) := by
  intro id hid
  obtain ⟨hvisit, hleave⟩ := h id hid
  simp [hvisit, hleave]

theorem TurnOf.prepend {id : NodeId} {calls : List Call} (h : TurnOf t id calls)
    (prior : List Call) : TurnOf t id (prior ++ calls) := by
  obtain ⟨parent, earlier, later, hparent, hchildren, ⟨site, hsite, hvisit⟩, hpassed⟩ := h
  exact ⟨parent, earlier, later, hparent, hchildren,
    ⟨site, hsite, List.mem_append_right prior hvisit⟩, hpassed.prepend prior⟩

/-- A node is visited when it is its turn, or when the branches before its own have been passed. -/
def Timely (t : Tree) (bs : List Branch) (id : NodeId) (calls : List Call) : Prop :=
  (∃ earlier b later, bs = earlier ++ b :: later ∧ b.id = id ∧
    Passed (earlier.map Branch.id) calls) ∨ TurnOf t id calls

namespace Timely

variable {b : Branch} {id : NodeId} {calls : List Call}

theorem top : Timely t (b :: bs) b.id [] :=
  Or.inl ⟨[], b, bs, rfl, rfl, fun _ hid => absurd hid List.not_mem_nil⟩

theorem rest (h : Timely t bs id calls) (prior : List Call) (hb : Passed [b.id] prior) :
    Timely t (b :: bs) id (prior ++ calls) := by
  rcases h with ⟨earlier, c, later, rfl, rfl, hpassed⟩ | hturn
  · refine Or.inl ⟨b :: earlier, c, later, rfl, rfl, List.forall_mem_cons.mpr ⟨?_, ?_⟩⟩
    · obtain ⟨hvisit, hleave⟩ := hb b.id List.mem_cons_self
      simp [hvisit, hleave]
    · exact hpassed.prepend prior
  · exact Or.inr (hturn.prepend prior)

theorem inside (hwf : t.WellFormed) (held : b.HeldBy t) (h : Timely t b.children id calls) :
    Timely t (b :: bs) id (.visit (b.siteIn t active) (.ok .proceed) :: calls) := by
  refine Or.inr ?_
  rcases h with ⟨earlier, c, later, hchildren, rfl, hpassed⟩ | hturn
  · have hplace : t.children b.id = earlier.map Branch.id ++ c.id :: later.map Branch.id := by
      simp [held.children_eq, hchildren]
    have hparent : t.parent? c.id = some b.id := hwf.parent_iff.mpr (by simp [hplace])
    exact ⟨b.id, _, _, hparent, hplace, ⟨_, rfl, List.mem_cons_self⟩,
      hpassed.prepend [.visit (b.siteIn t active) (.ok .proceed)]⟩
  · exact hturn.prepend [.visit (b.siteIn t active) (.ok .proceed)]

end Timely

/-- Every visit comes in time. -/
theorem Course.timely (h : Course v t active bs s log stop s') (hwf : t.WellFormed)
    (hheld : ∀ b ∈ bs, b.HeldBy t) {before after : List Call} {site : Site}
    {answer : Except Unsupported Flow}
    (hcalls : callsOf log = before ++ .visit site answer :: after) :
    Timely t bs site.id before := by
  induction h generalizing before after with
  | nil => simp at hcalls
  | refused =>
    rcases split_cons hcalls with ⟨rfl, hcall, _⟩ | ⟨_, _, hnone⟩
    · cases hcall
      exact Timely.top
    · simp at hnone
  | @skipped active b bs _ _ _ _ _ _ _ ih =>
    obtain ⟨_, hrestHeld⟩ := List.forall_mem_cons.mp hheld
    rw [callsOf_cons, callsOf_cons] at hcalls
    rcases split_cons hcalls with ⟨rfl, hcall, _⟩ | ⟨_, rfl, hnext⟩
    · cases hcall
      exact Timely.top
    rcases split_cons hnext with ⟨_, hcall, _⟩ | ⟨_, rfl, hrest⟩
    · cases hcall
    · exact (ih hrestHeld hrest).rest [.visit (b.siteIn t active) (.ok .skipChildren),
        .leave (b.siteIn t active)] (by simp [Passed])
  | @through active b bs _ _ _ _ inside _ _ _ _ _ ihInside ihRest =>
    obtain ⟨hbHeld, hrestHeld⟩ := List.forall_mem_cons.mp hheld
    rw [callsOf_cons, callsOf_append, callsOf_cons] at hcalls
    rcases split_cons hcalls with ⟨rfl, hcall, _⟩ | ⟨_, rfl, hboth⟩
    · cases hcall
      exact Timely.top
    rcases split_append hboth with ⟨_, hin, _⟩ | ⟨_, rfl, hnext⟩
    · exact (ihInside hbHeld.children hin).inside hwf hbHeld
    rcases split_cons hnext with ⟨_, hcall, _⟩ | ⟨_, rfl, hrest⟩
    · cases hcall
    · have htimely := (ihRest hrestHeld hrest).rest (b := b)
        (.visit (b.siteIn t active) (.ok .proceed) ::
          (callsOf inside ++ [.leave (b.siteIn t active)])) (by simp [Passed])
      simpa using htimely
  | broken _ _ ih =>
    obtain ⟨hbHeld, _⟩ := List.forall_mem_cons.mp hheld
    rcases split_cons hcalls with ⟨rfl, hcall, _⟩ | ⟨_, rfl, hin⟩
    · cases hcall
      exact Timely.top
    · exact (ih hbHeld.children hin).inside hwf hbHeld

end ProgramTree
