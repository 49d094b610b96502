import ProgramTree.Proofs.Tree.Runs
import ProgramTree.Proofs.Walk.Order

/-! # What a walk promises its visitor

Over a tree that a run of operations led to, a walk from a live node shows each
node at most once and in its turn. Either the visitor refuses a node, which ends
the walk with the nodes above it still entered, or everything is shown that it
did not choose to skip, and left again. -/

namespace ProgramTree

set_option autoImplicit false

/-- The visitor went on to the children of a node, and this is one of them. -/
def Wanted (t : Tree) (id : NodeId) (calls : List Call) : Prop :=
  ∃ site, .visit site (.ok .proceed) ∈ calls ∧ id ∈ t.children site.id

section Wanted

variable {t : Tree} {id : NodeId} {site : Site} {calls calls' : List Call}

@[simp] theorem not_wanted_nil : ¬ Wanted t id [] := by
  simp [Wanted]

@[simp] theorem wanted_leave : Wanted t id (.leave site :: calls) ↔ Wanted t id calls := by
  simp [Wanted]

@[simp] theorem wanted_skipped :
    Wanted t id (.visit site (.ok .skipChildren) :: calls) ↔ Wanted t id calls := by
  simp [Wanted]

@[simp] theorem wanted_proceed :
    Wanted t id (.visit site (.ok .proceed) :: calls) ↔
      id ∈ t.children site.id ∨ Wanted t id calls := by
  simp [Wanted, or_and_right, exists_or]

@[simp] theorem wanted_append :
    Wanted t id (calls ++ calls') ↔ Wanted t id calls ∨ Wanted t id calls' := by
  simp [Wanted, or_and_right, exists_or]

end Wanted

/-- The calls end with the refusal of a node, and the nodes that this one lies within are just
those that were visited and not left. -/
structure Refused (t : Tree) (site : Site) (refusal : Unsupported) (calls : List Call) : Prop where
  ends : ∃ before, calls = before ++ [.visit site (.error refusal)] ∧
    ∀ call ∈ before, call.fails = false
  left_iff : ∀ id ∈ visits calls, id ∈ leaves calls ↔ ¬ t.Within site.id id

namespace Refused

variable {t : Tree} {site : Site} {refusal : Unsupported} {calls : List Call}

theorem visit_mem (h : Refused t site refusal calls) : .visit site (.error refusal) ∈ calls := by
  obtain ⟨before, rfl, _⟩ := h.ends
  simp

/-- The calls before, by which all nodes were left that do not lie around the refused one. -/
theorem prepend (h : Refused t site refusal calls) (prior : List Call)
    (hfails : ∀ call ∈ prior, call.fails = false)
    (hprior : ∀ id ∈ visits prior, id ∈ leaves (prior ++ calls) ↔ ¬ t.Within site.id id)
    (hcalls : ∀ id ∈ visits calls, id ∉ leaves prior) :
    Refused t site refusal (prior ++ calls) where
  ends := by
    obtain ⟨before, rfl, hbefore⟩ := h.ends
    exact ⟨prior ++ before, by simp, List.forall_mem_append.mpr ⟨hfails, hbefore⟩⟩
  left_iff := by
    intro id hid
    rw [visits_append, List.mem_append] at hid
    rcases hid with hid | hid
    · exact hprior id hid
    · rw [← h.left_iff id hid, leaves_append, List.mem_append]
      exact or_iff_right (hcalls id hid)

variable {b : Branch} (held : b.HeldBy t) (hwf : t.WellFormed)
include held hwf

theorem rest {bs : List Branch} (h : Refused t site refusal calls) (hseparate : b.Separate bs)
    (hrest : visits calls ⊆ Branch.idsAll bs) (prior : List Call)
    (hfails : ∀ call ∈ prior, call.fails = false) (hleft : (leaves prior).Perm (visits prior))
    (hinside : visits prior ⊆ b.ids) : Refused t site refusal (prior ++ calls) := by
  have hsite : site.id ∈ Branch.idsAll bs := hrest (mem_visits_of_mem _ _ h.visit_mem)
  refine h.prepend prior hfails ?_ ?_
  · intro id hid
    have hw := (hwf.mem_ids_iff held id).mp (hinside hid)
    have hout : ¬ t.Within site.id id := fun hsw =>
      hseparate.not_mem_ids hsite ((hwf.mem_ids_iff held site.id).mpr (hsw.trans hw))
    simp [hout, hleft.mem_iff.mpr hid]
  · intro id hid hprior
    exact hseparate.not_mem_ids (hrest hid) (hinside (hleft.subset hprior))

theorem inside {active : List NodeId} (h : Refused t site refusal calls)
    (hinside : visits calls ⊆ Branch.idsAll b.children) (hleft : b.id ∉ leaves calls) :
    Refused t site refusal (.visit (b.siteIn t active) (.ok .proceed) :: calls) := by
  have hsite : site.id ∈ b.ids := by
    rw [Branch.ids_eq]
    exact List.mem_cons_of_mem _ (hinside (mem_visits_of_mem _ _ h.visit_mem))
  have hw := (hwf.mem_ids_iff held site.id).mp hsite
  exact h.prepend [.visit (b.siteIn t active) (.ok .proceed)] (by simp [Call.fails])
    (by simpa [hleft] using hw) (by simp)

end Refused

namespace Course

variable {σ : Type} {v : Visitor σ} {t : Tree} {active : List NodeId} {bs : List Branch}
  {s s' : σ} {log : List (Call × σ)} {stop : Option Unsupported}

theorem none_fails (h : Course v t active bs s log none s') :
    ∀ call ∈ callsOf log, call.fails = false := by
  generalize hstop : none = stop at h
  induction h with
  | nil => simp
  | refused | broken => cases hstop
  | skipped _ _ ih =>
    simp only [callsOf_cons, List.forall_mem_cons]
    exact ⟨rfl, rfl, ih hstop⟩
  | through _ _ _ ihInside ihRest =>
    simp only [callsOf_cons, callsOf_append, List.forall_mem_cons, List.forall_mem_append]
    exact ⟨rfl, ihInside rfl, rfl, ihRest hstop⟩

/-- A call that others come after has not failed. -/
theorem fails_last (h : Course v t active bs s log stop s') :
    (callsOf log).Pairwise fun call _ => call.fails = false := by
  induction h with
  | nil => exact .nil
  | refused => exact List.pairwise_singleton _ _
  | skipped _ _ ih => exact .cons (fun _ _ => rfl) (.cons (fun _ _ => rfl) ih)
  | through _ hinside _ ihInside ihRest =>
    rw [callsOf_cons, callsOf_append, callsOf_cons]
    refine .cons (fun _ _ => rfl) (List.pairwise_append.mpr
      ⟨ihInside, .cons (fun _ _ => rfl) ihRest, ?_⟩)
    intro call hcall _ _
    exact hinside.none_fails call hcall
  | broken _ _ ih => exact .cons (fun _ _ => rfl) ih

/-- What is visited when nothing is refused: the branches themselves, and the children that the
visitor asked for. -/
theorem mem_visits_iff (h : Course v t active bs s log none s') (hheld : ∀ b ∈ bs, b.HeldBy t)
    (id : NodeId) :
    id ∈ visits (callsOf log) ↔ id ∈ bs.map Branch.id ∨ Wanted t id (callsOf log) := by
  generalize hstop : none = stop at h
  induction h with
  | nil => simp
  | refused | broken => cases hstop
  | skipped _ _ ih =>
    obtain ⟨_, hrest⟩ := List.forall_mem_cons.mp hheld
    simp [ih hrest hstop, or_assoc]
  | @through active b bs _ _ _ _ _ _ _ _ _ _ ihInside ihRest =>
    obtain ⟨htop, hrest⟩ := List.forall_mem_cons.mp hheld
    simp only [callsOf_cons, callsOf_append, visits_visit, visits_append, visits_leave,
      List.mem_cons, List.mem_append, ihInside htop.children rfl, ihRest hrest hstop,
      wanted_proceed, wanted_append, wanted_leave, List.map_cons, Branch.id_siteIn,
      htop.children_eq]
    grind

/-- A refusal ends the calls, and only the nodes on the way down to the refused one have not been
left. -/
theorem refusedAt (h : Course v t active bs s log stop s') (hwf : t.WellFormed)
    (hheld : ∀ b ∈ bs, b.HeldBy t) (hfresh : Fresh active bs) {refusal : Unsupported}
    (hstop : stop = some refusal) : ∃ site, Refused t site refusal (callsOf log) := by
  induction h with
  | nil => cases hstop
  | @refused active b bs _ _ _ _ =>
    cases hstop
    refine ⟨b.siteIn t active, ⟨[], rfl, by simp⟩, ?_⟩
    simp [Tree.Within.refl]
  | @skipped active b bs _ _ _ _ _ _ hrest ih =>
    obtain ⟨hb, hbs⟩ := List.forall_mem_cons.mp hheld
    obtain ⟨site, h⟩ := ih hbs hfresh.rest hstop
    exact ⟨site, h.rest hb hwf (Branch.separate_of_nodup hfresh.nodup) hrest.visits_sublist.subset
      [.visit (b.siteIn t active) (.ok .skipChildren), .leave (b.siteIn t active)]
      (by simp [Call.fails]) (by simp) (by simp [Branch.id_mem_ids])⟩
  | @through active b bs _ _ _ _ inside _ _ _ hinside hrest _ ihRest =>
    obtain ⟨hb, hbs⟩ := List.forall_mem_cons.mp hheld
    obtain ⟨site, h⟩ := ihRest hbs hfresh.rest hstop
    have hcalls := h.rest hb hwf (Branch.separate_of_nodup hfresh.nodup)
      hrest.visits_sublist.subset (.visit (b.siteIn t active) (.ok .proceed) ::
        (callsOf inside ++ [.leave (b.siteIn t active)])) ?_ ?_ ?_
    · exact ⟨site, by simpa using hcalls⟩
    · exact List.forall_mem_cons.mpr ⟨rfl, List.forall_mem_append.mpr
        ⟨hinside.none_fails, by simp [Call.fails]⟩⟩
    · simpa using (List.perm_append_singleton _ _).trans (hinside.leaves_perm.cons b.id)
    · rw [Branch.ids_eq]
      simpa using List.cons_subset_cons b.id hinside.visits_sublist.subset
  | @broken active b bs _ _ _ _ _ _ hinside ih =>
    obtain ⟨hb, _⟩ := List.forall_mem_cons.mp hheld
    obtain ⟨site, h⟩ := ih hb.children hfresh.inside hstop
    have hsub := hinside.visits_sublist.subset
    refine ⟨site, h.inside hb hwf hsub fun hleft => ?_⟩
    exact (Branch.separate_of_nodup hfresh.nodup).top_inside
      (hsub (hinside.leaves_subperm.subset hleft))

end Course

/-- What holds of the calls whatever the visitor answers: each node is shown as it is, visited at
most once and in its turn, and left at most once, after all that lies within it. -/
structure InOrder (t : Tree) (start : NodeId) (calls : List Call) : Prop where
  shown : ∀ call ∈ calls, call.site.tree = t ∧ t.branch? call.id = some call.site.branch
  once : (visits calls).Nodup
  in_turn : ∀ before site answer after, calls = before ++ .visit site answer :: after →
    site.id = start ∨ TurnOf t site.id before
  left_visited : leaves calls ⊆ visits calls
  left_once : (leaves calls).Nodup
  left_last : ∀ before site after, calls = before ++ .leave site :: after →
    ∀ call ∈ after, ¬ t.Within call.id site.id

/-- The calls of a walk that came to its end, and their numbers. -/
structure Completed (t : Tree) (start : NodeId) (calls : List Call) (total : WalkSummary) :
    Prop where
  none_fails : ∀ call ∈ calls, call.fails = false
  visited_iff : ∀ id, id ∈ visits calls ↔ id = start ∨ Wanted t id calls
  left_once : ∀ id ∈ visits calls, (leaves calls).count id = 1
  visited : total.visited = (visits calls).length
  skipped : total.skipped = calls.countP Call.skips

section Single

variable {σ : Type} {v : Visitor σ} {t : Tree} {active : List NodeId} {b : Branch}
  {s s' : σ} {log : List (Call × σ)} {stop : Option Unsupported}
  (hwf : t.WellFormed) (held : b.HeldBy t) (hfresh : Fresh active [b])
include hwf held hfresh

theorem Course.inOrder (h : Course v t active [b] s log stop s') :
    InOrder t b.id (callsOf log) where
  shown := by
    intro call hcall
    obtain ⟨htree, hbranch⟩ := h.held (by simpa using held) call hcall
    exact ⟨htree, hwf.branch?_of_heldBy hbranch⟩
  once := h.visits_nodup hfresh
  in_turn := by
    intro before site answer after hcalls
    rcases h.timely hwf (by simpa using held) hcalls with
      ⟨earlier, c, later, hsplit, hid, _⟩ | hturn
    · have hc : c ∈ [b] := by simp [hsplit]
      exact Or.inl (by rw [← hid, List.mem_singleton.mp hc])
    · exact Or.inr hturn
  left_visited := h.leaves_subperm.subset
  left_once := h.leaves_nodup hfresh
  left_last := by
    intro before site after hcalls call hcall hw
    have hlast := h.left_last hfresh
    rw [hcalls] at hlast
    have hafter := (List.pairwise_append.mp hlast).2.1
    have hout := (List.pairwise_cons.mp hafter).1 call hcall site rfl
    obtain ⟨_, hbranch⟩ := h.held (by simpa using held) (.leave site) (by simp [hcalls])
    exact hout ((hwf.mem_ids_iff hbranch call.id).mpr hw)

omit hwf in
theorem Course.completed (h : Course v t active [b] s log none s') :
    Completed t b.id (callsOf log) (WalkSummary.after ⟨0, 0⟩ (callsOf log)) where
  none_fails := h.none_fails
  visited_iff := by simpa using h.mem_visits_iff (by simpa using held)
  left_once := by
    intro id hid
    exact List.count_eq_one_of_mem (h.leaves_nodup hfresh) (h.leaves_perm.mem_iff.mpr hid)
  visited := by simp [WalkSummary.after]
  skipped := by simp [WalkSummary.after]

end Single

/-- What a walk promises. It answers with a summary or with the refusal of the visitor, and ends
with no node in progress; a visitor that notes its calls finds them in order, and complete unless
it refused a node; and if it always went on, it was shown just what lies within the start. -/
theorem Tree.walkFrom_contract {σ : Type} {t : Tree} (h : t.Reachable) {start : NodeId}
    (hlive : t.contains start = true) (v : Visitor σ) (s : σ) :
    ∃ answer summary s' log,
      t.walkFrom [] start v s = (answer, ⟨[], summary, s'⟩) ∧
      t.walkFrom [] start v.logged (s, []) = (answer, ⟨[], summary, (s', log)⟩) ∧
      InOrder t start (callsOf log) ∧
      ((∃ total, answer = .ok total ∧ Completed t start (callsOf log) total) ∨
        ∃ refusal site, answer = .error (.unsupported refusal) ∧
          Refused t site refusal (callsOf log)) ∧
      ((∀ site reply, .visit site reply ∈ callsOf log → reply = .ok .proceed) →
        (∃ total, answer = .ok total) ∧ (∀ id, id ∈ visits (callsOf log) ↔ t.isWithin id start) ∧
        ∃ snapshot, t.snapshot? start = some snapshot ∧
          (visits (callsOf log)).length = snapshot.size) := by
  have hwf := h.wellFormed
  obtain ⟨b, hb, rfl, held, hfresh⟩ := hwf.exists_fresh hlive (List.forall_mem_nil _)
  obtain ⟨log, stop, s', hcourse⟩ := Course.walkable v t [b] [] s
  refine ⟨_, _, s', log, hcourse.walkFrom hb hfresh, hcourse.walkFrom_logged hb hfresh,
    hcourse.inOrder hwf held hfresh, ?_, ?_⟩
  · cases stop with
    | none => exact Or.inl ⟨_, rfl, hcourse.completed held hfresh⟩
    | some refusal =>
      obtain ⟨site, hrefused⟩ := hcourse.refusedAt hwf (by simpa using held) hfresh rfl
      exact Or.inr ⟨refusal, site, rfl, hrefused⟩
  · intro hproceed
    obtain ⟨rfl, hvisits⟩ := hcourse.visits_eq hproceed
    refine ⟨⟨_, rfl⟩, ?_, b.snapshot, by simp [Tree.snapshot?, hb], ?_⟩
    · intro id
      rw [hvisits, Tree.isWithin_iff hwf, ← hwf.mem_ids_iff held]
      simp
    · rw [hvisits, Branch.length_idsAll]
      simp [Branch.snapshots, Snapshot.sizeAll]

/-- A function whose statement is not shown, since the visitor skips what is in functions. -/
theorem Tree.walk_above_skipped :
    ∃ (t : Tree) (log : List (Call × List NodeId)), t.Reachable ∧ t.contains ⟨0, 0⟩ = true ∧
      t.walkFrom [] ⟨0, 0⟩ (preorder [.function]) [] =
        (.ok ⟨2, 1⟩, ⟨[], ⟨2, 1⟩, [⟨0, 0⟩, ⟨1, 0⟩]⟩) ∧
      t.walkFrom [] ⟨0, 0⟩ (preorder [.function]).logged ([], []) =
        (.ok ⟨2, 1⟩, ⟨[], ⟨2, 1⟩, ([⟨0, 0⟩, ⟨1, 0⟩], log)⟩) ∧
      Completed t ⟨0, 0⟩ (callsOf log) ⟨2, 1⟩ := by
  obtain ⟨t, ht, hreach⟩ : ∃ t : Tree, t = ((((new none).after
      (.create (.function "f" [] []))).after (.create .breakStatement)).after
      (.appendChild ⟨0, 0⟩ ⟨1, 0⟩)).after (.appendChild ⟨1, 0⟩ ⟨2, 0⟩) ∧ t.Reachable :=
    ⟨_, rfl, .after _ (fun _ _ => trivial) (.after _ (fun _ _ => trivial) (.after _
      (fun _ _ => trivial) (.after _ (fun _ _ => trivial) (.new none trivial))))⟩
  have hlive : t.contains ⟨0, 0⟩ = true := by rw [ht]; rfl
  have hrun : t.walkFrom [] ⟨0, 0⟩ (preorder [.function]) [] =
    (.ok ⟨2, 1⟩, ⟨[], ⟨2, 1⟩, [⟨0, 0⟩, ⟨1, 0⟩]⟩) := by rw [ht]; rfl
  obtain ⟨answer, summary, s', log, hwalk, hlogged, _, hend, _⟩ :=
    walkFrom_contract hreach hlive (preorder [.function]) []
  obtain ⟨rfl, hstate⟩ := Prod.mk.inj (hwalk.symm.trans hrun)
  cases hstate
  refine ⟨t, log, hreach, hlive, hrun, hlogged, ?_⟩
  rcases hend with ⟨total, htotal, hcompleted⟩ | ⟨_, _, herror, _⟩
  · cases htotal
    exact hcompleted
  · cases herror

end ProgramTree
