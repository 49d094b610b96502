import ProgramTree.Proofs.Walk.Cancelled

/-! # What a cancelled visitor is shown

The calls that a wrapped visitor gets are read off the log of the walk with the
visitor alone: they are its beginning, closed by a leave of each node that is
open there. So they are balanced whenever the walk comes to its end. -/

namespace ProgramTree

set_option autoImplicit false

variable {σ τ : Type}

/-- The log up to the first call that leaves the visitor cancelled. -/
def untilCancelled (isCancelled : σ → Bool) : List (Call × σ) → List (Call × σ)
  | [] => []
  | entry :: log => entry :: if isCancelled entry.2 then [] else untilCancelled isCancelled log

/-- What a visitor is shown, of all that is in the log, before it is cancelled. -/
def shown (isCancelled : σ → Bool) (s : σ) (log : List (Call × σ)) : List (Call × σ) :=
  if isCancelled s then [] else untilCancelled isCancelled log

/-- Either no call leaves the visitor cancelled, or there is a first one that does. -/
theorem untilCancelled_cases (isCancelled : σ → Bool) (log : List (Call × σ)) :
    ((∀ entry ∈ log, isCancelled entry.2 = false) ∧ untilCancelled isCancelled log = log) ∨
      ∃ before call s₁ after, log = before ++ (call, s₁) :: after ∧
        (∀ entry ∈ before, isCancelled entry.2 = false) ∧ isCancelled s₁ = true ∧
        untilCancelled isCancelled log = before ++ [(call, s₁)] := by
  induction log with
  | nil => exact Or.inl ⟨by simp, rfl⟩
  | cons entry log ih =>
    cases hentry : isCancelled entry.2 with
    | true =>
      refine Or.inr ⟨[], entry.1, entry.2, log, rfl, by simp, hentry, ?_⟩
      simp [untilCancelled, hentry]
    | false =>
      rcases ih with ⟨hnever, hsame⟩ | ⟨before, call, s₁, after, rfl, hbefore, hcancelled, hcut⟩
      · refine Or.inl ⟨List.forall_mem_cons.mpr ⟨hentry, hnever⟩, ?_⟩
        simp [untilCancelled, hentry, hsame]
      · refine Or.inr ⟨entry :: before, call, s₁, after, rfl,
          List.forall_mem_cons.mpr ⟨hentry, hbefore⟩, hcancelled, ?_⟩
        simp [untilCancelled, hentry, hcut]

theorem exists_shown_append (isCancelled : σ → Bool) (s : σ) (log : List (Call × σ)) :
    ∃ later, log = shown isCancelled s log ++ later := by
  cases hs : isCancelled s with
  | true => exact ⟨log, by simp [shown, hs]⟩
  | false =>
    rcases untilCancelled_cases isCancelled log with
      ⟨_, hcut⟩ | ⟨before, call, s₁, after, hlog, _, _, hcut⟩
    · exact ⟨[], by simp [shown, hs, hcut]⟩
    · refine ⟨after, ?_⟩
      simp only [shown, hs, hcut]
      simpa using hlog

/-- The calls that close the given ones: a leave of each open node, innermost first, unless the
last of them failed. -/
def closingCalls (calls : List Call) : List Call :=
  if calls.any Call.fails then [] else (openSites calls).map .leave

/-- Every node visited has been left once, and none but those. -/
structure Balanced (calls : List Call) : Prop where
  left_once : ∀ id ∈ visits calls, (leaves calls).count id = 1
  left_visited : leaves calls ⊆ visits calls

section Closing

variable {calls : List Call}

@[simp] theorem visits_map_leave (sites : List Site) : visits (sites.map .leave) = [] := by
  induction sites with
  | nil => rfl
  | cons site sites ih => exact ih

@[simp] theorem leaves_map_leave (sites : List Site) :
    leaves (sites.map .leave) = sites.map Site.id := by
  induction sites with
  | nil => rfl
  | cons site sites ih => exact congrArg (site.id :: ·) ih

theorem map_id_entered (hfails : ∀ call ∈ calls, call.fails = false) :
    (calls.filterMap Call.entered?).map Site.id = visits calls := by
  induction calls with
  | nil => rfl
  | cons call calls ih =>
    obtain ⟨hcall, hcalls⟩ := List.forall_mem_cons.mp hfails
    rcases call with ⟨site, _ | flow⟩ | site
    · cases hcall
    · exact congrArg (site.id :: ·) (ih hcalls)
    · exact ih hcalls

theorem perm_of_closing (hfails : ∀ call ∈ calls, call.fails = false)
    (hvisits : (visits calls).Nodup) (hleaves : (leaves calls).Nodup)
    (hsub : leaves calls ⊆ visits calls) :
    (leaves calls ++ (openSites calls).map Site.id).Perm (visits calls) := by
  have hopen : ((openSites calls).map Site.id).Sublist (visits calls).reverse := by
    rw [← map_id_entered hfails, ← List.map_reverse]
    exact List.filter_sublist.map Site.id
  have hnodup : (leaves calls ++ (openSites calls).map Site.id).Nodup := by
    refine List.nodup_append'.mpr ⟨hleaves, hopen.nodup (List.nodup_reverse.mpr hvisits), ?_⟩
    intro id hleft hmem
    obtain ⟨site, hsite, rfl⟩ := List.mem_map.mp hmem
    exact (mem_openSites.mp hsite).2 hleft
  rw [List.perm_ext_iff_of_nodup hnodup hvisits]
  intro id
  rw [List.mem_append]
  constructor
  · rintro (hleft | hmem)
    · exact hsub hleft
    · exact List.mem_reverse.mp (hopen.subset hmem)
  · intro hvisit
    by_cases hleft : id ∈ leaves calls
    · exact Or.inl hleft
    · rw [← map_id_entered hfails] at hvisit
      obtain ⟨site, hsite, rfl⟩ := List.mem_map.mp hvisit
      exact Or.inr (List.mem_map_of_mem (mem_openSites.mpr ⟨mem_entered.mp hsite, hleft⟩))

end Closing

theorem closingCalls_of_none_fails {calls : List Call}
    (hfails : ∀ call ∈ calls, call.fails = false) :
    closingCalls calls = (openSites calls).map .leave := by
  have hany : calls.any Call.fails = false := by simpa using hfails
  simp [closingCalls, hany]

section Beginnings

variable {v : Visitor σ} {t : Tree} {active : List NodeId} {bs : List Branch} {s s' : σ}
  {log : List (Call × σ)} {stop : Option Unsupported} {calls later : List Call}

/-- At no time has a node been left without a visit. -/
theorem Course.leaves_subset_of_append (h : Course v t active bs s log stop s')
    (hfresh : Fresh active bs) (hcalls : callsOf log = calls ++ later) :
    leaves calls ⊆ visits calls := by
  intro id hid
  obtain ⟨site, rfl, hleave⟩ := exists_of_mem_leaves _ hid
  have hvisit : site.id ∈ visits (callsOf log) := by
    apply h.leaves_subperm.subset
    rw [hcalls, leaves_append]
    exact List.mem_append_left _ hid
  rw [hcalls, visits_append] at hvisit
  rcases List.mem_append.mp hvisit with hvisit | hvisit
  · exact hvisit
  · obtain ⟨call, hcall, hsame⟩ := exists_of_mem_visits _ hvisit
    have hlast := h.left_last hfresh
    rw [hcalls] at hlast
    have hout := (List.pairwise_append.mp hlast).2.2 _ hleave call hcall site rfl
    rw [hsame] at hout
    exact absurd (Branch.id_mem_ids site.branch) hout

/-- The beginning of a course, once it is closed, is balanced. -/
theorem Course.balanced (h : Course v t active bs s log stop s') (hfresh : Fresh active bs)
    (hcalls : callsOf log = calls ++ later) (hfails : ∀ call ∈ calls, call.fails = false) :
    Balanced (calls ++ closingCalls calls) := by
  have hvisits : (visits calls).Nodup := by
    have hall := h.visits_nodup hfresh
    rw [hcalls, visits_append] at hall
    exact hall.of_append_left
  have hleaves : (leaves calls).Nodup := by
    have hall := h.leaves_nodup hfresh
    rw [hcalls, leaves_append] at hall
    exact hall.of_append_left
  have hperm := perm_of_closing hfails hvisits hleaves (h.leaves_subset_of_append hfresh hcalls)
  rw [closingCalls_of_none_fails hfails]
  constructor
  · intro id hid
    rw [visits_append, visits_map_leave, List.append_nil] at hid
    rw [leaves_append, leaves_map_leave, hperm.count_eq, List.count_eq_one_of_mem hvisits hid]
  · rw [leaves_append, leaves_map_leave, visits_append, visits_map_leave, List.append_nil]
    exact hperm.subset

/-- All the calls of a course leave nothing to close. -/
theorem Course.closingCalls_eq_nil (h : Course v t active bs s log stop s') (hwf : t.WellFormed)
    (hheld : ∀ b ∈ bs, b.HeldBy t) (hfresh : Fresh active bs) :
    closingCalls (callsOf log) = [] := by
  cases stop with
  | none => rw [closingCalls_of_none_fails h.none_fails, h.openSites_eq_nil, List.map_nil]
  | some refusal =>
    obtain ⟨site, hrefused⟩ := h.refusedAt hwf hheld hfresh rfl
    exact if_pos (List.any_eq_true.mpr ⟨_, hrefused.visit_mem, rfl⟩)

end Beginnings

section Logs

variable {v : Visitor σ} {w : Visitor τ} {t : Tree} {active : List NodeId} {bs : List Branch}

/-- A visitor that does as another one does, seen through a map of states, goes through the same
course. -/
theorem Course.project {f : τ → σ}
    (hvisit : ∀ site x, v.visit site (f x) = ((w.visit site x).1, f (w.visit site x).2))
    (hleave : ∀ site x, v.leave site (f x) = f (w.leave site x)) {x x' : τ}
    {log : List (Call × τ)} {stop : Option Unsupported} (h : Course w t active bs x log stop x') :
    ∃ log', Course v t active bs (f x) log' stop (f x') ∧ callsOf log' = callsOf log := by
  induction h with
  | nil => exact ⟨_, .nil, rfl⟩
  | refused hw => exact ⟨_, .refused (by rw [hvisit, hw]), rfl⟩
  | skipped hw _ ih =>
    obtain ⟨log', hrest, hcalls⟩ := ih
    rw [← hleave] at hrest
    exact ⟨_, .skipped (by rw [hvisit, hw]) hrest, by simp [hcalls]⟩
  | through hw _ _ ihInside ihRest =>
    obtain ⟨inside, hinside, hcallsInside⟩ := ihInside
    obtain ⟨log', hrest, hcalls⟩ := ihRest
    rw [← hleave] at hrest
    exact ⟨_, .through (by rw [hvisit, hw]) hinside hrest, by simp [hcalls, hcallsInside]⟩
  | broken hw _ ih =>
    obtain ⟨inside, hinside, hcalls⟩ := ih
    exact ⟨_, .broken (by rw [hvisit, hw]) hinside, by simp [hcalls]⟩

/-- The state of the wrapper around a visitor that notes its calls, without the notes. -/
def Cancellable.withoutCalls (c : Cancellable (σ × List (Call × σ))) : Cancellable σ :=
  ⟨c.inner.1, c.entered⟩

/-- The wrapper does the same around a visitor that notes its calls. -/
theorem Course.forget_calls {isCancelled : σ → Bool} {s s' : σ} {prior later : List (Call × σ)}
    {entered entered' : List (NodeId × Bool)}
    {log : List (Call × Cancellable (σ × List (Call × σ)))} {stop : Option Unsupported}
    (h : Course (Cancellable.visitor (isCancelled ∘ Prod.fst) v.logged) t active bs
      ⟨(s, prior), entered⟩ log stop ⟨(s', later), entered'⟩) :
    ∃ log', Course (Cancellable.visitor isCancelled v) t active bs ⟨s, entered⟩ log' stop
      ⟨s', entered'⟩ ∧ callsOf log' = callsOf log := by
  refine Course.project (f := Cancellable.withoutCalls) ?_ ?_ h
  · intro site c
    cases hs : isCancelled c.inner.1 with
    | true => simp [Cancellable.visitor, Cancellable.withoutCalls, hs]
    | false =>
      rcases hv : v.visit site c.inner.1 with ⟨_ | _, _⟩ <;>
        simp [Cancellable.visitor, Visitor.logged, Cancellable.withoutCalls, hs, hv]
  · intro site c
    rcases c with ⟨state, _ | ⟨⟨id, asked⟩, path⟩⟩
    · rfl
    · simp only [Cancellable.visitor, Cancellable.withoutCalls]
      cases asked <;> split <;> rfl

theorem Visitor.leaveAll_logged (v : Visitor σ) (sites : List Site) (s : σ)
    (log : List (Call × σ)) :
    ∃ closing, v.logged.leaveAll sites (s, log) = (v.leaveAll sites s, log ++ closing) ∧
      callsOf closing = sites.map .leave := by
  induction sites generalizing s log with
  | nil => exact ⟨[], by simp [leaveAll], rfl⟩
  | cons site sites ih =>
    obtain ⟨closing, hstate, hcalls⟩ := ih (v.leave site s) (log ++ [(.leave site, v.leave site s)])
    refine ⟨(.leave site, v.leave site s) :: closing, ?_, by simp [hcalls]⟩
    simpa [leaveAll, logged] using hstate

end Logs

/-- The wrapped visitor goes through a course in which the visitor itself, which notes its calls,
is shown just the given ones and what closes them. The course ends early only if the last of the
given calls failed. -/
structure Shows (isCancelled : σ → Bool) (v : Visitor σ) (t : Tree) (active : List NodeId)
    (b : Branch) (s : σ) (entered : List (NodeId × Bool)) (seen : List (Call × σ))
    (calls : List Call) (stop : Option Unsupported) (s' : σ) : Prop where
  course : ∃ log closing entered',
    Course (Cancellable.visitor (isCancelled ∘ Prod.fst) v.logged) t active [b]
      ⟨(s, []), entered⟩ log stop ⟨(s', seen ++ closing), entered'⟩ ∧
    callsOf log = calls ∧ callsOf closing = closingCalls (callsOf seen)
  none_fails : stop = none → ∀ call ∈ callsOf seen, call.fails = false

section Cancelled

open Cancellable (settled_unwind of_unwind)

variable {v : Visitor σ} {t : Tree} {active : List NodeId} {b : Branch} {s s₁ s' : σ}
  {log : List (Call × σ)} {stop : Option Unsupported} {isCancelled : σ → Bool}
  (entered : List (NodeId × Bool))

/-- Cancelled before the walk, the visitor is shown nothing. -/
theorem shows_nothing (v : Visitor σ) (t : Tree) (active : List NodeId) (b : Branch)
    (hs : isCancelled s = true) :
    ∃ calls, Shows isCancelled v t active b s entered [] calls none s := by
  obtain ⟨log', hcourse⟩ := Cancellable.silent (s := (s, [])) (isCancelled ∘ Prod.fst) v.logged
    active hs (settled_unwind t active b entered)
  exact ⟨_, ⟨log', [], _, of_unwind hcourse, rfl, rfl⟩, by simp⟩

variable (hwf : t.WellFormed) (held : b.HeldBy t) (h : Course v t active [b] s log stop s')
  (hfresh : Fresh active [b]) (hs : isCancelled s = false)
include hwf held h hs hfresh

/-- Not cancelled before the last call, the visitor is shown everything. -/
theorem shows_all (hlog : ∀ entry ∈ log, isCancelled entry.2 = true → entry.1.fails = true) :
    Shows isCancelled v t active b s entered log (callsOf log) stop s' := by
  obtain ⟨log', entered', hcourse, hcalls, _⟩ := Cancellable.forwarded
    (isCancelled ∘ Prod.fst) hwf (h.logged []) (by simpa using held) hs
    (fun entry hentry => hlog _ (mem_of_mem_annotated hentry)) (settled_unwind t active b entered)
  constructor
  · refine ⟨log', [], entered', ?_, by simpa using hcalls, ?_⟩
    · simpa using of_unwind hcourse
    · exact (h.closingCalls_eq_nil hwf (by simpa using held) hfresh).symm
  · rintro rfl
    exact h.none_fails

/-- Cancelled by a call that does not fail, the visitor is shown what comes before and the call,
and then leaves what is open. -/
theorem shows_beginning
    (hstay : ∀ site s, isCancelled s = true → isCancelled (v.leave site s) = true)
    {before after : List (Call × σ)} {call : Call} (hlog : log = before ++ (call, s₁) :: after)
    (hbefore : ∀ entry ∈ before, isCancelled entry.2 = false) (hs₁ : isCancelled s₁ = true)
    (hfails : call.fails = false) :
    ∃ calls s'', Shows isCancelled v t active b s entered (before ++ [(call, s₁)]) calls none
      s'' := by
  have hseen : ∀ other ∈ callsOf (before ++ [(call, s₁)]), other.fails = false := by
    have hlast := h.fails_last
    rw [hlog, callsOf_append, callsOf_cons] at hlast
    rw [callsOf_append, List.forall_mem_append]
    refine ⟨fun other hother => ?_, by simpa using hfails⟩
    exact (List.pairwise_append.mp hlast).2.2 other hother call List.mem_cons_self
  obtain ⟨closing, hstate, hcalls⟩ := v.leaveAll_logged (openSites (callsOf before ++ [call])) s₁
    (before ++ [(call, s₁)])
  have hsplit : annotated [] log = annotated [] before ++
      (call, (s₁, before ++ [(call, s₁)])) :: annotated (before ++ [(call, s₁)]) after := by
    rw [hlog, annotated_append]
    rfl
  obtain ⟨log', hcourse⟩ := Cancellable.cut (v := v.logged)
    (isCancelled ∘ Prod.fst) hwf (fun site state => hstay site state.1) (h.logged [])
    (by simpa using held) hfresh hs hsplit
    (fun entry hentry => hbefore _ (mem_of_mem_annotated hentry)) hs₁ hfails
    (settled_unwind t active b entered)
  rw [callsOf_annotated, hstate] at hcourse
  refine ⟨_, _, ⟨log', closing, _, of_unwind hcourse, rfl, ?_⟩, fun _ => hseen⟩
  rw [hcalls, closingCalls_of_none_fails hseen]
  simp

theorem shows_untilCancelled
    (hstay : ∀ site s, isCancelled s = true → isCancelled (v.leave site s) = true) :
    ∃ calls stop' s'',
      Shows isCancelled v t active b s entered (untilCancelled isCancelled log) calls stop' s'' ∧
      ((∀ entry ∈ log, isCancelled entry.2 = false) →
        untilCancelled isCancelled log = log ∧ calls = callsOf log ∧ stop' = stop ∧ s'' = s') := by
  rcases untilCancelled_cases isCancelled log with
    ⟨hnever, hcut⟩ | ⟨before, call, s₁, after, hlog, hbefore, hs₁, hcut⟩
  · rw [hcut]
    refine ⟨_, _, _, shows_all entered hwf held h hfresh hs ?_, fun _ => ⟨rfl, rfl, rfl, rfl⟩⟩
    intro entry hentry htrue
    simp [hnever entry hentry] at htrue
  · have honce : ¬ ∀ entry ∈ log, isCancelled entry.2 = false := by
      intro hnever
      have hfalse := hnever (call, s₁) (by simp [hlog])
      simp [hs₁] at hfalse
    cases hfails : call.fails with
    | false =>
      obtain ⟨calls, s'', hshows⟩ := shows_beginning entered hwf held h hfresh hs hstay hlog
        hbefore hs₁ hfails
      exact ⟨calls, none, s'', hcut ▸ hshows, fun hnever => absurd hnever honce⟩
    | true =>
      -- A refusal is the last call, so that nothing of the log is cut off after it.
      have hafter : after = [] := by
        have hlast := h.fails_last
        rw [hlog, callsOf_append, callsOf_cons] at hlast
        cases after with
        | nil => rfl
        | cons entry after =>
          have hnot := (List.pairwise_cons.mp (List.pairwise_append.mp hlast).2.1).1 entry.1
            List.mem_cons_self
          rw [hfails] at hnot
          cases hnot
      rw [hafter] at hlog
      rw [hcut, ← hlog]
      refine ⟨_, _, _, shows_all entered hwf held h hfresh hs ?_, fun _ => ⟨rfl, rfl, rfl, rfl⟩⟩
      intro entry hentry htrue
      rw [hlog] at hentry
      rcases List.mem_append.mp hentry with hentry | hentry
      · simp [hbefore entry hentry] at htrue
      · rw [List.mem_singleton.mp hentry]
        exact hfails

end Cancelled

/-- A visitor that may be cancelled, and then stays so, is shown just the beginning of the walk that
it would be taken on alone, up to the call that cancels it, if one does, and the leaves that close
this. Never cancelled, it is taken on the same walk with the same answer. If the walk comes to its
end, what the visitor was shown is balanced. All this holds whatever is in the memory of the
wrapper at the start, and whatever is in progress elsewhere. -/
theorem Tree.walkFrom_cancellable {t : Tree} (h : t.Reachable) {start : NodeId}
    (hlive : t.contains start = true) {active : List NodeId}
    (hout : ∀ id ∈ active, ¬ t.Within id start) (v : Visitor σ) (isCancelled : σ → Bool)
    (hstay : ∀ site s, isCancelled s = true → isCancelled (v.leave site s) = true) (s : σ)
    (entered : List (NodeId × Bool)) :
    ∃ answer summary s' log answer' summary' s'' closing entered',
      t.walkFrom active start v.logged (s, []) = (answer, ⟨active, summary, (s', log)⟩) ∧
      t.walkFrom active start (Cancellable.visitor isCancelled v) ⟨s, entered⟩ =
        (answer', ⟨active, summary', ⟨s'', entered'⟩⟩) ∧
      t.walkFrom active start (Cancellable.visitor (isCancelled ∘ Prod.fst) v.logged)
          ⟨(s, []), entered⟩ =
        (answer', ⟨active, summary', ⟨(s'', shown isCancelled s log ++ closing), entered'⟩⟩) ∧
      callsOf closing = closingCalls (callsOf (shown isCancelled s log)) ∧
      (isCancelled s = false → (∀ entry ∈ log, isCancelled entry.2 = false) →
        shown isCancelled s log ++ closing = log ∧ answer' = answer ∧ summary' = summary ∧
          s'' = s') ∧
      ∀ total, answer' = .ok total →
        Balanced (callsOf (shown isCancelled s log ++ closing)) := by
  have hwf := h.wellFormed
  obtain ⟨b, hb, rfl, held, hfresh⟩ := hwf.exists_fresh hlive hout
  obtain ⟨log, stop, s', hcourse⟩ := Course.walkable v t [b] active s
  obtain ⟨calls, stop', s'', hshows, hsame⟩ : ∃ calls stop' s'',
      Shows isCancelled v t active b s entered (shown isCancelled s log) calls stop' s'' ∧
      (isCancelled s = false → (∀ entry ∈ log, isCancelled entry.2 = false) →
        shown isCancelled s log = log ∧ calls = callsOf log ∧ stop' = stop ∧ s'' = s') := by
    cases hs : isCancelled s with
    | true =>
      obtain ⟨calls, hshows⟩ := shows_nothing entered v t active b hs
      exact ⟨calls, none, s, by simpa [shown, hs] using hshows, by simp⟩
    | false =>
      simpa [shown, hs] using shows_untilCancelled entered hwf held hcourse hfresh hs hstay
  obtain ⟨log', closing, entered', hcourse', rfl, hclosing⟩ := hshows.course
  obtain ⟨log'', hcourse'', hcalls⟩ := hcourse'.forget_calls
  refine ⟨_, _, s', log, _, _, s'', closing, entered', hcourse.walkFrom_logged hb hfresh, ?_,
    hcourse'.walkFrom hb hfresh, hclosing, ?_, ?_⟩
  · rw [← hcalls]
    exact hcourse''.walkFrom hb hfresh
  · intro hs hnever
    obtain ⟨hshown, hcallsOf, rfl, rfl⟩ := hsame hs hnever
    rw [hshown, hcourse.closingCalls_eq_nil hwf (by simpa using held) hfresh] at hclosing
    rw [hshown, List.map_eq_nil_iff.mp hclosing, hcallsOf]
    exact ⟨List.append_nil log, rfl, rfl, rfl⟩
  · intro total htotal
    have hstop : stop' = none := by
      cases stop' with
      | none => rfl
      | some refusal => cases htotal
    obtain ⟨later, hlater⟩ := exists_shown_append isCancelled s log
    have hbeginning : callsOf log = callsOf (shown isCancelled s log) ++ callsOf later := by
      rw [← callsOf_append, ← hlater]
    rw [callsOf_append, hclosing]
    exact hcourse.balanced hfresh hbeginning (hshows.none_fails hstop)

/-- A visitor that is cancelled when it has seen two nodes, in a function, leaves just those two,
though the wrapper remembers a node of an earlier walk. -/
theorem Tree.walk_cancelled_in_function :
    ∃ (t : Tree) (seen : List (Call × List NodeId)), t.Reachable ∧ t.contains ⟨0, 0⟩ = true ∧
      t.walkFrom [] ⟨0, 0⟩ (Cancellable.visitor (fun ids => ids.length == 2) (preorder []))
          ⟨[], [(⟨1, 0⟩, true)]⟩ =
        (.ok ⟨3, 1⟩, ⟨[], ⟨3, 1⟩, ⟨[⟨0, 0⟩, ⟨1, 0⟩], []⟩⟩) ∧
      t.walkFrom [] ⟨0, 0⟩ (Cancellable.visitor (fun state => state.1.length == 2)
          (preorder []).logged) ⟨([], []), [(⟨1, 0⟩, true)]⟩ =
        (.ok ⟨3, 1⟩, ⟨[], ⟨3, 1⟩, ⟨([⟨0, 0⟩, ⟨1, 0⟩], seen), []⟩⟩) ∧
      Balanced (callsOf seen) := by
  obtain ⟨t, ht, hreach⟩ : ∃ t : Tree, t = ((((new none).after
      (.create (.function "f" [] []))).after (.create .breakStatement)).after
      (.appendChild ⟨0, 0⟩ ⟨1, 0⟩)).after (.appendChild ⟨1, 0⟩ ⟨2, 0⟩) ∧ t.Reachable :=
    ⟨_, rfl, .after _ (fun _ _ => trivial) (.after _ (fun _ _ => trivial) (.after _
      (fun _ _ => trivial) (.after _ (fun _ _ => trivial) (.new none trivial))))⟩
  have hlive : t.contains ⟨0, 0⟩ = true := by rw [ht]; rfl
  have hrun : t.walkFrom [] ⟨0, 0⟩ (Cancellable.visitor (fun ids => ids.length == 2) (preorder []))
      ⟨[], [(⟨1, 0⟩, true)]⟩ = (.ok ⟨3, 1⟩, ⟨[], ⟨3, 1⟩, ⟨[⟨0, 0⟩, ⟨1, 0⟩], []⟩⟩) := by
    rw [ht]
    rfl
  obtain ⟨_, _, _, _, answer, summary, s', _, path, _, hwrapped, hlogged, _, _, hbalanced⟩ :=
    walkFrom_cancellable hreach hlive (List.forall_mem_nil _) (preorder [])
      (fun ids => ids.length == 2) (fun _ _ hcancelled => hcancelled) [] [(⟨1, 0⟩, true)]
  obtain ⟨rfl, hstate⟩ := Prod.mk.inj (hwrapped.symm.trans hrun)
  cases hstate
  exact ⟨t, _, hreach, hlive, hrun, hlogged, hbalanced _ rfl⟩

end ProgramTree
