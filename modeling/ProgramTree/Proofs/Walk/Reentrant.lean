import ProgramTree.Proofs.Walk.Shared

/-! # Refused walks

A walk that is started while others are in progress is refused exactly if what it
is to walk over holds a node that one of them is inside of, and then at the first
such node. The others are not affected by it. -/

namespace ProgramTree

set_option autoImplicit false

/-- A walk in progress: where it started, the calls it has made, and the call that it is making. -/
structure Underway where
  start : NodeId
  before : List Call
  call : Call

/-- One of the walks is inside of the node. -/
def Inside (walks : List Underway) (id : NodeId) : Prop :=
  ∃ walk ∈ walks, InsideAt walk.before walk.call id

/-- The walks in progress, innermost first, each started by a handler of the next one during the
call that this is making; and the nodes in progress that the handler of the innermost one finds. -/
inductive InProgress (t : Tree) : List Underway → List NodeId → Prop
  | none : InProgress t [] []
  | started {walks : List Underway} {active : List NodeId} {σ : Type} (v : Visitor σ) (s : σ)
      {start : NodeId} {before after : List Call} {call : Call} :
      InProgress t walks active →
      callsOf (t.walkFrom active start v.logged (s, [])).2.visitor.2 = before ++ call :: after →
      InProgress t (⟨start, before, call⟩ :: walks) call.site.active

section Order

variable {t : Tree}

mutual

theorem upward_children (hwf : t.WellFormed) : (b : Branch) → b.HeldBy t →
    (Branch.idsAll b.children).Nodup → (Branch.idsAll b.children).Pairwise fun earlier later => ¬ t.Within earlier later
  | .node _ _ children, hb, hnodup => upward hwf children hb.children hnodup

/-- No node comes before one that it lies within. -/
theorem upward (hwf : t.WellFormed) : (bs : List Branch) → (∀ b ∈ bs, b.HeldBy t) →
    (Branch.idsAll bs).Nodup → (Branch.idsAll bs).Pairwise fun earlier later => ¬ t.Within earlier later
  | [], _, _ => .nil
  | b :: bs, hheld, hnodup => by
    obtain ⟨hb, hbs⟩ := List.forall_mem_cons.mp hheld
    have hseparate := Branch.separate_of_nodup hnodup
    have htop := PathTo.above_top hwf hb hbs hseparate
    have hinside := upward_children hwf b hb hseparate.inside
    have hrest := upward hwf bs hbs hseparate.rest
    rw [Branch.idsAll_cons] at hnodup htop ⊢
    refine .cons ?_ (List.pairwise_append.mpr ⟨hinside, hrest, ?_⟩)
    · intro later hlater hw
      have hsame := (htop later).mpr ⟨List.mem_cons_of_mem _ hlater, hw⟩
      rw [List.mem_singleton] at hsame
      exact (List.nodup_cons.mp hnodup).1 (hsame ▸ hlater)
    · intro earlier hearlier later hlater hw
      exact hseparate.apart earlier hearlier (mem_idsAll_of_within hwf hbs hlater hw)

end

end Order

section Walks

variable {σ : Type} {t : Tree} {active : List NodeId} {start : NodeId} {b : Branch}

theorem Tree.walkFrom_state (hb : t.branch? start = some b) (v : Visitor σ) (s : σ) :
    (t.walkFrom active start v s).2 = (v.walkAll t [b] ⟨active, ⟨0, 0⟩, s⟩).2 := by
  simp only [walkFrom, hb, walkBranch_eq_walkAll]
  rcases v.walkAll t [b] ⟨active, ⟨0, 0⟩, s⟩ with ⟨_ | _, w⟩ <;> rfl

/-- What the handler of a walk finds in progress while a call is made. -/
theorem Tree.WellFormed.exists_path (hwf : t.WellFormed) (v : Visitor σ) (s : σ)
    {before after : List Call} {call : Call}
    (hcalls : callsOf (t.walkFrom active start v.logged (s, [])).2.visitor.2 =
      before ++ call :: after) :
    ∃ path, call.site.active = path ++ active ∧ t.Within call.id start ∧
      (∀ id, id ∈ path ↔ InsideAt before call id) ∧
      (∀ id, id ∈ path ↔ t.Within id start ∧ t.Within call.id id) := by
  by_cases hlive : t.contains start = true
  · obtain ⟨b, hb, rfl, held⟩ := hwf.exists_branch? hlive
    have hheld : ∀ c ∈ [b], c.HeldBy t := by simpa using held
    have hids : Branch.idsAll [b] = b.ids := by simp
    have hnodup : (Branch.idsAll [b]).Nodup := hids ▸ hwf.nodup_ids held
    obtain ⟨log, stop, s', hcourse⟩ := Course.walkable v t [b] active s
    obtain ⟨rest, hlog⟩ := (hcourse.begins hnodup ⟨0, 0⟩ []).noted
    rw [walkFrom_state hb] at hcalls
    have hcalls' : callsOf log = before ++ call :: (after ++ callsOf rest) := by
      rw [hlog, callsOf_append, hcalls, List.append_assoc, List.cons_append]
    obtain ⟨path, hactive, hpath⟩ := hcourse.exists_path hwf hheld hnodup hcalls'
    have hcall := hcourse.id_mem_of_split hcalls' call (List.mem_append_right _ List.mem_cons_self)
    rw [hids] at hcall
    refine ⟨path, hactive, (hwf.mem_ids_iff held _).mp hcall, hpath.inside_iff, fun id => ?_⟩
    rw [hpath.above_iff, hids, hwf.mem_ids_iff held]
  · have hnone := branch?_of_dead (Bool.not_eq_true _ ▸ hlive)
    simp [walkFrom, hnone] at hcalls

/-- The nodes in progress are those that the walks in progress are inside of: for each walk, the
path from its start to the node that it is at. -/
theorem InProgress.nodes (hwf : t.WellFormed) {walks : List Underway}
    (h : InProgress t walks active) :
    (∀ id, id ∈ active ↔ Inside walks id) ∧
      ∀ walk ∈ walks, t.Within walk.call.id walk.start ∧ ∀ id,
        InsideAt walk.before walk.call id ↔ t.Within id walk.start ∧ t.Within walk.call.id id := by
  induction h with
  | none => simp [Inside]
  | @started walks active σ v s start before after call _ hcalls ih =>
    obtain ⟨hnodes, hwalks⟩ := ih
    obtain ⟨path, hactive, hcall, hinside, habove⟩ := hwf.exists_path v s hcalls
    refine ⟨fun id => ?_, List.forall_mem_cons.mpr ⟨⟨hcall, fun id => ?_⟩, hwalks⟩⟩
    · rw [hactive, List.mem_append, hinside, hnodes, Inside, Inside, List.exists_mem_cons_iff]
    · rw [← hinside, habove]

/-- A walk that nothing else stops ends at the first node in progress, if there is one. -/
theorem Tree.walkFrom_of_proceeds (hb : t.branch? start = some b) (hnodup : b.ids.Nodup)
    {v : Visitor σ} (hv : v.Proceeds) (s : σ) (answer : Except WalkError WalkSummary)
    (hanswer : (t.walkFrom active start v s).1 = answer) :
    (∃ total, answer = .ok total ∧ ∀ id ∈ b.ids, id ∉ active) ∨
      ∃ before id after, answer = .error (.reentrant id) ∧ b.ids = before ++ id :: after ∧
        id ∈ active ∧ ∀ other ∈ before, other ∉ active := by
  have hbranch := walkBranch_of_proceeds t hv b ⟨active, ⟨0, 0⟩, s⟩ hnodup
  simp only [walkFrom, hb] at hanswer
  rcases hw : v.walkBranch t b ⟨active, ⟨0, 0⟩, s⟩ with ⟨result, w⟩
  rw [hw] at hbranch hanswer
  unfold unlessMet at hbranch
  split at hbranch
  · rename_i id hfind
    obtain ⟨hid, before, after, hids, hbefore⟩ := List.find?_eq_some_iff_append.mp hfind
    obtain rfl : result = _ := hbranch
    refine Or.inr ⟨before, id, after, hanswer.symm, hids, by simpa using hid, ?_⟩
    intro other hother
    simpa using hbefore other hother
  · rename_i hfind
    obtain rfl : result = _ := hbranch
    refine Or.inl ⟨_, hanswer.symm, ?_⟩
    intro id hid
    simpa using List.find?_eq_none.mp hfind id hid

/-- The first node of a list that one of the walks is inside of. -/
def FirstInside (walks : List Underway) (ids : List NodeId) (id : NodeId) : Prop :=
  ∃ before after, ids = before ++ id :: after ∧ Inside walks id ∧
    ∀ other ∈ before, ¬ Inside walks other

theorem InProgress.walkFrom_of_proceeds (hwf : t.WellFormed) {walks : List Underway}
    (h : InProgress t walks active) (hb : t.branch? start = some b) (hnodup : b.ids.Nodup)
    {v : Visitor σ} (hv : v.Proceeds) {s : σ} {answer : Except WalkError WalkSummary}
    {w : WalkState σ} (hrun : t.walkFrom active start v s = (answer, w)) :
    (∃ total, answer = .ok total ∧ ∀ id ∈ b.ids, ¬ Inside walks id) ∨
      ∃ id, answer = .error (.reentrant id) ∧ FirstInside walks b.ids id := by
  have hnodes := (h.nodes hwf).1
  rcases Tree.walkFrom_of_proceeds hb hnodup hv s answer (congrArg Prod.fst hrun) with
    ⟨total, hok, hout⟩ | ⟨before, id, after, herror, hids, hactive, hbefore⟩
  · exact Or.inl ⟨total, hok, fun id hid hin => hout id hid ((hnodes id).mpr hin)⟩
  · refine Or.inr ⟨id, herror, before, after, hids, (hnodes id).mp hactive, ?_⟩
    exact fun other hother hin => hbefore other hother ((hnodes other).mpr hin)

section Single

variable (hwf : t.WellFormed) (held : b.HeldBy t) {walk : Underway}
  (h : InProgress t [walk] active) {id : NodeId}
include hwf h

theorem InProgress.inside_iff (id : NodeId) :
    Inside [walk] id ↔ t.Within id walk.start ∧ t.Within walk.call.id id := by
  simpa [Inside] using ((h.nodes hwf).2 walk List.mem_cons_self).2 id

/-- A walk is inside of a node within another one exactly if it is at one. -/
theorem InProgress.exists_inside_iff :
    (∃ id, t.Within id start ∧ Inside [walk] id) ↔ t.Within walk.call.id start := by
  constructor
  · rintro ⟨id, hid, hin⟩
    exact ((h.inside_iff hwf id).mp hin).2.trans hid
  · intro hw
    have hcall := ((h.nodes hwf).2 walk List.mem_cons_self).1
    exact ⟨walk.call.id, hw, (h.inside_iff hwf _).mpr ⟨hcall, .refl _⟩⟩

/-- What lies on the way from the start of the walk to its node is met there. -/
theorem InProgress.first_of_on_way (hfirst : FirstInside [walk] b.ids id)
    (hon : t.Within b.id walk.start) (hbelow : t.Within walk.call.id b.id) : id = b.id := by
  obtain ⟨before, after, hids, _, hbefore⟩ := hfirst
  rw [Branch.ids_eq] at hids
  rcases split_cons hids with ⟨_, hid, _⟩ | ⟨_, rfl, _⟩
  · exact hid
  · exact absurd ((h.inside_iff hwf b.id).mpr ⟨hon, hbelow⟩) (hbefore b.id List.mem_cons_self)

include held in
/-- From above, the walk is met where it started. -/
theorem InProgress.first_of_above (hfirst : FirstInside [walk] b.ids id)
    (habove : t.Within walk.start b.id) : id = walk.start := by
  obtain ⟨before, after, hids, hin, hbefore⟩ := hfirst
  have hcall := ((h.nodes hwf).2 walk List.mem_cons_self).1
  have hstart : walk.start ∈ b.ids := (hwf.mem_ids_iff held _).mpr habove
  rw [hids, List.mem_append, List.mem_cons] at hstart
  rcases hstart with hstart | hstart | hstart
  · exact absurd ((h.inside_iff hwf _).mpr ⟨.refl _, hcall⟩) (hbefore _ hstart)
  · exact hstart.symm
  · have horder := upward hwf [b] (by simpa using held) (by simpa using hwf.nodup_ids held)
    have hids' : Branch.idsAll [b] = before ++ id :: after := by simpa using hids
    rw [hids'] at horder
    have hlater := (List.pairwise_cons.mp (List.pairwise_append.mp horder).2.1).1
    exact absurd ((h.inside_iff hwf id).mp hin).1 (hlater _ hstart)

end Single

end Walks

/-- A walk that is started while others are in progress, with a visitor that goes on at every node,
is refused exactly if one of them is inside of a node that lies within the start, and then at the
first such node; otherwise it comes to its end. If one walk is in progress, it is refused exactly if
that walk is at a node within the start: at the start itself if this lies on the way to that node,
and at the start of the other walk if that lies beneath. Either way the nodes in progress stay as
they are, also if all walks share them and their handlers start walks in turn. -/
theorem Tree.walkFrom_in_progress {t : Tree} (h : t.Reachable) {walks : List Underway}
    {active : List NodeId} (hprogress : InProgress t walks active) {start : NodeId}
    (hlive : t.contains start = true) {σ : Type} {v : Visitor σ} (hv : v.Proceeds) (s : σ) :
    ∃ answer w, t.walkFrom active start v s = (answer, w) ∧ w.active = active ∧
      ((∃ id, answer = .error (.reentrant id)) ↔ ∃ id, t.Within id start ∧ Inside walks id) ∧
      (∀ id, answer = .error (.reentrant id) →
        ∃ b, t.branch? start = some b ∧ FirstInside walks b.ids id) ∧
      ((∀ id, answer ≠ .error (.reentrant id)) → ∃ total, answer = .ok total) ∧
      (∀ walk, walks = [walk] →
        ((∃ id, answer = .error (.reentrant id)) ↔ t.Within walk.call.id start) ∧
        (t.Within walk.call.id start → t.Within start walk.start →
          answer = .error (.reentrant start)) ∧
        (t.Within walk.start start → answer = .error (.reentrant walk.start))) ∧
      ∀ {α : Type} (handling : Handling σ α), handling.sharing t active =
        ((handling.giving t active).1, (handling.giving t active).2, active) := by
  have hwf := h.wellFormed
  obtain ⟨b, hb, rfl, held⟩ := hwf.exists_branch? hlive
  obtain ⟨answer, w, hrun⟩ : ∃ answer w, t.walkFrom active b.id v s = (answer, w) := ⟨_, _, rfl⟩
  have hactive : w.active = active := by
    have hrestored := active_walkFrom v t active b.id s
    rwa [hrun] at hrestored
  have hends := hprogress.walkFrom_of_proceeds hwf hb (hwf.nodup_ids held) hv hrun
  have hrefused : (∃ id, answer = .error (.reentrant id)) ↔
      ∃ id, t.Within id b.id ∧ Inside walks id := by
    rcases hends with ⟨total, rfl, hout⟩ | ⟨id, rfl, before, after, hids, hin, _⟩
    · refine iff_of_false (by simp) ?_
      rintro ⟨id, hw, hin⟩
      exact hout id ((hwf.mem_ids_iff held id).mpr hw) hin
    · refine iff_of_true ⟨id, rfl⟩ ⟨id, (hwf.mem_ids_iff held id).mp ?_, hin⟩
      rw [hids]
      exact List.mem_append_right _ List.mem_cons_self
  have hfirst : ∀ id, answer = .error (.reentrant id) → FirstInside walks b.ids id := by
    rintro id rfl
    rcases hends with ⟨_, hok, _⟩ | ⟨_, herror, hfirst⟩
    · cases hok
    · cases herror
      exact hfirst
  refine ⟨answer, w, hrun, hactive, hrefused, fun id hid => ⟨b, hb, hfirst id hid⟩, ?_, ?_,
    fun handling => handling.sharing_eq t active⟩
  · intro hnone
    rcases hends with ⟨total, hok, _⟩ | ⟨id, herror, _⟩
    · exact ⟨total, hok⟩
    · exact absurd herror (hnone id)
  · rintro walk rfl
    have hsingle := hrefused.trans (hprogress.exists_inside_iff hwf)
    refine ⟨hsingle, ?_, ?_⟩
    · intro hbelow hon
      obtain ⟨id, hid⟩ := hsingle.mpr hbelow
      rw [hid, hprogress.first_of_on_way hwf (hfirst id hid) hon hbelow]
    · intro habove
      have hcall := ((hprogress.nodes hwf).2 walk List.mem_cons_self).1
      obtain ⟨id, hid⟩ := hsingle.mpr (hcall.trans habove)
      rw [hid, hprogress.first_of_above hwf held (hfirst id hid) habove]

/-- A walk over the whole tree from a handler of a walk over a function in it. -/
theorem Tree.walk_above_refused :
    ∃ (t : Tree) (walk : Underway) (active : List NodeId), t.Reachable ∧
      InProgress t [walk] active ∧ t.contains ⟨0, 0⟩ = true ∧ (preorder []).Proceeds ∧
      (t.walkFrom active ⟨0, 0⟩ (preorder []) []).1 = .error (.reentrant ⟨1, 0⟩) ∧
      (t.walkFrom active ⟨0, 0⟩ (preorder []) []).2.active = active := by
  obtain ⟨t, ht, hreach⟩ : ∃ t : Tree, t = ((new none).after
      (.create (.function "f" [] []))).after (.appendChild ⟨0, 0⟩ ⟨1, 0⟩) ∧ t.Reachable :=
    ⟨_, rfl, .after _ (fun _ _ => trivial) (.after _ (fun _ _ => trivial) (.new none trivial))⟩
  have hlive : t.contains ⟨0, 0⟩ = true := by rw [ht]; rfl
  have hparent : t.parent? ⟨1, 0⟩ = some ⟨0, 0⟩ := by rw [ht]; rfl
  have hproceeds : (preorder []).Proceeds := fun _ _ => rfl
  obtain ⟨call, after, hcalls⟩ : ∃ call after,
      callsOf (t.walkFrom [] ⟨1, 0⟩ (preorder []).logged ([], [])).2.visitor.2 =
        [] ++ call :: after := by
    rw [ht]
    exact ⟨_, _, rfl⟩
  have hprogress := InProgress.started _ _ .none hcalls
  obtain ⟨answer, w, hwalk, hactive, _, _, _, hsingle, _⟩ :=
    walkFrom_in_progress hreach hprogress hlive hproceeds []
  obtain ⟨_, _, habove⟩ := hsingle _ rfl
  refine ⟨t, _, _, hreach, hprogress, hlive, hproceeds, ?_, ?_⟩
  · rw [hwalk]
    exact habove (.single hparent)
  · rw [hwalk]
    exact hactive

end ProgramTree
