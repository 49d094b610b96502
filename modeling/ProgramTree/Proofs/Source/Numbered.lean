import ProgramTree.Proofs.Navigation
import ProgramTree.Proofs.Source.RoundTrip
import ProgramTree.Proofs.Walk.Order

/-! # Trees are numbered in reading order

A tree that a text gives was only added to, a node before its children and a
child before the next one. So its identities count up in preorder from the root,
nothing is detached, and all the ways to count its nodes agree. The identities
depend on the snapshot of the tree alone: formatting the text, and building the
formatted text, leaves each node with the identity that it had. -/

namespace ProgramTree

set_option autoImplicit false

section Descending

variable {σ : Type} {v : Visitor σ}

/-- A visitor that goes on to the children of every node. -/
def Visitor.Descends (v : Visitor σ) : Prop :=
  ∀ site s, ∃ s', v.visit site s = (.ok .proceed, s')

variable {t : Tree} {active : List NodeId} {bs : List Branch} {s s' : σ}
  {log : List (Call × σ)} {stop : Option Unsupported}

theorem Course.answer_proceed (h : Course v t active bs s log stop s') (hv : v.Descends) :
    ∀ site answer, .visit site answer ∈ callsOf log → answer = .ok .proceed := by
  have hanswer : ∀ {site : Site} {s s' : σ} {answer : Except Unsupported Flow},
      v.visit site s = (answer, s') → answer = .ok .proceed := by
    intro site s s' answer hvisit
    obtain ⟨_, hgoes⟩ := hv site s
    exact (Prod.mk.inj (hvisit.symm.trans hgoes)).1
  induction h with
  | nil => simp
  | refused hvisit => cases hanswer hvisit
  | skipped hvisit => cases hanswer hvisit
  | through _ _ _ ihInside ihRest =>
    intro site answer hmem
    simp only [callsOf_cons, callsOf_append, List.mem_cons, List.mem_append, reduceCtorEq,
      false_or, Call.visit.injEq] at hmem
    rcases hmem with ⟨_, rfl⟩ | hmem | hmem
    · rfl
    · exact ihInside site answer hmem
    · exact ihRest site answer hmem
  | broken _ _ ih =>
    intro site answer hmem
    simp only [callsOf_cons, List.mem_cons, Call.visit.injEq] at hmem
    rcases hmem with ⟨_, rfl⟩ | hmem
    · rfl
    · exact ih site answer hmem

/-- A walk that always goes on visits every node and skips none. -/
theorem Course.after_of_descends (h : Course v t active bs s log stop s') (hv : v.Descends) :
    stop = none ∧ WalkSummary.after ⟨0, 0⟩ (callsOf log) = ⟨(Branch.idsAll bs).length, 0⟩ := by
  have hproceed := h.answer_proceed hv
  obtain ⟨hstop, hvisits⟩ := h.visits_eq hproceed
  have hskips : (callsOf log).countP Call.skips = 0 := by
    rw [List.countP_eq_zero]
    rintro (⟨site, answer⟩ | site) hcall
    · rw [hproceed site answer hcall]
      exact Bool.false_ne_true
    · exact Bool.false_ne_true
  exact ⟨hstop, by simp [WalkSummary.after, hvisits, hskips]⟩

theorem Tree.WellFormed.walk_descends (h : t.WellFormed) {b : Branch} (held : b.HeldBy t)
    (hv : v.Descends) (s : σ) : ∃ s', t.walk b.id v s = (.ok ⟨b.ids.length, 0⟩, s') := by
  obtain ⟨b', log, stop, s', _, hid, held', hcourse, hwalk⟩ := h.exists_course held.live v s
  obtain rfl := held'.unique held hid
  obtain ⟨rfl, hafter⟩ := hcourse.after_of_descends hv
  refine ⟨s', hwalk.trans ?_⟩
  rw [walkAnswer, hafter, Branch.idsAll, Branch.idsAll, List.append_nil]

/-- The collector goes on everywhere and notes the identities of the branch in their order. -/
theorem Tree.WellFormed.collect_held (h : t.WellFormed) {b : Branch} (held : b.HeldBy t) :
    t.collect b.id [] = (.ok ⟨b.ids.length, 0⟩, b.ids) := by
  obtain ⟨b', log, stop, seen, _, hid, held', hcourse, hwalk⟩ :=
    h.exists_course held.live (Tree.preorder []) []
  obtain rfl := held'.unique held hid
  obtain ⟨_, rfl⟩ := hcourse.collected
  have hv : (Tree.preorder []).Descends := fun _ _ => ⟨_, rfl⟩
  obtain ⟨rfl, hafter⟩ := hcourse.after_of_descends hv
  have hids : Branch.idsAll [b'] = b'.ids := by rw [Branch.idsAll, Branch.idsAll, List.append_nil]
  rw [Tree.collect, hwalk, walkAnswer, hafter, hids, List.nil_append]

end Descending

section Built

variable {source : String} {t : Tree}

/-- A tree that a text gives is one branch, with the identities of the store in their order. -/
theorem buildTree_held (h : buildTree source = .ok t) :
    t.nodes.Packed t.size ∧ ∃ b : Branch, b.id = t.root ∧ b.HeldBy t ∧ b.ids = t.nodes.ids := by
  obtain ⟨d, _, htree⟩ := buildTree_eq_ok.mp h
  obtain ⟨_, package, bs, held, _, hids, hpacked⟩ := Draft.toTree_held htree
  exact ⟨hpacked, _, rfl, held, hids⟩

/-- Texts that give trees with one snapshot give one tree. -/
theorem buildTree_unique {source' : String} {t' : Tree} (h : buildTree source = .ok t)
    (h' : buildTree source' = .ok t') (hsame : t.snapshot? t.root = t'.snapshot? t'.root) :
    t = t' := by
  obtain ⟨d, _, htree⟩ := buildTree_eq_ok.mp h
  obtain ⟨d', _, htree'⟩ := buildTree_eq_ok.mp h'
  obtain ⟨_, _, _, hsnapshot, hspells⟩ := Draft.toTree_ok htree
  obtain ⟨_, _, _, hsnapshot', hspells'⟩ := Draft.toTree_ok htree'
  rw [hsnapshot, hsnapshot', Option.some.injEq] at hsame
  have htrees : (d.toTree source.toList).toOption = (d'.toTree source'.toList).toOption :=
    (hspells.corresponds (hsame ▸ hspells')).toTree
  rw [htree, htree'] at htrees
  exact Option.some.inj htrees

/-- In a tree that a text gives the nodes are numbered in preorder from the root, none is detached,
and the number of nodes is the size of the snapshot and what a walk counts that always goes on. The
text, and the text that the tree has, give this very tree again. -/
theorem buildTree_numbered (h : buildTree source = .ok t) :
    t.collect t.root [] = (.ok ⟨t.size, 0⟩, (List.range t.size).map fun k => ⟨k, 0⟩) ∧
    t.detached = [] ∧
    (∃ snapshot, t.snapshot? t.root = some snapshot ∧ snapshot.size = t.size) ∧
    (∀ {σ : Type} (v : Visitor σ) (s : σ), v.Descends →
      ∃ s', t.walk t.root v s = (.ok ⟨t.size, 0⟩, s')) ∧
    ∃ formatted, t.source t.root = .ok formatted ∧
      ∀ text ∈ [source, formatted], buildTree text = .ok t := by
  obtain ⟨hreach, hcatch⟩ := buildTree_ok h
  have hwf := hreach.reachable.wellFormed
  obtain ⟨hpacked, b, hid, held, hids⟩ := buildTree_held h
  have hnumbers : b.ids = (List.range t.size).map fun k => ⟨k, 0⟩ := by
    rw [hids, hpacked.ids_eq, List.range_eq_range']
    rfl
  have hlength : b.ids.length = t.size := by rw [hnumbers, List.length_map, List.length_range]
  refine ⟨?_, ?_, ⟨b.snapshot, ?_, ?_⟩, ?_, ?_⟩
  · rw [← hid, hwf.collect_held held, hlength, hnumbers]
  · rw [List.eq_nil_iff_forall_not_mem]
    intro id hdetached
    obtain ⟨hlive, hroot, htop⟩ := Tree.mem_detached_iff.mp hdetached
    have hmem : id ∈ b.ids := hids ▸ (t.mem_nodes_ids_iff id).mpr hlive
    rcases Tree.within_iff.mp ((hwf.mem_ids_iff held id).mp hmem) with hroot' | ⟨above, habove, _⟩
    · exact hroot (hroot'.trans hid)
    · rw [htop] at habove
      cases habove
  · rw [← hid, Tree.snapshot?, hwf.branch?_of_heldBy held, Option.map_some]
  · rw [← Branch.length_ids, hlength]
  · intro σ v s hv
    rw [← hid, ← hlength]
    exact hwf.walk_descends held hv s
  · obtain ⟨formatted, rebuilt, snapshot, hsource, hbuild, hsnapshot, hsnapshot', _⟩ :=
      hreach.rebuilt hcatch
    obtain rfl := buildTree_unique h hbuild (hsnapshot.trans hsnapshot'.symm)
    exact ⟨formatted, hsource, by simp [h, hbuild]⟩

/-- A comment, and a function with a statement in it, are numbered as they are read. -/
theorem function_numbered :
    ∃ t, buildTree "// a\nfunction f() \x7b\n    break;\n\x7d\n" = .ok t ∧
      t.collect t.root [] = (.ok ⟨4, 0⟩, [⟨0, 0⟩, ⟨1, 0⟩, ⟨2, 0⟩, ⟨3, 0⟩]) ∧ t.detached = [] := by
  have hspell : (Snapshot.node (.compilationUnit none) [.node (.comment "a") [],
      .node (.function "f" [] []) [.node .breakStatement []]]).Spellable := by
    refine .node (Payload.made_iff.mp ⟨.compilationUnit none, rfl⟩) rfl nofun ?_
    refine List.forall_mem_cons.mpr ⟨?_, List.forall_mem_singleton.mpr ?_⟩
    · exact .node (Payload.made_iff.mp ⟨.comment "a", rfl⟩) rfl nofun nofun
    · refine .node (Payload.made_iff.mp ⟨.function "f" [] [], rfl⟩) rfl nofun ?_
      exact List.forall_mem_singleton.mpr
        (.node (Payload.made_iff.mp ⟨.breakStatement, rfl⟩) rfl nofun nofun)
  obtain ⟨t, hbuild, _, hsnapshot⟩ := buildTree_unitText hspell
  obtain ⟨hcollect, hdetached, ⟨snapshot, hsnapshot', hsize⟩, _⟩ := buildTree_numbered hbuild
  obtain rfl := Option.some.inj (hsnapshot.symm.trans hsnapshot')
  rw [← hsize] at hcollect
  exact ⟨t, hbuild, hcollect, hdetached⟩

end Built

end ProgramTree
