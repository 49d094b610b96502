import ProgramTree.Command.Basic
import ProgramTree.Proofs.Source.Drafts
import ProgramTree.Proofs.Source.Lowering
import ProgramTree.Proofs.Source.Units

/-! # Trees and their texts

A tree in which each `try` has its `catch` has a text, and the text gives a tree
with the same snapshot, which has the same text again. A tree that a text gives
is always one of these, so to format a formatted text changes nothing. -/

namespace ProgramTree

set_option autoImplicit false

/-- A payload that conforms holds no NaN, so it agrees with itself. -/
theorem Payload.Conforms.agrees_self {p : Payload} (h : p.Conforms) : p.agrees p = true := by
  cases p with
  | ifStatement e | elseIfClause e | whileLoop e | replyStatement e | throwStatement e =>
    exact e.agrees_self h
  | callStatement e => exact e.agrees_self h.1
  | assignment target value =>
    simp [agrees, target.agrees_self h.1, value.agrees_self h.2.2]
  | variableDefinition typeName name initializer =>
    cases initializer with
    | none => simp [agrees]
    | some e => simp [agrees, e.agrees_self (h.2.2 e rfl)]
  | returnStatement values =>
    have hall : ∀ es : List Expression, (∀ e ∈ es, e.agrees e = true) →
        Expression.allAlike Literal.agrees es es = true := by
      intro es hes
      induction es with
      | nil => rfl
      | cons e es ih =>
        obtain ⟨he, hes⟩ := List.forall_mem_cons.mp hes
        rw [Expression.agrees] at he
        rw [Expression.allAlike, he, ih hes]
        rfl
    exact hall values fun e he => e.agrees_self (h e he)
  | _ => simp [agrees]

mutual

theorem Snapshot.agrees_self : (s : Snapshot) → s.Spellable → s.agrees s = true
  | .node payload children, h => by
    have hpayload : payload.agrees payload = true := h.conforms.agrees_self
    have hchildren := Snapshot.agreesAll_self children h.children
    rw [Snapshot.agrees, hpayload, hchildren]
    rfl

theorem Snapshot.agreesAll_self : (ss : List Snapshot) → (∀ s ∈ ss, s.Spellable) →
    Snapshot.agreesAll ss ss = true
  | [], _ => rfl
  | s :: ss, h => by
    obtain ⟨hs, hss⟩ := List.forall_mem_cons.mp h
    rw [Snapshot.agreesAll, Snapshot.agrees_self s hs, Snapshot.agreesAll_self ss hss]
    rfl

end

theorem buildTree_unitText {package : Option String} {items : List Snapshot}
    (h : (Snapshot.node (.compilationUnit package) items).Spellable) :
    ∃ t, buildTree (String.ofList (Snapshot.unitText package items)) = .ok t ∧
      t.ReachableWith Payload.Made ∧
      t.snapshot? t.root = some (.node (.compilationUnit package) items) := by
  obtain ⟨d, hread, hspells⟩ := Snapshot.run_unitText h
  obtain ⟨t, ht, hreach, hsnapshot⟩ : ∃ t, d.toTree (Snapshot.unitText package items) = .ok t ∧
      t.ReachableWith Payload.Made ∧
      t.snapshot? t.root = some (.node (.compilationUnit package) items) :=
    Draft.exists_toTree hspells h.admissible
  refine ⟨t, ?_, hreach, hsnapshot⟩
  rw [buildTree, String.toList_ofList, hread]
  exact ht

/-- A tree that can be spelled has a text, which gives a tree with the same snapshot and the same
text. -/
theorem Tree.ReachableWith.rebuilt {t : Tree} (h : t.ReachableWith Payload.Made)
    (hcatch : t.TriesCatch) : ∃ text rebuilt snapshot, t.source t.root = .ok text ∧
      buildTree text = .ok rebuilt ∧ t.snapshot? t.root = some snapshot ∧
      rebuilt.snapshot? rebuilt.root = some snapshot ∧ snapshot.agrees snapshot = true ∧
      rebuilt.source rebuilt.root = .ok text := by
  have hwf := h.reachable.wellFormed
  obtain ⟨package, items, hsnapshot, hadmissible⟩ := h.admissible_root
  have hspell := hadmissible.spellable ((hwf.triesCatch_iff hsnapshot).mpr hcatch)
  have hsource := Tree.source_root hwf hsnapshot hadmissible
  obtain ⟨rebuilt, hbuild, hreach, hsnapshot'⟩ := buildTree_unitText hspell
  have hsource' := Tree.source_root hreach.reachable.wellFormed hsnapshot' hadmissible
  exact ⟨_, rebuilt, _, hsource, hbuild, hsnapshot, hsnapshot', Snapshot.agrees_self _ hspell,
    hsource'⟩

theorem Command.format_eq_ok {files : Files} {path source text : String} {t : Tree}
    (hread : files.read path = .ok source) (hbuild : buildTree source = .ok t)
    (hsource : t.source t.root = .ok text) :
    Command.format files path = .ok (.format path (source != text) text) := by
  have hload : Command.loadTree files path = .ok (source, t) := by
    simp only [Command.loadTree, hread, hbuild]
  simp only [Command.format, hload, bind, Except.bind, hsource, pure, Except.pure]

/-- Each tree in which every `try` has a `catch` is rebuilt from its text, with the same snapshot
and the same text; the trees that texts give are of this sort, and what is formatted once stays as
it is when it is formatted again. -/
theorem source_round_trip :
    (∀ t : Tree, t.ReachableWith Payload.Made → t.TriesCatch →
      ∃ text rebuilt snapshot, t.source t.root = .ok text ∧ buildTree text = .ok rebuilt ∧
        t.snapshot? t.root = some snapshot ∧ rebuilt.snapshot? rebuilt.root = some snapshot ∧
        snapshot.agrees snapshot = true ∧ rebuilt.source rebuilt.root = .ok text) ∧
    (∀ (source : String) (t : Tree), buildTree source = .ok t →
      t.ReachableWith Payload.Made ∧ t.TriesCatch) ∧
    (∀ (source : String) (t : Tree), buildTree source = .ok t →
      ∃ text, (∀ (files : Files) (path : String), files.read path = .ok source →
          Command.format files path = .ok (.format path (source != text) text)) ∧
        ∀ (files : Files) (path : String), files.read path = .ok text →
          Command.format files path = .ok (.format path false text)) := by
  refine ⟨fun t h hcatch => h.rebuilt hcatch, fun source t h => buildTree_ok h, ?_⟩
  intro source t hbuild
  obtain ⟨hreach, hcatch⟩ := buildTree_ok hbuild
  obtain ⟨text, rebuilt, _, hsource, hrebuild, _, _, _, hsource'⟩ := hreach.rebuilt hcatch
  refine ⟨text, fun files path hread => Command.format_eq_ok hread hbuild hsource, ?_⟩
  intro files path hread
  rw [Command.format_eq_ok hread hrebuild hsource', bne_self_eq_false]

/-- A function whose `try` has a `catch` is rebuilt from its text. -/
theorem guarded_function_rebuilt :
    ∃ t : Tree, t.ReachableWith Payload.Made ∧ t.TriesCatch ∧
      t.kind? ⟨2, 0⟩ = some .tryStatement ∧ ∃ text rebuilt, t.source t.root = .ok text ∧
        buildTree text = .ok rebuilt ∧ rebuilt.snapshot? rebuilt.root = t.snapshot? t.root := by
  have hfunction : (Payload.function "f" [] []).Made := ⟨.function "f" [] [], rfl⟩
  have hcatch : (Payload.catchClause "Error" "e").Made := ⟨.catchClause "Error" "e", rfl⟩
  have hreach : (((((((Tree.new none).after (.create (.function "f" [] []))).after
      (.appendChild ⟨0, 0⟩ ⟨1, 0⟩)).after (.create .tryStatement)).after
      (.appendChild ⟨1, 0⟩ ⟨2, 0⟩)).after (.create (.catchClause "Error" "e"))).after
      (.appendChild ⟨2, 0⟩ ⟨3, 0⟩)).ReachableWith Payload.Made := by
    refine .after _ nofun (.after _ ?_ (.after _ nofun (.after _ ?_ (.after _ nofun
      (.after _ ?_ (.new none ⟨.compilationUnit none, rfl⟩))))))
    · exact fun _ hsome => Option.some.inj hsome ▸ hcatch
    · exact fun _ hsome => Option.some.inj hsome ▸ ⟨.tryStatement, rfl⟩
    · exact fun _ hsome => Option.some.inj hsome ▸ hfunction
  generalize ht : Tree.after _ (.appendChild ⟨2, 0⟩ ⟨3, 0⟩) = t at hreach
  have htries : t.TriesCatch := by
    have hall : ∀ id ∈ t.nodes.ids, t.kind? id = some .tryStatement →
        ∃ child ∈ t.children id, t.kind? child = some .catchClause := by
      rw [← ht]
      decide
    intro id _ hkind
    obtain ⟨node, hnode⟩ := (t.contains_iff id).mp (Tree.contains_of_kind? hkind)
    exact hall id ((t.nodes.mem_ids_iff id).mpr ⟨node, hnode⟩) hkind
  obtain ⟨text, rebuilt, _, hsource, hbuild, hsnapshot, hsnapshot', _⟩ :=
    source_round_trip.1 t hreach htries
  exact ⟨t, hreach, htries, by rw [← ht]; decide, text, rebuilt, hsource, hbuild,
    hsnapshot'.trans hsnapshot.symm⟩

end ProgramTree
