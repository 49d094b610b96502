import ProgramTree.Proofs.CommandLine
import ProgramTree.Proofs.Walk.Mapped

/-! # Flags and settings

What a flag says counts like what a file of settings says. Flags only add to
lists, and the linter and the outline ask no more of a list than what is in it.
A disabled rule takes its findings away and nothing else. So it does not matter
to a run where a depth, a rule or a kind comes from. -/

namespace ProgramTree

set_option autoImplicit false

section Lists

variable {α : Type} [DecidableEq α] {present items added : List α}

/-- The items that a list does not hold yet, each once, in the order in which they first come. -/
structure NewAmong (present items added : List α) : Prop where
  mem_iff (x : α) : x ∈ added ↔ x ∈ items ∧ x ∉ present
  ordered : added.Pairwise fun x y => items.idxOf x < items.idxOf y

/-- Items with another one before them come in the same order as without it. -/
theorem pairwise_idxOf_cons {x : α} (h : added.Pairwise fun y z => items.idxOf y < items.idxOf z)
    (hout : ∀ y ∈ added, x ≠ y) :
    added.Pairwise fun y z => (x :: items).idxOf y < (x :: items).idxOf z :=
  h.imp_of_mem fun hy hz hlt => by
    rw [List.idxOf_cons_ne _ (hout _ hy), List.idxOf_cons_ne _ (hout _ hz)]
    exact Nat.succ_lt_succ hlt

theorem addNew_cons (x : α) : addNew present (x :: items) =
    addNew (if x ∈ present then present else present ++ [x]) items := rfl

/-- What is added to a list comes behind it: the new items. -/
theorem exists_addNew (present items : List α) :
    ∃ added, addNew present items = present ++ added ∧ NewAmong present items added := by
  induction items generalizing present with
  | nil => exact ⟨[], (List.append_nil present).symm, by simp, .nil⟩
  | cons x items ih =>
    rw [addNew_cons]
    by_cases hx : x ∈ present
    · obtain ⟨added, hadded, hnew⟩ := ih present
      have hout : ∀ y ∈ added, x ≠ y := by
        rintro y hy rfl
        exact ((hnew.mem_iff x).mp hy).2 hx
      refine ⟨added, by rw [if_pos hx, hadded], fun y => ?_, pairwise_idxOf_cons hnew.ordered hout⟩
      rw [hnew.mem_iff, List.mem_cons]
      exact ⟨fun h => ⟨.inr h.1, h.2⟩, fun h => ⟨h.1.resolve_left fun heq => h.2 (heq ▸ hx), h.2⟩⟩
    · obtain ⟨added, hadded, hnew⟩ := ih (present ++ [x])
      have hout : ∀ y ∈ added, x ≠ y := by
        rintro y hy rfl
        exact ((hnew.mem_iff x).mp hy).2 (by simp)
      refine ⟨x :: added, by rw [if_neg hx, hadded, List.append_assoc]; rfl, fun y => ?_, ?_⟩
      · rw [List.mem_cons, hnew.mem_iff, List.mem_cons, List.mem_append, List.mem_singleton]
        by_cases hy : y = x
        · simp [hy, hx]
        · simp [hy]
      · refine List.pairwise_cons.mpr ⟨fun y hy => ?_, pairwise_idxOf_cons hnew.ordered hout⟩
        rw [List.idxOf_cons_self, List.idxOf_cons_ne _ (hout y hy)]
        exact Nat.succ_pos _

theorem mem_addNew {x : α} : x ∈ addNew present items ↔ x ∈ present ∨ x ∈ items := by
  obtain ⟨added, hadded, hnew⟩ := exists_addNew present items
  rw [hadded, List.mem_append, hnew.mem_iff]
  by_cases hx : x ∈ present <;> simp [hx]

theorem addNew_of_subset (h : ∀ x ∈ items, x ∈ present) : addNew present items = present := by
  obtain ⟨added, hadded, hnew⟩ := exists_addNew present items
  have hnone : added = [] :=
    List.eq_nil_iff_forall_not_mem.mpr fun x hx =>
      ((hnew.mem_iff x).mp hx).2 (h x ((hnew.mem_iff x).mp hx).1)
  rw [hadded, hnone, List.append_nil]

end Lists

namespace Settings

variable {s r : Settings} {o : Overrides}

/-- Settings that a run may start from: those of a text, or the usual ones. -/
def Accepted (s : Settings) : Prop :=
  s = default ∨ ∃ text, ofText text = .ok s

theorem Accepted.one_le_maxDepth (h : s.Accepted) : 1 ≤ s.lint.maxDepth := by
  rcases h with heq | ⟨text, htext⟩
  · rw [heq]
    exact Nat.le_add_left 1 4
  · unfold ofText at htext
    generalize (Toml.ofText? text).bind ofToml? = read at htext
    cases read with
    | none => cases htext
    | some settings =>
      by_cases hdepth : settings.lint.maxDepth = 0
      · simp only [if_pos hdepth] at htext
        cases htext
      · simp only [if_neg hdepth] at htext
        cases htext
        exact Nat.one_le_iff_ne_zero.mpr hdepth

/-- The settings with what flags say, whatever depth they say. -/
def merged (s : Settings) (o : Overrides) : Settings :=
  ⟨⟨o.maxDepth.getD s.lint.maxDepth, addNew s.lint.disabled o.disabled⟩,
    ⟨addNew s.outline.collapse o.collapse⟩⟩

theorem withOverrides_eq (s : Settings) (o : Overrides) : s.withOverrides o =
    if o.maxDepth = some 0 then .error (.invalidArguments "--max-depth must be at least 1")
    else .ok (s.merged o) := by
  simp only [withOverrides, override?]
  by_cases hdepth : o.maxDepth = some 0
  · rw [if_pos hdepth, if_pos hdepth]
  · rw [if_neg hdepth, if_neg hdepth]
    rfl

/-- Flags that have been heard once say nothing new. -/
theorem merged_merged (s : Settings) (o : Overrides) : (s.merged o).merged o = s.merged o := by
  have hdepth : o.maxDepth.getD (o.maxDepth.getD s.lint.maxDepth) =
      o.maxDepth.getD s.lint.maxDepth := by cases o.maxDepth <;> rfl
  have hdisabled : addNew (s.merged o).lint.disabled o.disabled = (s.merged o).lint.disabled :=
    addNew_of_subset fun _ hrule => mem_addNew.mpr (.inr hrule)
  have hcollapse : addNew (s.merged o).outline.collapse o.collapse =
      (s.merged o).outline.collapse :=
    addNew_of_subset fun _ hkind => mem_addNew.mpr (.inr hkind)
  rw [merged, hdisabled, hcollapse]
  simp only [merged, hdepth]

end Settings

theorem contains_congr {α : Type} [DecidableEq α] {xs ys : List α} (h : ∀ x, x ∈ xs ↔ x ∈ ys)
    (x : α) : xs.contains x = ys.contains x := by
  rw [Bool.eq_iff_iff, List.contains_iff_mem, List.contains_iff_mem, h]

section Lint

open Linter

/-- The linter without the findings of some rules. -/
def Linter.drop (rules : List Rule) (l : Linter) : Linter :=
  { l with findings := l.findings.filter fun f => !rules.contains f.rule }

section Drop

variable (limit : Nat) (rules : List Rule) (site : Site) (l : Linter)

theorem report_drop (rule : Rule) (message : String) :
    (l.drop rules).report ⟨limit, rules⟩ rule site message =
      (l.report ⟨limit, []⟩ rule site message).drop rules := by
  by_cases hrule : rule ∈ rules <;> simp [report, drop, hrule]

theorem checkReachable_drop : (l.drop rules).checkReachable ⟨limit, rules⟩ site =
    (l.checkReachable ⟨limit, []⟩ site).drop rules := by
  simp only [checkReachable, apply_ite (drop rules)]
  cases previousKind? site.tree site.id with
  | none => rfl
  | some before => simp only [apply_ite (drop rules), ← report_drop]

theorem checkBody_drop : (l.drop rules).checkBody ⟨limit, rules⟩ site =
    (l.checkBody ⟨limit, []⟩ site).drop rules := by
  simp only [checkBody, apply_ite (drop rules), ← report_drop]

theorem enterNested_drop : (l.drop rules).enterNested ⟨limit, rules⟩ site =
    (l.enterNested ⟨limit, []⟩ site).drop rules := by
  simp only [enterNested, apply_ite (drop rules), ← report_drop]
  rfl

theorem checkLoopControl_drop : (l.drop rules).checkLoopControl ⟨limit, rules⟩ site =
    (l.checkLoopControl ⟨limit, []⟩ site).drop rules := by
  simp only [checkLoopControl, apply_ite (drop rules), ← report_drop]
  rfl

theorem enter_drop : (l.drop rules).enter ⟨limit, rules⟩ site =
    (l.enter ⟨limit, []⟩ site).drop rules := by
  have hloops (l : Linter) : (if site.kind = .whileLoop then
      { l.drop rules with loops := (l.drop rules).loops + 1 } else l.drop rules) =
        (if site.kind = .whileLoop then { l with loops := l.loops + 1 } else l).drop rules := by
    rw [apply_ite (drop rules)]
    rfl
  simp only [enter, checkReachable_drop, checkBody_drop, enterNested_drop, ← apply_ite (drop rules),
    hloops, checkLoopControl_drop]

theorem exit_drop : (l.drop rules).exit site = (l.exit site).drop rules := by
  unfold exit
  split <;> split <;> rfl

/-- The linter that has some rules disabled does what the one with all rules does, and keeps the
findings of the others. -/
theorem visitor_follows :
    (Linter.visitor ⟨limit, rules⟩).Follows (Linter.visitor ⟨limit, []⟩) (Linter.drop rules) where
  visit site l := congrArg (Except.ok Flow.proceed, ·) (enter_drop limit rules site l)
  leave site l := exit_drop rules site l

end Drop

/-- What a linter with some rules disabled finds in a tree, by what it finds with all of them. -/
theorem Tree.lint_disabled (t : Tree) (id : NodeId) (limit : Nat) (rules : List Rule) :
    t.lint id ⟨limit, rules⟩ = (t.lint id ⟨limit, []⟩).map fun (findings, summary) =>
      (findings.filter fun f => !rules.contains f.rule, summary) := by
  have hwalk (start : Linter) (hstart : start.findings = []) :
      t.walk id (Linter.visitor ⟨limit, rules⟩) start =
        ((t.walk id (Linter.visitor ⟨limit, []⟩) start).1,
          (t.walk id (Linter.visitor ⟨limit, []⟩) start).2.drop rules) := by
    have hdrop : start.drop rules = start := by rw [drop, hstart, List.filter_nil, ← hstart]
    have hfollows := (visitor_follows limit rules).walk t id start
    rwa [hdrop] at hfollows
  simp only [Tree.lint, hwalk]
  rcases t.walk id (Linter.visitor ⟨limit, []⟩) _ with ⟨e | summary, l⟩ <;> rfl

/-- The linter asks no more of the disabled rules than what is among them. -/
theorem Tree.lint_congr (t : Tree) (id : NodeId) {settings settings' : LintSettings}
    (hdepth : settings.maxDepth = settings'.maxDepth)
    (hdisabled : ∀ rule, rule ∈ settings.disabled ↔ rule ∈ settings'.disabled) :
    t.lint id settings = t.lint id settings' := by
  obtain ⟨limit, rules⟩ := settings
  obtain ⟨limit', rules'⟩ := settings'
  obtain rfl : limit = limit' := hdepth
  rw [t.lint_disabled id limit rules, t.lint_disabled id limit rules']
  simp only [contains_congr hdisabled]

end Lint

/-- The outline asks no more of the collapsed kinds than what is among them. -/
theorem Tree.outline_congr (t : Tree) (id : NodeId) {kinds kinds' : List NodeKind}
    (ids : List NodeId) (hkinds : ∀ kind, kind ∈ kinds ↔ kind ∈ kinds') :
    t.outline id kinds ids = t.outline id kinds' ids := by
  have hvisitor : OutlineRenderer.visitor kinds ids = OutlineRenderer.visitor kinds' ids := by
    simp only [OutlineRenderer.visitor, OutlineRenderer.isCollapsed, contains_congr hkinds]
  rw [Tree.outline, Tree.outline, hvisitor]

namespace Settings

/-- Settings and flags come to the same depth, rules and kinds as other settings and flags. -/
structure SaySame (s : Settings) (o : Overrides) (s' : Settings) (o' : Overrides) : Prop where
  depth : o.maxDepth.getD s.lint.maxDepth = o'.maxDepth.getD s'.lint.maxDepth
  disabled (rule : Rule) : rule ∈ s.lint.disabled ∨ rule ∈ o.disabled ↔
    rule ∈ s'.lint.disabled ∨ rule ∈ o'.disabled
  collapse (kind : NodeKind) : kind ∈ s.outline.collapse ∨ kind ∈ o.collapse ↔
    kind ∈ s'.outline.collapse ∨ kind ∈ o'.collapse

variable {s s' : Settings} {o o' : Overrides} {files files' : Files} {path : String}

theorem SaySame.check (h : SaySame s o s' o') (hread : files.read path = files'.read path) :
    Command.check files path (s.merged o) = Command.check files' path (s'.merged o') := by
  have hlint (t : Tree) : t.lint t.root (s.merged o).lint = t.lint t.root (s'.merged o').lint :=
    t.lint_congr t.root h.depth fun rule => by
      rw [merged, merged, mem_addNew, mem_addNew]
      exact h.disabled rule
  simp only [Command.check, Command.loadTree, hread, hlint]

theorem SaySame.outline (h : SaySame s o s' o') (hread : files.read path = files'.read path) :
    Command.outline files path (s.merged o) = Command.outline files' path (s'.merged o') := by
  have houtline (t : Tree) : t.outline t.root (s.merged o).outline.collapse [] =
      t.outline t.root (s'.merged o').outline.collapse [] :=
    t.outline_congr t.root [] fun kind => by
      rw [merged, merged, mem_addNew, mem_addNew]
      exact h.collapse kind
  simp only [Command.outline, Command.loadTree, hread, houtline]

end Settings

namespace CommandLine

/-- The commands are asked to do the same with the same file, and to show it in the same way. -/
structure Invocation.SameTask (i i' : Invocation) : Prop where
  command : i.command = i'.command
  file : i.file = i'.file
  format : i.format = i'.format
  logLevel : i.logLevel = i'.logLevel

variable {i i' : Invocation} {files files' : Files} {s s' : Settings}

theorem Invocation.settings_eq (hresolve : Settings.resolve files i.config = .ok s)
    (hdepth : i.overrides.maxDepth ≠ some 0) : i.settings files = .ok (s.merged i.overrides) := by
  rw [Invocation.settings, hresolve]
  exact (s.withOverrides_eq i.overrides).trans (if_neg hdepth)

/-- With settings and flags that say the same, a run is the same. -/
theorem execute_congr (htask : i.SameTask i') (hread : files.read i.file = files'.read i.file)
    (hsettings : i.settings files = .ok (s.merged i.overrides))
    (hsettings' : i'.settings files' = .ok (s'.merged i'.overrides))
    (hsame : Settings.SaySame s i.overrides s' i'.overrides) :
    execute i files = execute i' files' := by
  have hrespond : i.respond files (i.settings files) = i'.respond files' (i'.settings files') := by
    rw [hsettings, hsettings', Invocation.respond, Invocation.respond, ← htask.command,
      ← htask.file]
    cases i.command with
    | outline => exact hsame.outline hread
    | check => exact hsame.check hread
    | format => simp only [Command.format, Command.loadTree, hread]
    | dump => simp only [Command.dump, Command.loadTree, hread]
  have hlog : logLine i (i.settings files) = logLine i' (i'.settings files') := by
    simp only [hsettings, hsettings', logLine, htask.command, htask.file, htask.logLevel]
    cases i'.command <;> rfl
  rw [execute, execute, hrespond, hlog, htask.format]

/-- Flags count like settings. They are refused only for a depth of zero. Otherwise they keep the
lists of the settings, add what is new to them in its order, and say nothing new when heard again.
The findings and the outline of a tree depend on no more than what is in the lists, and disabled
rules only take their findings away. So two runs with the same task are the same if the flags of
each, with the settings that it finds, come to the same depth, rules and kinds. -/
theorem flags_as_settings :
    (∀ (s : Settings) (o : Overrides), s.Accepted →
      ((∃ e, s.withOverrides o = .error e) ↔ o.maxDepth = some 0) ∧
      ∀ r, s.withOverrides o = .ok r →
        1 ≤ r.lint.maxDepth ∧ r.lint.maxDepth = o.maxDepth.getD s.lint.maxDepth ∧
        (∃ added, r.lint.disabled = s.lint.disabled ++ added ∧
          NewAmong s.lint.disabled o.disabled added) ∧
        (∃ added, r.outline.collapse = s.outline.collapse ++ added ∧
          NewAmong s.outline.collapse o.collapse added) ∧
        r.withOverrides o = .ok r) ∧
    (∀ (t : Tree) (id : NodeId) (limit : Nat) (rules rules' : List Rule),
      (∀ rule, rule ∈ rules ↔ rule ∈ rules') →
        t.lint id ⟨limit, rules⟩ = t.lint id ⟨limit, rules'⟩) ∧
    (∀ (t : Tree) (id : NodeId) (kinds kinds' : List NodeKind) (ids : List NodeId),
      (∀ kind, kind ∈ kinds ↔ kind ∈ kinds') → t.outline id kinds ids = t.outline id kinds' ids) ∧
    (∀ (t : Tree) (id : NodeId) (limit : Nat) (rules : List Rule),
      t.lint id ⟨limit, rules⟩ = (t.lint id ⟨limit, []⟩).map fun (findings, summary) =>
        (findings.filter fun f => !rules.contains f.rule, summary)) ∧
    ∀ (arguments arguments' : List String) (files files' : Files) (i i' : Invocation)
      (s s' : Settings), invocation arguments = .ok i → invocation arguments' = .ok i' →
      i.SameTask i' → files.read i.file = files'.read i.file →
      Settings.resolve files i.config = .ok s → Settings.resolve files' i'.config = .ok s' →
      i.overrides.maxDepth ≠ some 0 → i'.overrides.maxDepth ≠ some 0 →
      Settings.SaySame s i.overrides s' i'.overrides →
      run arguments files = run arguments' files' := by
  refine ⟨fun s o haccepted => ⟨?_, fun r hr => ?_⟩,
    fun t id limit rules rules' hrules => t.lint_congr id rfl hrules,
    fun t id kinds kinds' ids hkinds => t.outline_congr id ids hkinds,
    fun t id limit rules => t.lint_disabled id limit rules, ?_⟩
  · rw [s.withOverrides_eq o]
    by_cases hdepth : o.maxDepth = some 0 <;> simp [hdepth]
  · have hdepth : o.maxDepth ≠ some 0 := by
      intro hzero
      rw [s.withOverrides_eq o, if_pos hzero] at hr
      cases hr
    rw [s.withOverrides_eq o, if_neg hdepth, Except.ok.injEq] at hr
    subst hr
    refine ⟨?_, rfl, exists_addNew _ _, exists_addNew _ _, ?_⟩
    · rw [Settings.merged]
      cases hmax : o.maxDepth with
      | none => exact haccepted.one_le_maxDepth
      | some depth => exact Nat.one_le_iff_ne_zero.mpr fun hzero => hdepth (hzero ▸ hmax)
    · rw [(s.merged o).withOverrides_eq o, if_neg hdepth, s.merged_merged o]
  · intro arguments arguments' files files' i i' s s' hi hi' htask hread hs hs' hdepth hdepth' hsame
    rw [run, run, hi, hi']
    exact execute_congr htask hread (Invocation.settings_eq hs hdepth)
      (Invocation.settings_eq hs' hdepth') hsame

/-- A depth and a rule in flags, and the same ones in a file of settings. -/
theorem check_flags_as_settings :
    run ["check", "m", "--max-depth", "1", "--disable", "empty-body"]
        (fun path => if path = "m" then .file "function f() \x7b\x7d\n".toUTF8 else .missing) =
      run ["check", "m"] fun path =>
        if path = "m" then .file "function f() \x7b\x7d\n".toUTF8
        else if path = "./duet.toml" then
          .file "[lint]\nmax_depth = 1\ndisabled = [\"empty-body\"]\n".toUTF8
        else .missing := by
  have hpath : "m".contains '\x00' = false := by simp
  have husual : Settings.usualPath.contains '\x00' = false := by simp [Settings.usualPath]
  have htext : Settings.ofText "[lint]\nmax_depth = 1\ndisabled = [\"empty-body\"]\n" =
      .ok ⟨⟨1, [.emptyBody]⟩, ⟨[]⟩⟩ := by decide +kernel
  refine flags_as_settings.2.2.2.2 _ _ _ _
    ⟨.check, "m", none, .warn, ⟨some 1, [.emptyBody], []⟩, .json⟩
    ⟨.check, "m", none, .warn, ⟨none, [], []⟩, .json⟩ .default ⟨⟨1, [.emptyBody]⟩, ⟨[]⟩⟩
    rfl rfl ⟨rfl, rfl, rfl, rfl⟩ ?_ rfl ?_ nofun nofun
    ⟨rfl, fun _ => by simp [Settings.default, LintSettings.default], fun _ => .rfl⟩
  · rw [Files.read_of_text rfl hpath, Files.read_of_text rfl hpath]
  · rw [Settings.resolve, if_pos (by rfl), Settings.load, Files.read_of_text rfl husual]
    simp only [htext]

end CommandLine

end ProgramTree
