import ProgramTree.CommandLine
import ProgramTree.Proofs.Json.Reading
import ProgramTree.Proofs.Lint.Faults
import ProgramTree.Proofs.Outline
import ProgramTree.Proofs.Source.RoundTrip

/-! # How a run ends

A command can go wrong in three ways only: its settings are refused, its source
file cannot be read, or the text of that file gives no tree. Once there is a
tree no view of it fails. So the exit code tells just which of these happened,
or what the linter found. -/

namespace ProgramTree

set_option autoImplicit false

/-- Every command has an answer about a tree that a text gives. -/
theorem views_of_buildTree {source : String} {t : Tree} (h : buildTree source = .ok t) :
    (∀ kinds, ∃ view, t.outline t.root kinds [] = .ok view) ∧
      (∀ settings, ∃ view, t.lint t.root settings = .ok view) ∧
      (∃ text, t.source t.root = .ok text) ∧ ∃ s, t.snapshot? t.root = some s := by
  have hwf := (buildTree_ok h).1.reachable.wellFormed
  refine ⟨fun kinds => ?_, fun settings => ?_, hwf.source_ok hwf.root_live, ?_⟩
  · obtain ⟨_, _, _, _, houtline⟩ := hwf.outline_eq hwf.root_live kinds []
    exact ⟨_, houtline⟩
  · obtain ⟨_, _, _, _, _, hlint⟩ := hwf.lint_eq hwf.root_live settings
    exact ⟨_, hlint⟩
  · obtain ⟨b, hb, _⟩ := hwf.exists_branch? hwf.root_live
    exact ⟨b.snapshot, by rw [Tree.snapshot?, hb, Option.map_some]⟩

theorem Json.Exact.read?_printed {j : Json} (h : j.Exact) : Json.read? j.printed = some j :=
  h.read?_written (List.forall_mem_singleton.mpr (rfl : isBlank '\n' = true))
    (by rw [printed, String.toList_append, pretty, toList_prettyAt]; rfl)

theorem Files.read_of_text {files : Files} {path text : String}
    (hfile : files path = .file text.toUTF8) (hpath : path.contains '\x00' = false) :
    files.read path = .ok text := by
  have hvalid : text.toByteArray.IsValidUTF8 := text.isValidUTF8
  simp [read, hpath, hfile, String.fromUTF8?, String.fromUTF8, hvalid]

namespace Command

variable {files : Files} {path source : String} {t : Tree} {e : CommandError}

/-- What becomes of a source file. -/
inductive Loads (files : Files) (path : String) : Except CommandError (String × Tree) → Prop
  | built {source : String} {t : Tree} :
      files.read path = .ok source → buildTree source = .ok t → Loads files path (.ok (source, t))
  | spoiled {source : String} {e : ParseError} :
      files.read path = .ok source → buildTree source = .error e →
      Loads files path (.error (.parse path e))
  | unreadable {message : String} :
      files.read path = .error message → Loads files path (.error (.fileNotReadable path message))

theorem loads (files : Files) (path : String) : Loads files path (loadTree files path) := by
  rw [loadTree]
  cases hread : files.read path with
  | error message => exact .unreadable hread
  | ok source =>
    cases hbuild : buildTree source with
    | error e => simpa only [hbuild] using Loads.spoiled hread hbuild
    | ok t => simpa only [hbuild] using Loads.built hread hbuild

end Command

namespace Settings

variable {files : Files} {e : CommandError}

theorem code_of_load_error {path : String} (h : load files path = .error e) : e.code = 2 := by
  rw [load] at h
  split at h
  · cases h
    rfl
  · split at h <;> cases h
    rfl

theorem code_of_resolve_error {config : Option String} (h : resolve files config = .error e) :
    e.code = 2 := by
  cases config with
  | some path => exact code_of_load_error h
  | none =>
    rw [resolve] at h
    split at h
    · exact code_of_load_error h
    · cases h

theorem code_of_withOverrides_error {s : Settings} {o : Overrides}
    (h : s.withOverrides o = .error e) : e.code = 2 := by
  rw [withOverrides] at h
  split at h <;> cases h
  rfl

end Settings

namespace CommandLine.Invocation

open Command

variable {i : Invocation} {files : Files} {source : String} {t : Tree} {e : CommandError}

/-- The settings are accepted, if the command depends on them. -/
def Configured (i : Invocation) (files : Files) : Prop :=
  i.command = .outline ∨ i.command = .check → ∃ settings, i.settings files = .ok settings

/-- The source file can be read and gives a tree. -/
def Builds (i : Invocation) (files : Files) : Prop :=
  ∃ source t, files.read i.file = .ok source ∧ buildTree source = .ok t

/-- The source file can be read and gives no tree. -/
def Spoiled (i : Invocation) (files : Files) : Prop :=
  ∃ source e, files.read i.file = .ok source ∧ buildTree source = .error e

/-- The linter finds something in the tree that the source file gives. -/
def Finds (i : Invocation) (files : Files) : Prop :=
  i.command = .check ∧ ∃ settings source t findings summary,
    i.settings files = .ok settings ∧ files.read i.file = .ok source ∧ buildTree source = .ok t ∧
      t.lint t.root settings.lint = .ok (findings, summary) ∧ findings ≠ []

theorem code_of_settings_error (h : i.settings files = .error e) : e.code = 2 := by
  rw [settings] at h
  cases hresolve : Settings.resolve files i.config with
  | error e' =>
    rw [hresolve] at h
    cases h
    exact Settings.code_of_resolve_error hresolve
  | ok s =>
    rw [hresolve] at h
    exact Settings.code_of_withOverrides_error h

theorem respond_of_not_configured (h : ¬ i.Configured files) :
    ∃ e, i.respond files (i.settings files) = .error e ∧ e.code = 2 := by
  obtain ⟨hcommand, hnone⟩ := Classical.not_imp.mp h
  cases hsettings : i.settings files with
  | ok settings => exact absurd ⟨settings, hsettings⟩ hnone
  | error e =>
    refine ⟨e, ?_, code_of_settings_error hsettings⟩
    rcases hcommand with hcommand | hcommand <;> rw [respond, hcommand] <;> rfl

theorem respond_of_not_loaded (h : i.Configured files) (hload : loadTree files i.file = .error e) :
    i.respond files (i.settings files) = .error e := by
  rw [respond]
  split
  · rename_i hcommand
    obtain ⟨settings, hsettings⟩ := h (.inl hcommand)
    simp [hsettings, Command.outline, hload, bind, Except.bind]
  · rename_i hcommand
    obtain ⟨settings, hsettings⟩ := h (.inr hcommand)
    simp [hsettings, Command.check, hload, bind, Except.bind]
  · simp [Command.format, hload, bind, Except.bind]
  · simp [Command.dump, hload, bind, Except.bind]

theorem not_finds (h : i.command ≠ .check) : ¬ i.Finds files :=
  fun hfinds => h hfinds.1

theorem exitCode_check {settings : Settings} {findings : List Finding} {summary : WalkSummary}
    (hcheck : i.command = .check) (hsettings : i.settings files = .ok settings)
    (hread : files.read i.file = .ok source) (hbuild : buildTree source = .ok t)
    (hlint : t.lint t.root settings.lint = .ok (findings, summary)) :
    (exitCode (.check i.file findings summary) = 5 ∧ i.Finds files) ∨
      (exitCode (.check i.file findings summary) = 0 ∧ ¬ i.Finds files) := by
  cases hfindings : findings with
  | nil =>
    refine .inr ⟨rfl, ?_⟩
    rintro ⟨_, settings', source', t', findings', summary', hsettings', hread', hbuild', hlint',
      hne⟩
    cases hsettings.symm.trans hsettings'
    cases hread.symm.trans hread'
    cases hbuild.symm.trans hbuild'
    cases hlint.symm.trans hlint'
    exact hne hfindings
  | cons f rest =>
    exact .inl ⟨rfl, hcheck, settings, source, t, findings, summary, hsettings, hread, hbuild,
      hlint, by simp [hfindings]⟩

theorem respond_of_built (h : i.Configured files) (hread : files.read i.file = .ok source)
    (hbuild : buildTree source = .ok t) :
    ∃ response, i.respond files (i.settings files) = .ok response ∧
      ((exitCode response = 5 ∧ i.Finds files) ∨ (exitCode response = 0 ∧ ¬ i.Finds files)) := by
  have hload : loadTree files i.file = .ok (source, t) := by simp only [loadTree, hread, hbuild]
  obtain ⟨houtline, hlint, ⟨text, hsource⟩, snapshot, hsnapshot⟩ := views_of_buildTree hbuild
  rw [respond]
  split
  · rename_i hcommand
    obtain ⟨settings, hsettings⟩ := h (.inl hcommand)
    obtain ⟨⟨root, summary⟩, hview⟩ := houtline settings.outline.collapse
    refine ⟨.outline i.file root summary, ?_, .inr ⟨rfl, not_finds (by simp [hcommand])⟩⟩
    simp [hsettings, Command.outline, hload, hview, bind, Except.bind, pure, Except.pure]
  · rename_i hcommand
    obtain ⟨settings, hsettings⟩ := h (.inr hcommand)
    obtain ⟨⟨findings, summary⟩, hview⟩ := hlint settings.lint
    refine ⟨.check i.file findings summary, ?_,
      exitCode_check hcommand hsettings hread hbuild hview⟩
    simp [hsettings, Command.check, hload, hview, bind, Except.bind, pure, Except.pure]
  · rename_i hcommand
    refine ⟨.format i.file (source != text) text, ?_, .inr ⟨rfl, not_finds (by simp [hcommand])⟩⟩
    simp [Command.format, hload, hsource, bind, Except.bind, pure, Except.pure]
  · rename_i hcommand
    refine ⟨.dump i.file snapshot, ?_, .inr ⟨rfl, not_finds (by simp [hcommand])⟩⟩
    simp [Command.dump, hload, hsnapshot, bind, Except.bind, pure, Except.pure]

theorem Finds.completes (h : i.Finds files) : i.Configured files ∧ i.Builds files := by
  obtain ⟨_, settings, source, t, _, _, hsettings, hread, hbuild, _⟩ := h
  exact ⟨fun _ => ⟨settings, hsettings⟩, source, t, hread, hbuild⟩

theorem Builds.not_spoiled (h : i.Builds files) : ¬ i.Spoiled files := by
  rintro ⟨source, e, hread, hbuild⟩
  obtain ⟨source', t, hread', hbuild'⟩ := h
  cases hread.symm.trans hread'
  cases hbuild.symm.trans hbuild'

/-- How a command ends: with an answer about the tree, over a source text that gives none, or
before there is such a text. -/
inductive Ends (i : Invocation) (files : Files) : Except CommandError Response → Prop
  | answered {response : Response} : i.Configured files → i.Builds files →
      ((exitCode response = 5 ∧ i.Finds files) ∨ (exitCode response = 0 ∧ ¬ i.Finds files)) →
      i.Ends files (.ok response)
  | spoiled {e : CommandError} : i.Configured files → i.Spoiled files → e.code = 3 →
      i.Ends files (.error e)
  | unusable {e : CommandError} :
      ¬ (i.Configured files ∧ (i.Builds files ∨ i.Spoiled files)) → e.code = 2 →
      i.Ends files (.error e)

theorem ends (i : Invocation) (files : Files) :
    i.Ends files (i.respond files (i.settings files)) := by
  by_cases hconfigured : i.Configured files
  · have hloads := loads files i.file
    cases hload : loadTree files i.file with
    | ok loaded =>
      rw [hload] at hloads
      obtain ⟨hread, hbuild⟩ := hloads
      obtain ⟨response, hrespond, hcode⟩ := respond_of_built hconfigured hread hbuild
      rw [hrespond]
      exact .answered hconfigured ⟨_, _, hread, hbuild⟩ hcode
    | error e =>
      rw [respond_of_not_loaded hconfigured hload]
      rw [hload] at hloads
      cases hloads with
      | spoiled hread hbuild => exact .spoiled hconfigured ⟨_, _, hread, hbuild⟩ rfl
      | unreadable hread =>
        refine .unusable ?_ rfl
        rintro ⟨_, ⟨_, _, hread', _⟩ | ⟨_, _, hread', _⟩⟩ <;> cases hread.symm.trans hread'
  · obtain ⟨e, hrespond, hcode⟩ := respond_of_not_configured hconfigured
    rw [hrespond]
    exact .unusable (fun h => hconfigured h.1) hcode

end CommandLine.Invocation

namespace CommandLine

open Invocation

/-- A text is read as an error response with the given code, which may name a location. -/
def Reports (text : String) (code : Nat) : Prop :=
  ∃ (message : String) (location : Option Json), Json.read? text = some (.object
    [("status", .string "error"), ("schema_version", .string "1"),
      ("error", .object ([("code", .int code), ("message", .string message)] ++
        location.toList.map (("location", ·))))])

theorem Reports.code_eq {text : String} {code code' : Nat} (h : Reports text code)
    (h' : Reports text code') : code = code' := by
  obtain ⟨_, _, hread⟩ := h
  obtain ⟨_, _, hread'⟩ := h'
  rw [hread] at hread'
  simp only [Option.some.injEq, Json.object.injEq, List.cons_append, List.cons.injEq,
    Prod.mk.injEq, Json.int.injEq, Int.natCast_inj, true_and] at hread'
  exact hread'.1.1

theorem exact_json (e : CommandError) : e.json.Exact := by
  cases e <;> simp [CommandError.json, CommandError.details]

theorem reports_json (e : CommandError) : Reports e.json.printed e.code := by
  unfold Reports
  rw [(exact_json e).read?_printed]
  cases e with
  | parse => exact ⟨_, some _, rfl⟩
  | _ => exact ⟨_, none, rfl⟩

/-- What is printed of a failure tells its code and no other. -/
theorem reports_json_iff (e : CommandError) (code : Nat) :
    Reports e.json.printed code ↔ code = e.code := by
  constructor
  · intro h
    exact h.code_eq (reports_json e)
  · rintro rfl
    exact reports_json e

theorem stdout_of_not_loaded {arguments : List String} {i : Invocation} {files : Files}
    {e : CommandError} (h : invocation arguments = .ok i) (hconfigured : i.Configured files)
    (hload : Command.loadTree files i.file = .error e) :
    (run arguments files).stdout = e.json.printed := by
  rw [run, h]
  simp only [execute, respond_of_not_loaded hconfigured hload]

/-- A run whose arguments are accepted exits with 0, 2, 3 or 5. It exits with 5 just if a check
finds something, and completes, with 0 or 5, just if the settings that matter are accepted and the
source file gives a tree. If it does not complete, what it prints is read as an error response with
its exit code and no other: 3 just if the settings that matter are accepted and the source file can
be read. -/
theorem run_accepted {arguments : List String} {i : Invocation}
    (h : invocation arguments = .ok i) (files : Files) :
    (run arguments files).code ∈ [0, 2, 3, 5] ∧
    ((run arguments files).code = 5 ↔ i.Finds files) ∧
    ((∃ response, i.respond files (i.settings files) = .ok response) ↔
      i.Configured files ∧ i.Builds files) ∧
    ((∃ response, i.respond files (i.settings files) = .ok response) ↔
      (run arguments files).code = 0 ∨ (run arguments files).code = 5) ∧
    ((run arguments files).code = 3 ↔ i.Configured files ∧ i.Spoiled files) ∧
    ((¬ ∃ response, i.respond files (i.settings files) = .ok response) →
      ∀ code, Reports (run arguments files).stdout code ↔ code = (run arguments files).code) := by
  have hrun : run arguments files = execute i files := by rw [run, h]
  have hends := i.ends files
  rw [hrun, execute]
  cases hrespond : i.respond files (i.settings files) with
  | ok response =>
    rw [hrespond] at hends
    cases hends with
    | answered hconfigured hbuilds hcode =>
      have hspoiled := hbuilds.not_spoiled
      rcases hcode with ⟨hcode, hfinds⟩ | ⟨hcode, hfinds⟩ <;>
        simp [hcode, hfinds, hconfigured, hbuilds, hspoiled]
  | error e =>
    have hnone : ¬ ∃ response, (.error e : Except CommandError Response) = .ok response := by simp
    rw [hrespond] at hends
    cases hends with
    | spoiled hconfigured hspoiled hcode =>
      have hbuilds : ¬ i.Builds files := fun h => h.not_spoiled hspoiled
      have hfinds : ¬ i.Finds files := fun h => hbuilds h.completes.2
      exact ⟨by simp [hcode], by simp [hcode, hfinds], by simp [hbuilds], by simp [hcode],
        by simp [hcode, hconfigured, hspoiled], fun _ => reports_json_iff e⟩
    | unusable hunusable hcode =>
      have hcompletes : ¬ (i.Configured files ∧ i.Builds files) :=
        fun h => hunusable ⟨h.1, .inl h.2⟩
      have hspoiled : ¬ (i.Configured files ∧ i.Spoiled files) :=
        fun h => hunusable ⟨h.1, .inr h.2⟩
      have hfinds : ¬ i.Finds files := fun h => hcompletes h.completes
      exact ⟨by simp [hcode], by simp [hcode, hfinds], iff_of_false hnone hcompletes,
        by simp [hcode], iff_of_false (by simp [hcode]) hspoiled, fun _ => reports_json_iff e⟩

/-- A file with a package line is formatted, and of one that is missing it is printed that it cannot
be read. -/
theorem run_format :
    ∃ i : Invocation, invocation ["fmt", "m"] = .ok i ∧
      (run ["fmt", "m"] fun _ => .file "package p;\n".toUTF8).code = 0 ∧
      (run ["fmt", "m"] fun _ => .missing).code = 2 ∧
      (run ["fmt", "m"] fun _ => .missing).stdout = "\x7b\n  \"status\": \"error\",\n" ++
        "  \"schema_version\": \"1\",\n  \"error\": \x7b\n    \"code\": 2,\n" ++
        "    \"message\": \"cannot read m: No such file or directory (os error 2)\"\n" ++
        "  \x7d\n\x7d\n" ∧
      ∀ code, Reports (run ["fmt", "m"] fun _ => .missing).stdout code ↔ code = 2 := by
  obtain ⟨i, hi, hcommand, hfile⟩ : ∃ i : Invocation,
      i = ⟨.format, "m", none, .warn, ⟨none, [], []⟩, .text⟩ ∧ i.command = .format ∧ i.file = "m" :=
    ⟨_, rfl, rfl, rfl⟩
  have hinvocation : invocation ["fmt", "m"] = .ok i := by rw [hi]; rfl
  have hconfigured (files : Files) : i.Configured files := by simp [Configured, hcommand]
  have hfinds (files : Files) : ¬ i.Finds files := not_finds (by simp [hcommand])
  refine ⟨i, hinvocation, ?_, ?_⟩
  · have hspell : (Snapshot.node (.compilationUnit (some "p")) []).Spellable :=
      .node (Payload.made_iff.mp ⟨.compilationUnit (some "p"), rfl⟩) rfl nofun nofun
    obtain ⟨t, hbuild, _⟩ := buildTree_unitText hspell
    have hbuilds : i.Builds fun _ => .file "package p;\n".toUTF8 :=
      ⟨_, t, Files.read_of_text rfl (by simp [hfile]), hbuild⟩
    obtain ⟨_, hfive, hrespond, hcode, _⟩ :=
      run_accepted hinvocation fun _ => .file "package p;\n".toUTF8
    exact (hcode.mp (hrespond.mpr ⟨hconfigured _, hbuilds⟩)).resolve_right
      fun h => hfinds _ (hfive.mp h)
  · have hread (source : String) : Files.read (fun _ => .missing) i.file ≠ .ok source := by
      simp [Files.read, hfile]
    obtain ⟨hmem, _, hrespond, hcompletes, hspoiled, hreports⟩ :=
      run_accepted hinvocation fun _ => .missing
    have hnone := mt hrespond.mp fun ⟨_, source, _, hread', _⟩ => hread source hread'
    have hends := mt hcompletes.mpr hnone
    have hthree := mt hspoiled.mp fun ⟨_, source, _, hread', _⟩ => hread source hread'
    have hcode : (run ["fmt", "m"] fun _ => .missing).code = 2 := by
      simp only [List.mem_cons, List.not_mem_nil, or_false] at hmem
      omega
    have hload : Command.loadTree (fun _ => .missing) i.file =
        .error (.fileNotReadable "m" "No such file or directory (os error 2)") := by
      simp [Command.loadTree, Files.read, hfile]
    refine ⟨hcode, ?_, hcode ▸ hreports hnone⟩
    rw [stdout_of_not_loaded hinvocation (hconfigured _) hload]
    decide +kernel

end CommandLine

end ProgramTree
