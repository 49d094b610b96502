import ProgramTree.Walk.Basic

/-! # The calls of a walk

What a visitor is told and asked during a walk, in order: each visit with the
answer, and each leave. The calls of a walk are read off a visitor that notes
its own calls and otherwise does what it did before. -/

namespace ProgramTree

set_option autoImplicit false

inductive Call
  | visit (site : Site) (answer : Except Unsupported Flow)
  | leave (site : Site)

namespace Call

def site : Call → Site
  | visit site _ | leave site => site

def id (call : Call) : NodeId :=
  call.site.id

/-- Whether the visitor refused the node. -/
def fails : Call → Bool
  | visit _ (.error _) => true
  | _ => false

/-- Whether the visitor did not want to see the children. -/
def skips : Call → Bool
  | visit _ (.ok .skipChildren) => true
  | _ => false

@[simp] theorem skips_skipChildren (site : Site) :
    (visit site (.ok .skipChildren)).skips = true := rfl

@[simp] theorem skips_proceed (site : Site) : (visit site (.ok .proceed)).skips = false := rfl

@[simp] theorem skips_leave (site : Site) : (leave site).skips = false := rfl

def visited? : Call → Option NodeId
  | visit site _ => some site.id
  | leave _ => none

def left? : Call → Option NodeId
  | visit _ _ => none
  | leave site => some site.id

/-- The node that the walk is inside of after the call. -/
def entered? : Call → Option Site
  | visit site (.ok _) => some site
  | _ => none

end Call

/-- The nodes visited, in the order of their visits. -/
def visits (calls : List Call) : List NodeId :=
  calls.filterMap Call.visited?

/-- The nodes left, in the order of their leaves. -/
def leaves (calls : List Call) : List NodeId :=
  calls.filterMap Call.left?

/-- The nodes entered and not left, innermost first. -/
def openSites (calls : List Call) : List Site :=
  (calls.filterMap Call.entered?).reverse.filter fun site => site.id ∉ leaves calls

/-- The summary when the calls have been made. -/
def WalkSummary.after (summary : WalkSummary) (calls : List Call) : WalkSummary :=
  ⟨summary.visited + (visits calls).length, summary.skipped + calls.countP Call.skips⟩

/-- The visitor with a note of its calls, each with the state that it left behind. -/
def Visitor.logged {σ : Type} (v : Visitor σ) : Visitor (σ × List (Call × σ)) where
  visit site state :=
    let (answer, s) := v.visit site state.1
    (answer, (s, state.2 ++ [(.visit site answer, s)]))
  leave site state :=
    let s := v.leave site state.1
    (s, state.2 ++ [(.leave site, s)])

def callsOf {σ : Type} (log : List (Call × σ)) : List Call :=
  log.map Prod.fst

section Lists

variable (site : Site) (answer : Except Unsupported Flow) (calls calls' : List Call)

@[simp] theorem visits_nil : visits [] = [] := rfl

@[simp] theorem visits_visit : visits (.visit site answer :: calls) = site.id :: visits calls := rfl

@[simp] theorem visits_leave : visits (.leave site :: calls) = visits calls := rfl

@[simp] theorem visits_append : visits (calls ++ calls') = visits calls ++ visits calls' :=
  List.filterMap_append

@[simp] theorem leaves_nil : leaves [] = [] := rfl

@[simp] theorem leaves_visit : leaves (.visit site answer :: calls) = leaves calls := rfl

@[simp] theorem leaves_leave : leaves (.leave site :: calls) = site.id :: leaves calls := rfl

@[simp] theorem leaves_append : leaves (calls ++ calls') = leaves calls ++ leaves calls' :=
  List.filterMap_append

variable {calls} in
theorem mem_visits_of_mem (h : .visit site answer ∈ calls) : site.id ∈ visits calls :=
  List.mem_filterMap.mpr ⟨_, h, rfl⟩

theorem exists_of_mem_visits {id : NodeId} (h : id ∈ visits calls) :
    ∃ call ∈ calls, call.id = id := by
  obtain ⟨call, hcall, hid⟩ := List.mem_filterMap.mp h
  cases call with
  | visit => exact ⟨_, hcall, Option.some.inj hid⟩
  | leave => cases hid

theorem exists_of_mem_leaves {id : NodeId} (h : id ∈ leaves calls) :
    ∃ site, site.id = id ∧ .leave site ∈ calls := by
  obtain ⟨call, hcall, hid⟩ := List.mem_filterMap.mp h
  cases call with
  | visit => cases hid
  | leave site => exact ⟨site, Option.some.inj hid, hcall⟩

end Lists

section Open

variable {site : Site} {calls : List Call}

@[simp] theorem openSites_nil : openSites [] = [] := rfl

theorem mem_entered {calls : List Call} :
    site ∈ calls.filterMap Call.entered? ↔ ∃ flow, .visit site (.ok flow) ∈ calls := by
  rw [List.mem_filterMap]
  constructor
  · rintro ⟨call, hcall, hsome⟩
    rcases call with ⟨other, _ | flow⟩ | _
    · cases hsome
    · cases hsome
      exact ⟨flow, hcall⟩
    · cases hsome
  · rintro ⟨flow, hcall⟩
    exact ⟨_, hcall, rfl⟩

theorem mem_openSites :
    site ∈ openSites calls ↔ (∃ flow, .visit site (.ok flow) ∈ calls) ∧ site.id ∉ leaves calls := by
  rw [openSites, List.mem_filter, List.mem_reverse, mem_entered, decide_eq_true_iff]

/-- A node that is entered before the given calls, and not left in them, is the outermost. -/
theorem openSites_enter {flow : Flow} (h : site.id ∉ leaves calls) :
    openSites (.visit site (.ok flow) :: calls) = openSites calls ++ [site] := by
  have hentered : (.visit site (.ok flow) :: calls).filterMap Call.entered? =
    site :: calls.filterMap Call.entered? := rfl
  rw [openSites, hentered, List.reverse_cons, List.filter_append, leaves_visit]
  simp [openSites, h]

theorem openSites_pass (site : Site) (flow : Flow) (h : openSites calls = []) :
    openSites (.visit site (.ok flow) :: (calls ++ [.leave site])) = [] := by
  rw [List.eq_nil_iff_forall_not_mem]
  intro other hother
  obtain ⟨⟨flow', hvisit⟩, hopen⟩ := mem_openSites.mp hother
  simp only [List.mem_cons, List.mem_append, List.not_mem_nil, or_false, Call.visit.injEq,
    reduceCtorEq, leaves_visit, leaves_append, leaves_leave, leaves_nil, not_or] at hvisit hopen
  rcases hvisit with ⟨rfl, _⟩ | hvisit
  · exact hopen.2 rfl
  · have hmem := mem_openSites.mpr ⟨⟨flow', hvisit⟩, hopen.1⟩
    simp [h] at hmem

/-- Calls in which every node entered was left again leave none open. -/
theorem openSites_append {prior : List Call} (hclosed : openSites prior = [])
    (hapart : ∀ id ∈ visits calls, id ∉ leaves prior) :
    openSites (prior ++ calls) = openSites calls := by
  have hprior : ∀ site ∈ prior.filterMap Call.entered?, site.id ∈ leaves prior := by
    intro site hsite
    refine Decidable.of_not_not fun hopen => ?_
    have hmem := mem_openSites.mpr ⟨mem_entered.mp hsite, hopen⟩
    simp [hclosed] at hmem
  rw [openSites, List.filterMap_append, List.reverse_append, List.filter_append, leaves_append]
  have houter : ((prior.filterMap Call.entered?).reverse.filter
      fun site => site.id ∉ leaves prior ++ leaves calls) = [] := by
    rw [List.filter_eq_nil_iff]
    intro site hsite
    simp [hprior site (List.mem_reverse.mp hsite)]
  rw [houter, List.append_nil]
  apply List.filter_congr
  intro site hsite
  obtain ⟨flow, hvisit⟩ := mem_entered.mp (List.mem_reverse.mp hsite)
  simp [hapart site.id (mem_visits_of_mem _ _ hvisit)]

end Open

theorem WalkSummary.after_append (summary : WalkSummary) (calls calls' : List Call) :
    summary.after (calls ++ calls') = (summary.after calls).after calls' := by
  simp [after, Nat.add_assoc]

theorem WalkSummary.after_cons (summary : WalkSummary) (call : Call) (calls : List Call) :
    summary.after (call :: calls) = (summary.after [call]).after calls :=
  summary.after_append [call] calls

section Logs

variable {σ : Type} (call : Call) (s : σ) (log log' : List (Call × σ))

@[simp] theorem callsOf_nil : callsOf ([] : List (Call × σ)) = [] := rfl

@[simp] theorem callsOf_cons : callsOf ((call, s) :: log) = call :: callsOf log := rfl

@[simp] theorem callsOf_append : callsOf (log ++ log') = callsOf log ++ callsOf log' :=
  List.map_append

theorem callsOf_split : callsOf (log ++ (call, s) :: log') =
    (callsOf log ++ [call]) ++ callsOf log' := by
  simp

end Logs

end ProgramTree
