import Mathlib.Data.List.Nodup
import Mathlib.Data.List.TakeWhile
import ProgramTree.Proofs.Document

/-! # What subscriptions are told

A run of a document is looked at from the outside, as the list of what was
answered to each action: a subscription was made, one was ended, a change was
made, or nothing that a listener hears of. From this history alone one can tell
what each subscription has been sent, namely the changes between its making and
its end, and which subscriptions there still are. -/

namespace ProgramTree.Document

set_option autoImplicit false

open Edit

/-! ## Histories -/

/-- What an action was answered, as far as it concerns listeners. -/
inductive Event
  | subscribed (s : Subscription)
  | unsubscribed (s : Subscription)
  | changed (change : Change) (tree : Tree)
  | silent

namespace Event

def makes (s : Subscription) : Event → Bool
  | .subscribed s' => s' = s
  | _ => false

def ends (s : Subscription) : Event → Bool
  | .unsubscribed s' => s' = s
  | _ => false

/-- The change that a listener hears of, with the tree that it is shown. -/
def heard? : Event → Option (Change × Tree)
  | .changed change tree => some (change, tree)
  | _ => none

/-- An operation is silent unless it was answered with a change. -/
def ofChange (change? : Option Change) (tree : Tree) : Event :=
  match change? with
  | some change => .changed change tree
  | none => .silent

def handle? : Event → Option Subscription
  | .subscribed s => some s
  | _ => none

end Event

/-- The change that an operation is answered with. -/
def change? (d : Document) : Tree.Operation → Option Change
  | .insertChild parent index node => (d.insertChild parent index node).1.toOption
  | .appendChild parent node => (d.appendChild parent node).1.toOption
  | .removeChild parent index => (d.removeChild parent index).1.toOption
  | .replaceChild parent index node => (d.replaceChild parent index node).1.toOption
  | .moveChild fromParent fromIndex toParent toIndex =>
    (d.moveChild fromParent fromIndex toParent toIndex).1.toOption
  | .update node payload => (d.update node payload).1.toOption.map Prod.snd
  | .create _ | .discard _ | .sweep => none

def event (d : Document) : Action → Event
  | .operation operation => .ofChange (d.change? operation) (d.after (.operation operation)).tree
  | .subscribe => .subscribed d.subscribe.1
  | .unsubscribe s => .unsubscribed s

/-- The documents that runs lead to, with what happened on the way. -/
inductive Played : List Event → Document → Prop
  | new (package : Option String) : Played [] (ofTree (.new package))
  | after {past : List Event} {d : Document} (action : Action) :
    Played past d → Played (past ++ [d.event action]) (d.after action)

/-- The subscriptions that were made, in the order in which they were made. -/
def handles (history : List Event) : List Subscription :=
  history.filterMap Event.handle?

/-- What happened after a subscription was made. -/
def behind (s : Subscription) (history : List Event) : List Event :=
  (history.dropWhile (!·.makes s)).drop 1

/-- What happened between the making of a subscription and its end. -/
def span (s : Subscription) (history : List Event) : List Event :=
  (behind s history).takeWhile (!·.ends s)

/-- Whether a subscription was made and has not been ended since. -/
def listens (s : Subscription) (history : List Event) : Bool :=
  history.any (·.makes s) && (behind s history).all (!·.ends s)

/-- What a subscription has been sent, oldest first. -/
def received (d : Document) (s : Subscription) : List (Change × Tree) :=
  (d.notifications.filter (·.subscription = s)).map fun n => (n.change, n.tree)

/-- What is sent out on an event, in the order in which the listeners are called. -/
def sent (d : Document) (e : Event) : List Notification :=
  match e.heard? with
  | some (change, tree) => d.subscriptions.map (⟨·, change, tree⟩)
  | none => []

section Spans

variable {s : Subscription} {e : Event} {past : List Event}

theorem any_makes_iff (s : Subscription) (past : List Event) :
    past.any (·.makes s) = true ↔ s ∈ handles past := by
  rw [List.any_eq_true, handles, List.mem_filterMap]
  apply exists_congr
  intro e
  apply and_congr_right
  intro _
  cases e <;> simp [Event.makes, Event.handle?]

theorem behind_concat (s : Subscription) (past : List Event) (e : Event) :
    behind s (past ++ [e]) = if past.any (·.makes s) then behind s past ++ [e] else [] := by
  induction past with
  | nil => cases hmakes : e.makes s <;> simp [behind, hmakes]
  | cons first past ih => cases hmakes : first.makes s <;> simp_all [behind]

theorem listens_concat (hnew : e.makes s = true → s ∉ handles past) :
    listens s (past ++ [e]) = ((listens s past && !e.ends s) || e.makes s) := by
  unfold listens
  rw [behind_concat]
  cases hpast : past.any (·.makes s) with
  | false => simp [hpast]
  | true =>
    have hold : e.makes s = false := by
      apply Bool.eq_false_iff.mpr
      intro hmakes
      exact hnew hmakes ((any_makes_iff s past).mp hpast)
    simp [hpast, hold]

theorem takeWhile_concat (p : Event → Bool) (past : List Event) (e : Event) :
    (past ++ [e]).takeWhile p = past.takeWhile p ++ if past.all p && p e then [e] else [] := by
  induction past with
  | nil => cases he : p e <;> simp [he]
  | cons first past ih => cases hfirst : p first <;> simp [hfirst, ih]

theorem span_concat (s : Subscription) (past : List Event) (e : Event) :
    span s (past ++ [e]) =
      span s past ++ if listens s past && !e.ends s then [e] else [] := by
  unfold span listens
  rw [behind_concat]
  cases hpast : past.any (·.makes s) with
  | false =>
    have hnone : past.dropWhile (!·.makes s) = [] := by
      apply List.dropWhile_eq_nil_iff.mpr
      simpa using hpast
    simp [behind, hnone]
  | true => simpa using takeWhile_concat (!·.ends s) (behind s past) e

theorem heard_span_concat (s : Subscription) (past : List Event) (e : Event) :
    (span s (past ++ [e])).filterMap Event.heard? =
      (span s past).filterMap Event.heard? ++ if listens s past then e.heard?.toList else [] := by
  rw [span_concat, List.filterMap_append]
  congr 1
  cases listens s past with
  | false => rfl
  | true => cases e with
    | unsubscribed s' => cases hends : (Event.unsubscribed s').ends s <;> simp [Event.heard?]
    | subscribed | changed | silent => rfl

end Spans

/-! ## What one action does -/

theorem sent_ofChange (d : Document) (change? : Option Change) (tree : Tree) :
    d.sent (.ofChange change? tree) =
      match change? with
      | some change => d.subscriptions.map (⟨·, change, tree⟩)
      | none => [] := by
  cases change? <;> rfl

theorem notifications_perform {α : Type} (d : Document) (x : Edit α) (change : α → Change) :
    (d.perform x change).2.notifications =
      d.notifications ++ d.sent
        (.ofChange ((d.perform x change).1.toOption.map change) (d.perform x change).2.tree) := by
  rw [sent_ofChange]
  cases houtcome : x.outcome d.tree with
  | mk answer t' =>
    cases answer with
    | ok a =>
      rw [perform_of_ok houtcome]
      rfl
    | error e =>
      rw [perform_of_error houtcome]
      exact (List.append_nil _).symm

theorem notifications_perform_id (d : Document) (x : Edit Change) :
    (d.perform x id).2.notifications =
      d.notifications ++ d.sent
        (.ofChange (d.perform x id).1.toOption (d.perform x id).2.tree) := by
  rw [notifications_perform, Option.map_id_apply]

theorem notifications_after (d : Document) (action : Action) :
    (d.after action).notifications = d.notifications ++ d.sent (d.event action) := by
  cases action with
  | operation operation =>
    cases operation with
    | create | discard | sweep => exact (List.append_nil _).symm
    | insertChild | appendChild | removeChild | replaceChild | moveChild =>
      exact d.notifications_perform_id _
    | update => exact d.notifications_perform _ Prod.snd
  | subscribe | unsubscribe => exact (List.append_nil _).symm

theorem filter_eq_of_nodup {listeners : List Subscription} (hnodup : listeners.Nodup)
    (s : Subscription) :
    listeners.filter (· = s) = if s ∈ listeners then [s] else [] := by
  rw [show listeners.filter (· = s) = _ from List.filter_eq s]
  by_cases hs : s ∈ listeners
  · rw [if_pos hs, List.count_eq_one_of_mem hnodup hs, List.replicate_one]
  · rw [if_neg hs, List.count_eq_zero_of_not_mem hs, List.replicate_zero]

/-- A subscription that there is hears of an event once, and no other hears of it. -/
theorem received_after {d : Document} (hnodup : d.subscriptions.Nodup) (action : Action)
    (s : Subscription) :
    (d.after action).received s =
      d.received s ++ if s ∈ d.subscriptions then (d.event action).heard?.toList else [] := by
  unfold received
  rw [notifications_after, List.filter_append, List.map_append]
  congr 1
  unfold sent
  cases (d.event action).heard? with
  | none => simp
  | some heard =>
    have hfilter : d.subscriptions.filter
        ((·.subscription = s) ∘ fun s' => (⟨s', heard.1, heard.2⟩ : Notification)) = _ :=
      filter_eq_of_nodup hnodup s
    rw [List.filter_map, hfilter, List.map_map]
    split <;> rfl

theorem unsubscribe_eq {d : Document} (hnodup : d.subscriptions.Nodup) (s : Subscription) :
    d.unsubscribe s =
      (decide (s ∈ d.subscriptions), { d with subscriptions := d.subscriptions.erase s }) := by
  rw [unsubscribe, hnodup.erase_eq_filter]
  congr 2
  apply List.filter_congr
  intro s' _
  exact decide_not

/-! ## What a run does -/

namespace Event

variable (change? : Option Change) (tree : Tree) (s : Subscription)

@[simp]
theorem makes_ofChange : (ofChange change? tree).makes s = false := by
  cases change? <;> rfl

@[simp]
theorem ends_ofChange : (ofChange change? tree).ends s = false := by
  cases change? <;> rfl

@[simp]
theorem handle?_ofChange : (ofChange change? tree).handle? = none := by
  cases change? <;> rfl

end Event

namespace Played

variable {past : List Event} {d : Document}

theorem reachable (h : Played past d) : d.Reachable := by
  induction h with
  | new package => exact .new package
  | after action _ ih => exact .after action ih

theorem nodup (h : Played past d) : d.subscriptions.Nodup := by
  apply h.reachable.subscriptions_ordered.1.imp
  intro s s' hlt heq
  exact absurd hlt (heq ▸ Nat.lt_irrefl _)

/-- The subscriptions that were made are numbered through. -/
theorem handles_eq (h : Played past d) :
    handles past = (List.range d.nextNumber).map Subscription.mk := by
  induction h with
  | new package => rfl
  | @after past d action _ ih =>
    rw [handles, List.filterMap_append, ← handles, ih]
    cases action with
    | operation operation =>
      rw [(d.subscriptions_after_operation operation).2]
      simp [event]
    | subscribe =>
      change _ = (List.range (d.nextNumber + 1)).map Subscription.mk
      rw [List.range_succ, List.map_append]
      rfl
    | unsubscribe s => exact List.append_nil _

theorem handles_nodup (h : Played past d) : (handles past).Nodup := by
  rw [h.handles_eq]
  apply List.nodup_range.map
  intro n n' heq
  exact Subscription.mk.inj heq

/-- No number is given twice. -/
theorem not_made_before (h : Played past d) {action : Action} {s : Subscription}
    (hmakes : (d.event action).makes s = true) : s ∉ handles past := by
  cases action with
  | operation operation => simp [event] at hmakes
  | subscribe =>
    obtain rfl : (⟨d.nextNumber⟩ : Subscription) = s := of_decide_eq_true hmakes
    rw [h.handles_eq]
    simp
  | unsubscribe s' => cases hmakes

theorem sublist_handles (h : Played past d) : d.subscriptions.Sublist (handles past) := by
  induction h with
  | new package => exact .slnil
  | @after past d action _ ih =>
    rw [handles, List.filterMap_append, ← handles]
    cases action with
    | operation operation =>
      rw [(d.subscriptions_after_operation operation).1]
      exact ih.trans (List.sublist_append_left _ _)
    | subscribe => exact ih.append (List.Sublist.refl _)
    | unsubscribe s => exact List.filter_sublist.trans (ih.trans (List.sublist_append_left _ _))

theorem mem_subscriptions_iff (h : Played past d) (s : Subscription) :
    s ∈ d.subscriptions ↔ listens s past = true := by
  induction h with
  | new package => exact ⟨nofun, nofun⟩
  | @after past d action h ih =>
    rw [listens_concat h.not_made_before, Bool.or_eq_true, Bool.and_eq_true, ← ih]
    cases action with
    | operation operation =>
      rw [(d.subscriptions_after_operation operation).1]
      simp [event]
    | subscribe =>
      change s ∈ d.subscriptions ++ [_] ↔ _
      simp [event, subscribe, Event.makes, Event.ends, eq_comm]
    | unsubscribe s' =>
      change s ∈ d.subscriptions.filter (· ≠ s') ↔ _
      simp [event, Event.makes, Event.ends, ne_comm]

/-- A subscription has been sent the changes between its making and its end. -/
theorem received_eq (h : Played past d) (s : Subscription) :
    d.received s = (span s past).filterMap Event.heard? := by
  induction h with
  | new package => rfl
  | @after past d action h ih =>
    rw [received_after h.nodup, heard_span_concat, ih]
    simp only [h.mem_subscriptions_iff]

end Played

/-- Of every run: no two subscriptions are the same. Each has been sent the changes between its
making and its end, and nothing else. Those that were made and not ended are listed in the order in
which they were made, and on the next action, if it makes a change, are called in this order. It is
these that can be ended, each without touching the others. -/
theorem runs_delivered {past : List Event} {d : Document} (h : Played past d) :
    (handles past).Nodup ∧
    (∀ s, d.received s = (span s past).filterMap Event.heard?) ∧
    (d.subscriptions.Sublist (handles past) ∧
      ∀ s, s ∈ d.subscriptions ↔ listens s past = true) ∧
    (∀ action, (d.after action).notifications = d.notifications ++ d.sent (d.event action)) ∧
    ∀ s, d.unsubscribe s =
      (listens s past, { d with subscriptions := d.subscriptions.erase s }) := by
  refine ⟨h.handles_nodup, h.received_eq, ⟨h.sublist_handles, h.mem_subscriptions_iff⟩,
    d.notifications_after, ?_⟩
  intro s
  rw [unsubscribe_eq h.nodup, Prod.mk.injEq]
  exact ⟨Bool.eq_iff_iff.mpr (decide_eq_true_iff.trans (h.mem_subscriptions_iff s)), rfl⟩

/-- Of two listeners one leaves before a function is put beneath the root. -/
theorem listener_that_stays_delivered :
    ∃ past d, Played past d ∧ handles past = [⟨0⟩, ⟨1⟩] ∧ d.received ⟨0⟩ = [] ∧
      (d.received ⟨1⟩).map Prod.fst = [.inserted ⟨0, 0⟩ 0 ⟨1, 0⟩] ∧
      (d.unsubscribe ⟨0⟩).1 = false ∧ (d.unsubscribe ⟨1⟩).1 = true := by
  have hplayed := Played.new none |>.after .subscribe |>.after .subscribe
    |>.after (.operation (.create (.function "f" [] []))) |>.after (.unsubscribe ⟨0⟩)
    |>.after (.operation (.appendChild ⟨0, 0⟩ ⟨1, 0⟩))
  obtain ⟨_, hreceived, _, _, hunsubscribe⟩ := runs_delivered hplayed
  refine ⟨_, _, hplayed, rfl, ?_, ?_, ?_, ?_⟩
  · rw [hreceived]
    rfl
  · rw [hreceived]
    rfl
  · rw [hunsubscribe]
    rfl
  · rw [hunsubscribe]
    rfl

end ProgramTree.Document
