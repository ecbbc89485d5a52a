/-
# Drunos.Driver.Storage — how long the rules of a backend live

A rule without actions is the one that `install_on` does not store: its handle ends
at once and deletes the rule. All other handles are stored. So the rules and groups
of a run stay until the backend is destroyed, and its destructor deletes each of
them, exactly if no call that gets to a switch is for a rule without actions
(`run_keepsAll_iff`).
-/
import Drunos.Driver.Of13Backend
import Drunos.Retic.Translator
import Drunos.Theory.Run

namespace Drunos.Driver

open Drunos.Oxm Drunos.Theory Drunos.Retic

set_option autoImplicit false

section

variable [OxmTypes]

/-! ## Runs of a backend -/

namespace Of13Backend

open Fallible

def call : BackendCall → Fallible Of13Backend Unit
  | .install match' actions prio settings => install match' actions prio settings
  | .installBarrier match' prio => installBarrier match' prio

/-- The backend after a call, whether it throws or not. -/
def step (b : Of13Backend) (c : BackendCall) : Of13Backend := after (call c) b

end Of13Backend

def Message.command : Message → Command
  | .flowMod fm => fm.command
  | .groupMod gm => gm.command

/-- The message that deletes what a message has added. -/
def Message.deletion : Message → Message
  | .flowMod fm =>
      .flowMod
        { command := .delete, cookie := fm.cookie, cookieMask := 0xfffffffff, outPort := any,
          outGroup := any }
  | .groupMod gm => .groupMod { command := .delete, groupId := gm.groupId }

/-- All that was added is there, and the destructor deletes each of it. -/
structure Of13Backend.KeepsAll (b : Of13Backend) : Prop where
  undeleted : ∀ m ∈ b.sent, m.2.command = .add
  deletes : b.destroyed = b.sent.map fun m => (m.1, m.2.deletion)

/-- The call is not for a rule without actions on a switch. -/
def KeepsHandle (drivers : Drivers) : BackendCall → Prop
  | .install match' actions _ settings =>
      actions = [] → settings.hardTimeout ≠ 0 → ¬Of13Backend.Reaches drivers match'
  | .installBarrier _ _ => True

theorem OfObject.constructed_add (o : OfObject) : ∀ m ∈ o.constructed, m.2.command = .add := by
  cases o <;> simp [constructed, Fluid13Group.constructed, Fluid13Rule.constructed, Message.command,
    Fluid13Group.addMod, Fluid13Rule.addMod]

theorem OfObject.destroyed_eq (o : OfObject) :
    o.destroyed = o.constructed.map fun m => (m.1, m.2.deletion) := by
  cases o with
  | group g =>
      rw [constructed, Fluid13Group.constructed, List.map_map]
      rfl
  | rule r =>
      rw [constructed, Fluid13Rule.constructed, List.map_map]
      rfl

namespace Of13Backend

open Fallible

section

variable {match' : FieldSet} {actions : List FieldSet} {prio : Nat} {settings : FlowSettings}
  {acts : Actions} {dpid : Nat}

theorem stores_storeRule : Follows Stores (storeRule dpid match' prio acts) :=
  Follows.get_bind fun _ => (stores_keep Fluid13Driver.steady_installRule).bind fun _ =>
    Follows.of_after Std.Refl.refl fun _ => rfl

theorem stores_storeGroup {made : List Actions} : Follows Stores (storeGroup dpid .all made) :=
  stores_keep Fluid13Driver.steady_installGroup

/-- `install_on` stores every rule that has actions. -/
theorem stores_installOn (some : actions ≠ []) :
    Follows Stores (installOn dpid match' actions prio settings) :=
  follows_installOn (fun _ _ _ => stores_storeRule) (fun _ _ => stores_storeGroup)
    fun none => absurd none some

/-- No rule without actions gets to a switch of these. -/
def Unreached (match' : FieldSet) (dpids : List Nat) (b : Of13Backend) : Prop :=
  convertible match' = true → ∀ dpid ∈ dpids, (b.drivers.driver dpid).conn = none

theorem Unreached.of_sameDrivers {dpids : List Nat} {b b' : Of13Backend}
    (unreached : Unreached match' dpids b) (same : SameDrivers b b') : Unreached match' dpids b' :=
  fun takes other mem => (same.conn other).trans (unreached takes other mem)

/-- A rule that no switch gets has nothing to store. -/
theorem stores_dropRule {dpids : List Nat} (mem : dpid ∈ dpids) :
    Follows (Under (Unreached match' dpids) Stores) (dropRule dpid match' prio acts) := by
  intro b unreached
  cases installed : (b.drivers.driver dpid).installRule match' prio acts b.table with
  | none =>
      rw [after_dropRule_thrown installed]
      exact ⟨Std.Refl.refl b, unreached⟩
  | some made =>
      obtain ⟨r, d⟩ := made
      obtain ⟨rule, constructs, -⟩ := Fluid13Driver.installRule_eq installed
      have conn : r.conn = none := by
        by_cases takes : convertible match' = true
        · rw [rule]
          exact unreached takes dpid mem
        · simpa [Fluid13Rule.constructs, rule, takes] using constructs
      have same : SameDrivers b (after (dropRule dpid match' prio acts) b) := by
        rw [(after_dropRule installed).2]
        exact .set b (Fluid13Driver.steady_installRule _ _ _ installed)
      refine ⟨⟨same, [], ?_⟩, unreached.of_sameDrivers same⟩
      simp [(after_dropRule installed).2, Fluid13Rule.constructed, Fluid13Rule.destroyed, conn]

/-- What stores, stores also where no rule without actions arrives. -/
theorem under_stores {α : Type} {dpids : List Nat} {m : Fallible Of13Backend α}
    (stores : Follows Stores m) : Follows (Under (Unreached match' dpids) Stores) m :=
  fun b unreached => ⟨stores b, unreached.of_sameDrivers (stores b).toSameDrivers⟩

theorem stores_installOn_unreached {dpids : List Nat} (mem : dpid ∈ dpids) :
    Follows (Under (Unreached match' dpids) Stores)
      (installOn dpid match' actions prio settings) :=
  follows_installOn (fun _ _ _ => under_stores stores_storeRule)
    (fun _ _ => under_stores stores_storeGroup) fun _ => stores_dropRule mem

end

/-! ## Steps -/

theorem sends_step (b : Of13Backend) (c : BackendCall) : Sends (fun _ => True) b (step b c) := by
  cases c with
  | install match' actions prio settings =>
      rw [step, call, after_install]
      split
      · exact Std.Refl.refl b
      · exact Follows.forM (fun _ _ => sends_installOn) b
  | installBarrier match' prio =>
      rw [step, call, after_installBarrier]
      exact Follows.forM (fun _ _ _ => sends_storeRule fun _ _ _ _ _ _ => trivial) b

/-- A call that is not for a rule without actions on a switch stores all that it
installs. -/
theorem stores_step {b : Of13Backend} {c : BackendCall} (keeps : KeepsHandle b.drivers c) :
    Stores b (step b c) := by
  cases c with
  | install match' actions prio settings =>
      rw [step, call, after_install]
      by_cases zero : settings.hardTimeout = 0
      · rw [if_pos zero]
        exact Std.Refl.refl b
      · rw [if_neg zero]
        by_cases none : actions = []
        · have unreached : Unreached (onSwitch match') (targets b.drivers match') b := by
            intro takes dpid mem
            by_contra some
            exact keeps none zero ⟨takes, dpid, mem, Option.isSome_iff_ne_none.mpr some⟩
          exact (Follows.forM (fun dpid mem => stores_installOn_unreached mem) b unreached).1
        · exact Follows.forM (fun _ _ => stores_installOn none) b
  | installBarrier match' prio =>
      rw [step, call, after_installBarrier]
      exact Follows.forM (fun _ _ => stores_storeRule) b

/-- A rule without actions that gets to a switch is deleted there. -/
theorem not_sends_step {b : Of13Backend} {c : BackendCall} (drops : ¬KeepsHandle b.drivers c) :
    ¬Sends (fun m => m.2.command = .add) b (step b c) := by
  cases c with
  | installBarrier match' prio => exact absurd trivial drops
  | install match' actions prio settings =>
      simp only [KeepsHandle, Classical.not_imp, not_not] at drops
      obtain ⟨rfl, timeout, takes, dpid, mem, conn⟩ := drops
      obtain ⟨c, conn⟩ := Option.isSome_iff_exists.mp conn
      rw [step, call, after_install, if_neg timeout]
      intro sends
      have each : ∀ x ∈ targets b.drivers match',
          Follows (Sends fun _ => True) (installOn x (onSwitch match') [] prio settings) :=
        fun _ _ => sends_installOn
      obtain ⟨t, before, later⟩ := forM_reaches each
        (fun _ _ => returns_installOn takes (List.forall_mem_nil _)) mem b
      have here : dpid ∈ t.drivers.dpids := before.dpids ▸ mem_targets mem
      have between := sends.middle before (each dpid mem t) later
      obtain ⟨r, d, installed⟩ := (t.drivers.driver dpid).installRule_convertible {} prio t.table
        takes rfl
      obtain ⟨rule, -, -⟩ := Fluid13Driver.installRule_eq installed
      have left : (after (installOn dpid (onSwitch match') [] prio settings) t).sent =
          t.sent ++ (r.constructed ++ r.destroyed) := by
        rw [installOn, after_get_bind, if_pos here, if_pos List.isEmpty_nil,
          (after_dropRule installed).2]
      obtain ⟨new, sent, all⟩ := between.messages
      obtain rfl := List.append_cancel_left (left.symm.trans sent)
      have deleted : (c, Message.flowMod r.deleteMod) ∈ r.destroyed := by
        simp [Fluid13Rule.destroyed, rule, before.conn, conn]
      have added : Command.delete = .add := all _ (List.mem_append_right _ deleted)
      cases added

/-! ## Runs -/

/-- A backend that has not been called yet. -/
def new (drivers : Drivers) (table : Nat) : Of13Backend where
  drivers := drivers
  table := table

/-- All that a run sends of adding comes with a stored handle. -/
theorem Stores.keepsAll {drivers : Drivers} {table : Nat} {b : Of13Backend}
    (stores : Stores (new drivers table) b) : b.KeepsAll := by
  obtain ⟨_, kept, storage, sent⟩ := stores
  have storage : b.storage = kept := storage
  have sent : b.sent = kept.flatMap OfObject.constructed := sent
  constructor
  · intro m mem
    rw [sent] at mem
    obtain ⟨o, _, mem⟩ := List.mem_flatMap.mp mem
    exact o.constructed_add m mem
  · rw [destroyed, storage, sent, List.map_flatMap]
    exact List.flatMap_congr fun o _ => o.destroyed_eq

theorem keepsHandle_congr {b b' : Of13Backend} (same : SameDrivers b b') (c : BackendCall) :
    KeepsHandle b'.drivers c ↔ KeepsHandle b.drivers c := by
  cases c with
  | installBarrier => exact Iff.rfl
  | install match' actions prio settings =>
      simp only [KeepsHandle, Of13Backend.Reaches, targets, same.dpids, same.conn]

theorem sends_run (b : Of13Backend) (calls : List BackendCall) :
    Sends (fun _ => True) b (Run.final step b calls) :=
  Run.invariant_final (Sends (fun _ => True) b) (fun b' c sends => Trans.trans sends (sends_step b' c))
    calls (Std.Refl.refl b)

/-- A run that sends no deletion keeps the handle at every call. -/
theorem keepsHandle_of_sends {calls : List BackendCall} : ∀ {b : Of13Backend},
    Sends (fun m => m.2.command = .add) b (Run.final step b calls) →
      ∀ c ∈ calls, KeepsHandle b.drivers c := by
  induction calls with
  | nil => exact fun _ => List.forall_mem_nil _
  | cons c calls ih =>
      intro b sends
      rw [Run.final_cons] at sends
      have now : Sends _ b (step b c) :=
        sends.middle (Std.Refl.refl (r := Sends fun _ => True) b) (sends_step b c) (sends_run _ calls)
      have later : Sends _ (step b c) (Run.final step (step b c) calls) :=
        sends.middle (sends_step b c) (sends_run _ calls) (Std.Refl.refl (r := Sends fun _ => True) _)
      refine List.forall_mem_cons.mpr ⟨?_, fun c' mem => ?_⟩
      · by_contra drops
        exact not_sends_step drops now
      · exact (keepsHandle_congr now.toSameDrivers c').mp (ih later c' mem)

theorem keepsHandle_of_keepsAll {drivers : Drivers} {table : Nat} {calls : List BackendCall}
    (keeps : (Run.final step (new drivers table) calls).KeepsAll) :
    ∀ c ∈ calls, KeepsHandle drivers c := by
  have sends : Sends (fun m => m.2.command = .add) (new drivers table)
      (Run.final step (new drivers table) calls) :=
    ⟨(sends_run _ calls).toSameDrivers, _, rfl, keeps.undeleted⟩
  exact keepsHandle_of_sends sends

/-- Every rule and every group of a run stays until the destructor of the backend
deletes it, exactly if no call is for a rule without actions on a switch. -/
theorem run_keepsAll_iff (drivers : Drivers) (table : Nat) (calls : List BackendCall) :
    (Run.final step (new drivers table) calls).KeepsAll ↔ ∀ c ∈ calls, KeepsHandle drivers c := by
  constructor
  · exact keepsHandle_of_keepsAll
  · intro keeps
    have all : Run.Each step (fun _ c => KeepsHandle drivers c) (new drivers table) calls :=
      Run.each_of_forall keeps
    refine Stores.keepsAll (all.invariant (Stores (new drivers table)) ?_ (Std.Refl.refl _))
    intro b c stores here
    exact Trans.trans stores (stores_step ((keepsHandle_congr stores.toSameDrivers c).mpr here))

end Of13Backend

end

namespace Of13Backend

section

open scoped Drunos.Oxm.OpenflowBasic

/-- The rule of a policy that drops every packet is deleted as soon as it is added. -/
theorem dropRule_not_kept :
    ¬(Run.final step (new (.single 1) 0) [.install ∅ [] 1 {}]).KeepsAll := by
  intro keeps
  have kept := keepsHandle_of_keepsAll keeps _ List.mem_cons_self
  exact kept rfl (by decide) ⟨rfl, 1, List.mem_singleton.mpr rfl, rfl⟩

end

end Of13Backend

end Drunos.Driver
