/-
# Drunos.Driver.Expiry — when the rules of a backend expire

Settings count seconds in 32 bits, the greatest for no limit; a switch has 16 bits for
each timeout, and zero for no limit. Only the rule of a single action with an output
gets timeouts at all, and the lower half of the bits. So the rules of a call expire in
time exactly if none is sent, or there are no limits, or it is such a rule and the
lower halves are not zero (`install_inTime_iff`).
-/
import Drunos.Driver.Of13Backend

namespace Drunos.Driver

open Drunos.Oxm Drunos.Theory Drunos.Retic

set_option autoImplicit false

/-! ## Timeouts -/

/-- A field of a message that stands for `limit` seconds at most. -/
def Bounds (field limit : Nat) : Prop := 1 ≤ field ∧ field ≤ limit

instance (field limit : Nat) : Decidable (Bounds field limit) :=
  inferInstanceAs (Decidable (1 ≤ field ∧ field ≤ limit))

theorem bounds_mod_iff (n : Nat) : Bounds (n % 2 ^ 16) n ↔ n % 2 ^ 16 ≠ 0 := by
  unfold Bounds
  omega

theorem not_bounds_zero (limit : Nat) : ¬Bounds 0 limit := by
  unfold Bounds
  omega

theorem seconds_max : seconds durationMax = 0 := if_pos rfl

theorem seconds_of_ne {n : Nat} (limited : n ≠ durationMax) : seconds n = n := if_neg limited

section

variable [OxmTypes]

/-- The switch removes the rule no later than the settings say. A rule that lasts no
longer than the idle timeout in any case is removed in time without traffic, too. -/
structure InTime (settings : FlowSettings) (fm : FlowMod) : Prop where
  hard : settings.hardTimeout ≠ durationMax → Bounds fm.hardTimeout settings.hardTimeout
  idle : settings.idleTimeout ≠ durationMax →
    Bounds fm.idleTimeout settings.idleTimeout ∨ Bounds fm.hardTimeout settings.idleTimeout

/-- If the message adds a rule, the switch removes it in time. -/
def AddsInTime (settings : FlowSettings) (m : Sent) : Prop :=
  match m.2 with
  | .flowMod fm => fm.command = .add → InTime settings fm
  | .groupMod _ => True

/-- The settings fit what becomes of them. -/
def Timely (settings : FlowSettings) (actions : List FieldSet) : Prop :=
  if (Of13Backend.outputs actions).length = 1 then
    (settings.hardTimeout ≠ durationMax → settings.hardTimeout % 2 ^ 16 ≠ 0) ∧
      (settings.idleTimeout ≠ durationMax → settings.idleTimeout % 2 ^ 16 ≠ 0 ∨
        settings.hardTimeout ≠ durationMax ∧
          Bounds (settings.hardTimeout % 2 ^ 16) settings.idleTimeout)
  else settings.hardTimeout = durationMax ∧ settings.idleTimeout = durationMax

instance (settings : FlowSettings) (actions : List FieldSet) :
    Decidable (Timely settings actions) := by
  unfold Timely
  infer_instance

/-- A rule of the call is removed in time exactly if the settings fit. -/
theorem inTime_addMod_iff {settings : FlowSettings} {actions : List FieldSet} {r : Fluid13Rule}
    (rule : Of13Backend.RuleActions settings actions r.acts) :
    InTime settings r.addMod ↔ Timely settings actions := by
  have fields : InTime settings r.addMod ↔
      (settings.hardTimeout ≠ durationMax →
        Bounds (r.acts.hardTimeout % 2 ^ 16) settings.hardTimeout) ∧
      (settings.idleTimeout ≠ durationMax →
        Bounds (r.acts.idleTimeout % 2 ^ 16) settings.idleTimeout ∨
          Bounds (r.acts.hardTimeout % 2 ^ 16) settings.idleTimeout) :=
    ⟨fun inTime => ⟨inTime.hard, inTime.idle⟩, fun both => ⟨both.1, both.2⟩⟩
  rw [fields, Timely]
  rw [Of13Backend.RuleActions] at rule
  split at rule
  case isTrue single =>
    obtain ⟨idle, hard⟩ := rule
    rw [if_pos single, idle, hard]
    refine and_congr (forall_congr' fun limited => ?_) (forall_congr' fun limited => or_congr ?_ ?_)
    · rw [seconds_of_ne limited, bounds_mod_iff]
    · rw [seconds_of_ne limited, bounds_mod_iff]
    · by_cases forever : settings.hardTimeout = durationMax
      · rw [forever, seconds_max]
        exact iff_of_false (not_bounds_zero _) fun both => both.1 rfl
      · rw [seconds_of_ne forever, and_iff_right forever]
  case isFalse other =>
    obtain ⟨idle, hard⟩ := rule
    rw [if_neg other, idle, hard]
    refine and_congr ?_ ?_
    · simp only [Nat.zero_mod, not_bounds_zero, imp_false, not_not]
    · simp only [Nat.zero_mod, not_bounds_zero, or_self, imp_false, not_not]

/-! ## Calls -/

namespace Of13Backend

open Fallible

section

variable {match' : FieldSet} {actions : List FieldSet} {prio : Nat} {settings : FlowSettings}
  {dpid : Nat}

/-- Every rule that `install_on` sends has the timeouts of the call. -/
theorem addsInTime_installOn (timely : Timely settings actions) :
    Follows (Sends (AddsInTime settings)) (installOn dpid match' actions prio settings) := by
  refine follows_installOn (fun acts _ rule b => ?_) (fun _ _ b => ?_) fun none b => ?_
  · exact sends_storeRule fun r c _ same _ _ _ => (inTime_addMod_iff (same ▸ rule)).mpr timely
  · exact sends_storeGroup fun g c _ => trivial
  · refine sends_dropRule fun r c _ same _ _ => ⟨fun _ => ?_, nofun⟩
    have rule : RuleActions settings actions r.acts := by
      rw [none, same]
      exact ⟨rfl, rfl⟩
    exact (inTime_addMod_iff rule).mpr timely

/-- No rule is sent where no switch is connected. -/
theorem silent_installOn {P : Sent → Prop} {dpids : List Nat} (mem : dpid ∈ dpids) :
    Follows (Under (fun b => ∀ dpid ∈ dpids, (b.drivers.driver dpid).conn = none) (Sends P))
      (installOn dpid match' actions prio settings) := by
  have silent {b b' : Of13Backend} (conn : ∀ dpid ∈ dpids, (b.drivers.driver dpid).conn = none)
      (sends : Sends P b b') :
      Sends P b b' ∧ ∀ dpid ∈ dpids, (b'.drivers.driver dpid).conn = none :=
    ⟨sends, fun other mem => (sends.conn other).trans (conn other mem)⟩
  refine follows_installOn (fun _ _ _ b conn => ?_) (fun _ _ b conn => ?_) fun _ b conn => ?_
  · exact silent conn (sends_storeRule fun r c some => nomatch (conn dpid mem).symm.trans some)
  · exact silent conn (sends_storeGroup fun g c some => nomatch (conn dpid mem).symm.trans some)
  · exact silent conn (sends_dropRule fun r c some => nomatch (conn dpid mem).symm.trans some)

/-- A match with a field that OpenFlow has not gets no rule. -/
theorem addsInTime_of_match (other : ¬convertible match' = true) :
    Follows (Sends (AddsInTime settings)) (installOn dpid match' actions prio settings) := by
  refine follows_installOn (fun _ _ _ b => ?_) (fun _ _ b => ?_) fun _ b => ?_
  · exact sends_storeRule fun _ _ _ _ takes => absurd takes other
  · exact sends_storeGroup fun _ _ _ => trivial
  · exact sends_dropRule fun _ _ _ _ takes => absurd takes other

/-- Nor does a call with a set of actions that a driver does not take. -/
theorem addsInTime_of_actions (other : ¬∀ action ∈ actions, Sendable action) :
    Follows (Sends (AddsInTime settings)) (installOn dpid match' actions prio settings) := by
  intro b
  rw [installOn, after_get_bind]
  split
  case isFalse => exact Std.Refl.refl b
  case isTrue =>
    split
    case isTrue none =>
      rw [List.isEmpty_iff.mp none] at other
      exact absurd (List.forall_mem_nil _) other
    case isFalse =>
      cases result : buckets settings actions with
      | none => exact Std.Refl.refl b
      | some made =>
          have refused : ¬∀ acts ∈ made, convertible acts.setFields = true :=
            fun all => other (sendable_of_buckets result all)
          rw [ofOption_some_bind]
          rcases made with _ | ⟨first, _ | ⟨second, more⟩⟩
          · exact absurd (List.forall_mem_nil _) refused
          · exact sends_storeRule fun _ _ _ _ _ sets =>
              absurd (fun acts mem => List.mem_singleton.mp mem ▸ sets) refused
          · have grouped : Sends (AddsInTime settings) b
                (after (storeGroup dpid .all (first :: second :: more)) b) :=
              sends_storeGroup fun _ _ _ => trivial
            dsimp only
            cases returned : Fallible.result (storeGroup dpid .all (first :: second :: more)) b with
            | none =>
                rw [after_bind_fails returned]
                exact grouped
            | some g =>
                -- then no switch is connected, for which the group would have been refused
                rw [after_bind returned]
                refine IsTrans.trans _ _ _ grouped (sends_storeRule fun r c conn _ _ _ => ?_)
                have conn : (b.drivers.driver dpid).conn = some c := (grouped.conn dpid).symm.trans conn
                cases installed :
                    (b.drivers.driver dpid).installGroup .all (first :: second :: more) with
                | none =>
                    have thrown := (after_keep_thrown (o := .group)
                      (f := (·.installGroup .all (first :: second :: more))) installed).1
                    cases thrown.symm.trans returned
                | some made =>
                    exact absurd (Fluid13Driver.convertible_of_installGroup installed conn) refused

end

/-- A rule goes out for the call. -/
def GetsRule (drivers : Drivers) (match' : FieldSet) (actions : List FieldSet) : Prop :=
  Reaches drivers match' ∧ ∀ action ∈ actions, Sendable action

theorem timely_of_inTime {b : Of13Backend} {match' : FieldSet} {actions : List FieldSet} {prio : Nat}
    {settings : FlowSettings} (timeout : settings.hardTimeout ≠ 0)
    (gets : GetsRule b.drivers match' actions)
    (sends : Sends (AddsInTime settings) b (after (install match' actions prio settings) b)) :
    Timely settings actions := by
  obtain ⟨⟨takes, dpid, mem, conn⟩, sendable⟩ := gets
  obtain ⟨c, conn⟩ := Option.isSome_iff_exists.mp conn
  rw [after_install, if_neg timeout] at sends
  obtain ⟨t, before, later⟩ := forM_reaches (fun _ _ => sends_installOn)
    (fun _ _ => returns_installOn takes sendable) mem b
  have here : dpid ∈ t.drivers.dpids := before.dpids ▸ mem_targets mem
  have between := sends.middle before (sends_installOn t) later
  obtain ⟨-, r, new, connected, rule, sent, all⟩ := after_installOn here takes sendable
  obtain ⟨new', sent', inTime⟩ := between.messages
  obtain rfl := List.append_cancel_left (sent.symm.trans sent')
  have added : (c, Message.flowMod r.addMod) ∈ r.constructed := by
    simp [Fluid13Rule.constructed, connected, before.conn, conn]
  exact (inTime_addMod_iff rule).mp (inTime _ (all _ added) rfl)

/-- All rules of a call expire no later than the settings say, exactly if the hard
timeout is zero, or no rule goes out, or the settings fit. -/
theorem install_inTime_iff (b : Of13Backend) (match' : FieldSet) (actions : List FieldSet)
    (prio : Nat) (settings : FlowSettings) :
    Sends (AddsInTime settings) b (after (install match' actions prio settings) b) ↔
      settings.hardTimeout = 0 ∨ ¬GetsRule b.drivers match' actions ∨ Timely settings actions := by
  by_cases zero : settings.hardTimeout = 0
  · rw [after_install, if_pos zero]
    exact iff_of_true (Std.Refl.refl b) (.inl zero)
  rw [or_iff_right zero]
  constructor
  · intro sends
    exact or_iff_not_imp_left.mpr fun gets => timely_of_inTime zero (not_not.mp gets) sends
  · rw [after_install, if_neg zero]
    rintro (nothing | timely)
    · by_cases sendable : ∀ action ∈ actions, Sendable action
      · by_cases takes : convertible (onSwitch match') = true
        · have alone : ∀ dpid ∈ targets b.drivers match', (b.drivers.driver dpid).conn = none :=
            fun dpid mem => by
              by_contra some
              exact nothing ⟨⟨takes, dpid, mem, Option.isSome_iff_ne_none.mpr some⟩, sendable⟩
          exact (Follows.forM (fun _ mem => silent_installOn mem) b alone).1
        · exact Follows.forM (fun _ _ => addsInTime_of_match takes) b
      · exact Follows.forM (fun _ _ => addsInTime_of_actions sendable) b
    · exact Follows.forM (fun _ _ => addsInTime_installOn timely) b

end Of13Backend

end

namespace Of13Backend

section

open Fallible

open scoped Drunos.Oxm.OpenflowBasic

/-- With a limit of ten seconds, the rule of an action that has no output has none. -/
theorem dropRule_not_inTime : ¬Sends (AddsInTime { idleTimeout := 10, hardTimeout := 10 })
    { drivers := .single 1 }
    (after (install ∅ [∅] 1 { idleTimeout := 10, hardTimeout := 10 }) { drivers := .single 1 }) := by
  intro sends
  have gets : GetsRule (.single 1) ∅ [∅] :=
    ⟨⟨rfl, 1, List.mem_singleton.mpr rfl, rfl⟩, by simp [Sendable, FieldSet.find]⟩
  exact absurd (timely_of_inTime (by decide) gets sends) (by decide)

end

end Of13Backend

end Drunos.Driver
