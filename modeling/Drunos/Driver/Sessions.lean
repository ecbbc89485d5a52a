/-
# Drunos.Driver.Sessions — whether the switch has what the handles say

After each operation the rules and groups of the switch are to be those of the
handles alive (`Exact`), and the end of a handle is to take its own away and nothing
else (`Served`). Cookies are told apart by their lower 36 bits, group ids have 16
bits, a deletion names table 0 and a deleted group takes its rules along: `Distinct`
says that none of that matters to an operation, and `run_served_iff` that exactly
then a run is served.
-/
import Drunos.Driver.Switch
import Mathlib.Data.List.Pairwise

namespace Drunos.Driver

open Drunos.Oxm Drunos.Theory

set_option autoImplicit false

/-- An element is found by a key that no other one has. -/
theorem find_key {α : Type} {key : α → Nat} {l : List α} (nodup : (l.map key).Nodup) {a : α}
    (mem : a ∈ l) : l.find? (fun b => key b = key a) = some a := by
  cases found : l.find? fun b => key b = key a with
  | none => exact absurd (List.find?_eq_none.mp found a mem) (by simp)
  | some b =>
      have same : key b = key a := by simpa using List.find?_some found
      rw [List.inj_on_of_nodup_map nodup (List.mem_of_find?_eq_some found) mem same]

section

variable [OxmTypes]

/-! ## What is asked of a session -/

def Fluid13Rule.entry (r : Fluid13Rule) : FlowEntry := r.addMod.entry

def Fluid13Group.entry (g : Fluid13Group) : GroupEntry := ⟨g.id, g.addMod.buckets⟩

/-- The rule forwards to the group it was made for, or to none. -/
def LiveRule.Points (r : LiveRule) (groups : List LiveGroup) : Prop :=
  match r.group with
  | none => groupIds r.rule.entry.actions = []
  | some number => ∃ g ∈ groups, g.number = number ∧ groupIds r.rule.entry.actions = [g.group.id]

namespace Session

/-- The switch has what the handles alive stand for. -/
structure Exact (s : Session) : Prop where
  flows : s.switch.flows = s.rules.map fun r => r.rule.entry
  groups : s.switch.groups = s.groups.map fun g => g.group.entry
  ids : (s.groups.map fun g => g.group.id).Nodup
  nonzero : ∀ g ∈ s.groups, g.group.id ≠ 0
  points : ∀ r ∈ s.rules, r.Points s.groups

/-- What the end of a handle is to change on the switch. -/
def Removes (s : Session) : Op → Prop
  | .destroyRule number =>
      (s.step (.destroyRule number)).switch =
        { s.switch with
            flows := (s.rules.filter fun r => r.number ≠ number).map fun r => r.rule.entry }
  | .destroyGroup number =>
      (s.step (.destroyGroup number)).switch =
        { s.switch with
            groups := (s.groups.filter fun g => g.number ≠ number).map fun g => g.group.entry }
  | _ => True

structure Served (s : Session) (op : Op) : Prop where
  exact : (s.step op).Exact
  removes : s.Removes op

/-- A rule overlaps none of its priority in its table, and is for a group alive. -/
def Admissible (s : Session) : Op → Prop
  | .installRule match' prio _ table group =>
      (∀ r ∈ s.rules, r.rule.table = table → r.rule.prio = prio →
        Maple.overlaps r.rule.match' match' = false) ∧
      ∀ number, group = some number → ∃ g ∈ s.groups, g.number = number
  | _ => True

/-- The bits of a cookie that a deletion looks at. -/
def low (cookie : BitVec 64) : BitVec 64 := cookie &&& 0xfffffffff

/-- The operation meets no other handle where the driver cannot tell them apart. -/
def Distinct (s : Session) : Op → Prop
  | .installRule match' _ acts table _ =>
      convertible match' = true → convertible acts.setFields = true → table ≠ allTables
  | .installGroup _ buckets =>
      (∀ acts ∈ buckets, convertible acts.setFields = true) →
        s.driver.idGen ≠ 0 ∧ ∀ g ∈ s.groups, g.group.id ≠ s.driver.idGen.toNat
  | .destroyRule number =>
      ∀ r ∈ s.rules, r.number = number → r.rule.table = 0 ∧
        ∀ r' ∈ s.rules, r'.number ≠ number → r'.rule.table = 0 →
          low r'.rule.cookie ≠ low r.rule.cookie
  | .destroyGroup number => ∀ r ∈ s.rules, r.group ≠ some number

/-- What holds besides in every session. -/
structure Inv (s : Session) : Prop extends Exact s where
  connected : ∃ c, s.driver.conn = some c
  ruleConn : ∀ r ∈ s.rules, r.rule.conn = s.driver.conn
  groupConn : ∀ g ∈ s.groups, g.group.conn = s.driver.conn
  ruleNumbers : (s.rules.map LiveRule.number).Nodup
  groupNumbers : (s.groups.map LiveGroup.number).Nodup
  ruleBound : ∀ r ∈ s.rules, r.number < s.next
  groupBound : ∀ g ∈ s.groups, g.number < s.next
  apart : s.rules.Pairwise fun r r' => r.rule.table = r'.rule.table → r.rule.prio = r'.rule.prio →
    Maple.overlaps r.rule.match' r'.rule.match' = false

end Session

/-! ## What the messages of a handle do -/

section

variable {sw : Switch} {c : Nat}

theorem receiveAll_rule {r : Fluid13Rule} (conn : r.conn = some c) :
    sw.receiveAll r.constructed = sw.addFlow r.addMod := by
  simp [Fluid13Rule.constructed, conn, Switch.receiveAll]
  rfl

theorem receiveAll_ruleDestroyed {r : Fluid13Rule} (conn : r.conn = some c) :
    sw.receiveAll r.destroyed =
      { sw with flows := sw.flows.filter fun e => !Switch.deletes r.deleteMod e } := by
  simp [Fluid13Rule.destroyed, conn, Switch.receiveAll]
  rfl

theorem receiveAll_group {g : Fluid13Group} (conn : g.conn = some c) :
    sw.receiveAll g.constructed = sw.addGroup g.addMod := by
  simp [Fluid13Group.constructed, conn, Switch.receiveAll]
  rfl

theorem receiveAll_groupDestroyed {g : Fluid13Group} (conn : g.conn = some c) :
    sw.receiveAll g.destroyed = sw.deleteGroup g.deleteMod := by
  simp [Fluid13Group.destroyed, conn, Switch.receiveAll]
  rfl

/-- The deletion of a rule is for the entries of table 0 whose cookies agree with its
own in the lower bits. -/
theorem deletes_iff {r : Fluid13Rule} {e : FlowEntry} :
    Switch.deletes r.deleteMod e = true ↔
      e.tableId = 0 ∧ Session.low e.cookie = Session.low r.cookie := by
  have all : Maple.covered ∅ e.match' = true := rfl
  simp only [Switch.deletes, Bool.and_eq_true, Bool.or_eq_true, decide_eq_true_iff]
  simp [Fluid13Rule.deleteMod, all, allTables, Session.low]

/-- The only group that a rule forwards to is that of its id, unless the id is zero. -/
theorem groupIds_entry (r : Fluid13Rule) :
    groupIds r.entry.actions = if r.acts.groupId ≠ 0 then [r.acts.groupId] else [] := by
  have sets : groupIds (r.acts.setFields.fields.map Action.setField) = [] := by
    simp [groupIds, List.filterMap_map]
  have whole : r.entry.actions = convertToApplyAction r.acts := rfl
  rw [whole, convertToApplyAction, groupIds, List.filterMap_append, List.filterMap_append,
    ← groupIds, sets]
  split <;> split <;> rfl

/-- A rule that overlaps none and whose groups are there is added. -/
theorem addFlow_apart {fm : FlowMod} (table : fm.tableId ≠ allTables)
    (apart : ∀ e ∈ sw.flows, e.tableId = fm.tableId → e.priority = fm.priority →
      Maple.overlaps e.match' fm.match' = false)
    (known : ∀ id ∈ groupIds fm.applyActions, ∃ g ∈ sw.groups, g.id = id) :
    sw.addFlow fm = { sw with flows := sw.flows ++ [fm.entry] } := by
  have beside {e : FlowEntry} (mem : e ∈ sw.flows) (same : e.beside fm.entry = true) :
      Maple.overlaps e.match' fm.match' = false := by
    obtain ⟨tables, prios⟩ := Bool.and_eq_true_iff.mp same
    exact apart e mem (of_decide_eq_true tables) (of_decide_eq_true prios)
  have alone : sw.flows.filter (fun e => !(e.beside fm.entry && e.match'.sameAs fm.match')) =
      sw.flows := by
    refine List.filter_eq_self.mpr fun e mem => ?_
    by_contra both
    simp only [Bool.not_eq_true', Bool.not_eq_false, Bool.and_eq_true] at both
    exact nomatch (Maple.overlaps_of_sameAs both.2).symm.trans (beside mem both.1)
  rw [Switch.addFlow, if_neg table, if_neg, if_neg, alone]
  · simp only [List.any_eq_true, List.all_eq_true, decide_eq_true_iff, not_exists, not_and]
    intro id mem absent
    obtain ⟨g, there, same⟩ := known id mem
    exact absent g there same
  · simp only [Bool.and_eq_true, List.any_eq_true, not_and, not_exists]
    intro _ e mem same
    rw [beside mem same.1]
    exact nofun

theorem addGroup_fresh {gm : GroupMod} (fresh : ∀ g ∈ sw.groups, g.id ≠ gm.groupId) :
    sw.addGroup gm = { sw with groups := sw.groups ++ [⟨gm.groupId, gm.buckets⟩] } := by
  rw [Switch.addGroup, if_neg]
  simpa using fresh

end

/-- A rule keeps its group among others. -/
theorem LiveRule.Points.mono {r : LiveRule} {groups groups' : List LiveGroup}
    (sub : ∀ g ∈ groups, r.group = some g.number → g ∈ groups') (points : r.Points groups) :
    r.Points groups' := by
  rw [LiveRule.Points] at points ⊢
  cases group : r.group with
  | none =>
      rw [group] at points
      exact points
  | some number =>
      rw [group] at points
      obtain ⟨g, mem, rfl, only⟩ := points
      exact ⟨g, sub g mem group, rfl, only⟩

/-! ## Steps -/

namespace Session

variable {s : Session}

theorem groupId_none : s.groupId none = 0 := by
  rw [groupId, List.find?_eq_none.mpr fun _ _ => by simp]

theorem Inv.groupId_some (inv : s.Inv) {g : LiveGroup} (mem : g ∈ s.groups) :
    s.groupId (some g.number) = g.group.id := by
  simp only [groupId, Option.some.injEq, find_key inv.groupNumbers mem]

/-- The rule that is installed for a group forwards to it. -/
theorem Inv.points_new (inv : s.Inv) {r : Fluid13Rule} {acts : Actions} {group : Option Nat} {number : Nat}
    (own : ∀ number, group = some number → ∃ g ∈ s.groups, g.number = number)
    (rule : r.acts = { acts with groupId := s.groupId group }) :
    LiveRule.Points ⟨number, r, group⟩ s.groups := by
  rw [LiveRule.Points, groupIds_entry, rule]
  cases group with
  | none => rw [groupId_none, if_neg (by simp)]
  | some n =>
      obtain ⟨g, mem, rfl⟩ := own n rfl
      refine ⟨g, mem, rfl, ?_⟩
      rw [inv.groupId_some mem, if_pos (inv.nonzero g mem)]

/-- The groups that a rule forwards to are on the switch. -/
theorem Exact.known (exact : s.Exact) {r : LiveRule} (points : r.Points s.groups) :
    ∀ id ∈ groupIds r.rule.entry.actions, ∃ g ∈ s.switch.groups, g.id = id := by
  intro id mem
  rw [LiveRule.Points] at points
  cases group : r.group with
  | none =>
      rw [group] at points
      rw [points] at mem
      cases mem
  | some number =>
      rw [group] at points
      obtain ⟨g, there, -, only⟩ := points
      rw [only, List.mem_singleton] at mem
      refine ⟨g.group.entry, ?_, mem.symm⟩
      rw [exact.groups]
      exact List.mem_map_of_mem there

/-! ### A new rule -/

section

variable {match' : FieldSet} {prio table : Nat} {acts : Actions} {group : Option Nat}

theorem step_installRule {r : Fluid13Rule} {d : Fluid13Driver}
    (made : s.driver.installRule match' prio { acts with groupId := s.groupId group } table =
      some (r, d)) :
    s.step (.installRule match' prio acts table group) =
      { s with
          driver := d
          switch := s.switch.receiveAll r.constructed
          rules := s.rules ++ [⟨s.next, r, group⟩]
          next := s.next + 1 } := by
  simp only [step, made]

theorem step_installRule_thrown
    (thrown : s.driver.installRule match' prio { acts with groupId := s.groupId group } table = none) :
    s.step (.installRule match' prio acts table group) = s := by
  simp only [step, thrown]

theorem inv_installRule (inv : s.Inv)
    (admissible : s.Admissible (.installRule match' prio acts table group))
    (distinct : s.Distinct (.installRule match' prio acts table group)) :
    (s.step (.installRule match' prio acts table group)).Inv := by
  obtain ⟨c, conn⟩ := inv.connected
  obtain ⟨apart, own⟩ := admissible
  cases made : s.driver.installRule match' prio { acts with groupId := s.groupId group } table with
  | none =>
      rw [step_installRule_thrown made]
      exact inv
  | some result =>
      obtain ⟨r, d⟩ := result
      obtain ⟨rule, -, driver⟩ := Fluid13Driver.installRule_eq made
      obtain ⟨takes, sets⟩ := Fluid13Driver.convertible_of_installRule made conn
      have points : LiveRule.Points ⟨s.next, r, group⟩ s.groups :=
        inv.points_new own (by rw [rule])
      have connected : r.conn = some c := by rw [rule, conn]
      have beside : ∀ r' ∈ s.rules, r'.rule.table = r.table → r'.rule.prio = r.prio →
          Maple.overlaps r'.rule.match' r.match' = false := by
        rw [rule]
        exact apart
      have added : s.switch.receiveAll r.constructed =
          { s.switch with flows := s.switch.flows ++ [r.entry] } := by
        rw [receiveAll_rule connected, addFlow_apart]
        · rfl
        · rw [rule]
          exact distinct takes sets
        · rw [inv.flows]
          exact List.forall_mem_map.mpr beside
        · exact inv.known points
      have bound : ∀ r' ∈ s.rules, r'.number ≠ s.next := fun r' mem => Nat.ne_of_lt (inv.ruleBound r' mem)
      rw [step_installRule made, added]
      exact
        { flows := by simp [inv.flows]
          groups := inv.groups
          ids := inv.ids
          nonzero := inv.nonzero
          points := by simpa [or_imp, forall_and] using ⟨inv.points, points⟩
          connected := ⟨c, by rw [driver, conn]⟩
          ruleConn := by simpa [or_imp, forall_and, driver, connected, conn] using inv.ruleConn
          groupConn := by simpa [driver] using inv.groupConn
          ruleNumbers := by
            simpa [List.nodup_append, inv.ruleNumbers] using bound
          groupNumbers := inv.groupNumbers
          ruleBound := by
            simpa [or_imp, forall_and] using fun r' mem => Nat.lt_succ_of_lt (inv.ruleBound r' mem)
          groupBound := fun g mem => Nat.lt_succ_of_lt (inv.groupBound g mem)
          apart := List.pairwise_append.mpr
            ⟨inv.apart, List.pairwise_singleton _ _, by simpa using beside⟩ }

theorem distinct_installRule (inv : s.Inv)
    (exact' : (s.step (.installRule match' prio acts table group)).Exact) :
    s.Distinct (.installRule match' prio acts table group) := by
  obtain ⟨c, conn⟩ := inv.connected
  intro takes sets all
  obtain ⟨r, d, made⟩ := s.driver.installRule_convertible
    { acts with groupId := s.groupId group } prio table takes sets
  obtain ⟨rule, -, -⟩ := Fluid13Driver.installRule_eq made
  have refused : s.switch.receiveAll r.constructed = s.switch := by
    rw [receiveAll_rule (c := c) (by rw [rule, conn]), Switch.addFlow, if_pos (by rw [rule]; exact all)]
  rw [step_installRule made, refused] at exact'
  -- there is a handle more than entries
  have flows := congrArg List.length exact'.flows
  rw [inv.flows] at flows
  simp at flows

end

/-! ### A new group -/

section

variable {type : GroupType} {buckets : List Actions}

theorem step_installGroup {g : Fluid13Group} {d : Fluid13Driver}
    (made : s.driver.installGroup type buckets = some (g, d)) :
    s.step (.installGroup type buckets) =
      { s with
          driver := d
          switch := s.switch.receiveAll g.constructed
          groups := s.groups ++ [⟨s.next, g⟩]
          next := s.next + 1 } := by
  simp only [step, made]

theorem inv_installGroup (inv : s.Inv) (distinct : s.Distinct (.installGroup type buckets)) :
    (s.step (.installGroup type buckets)).Inv := by
  obtain ⟨c, conn⟩ := inv.connected
  cases made : s.driver.installGroup type buckets with
  | none =>
      have same : s.step (.installGroup type buckets) = s := by simp only [step, made]
      rw [same]
      exact inv
  | some result =>
      obtain ⟨g, d⟩ := result
      obtain ⟨group, -, driver⟩ := Fluid13Driver.installGroup_eq made
      obtain ⟨nonzero, fresh⟩ :=
        distinct (Fluid13Driver.convertible_of_installGroup made conn)
      have id : g.id = s.driver.idGen.toNat := by rw [group]
      have connected : g.conn = some c := by rw [group, conn]
      have added : s.switch.receiveAll g.constructed =
          { s.switch with groups := s.switch.groups ++ [g.entry] } := by
        rw [receiveAll_group connected, addGroup_fresh]
        · rfl
        · rw [inv.groups]
          refine List.forall_mem_map.mpr fun g' mem => ?_
          show g'.group.id ≠ g.id
          rw [id]
          exact fresh g' mem
      have bound : ∀ g' ∈ s.groups, g'.number ≠ s.next := fun g' mem => Nat.ne_of_lt (inv.groupBound g' mem)
      rw [step_installGroup made, added]
      exact
        { flows := inv.flows
          groups := by simp [inv.groups]
          ids := by
            simpa [List.nodup_append, inv.ids, id] using fresh
          nonzero := by
            have positive : g.id ≠ 0 := by
              rw [id]
              exact fun zero => nonzero (BitVec.eq_of_toNat_eq zero)
            simpa [or_imp, forall_and, positive] using inv.nonzero
          points := fun r mem =>
            (inv.points r mem).mono fun g mem _ => List.mem_append_left _ mem
          connected := ⟨c, by rw [driver, conn]⟩
          ruleConn := by simpa [driver] using inv.ruleConn
          groupConn := by simpa [or_imp, forall_and, driver, connected, conn] using inv.groupConn
          ruleNumbers := inv.ruleNumbers
          groupNumbers := by
            simpa [List.nodup_append, inv.groupNumbers] using bound
          ruleBound := fun r mem => Nat.lt_succ_of_lt (inv.ruleBound r mem)
          groupBound := by
            simpa [or_imp, forall_and] using fun g' mem => Nat.lt_succ_of_lt (inv.groupBound g' mem)
          apart := inv.apart }

theorem distinct_installGroup (exact' : (s.step (.installGroup type buckets)).Exact) :
    s.Distinct (.installGroup type buckets) := by
  intro sets
  obtain ⟨g, d, made⟩ := s.driver.installGroup_convertible type sets
  obtain ⟨group, -, -⟩ := Fluid13Driver.installGroup_eq made
  have id : g.id = s.driver.idGen.toNat := by rw [group]
  rw [step_installGroup made] at exact'
  constructor
  · intro zero
    refine exact'.nonzero ⟨s.next, g⟩ (by simp) ?_
    show g.id = 0
    rw [id, zero]
    rfl
  · intro g' mem same
    have ids := exact'.ids
    rw [List.map_append, List.nodup_append] at ids
    refine ids.2.2 _ (List.mem_map_of_mem mem) g.id (by simp) ?_
    rw [id, same]

end

/-! ### The end of a rule -/

section

variable {r : LiveRule}

theorem step_destroyRule (inv : s.Inv) (mem : r ∈ s.rules) :
    s.step (.destroyRule r.number) =
      { s with
          switch := { s.switch with
            flows := s.switch.flows.filter fun e => !Switch.deletes r.rule.deleteMod e }
          rules := s.rules.filter fun r' => r'.number ≠ r.number } := by
  obtain ⟨c, conn⟩ := inv.connected
  simp only [step, find_key inv.ruleNumbers mem,
    receiveAll_ruleDestroyed ((inv.ruleConn r mem).trans conn)]

theorem step_destroyRule_none {number : Nat} (gone : ∀ r ∈ s.rules, r.number ≠ number) :
    s.step (.destroyRule number) = s := by
  have missing : s.rules.find? (fun r => r.number = number) = none :=
    List.find?_eq_none.mpr fun r mem => by simpa using gone r mem
  simp only [step, missing]

theorem inv_destroyRule (inv : s.Inv) {number : Nat} (distinct : s.Distinct (.destroyRule number)) :
    (s.step (.destroyRule number)).Inv := by
  by_cases some : ∃ r ∈ s.rules, r.number = number
  case neg =>
    rw [step_destroyRule_none fun r mem same => some ⟨r, mem, same⟩]
    exact inv
  case pos =>
    obtain ⟨r, mem, rfl⟩ := some
    obtain ⟨table, others⟩ := distinct r mem rfl
    have own : ∀ r' ∈ s.rules, (!Switch.deletes r.rule.deleteMod r'.rule.entry) =
        decide (r'.number ≠ r.number) := by
      intro r' mem'
      by_cases same : r'.number = r.number
      · obtain rfl := List.inj_on_of_nodup_map inv.ruleNumbers mem' mem same
        have deleted : Switch.deletes r'.rule.deleteMod r'.rule.entry = true :=
          deletes_iff.mpr ⟨table, rfl⟩
        simp [deleted]
      · have spared : Switch.deletes r.rule.deleteMod r'.rule.entry = false := by
          refine Bool.eq_false_iff.mpr fun deleted => ?_
          obtain ⟨table', cookies⟩ := deletes_iff.mp deleted
          exact others r' mem' same table' cookies
        simp [spared, same]
    rw [step_destroyRule inv mem]
    exact
      { flows := by
          show s.switch.flows.filter _ = _
          rw [inv.flows, List.filter_map]
          exact congrArg _ (List.filter_congr own)
        groups := inv.groups
        ids := inv.ids
        nonzero := inv.nonzero
        points := fun r' mem' => inv.points r' (List.mem_of_mem_filter mem')
        connected := inv.connected
        ruleConn := fun r' mem' => inv.ruleConn r' (List.mem_of_mem_filter mem')
        groupConn := inv.groupConn
        ruleNumbers := inv.ruleNumbers.sublist (List.filter_sublist.map _)
        groupNumbers := inv.groupNumbers
        ruleBound := fun r' mem' => inv.ruleBound r' (List.mem_of_mem_filter mem')
        groupBound := inv.groupBound
        apart := inv.apart.sublist List.filter_sublist }

/-- No two handles have one entry. -/
theorem Inv.entry_unique (inv : s.Inv) {r' : LiveRule} (mem : r ∈ s.rules) (mem' : r' ∈ s.rules)
    (same : r'.rule.entry = r.rule.entry) : r' = r := by
  by_contra ne
  have apart : s.rules.Pairwise fun a b => a.rule.entry ≠ b.rule.entry := by
    refine inv.apart.imp fun {a b} apart entries => ?_
    have self : Maple.overlaps b.rule.match' b.rule.match' = true :=
      Maple.overlaps_of_sameAs (by simp [FieldSet.sameAs])
    have matches' : a.rule.match' = b.rule.match' := congrArg FlowEntry.match' entries
    have apart := apart (congrArg FlowEntry.tableId entries) (congrArg FlowEntry.priority entries)
    rw [matches'] at apart
    exact nomatch self.symm.trans apart
  have : Std.Symm fun a b : LiveRule => a.rule.entry ≠ b.rule.entry := ⟨fun _ _ => Ne.symm⟩
  exact apart.forall mem' mem ne same

theorem distinct_destroyRule (inv : s.Inv) {number : Nat}
    (exact' : (s.step (.destroyRule number)).Exact) : s.Distinct (.destroyRule number) := by
  rintro r mem rfl
  rw [step_destroyRule inv mem] at exact'
  have flows : s.switch.flows.filter (fun e => !Switch.deletes r.rule.deleteMod e) =
      (s.rules.filter fun r' => r'.number ≠ r.number).map fun r' => r'.rule.entry := exact'.flows
  rw [inv.flows] at flows
  constructor
  · by_contra table
    have spared : Switch.deletes r.rule.deleteMod r.rule.entry = false :=
      Bool.eq_false_iff.mpr fun deleted => table (deletes_iff.mp deleted).1
    have left : r.rule.entry ∈ (s.rules.map fun r' => r'.rule.entry).filter fun e =>
        !Switch.deletes r.rule.deleteMod e :=
      List.mem_filter.mpr ⟨List.mem_map_of_mem mem, by simp [spared]⟩
    rw [flows] at left
    obtain ⟨r', mem', same⟩ := List.mem_map.mp left
    obtain ⟨mem', other⟩ := List.mem_filter.mp mem'
    rw [inv.entry_unique mem mem' same] at other
    simp at other
  · intro r' mem' other table cookies
    have left : r'.rule.entry ∈ (s.rules.filter fun r' => r'.number ≠ r.number).map
        fun r' => r'.rule.entry :=
      List.mem_map_of_mem (List.mem_filter.mpr ⟨mem', by simpa using other⟩)
    rw [← flows] at left
    have spared := (List.mem_filter.mp left).2
    have deleted : Switch.deletes r.rule.deleteMod r'.rule.entry = true :=
      deletes_iff.mpr ⟨table, cookies⟩
    simp [deleted] at spared

end

/-! ### The end of a group -/

section

variable {g : LiveGroup}

theorem step_destroyGroup (inv : s.Inv) (mem : g ∈ s.groups) :
    s.step (.destroyGroup g.number) =
      { s with
          switch := s.switch.deleteGroup g.group.deleteMod
          groups := s.groups.filter fun g' => g'.number ≠ g.number } := by
  obtain ⟨c, conn⟩ := inv.connected
  simp only [step, find_key inv.groupNumbers mem,
    receiveAll_groupDestroyed ((inv.groupConn g mem).trans conn)]

theorem step_destroyGroup_none {number : Nat} (gone : ∀ g ∈ s.groups, g.number ≠ number) :
    s.step (.destroyGroup number) = s := by
  have missing : s.groups.find? (fun g => g.number = number) = none :=
    List.find?_eq_none.mpr fun g mem => by simpa using gone g mem
  simp only [step, missing]

/-- A rule that was made for the group is the one that forwards to its id. -/
theorem Inv.forwards_iff (inv : s.Inv) (mem : g ∈ s.groups) {r : LiveRule} (mem' : r ∈ s.rules) :
    g.group.id ∈ groupIds r.rule.entry.actions ↔ r.group = some g.number := by
  have points := inv.points r mem'
  rw [LiveRule.Points] at points
  cases group : r.group with
  | none =>
      rw [group] at points
      rw [points]
      exact iff_of_false (List.not_mem_nil) nofun
  | some number =>
      rw [group] at points
      obtain ⟨g', there, rfl, only⟩ := points
      rw [only, List.mem_singleton, Option.some.injEq]
      constructor
      · intro same
        rw [List.inj_on_of_nodup_map inv.ids mem there same]
      · intro same
        rw [List.inj_on_of_nodup_map inv.groupNumbers there mem same]

theorem inv_destroyGroup (inv : s.Inv) {number : Nat} (distinct : s.Distinct (.destroyGroup number)) :
    (s.step (.destroyGroup number)).Inv := by
  by_cases some : ∃ g ∈ s.groups, g.number = number
  case neg =>
    rw [step_destroyGroup_none fun g mem same => some ⟨g, mem, same⟩]
    exact inv
  case pos =>
    obtain ⟨g, mem, rfl⟩ := some
    rw [step_destroyGroup inv mem]
    exact
      { flows := by
          show s.switch.flows.filter _ = _
          rw [inv.flows]
          refine List.filter_eq_self.mpr (List.forall_mem_map.mpr fun r mem' => decide_eq_true ?_)
          exact mt (inv.forwards_iff mem mem').mp (distinct r mem')
        groups := by
          show s.switch.groups.filter _ = _
          rw [inv.groups, List.filter_map]
          refine congrArg _ (List.filter_congr fun g' mem' => decide_eq_decide.mpr (not_congr ?_))
          constructor
          · intro same
            rw [List.inj_on_of_nodup_map inv.ids mem' mem same]
          · intro same
            rw [List.inj_on_of_nodup_map inv.groupNumbers mem' mem same]
            rfl
        ids := inv.ids.sublist (List.filter_sublist.map _)
        nonzero := fun g' mem' => inv.nonzero g' (List.mem_of_mem_filter mem')
        points := fun r mem' => (inv.points r mem').mono fun g' there own =>
          List.mem_filter.mpr ⟨there, by
            simpa using fun same => distinct r mem' (own.trans (congrArg _ same))⟩
        connected := inv.connected
        ruleConn := inv.ruleConn
        groupConn := fun g' mem' => inv.groupConn g' (List.mem_of_mem_filter mem')
        ruleNumbers := inv.ruleNumbers
        groupNumbers := inv.groupNumbers.sublist (List.filter_sublist.map _)
        ruleBound := inv.ruleBound
        groupBound := fun g' mem' => inv.groupBound g' (List.mem_of_mem_filter mem')
        apart := inv.apart }

theorem distinct_destroyGroup (inv : s.Inv) {number : Nat}
    (exact' : (s.step (.destroyGroup number)).Exact) : s.Distinct (.destroyGroup number) := by
  intro r mem' group
  have points := inv.points r mem'
  rw [LiveRule.Points, group] at points
  obtain ⟨g, mem, rfl, -⟩ := points
  rw [step_destroyGroup inv mem] at exact'
  have left : r.rule.entry ∈ s.rules.map fun r => r.rule.entry := List.mem_map_of_mem mem'
  rw [← show s.switch.flows.filter _ = _ from exact'.flows] at left
  have spared := of_decide_eq_true (List.mem_filter.mp left).2
  exact spared ((inv.forwards_iff mem mem').mpr group)

end

/-! ## Runs -/

theorem inv_step (inv : s.Inv) {op : Op} (admissible : s.Admissible op) (distinct : s.Distinct op) :
    (s.step op).Inv := by
  cases op with
  | installRule => exact inv_installRule inv admissible distinct
  | installGroup => exact inv_installGroup inv distinct
  | destroyRule => exact inv_destroyRule inv distinct
  | destroyGroup => exact inv_destroyGroup inv distinct

theorem distinct_of_exact (inv : s.Inv) {op : Op} (exact' : (s.step op).Exact) : s.Distinct op := by
  cases op with
  | installRule => exact distinct_installRule inv exact'
  | installGroup => exact distinct_installGroup exact'
  | destroyRule => exact distinct_destroyRule inv exact'
  | destroyGroup => exact distinct_destroyGroup inv exact'

/-- Where the switch agrees with the handles before and after, the end of a handle has
taken its own away. -/
theorem removes_of_exact (inv : s.Inv) {op : Op} (exact' : (s.step op).Exact) : s.Removes op := by
  cases op with
  | installRule | installGroup => trivial
  | destroyRule number =>
      rw [Removes]
      by_cases some : ∃ r ∈ s.rules, r.number = number
      · obtain ⟨r, mem, rfl⟩ := some
        rw [step_destroyRule inv mem] at exact' ⊢
        exact congrArg (fun flows => { s.switch with flows := flows }) exact'.flows
      · have gone : ∀ r ∈ s.rules, r.number ≠ number := fun r mem same => some ⟨r, mem, same⟩
        have all : (s.rules.filter fun r => r.number ≠ number) = s.rules :=
          List.filter_eq_self.mpr fun r mem => decide_eq_true (gone r mem)
        rw [step_destroyRule_none gone, all, ← inv.flows]
  | destroyGroup number =>
      rw [Removes]
      by_cases some : ∃ g ∈ s.groups, g.number = number
      · obtain ⟨g, mem, rfl⟩ := some
        rw [step_destroyGroup inv mem] at exact' ⊢
        have flows : (s.switch.deleteGroup g.group.deleteMod).flows = s.switch.flows :=
          exact'.flows.trans inv.flows.symm
        exact congrArg₂ Switch.mk flows exact'.groups
      · have gone : ∀ g ∈ s.groups, g.number ≠ number := fun g mem same => some ⟨g, mem, same⟩
        have all : (s.groups.filter fun g => g.number ≠ number) = s.groups :=
          List.filter_eq_self.mpr fun g mem => decide_eq_true (gone g mem)
        rw [step_destroyGroup_none gone, all, ← inv.groups]

/-- An operation is served exactly if it meets no other handle that looks the same. -/
theorem served_iff (inv : s.Inv) {op : Op} (admissible : s.Admissible op) :
    s.Served op ↔ s.Distinct op := by
  constructor
  · exact fun served => distinct_of_exact inv served.exact
  · intro distinct
    have exact' := (inv_step inv admissible distinct).toExact
    exact ⟨exact', removes_of_exact inv exact'⟩

theorem inv_start (c : Nat) : (start c).Inv where
  flows := rfl
  groups := rfl
  ids := List.nodup_nil
  nonzero := List.forall_mem_nil _
  points := List.forall_mem_nil _
  connected := ⟨c, rfl⟩
  ruleConn := List.forall_mem_nil _
  groupConn := List.forall_mem_nil _
  ruleNumbers := List.nodup_nil
  groupNumbers := List.nodup_nil
  ruleBound := List.forall_mem_nil _
  groupBound := List.forall_mem_nil _
  apart := List.Pairwise.nil

/-- All along a run of a driver the switch has what the handles alive stand for, exactly
if no operation meets another handle that looks the same to the driver. -/
theorem run_served_iff (c : Nat) (ops : List Op) (admissible : Run.Each step Admissible (start c) ops) :
    Run.Each step Served (start c) ops ↔ Run.Each step Distinct (start c) ops := by
  have both : Run.Each step (fun s op => s.Admissible op ∧ s.Served op) (start c) ops ↔
      Run.Each step (fun s op => s.Admissible op ∧ s.Distinct op) (start c) ops :=
    Run.each_iff_of_invariant (I := Inv) (fun s op inv => and_congr_right fun ok => served_iff inv ok)
      (fun s op inv ok => inv_step inv ok.1 ok.2) (inv_start c)
  rwa [Run.each_and, Run.each_and, and_iff_right admissible, and_iff_right admissible] at both

end Session

end

namespace Session

section

open scoped Drunos.Oxm.OpenflowBasic

/-- Two rules of one priority in table 0, the first for a group; then their handles end, and the group's. -/
def groupAndRules : List Op :=
  [.installGroup .all [{ outPort := 1 }, { outPort := 2 }],
    .installRule (.ofField (.exactly inPort 1)) 5 {} 0 (some 0),
    .installRule (.ofField (.exactly inPort 2)) 5 { outPort := 3 } 0 none,
    .destroyRule 1, .destroyRule 2, .destroyGroup 0]

theorem groupAndRules_admissible : Run.Each step Admissible (start 1) groupAndRules := by
  refine ⟨trivial, ⟨?_, ?_⟩, ⟨?_, nofun⟩, trivial, trivial, trivial, trivial⟩
  · exact List.forall_mem_nil _
  · rintro number ⟨⟩
    decide +kernel
  · have apart : ∀ r ∈ ((groupAndRules.take 2).foldl step (start 1)).rules,
        Maple.overlaps r.rule.match' (.ofField (.exactly inPort 2)) = false := by decide +kernel
    exact fun r mem _ _ => apart r mem

theorem groupAndRules_distinct : Run.Each step Distinct (start 1) groupAndRules := by
  refine ⟨fun _ => ?_, fun _ _ => ?_, fun _ _ => ?_, ?_, ?_, ?_, trivial⟩
  · decide +kernel
  · decide
  · decide
  · show ∀ r ∈ ((groupAndRules.take 3).foldl step (start 1)).rules, _
    decide +kernel
  · show ∀ r ∈ ((groupAndRules.take 4).foldl step (start 1)).rules, _
    decide +kernel
  · show ∀ r ∈ ((groupAndRules.take 5).foldl step (start 1)).rules, _
    decide +kernel

theorem run_served_groupAndRules : Run.Each step Served (start 1) groupAndRules :=
  (run_served_iff 1 _ groupAndRules_admissible).mpr groupAndRules_distinct

/-- The run of a rule in table 1 whose handle ends. -/
def otherTable : List Op := [.installRule ∅ 1 {} 1 none, .destroyRule 0]

/-- The rule stays in table 1, as the deletion is for table 0. -/
theorem otherTable_not_served :
    Run.Each step Admissible (start 1) otherTable ∧ ¬Run.Each step Served (start 1) otherTable := by
  refine ⟨⟨⟨List.forall_mem_nil _, nofun⟩, trivial, trivial⟩, fun ⟨_, ⟨left, _⟩, _⟩ => ?_⟩
  exact absurd (congrArg List.length left.flows) (by decide)

end

end Session

end Drunos.Driver
