/-
# Drunos.Rest.KnownRules — the rules of the flow manager over time

The slots of `FlowManager`: a switch that goes down loses its rules, the response of a switch
replaces them, and each rule that comes or goes is announced. Rules come and go in no other
way, so along every run a rule object is announced when it is made and once more when it is
dropped for good (`tidy_run`), and a client that polls in between knows the rules the manager
knows (`rules_told`).
-/
import Drunos.Rest.FlowManager
import Drunos.Rest.Polls

namespace Drunos.Rest

open Drunos.Theory.Run

set_option autoImplicit false

variable {M I : Type}

namespace FlowManager

/-! ## The slots -/

/-- What `cleanSwitchRules` and `remove_if` do with a rule that goes. -/
def dropRule (m : FlowManager M I) (rule : Nat) : FlowManager M I :=
  (m.addEvent .delete rule).deactivate rule

def dropAll (m : FlowManager M I) (rules : List Nat) : FlowManager M I := rules.foldl dropRule m

theorem dropAll_known (rules : List Nat) : ∀ m : FlowManager M I,
    (m.dropAll rules).allSwitchesRules = m.allSwitchesRules := by
  induction rules with
  | nil => exact fun _ => rfl
  | cons rule rules ih => exact fun m => ih _

def cleanSwitchRules (dpid : Nat) (m : FlowManager M I) : FlowManager M I :=
  (m.dropAll (m.allSwitchesRules dpid)).keepRules dpid [] (List.nil_sublist _)

def addRule (dpid : Nat) (flow : FlowStats M I) (m : FlowManager M I) : FlowManager M I :=
  (m.pushRule dpid flow).addEvent .add m.made.length

inductive Slot (M I : Type) where
  | addRule (dpid : Nat) (flow : FlowStats M I)
  | onSwitchDown (dpid : Nat)
  | onResponse (dpid : Nat) (flows : List (FlowStats M I))

/-- No rule yet. -/
def initial : FlowManager M I where
  made := []
  allSwitchesRules := fun _ => []
  lastId := 0
  events := []
  valid := fun _ _ mem => absurd mem List.not_mem_nil
  nodup := fun _ => List.nodup_nil

variable [BEq M] [BEq I]

def slot (m : FlowManager M I) : Slot M I → FlowManager M I
  | .addRule dpid flow => m.addRule dpid flow
  | .onSwitchDown dpid => m.cleanSwitchRules dpid
  | .onResponse dpid flows => m.updateSwitchRules dpid flows

/-! ## What a slot does -/

/-- The rules made for the flows. -/
def madeFor (dpid : Nat) : Nat → List (FlowStats M I) → List (Rule M I)
  | _, [] => []
  | lastId, flow :: flows => ⟨lastId + 1, dpid, flow, true⟩ :: madeFor dpid (lastId + 1) flows

/-- The rules of a switch are `stay` after some have gone, and then rules are made for flows. -/
structure Replaces (m m' : FlowManager M I) (dpid : Nat) (gone stay : List Nat)
    (flows : List (FlowStats M I)) : Prop where
  before : (m.allSwitchesRules dpid).Perm (gone ++ stay)
  after : m'.allSwitchesRules dpid = stay ++ List.range' m.made.length flows.length
  others : ∀ d, d ≠ dpid → m'.allSwitchesRules d = m.allSwitchesRules d
  made : m'.made = (m.dropAll gone).made ++ madeFor dpid m.lastId flows
  lastId : m'.lastId = m.lastId + flows.length
  events : m'.events = m.events ++ (gone.map (fun rule => (.delete, rule)) ++
    (List.range' m.made.length flows.length).map fun rule => (.add, rule))

omit [BEq M] [BEq I] in
/-- Rules that go are marked, and their `Delete` events follow. -/
theorem dropAll_spec (rules : List Nat) : ∀ m : FlowManager M I,
    (m.dropAll rules).lastId = m.lastId ∧ (m.dropAll rules).made.length = m.made.length ∧
      (m.dropAll rules).events = m.events ++ rules.map (fun rule => (.delete, rule)) ∧
      ∀ rule, (m.dropAll rules).made[rule]? =
        (m.made[rule]?).map fun r => if rule ∈ rules then { r with active := false } else r := by
  induction rules with
  | nil => exact fun m => ⟨rfl, rfl, by simp [dropAll], fun rule => by simp [dropAll]⟩
  | cons first rules ih =>
      intro m
      obtain ⟨lastId, length, events, made⟩ := ih (m.dropRule first)
      refine ⟨lastId, length.trans (by simp [dropRule, deactivate, addEvent]), events.trans ?_,
        fun rule => (made rule).trans ?_⟩
      · simp [dropRule, deactivate, addEvent]
      · have one : (m.dropRule first).made[rule]? =
            (m.made[rule]?).map fun r => if first = rule then { r with active := false } else r := by
          simp only [dropRule, deactivate, addEvent, List.getElem?_modify]
          cases m.made[rule]? <;> simp
        rw [one, Option.map_map]
        congr 1
        funext r
        by_cases same : first = rule
        · simp [same]
        · simp [same, Ne.symm same]

omit [BEq M] [BEq I] in
theorem pushAll_spec (dpid : Nat) (flows : List (FlowStats M I)) : ∀ m : FlowManager M I,
    let m' := flows.foldl (fun m flow => (m.pushRule dpid flow).addEvent .add m.made.length) m
    m'.made = m.made ++ madeFor dpid m.lastId flows ∧ m'.lastId = m.lastId + flows.length ∧
      ∀ d, d ≠ dpid → m'.allSwitchesRules d = m.allSwitchesRules d := by
  induction flows with
  | nil => exact fun m => ⟨by simp [madeFor], rfl, fun _ _ => rfl⟩
  | cons flow flows ih =>
      intro m
      obtain ⟨made, lastId, others⟩ := ih ((m.pushRule dpid flow).addEvent .add m.made.length)
      refine ⟨?_, ?_, fun d ne => (others d ne).trans ?_⟩
      · rw [List.foldl_cons, made]
        simp [addEvent, pushRule, madeFor]
      · rw [List.foldl_cons, lastId]
        simp [addEvent, pushRule]
        omega
      · simp [addEvent, pushRule, ne]

/-- Those that go are dropped one after the other. -/
theorem removeIf_drops (rules : List Nat) : ∀ (flows : List (FlowStats M I)) (m : FlowManager M I),
    ∃ gone, rules.Perm (gone ++ (removeIf rules flows m).rules) ∧
      (removeIf rules flows m).manager = m.dropAll gone := by
  induction rules with
  | nil => exact fun flows m => ⟨[], .refl _, rfl⟩
  | cons rule rules ih =>
      intro flows m
      rw [removeIf]
      cases taken : (m.flowOf rule).bind (takeFlow · flows) with
      | some left =>
          obtain ⟨gone, perm, manager⟩ := ih left m
          exact ⟨gone, (perm.cons rule).trans List.perm_middle.symm, manager⟩
      | none =>
          obtain ⟨gone, perm, manager⟩ := ih flows (m.dropRule rule)
          exact ⟨rule :: gone, perm.cons rule, manager⟩

omit [BEq M] [BEq I] in
/-- Some rules of a switch are dropped, and rules are made for flows. -/
theorem replaces_of_drops {m dropped : FlowManager M I} {dpid : Nat} {gone stay : List Nat}
    (flows : List (FlowStats M I)) (drops : dropped = m.dropAll gone)
    (before : (m.allSwitchesRules dpid).Perm (gone ++ stay))
    (sub : stay.Sublist (dropped.allSwitchesRules dpid)) :
    Replaces m (flows.foldl (fun m flow => (m.pushRule dpid flow).addEvent .add m.made.length)
      (dropped.keepRules dpid stay sub)) dpid gone stay flows := by
  subst drops
  obtain ⟨sameId, length, events, -⟩ := dropAll_spec gone m
  have pushed := foldl_pushed dpid flows ((m.dropAll gone).keepRules dpid stay sub)
  obtain ⟨made, lastId, others⟩ := pushAll_spec dpid flows ((m.dropAll gone).keepRules dpid stay sub)
  have keptMade : ((m.dropAll gone).keepRules dpid stay sub).made.length = m.made.length := length
  have rules := pushed.rules
  have added := pushed.events
  rw [keptMade] at rules added
  refine ⟨before, by simpa [keepRules] using rules, fun d ne => ?_, ?_, ?_, ?_⟩
  · rw [others d ne]
    simp [keepRules, ne, dropAll_known]
  · rw [made]
    simp [keepRules, sameId]
  · rw [lastId]
    simp [keepRules, sameId]
  · rw [added, ← List.append_assoc, ← events]
    rfl

omit [BEq M] [BEq I] in
theorem keepRules_all (m : FlowManager M I) (dpid : Nat) :
    m.keepRules dpid (m.allSwitchesRules dpid) (.refl _) = m := by
  obtain ⟨⟩ := m
  simp [keepRules]

/-- Every slot replaces rules of one switch. -/
theorem slot_replaces (m : FlowManager M I) (s : Slot M I) :
    ∃ dpid gone stay flows, Replaces m (m.slot s) dpid gone stay flows := by
  cases s with
  | addRule dpid flow =>
      have replaces := @replaces_of_drops M I m m dpid [] (m.allSwitchesRules dpid) [flow] rfl (.refl _)
        (.refl _)
      rw [keepRules_all] at replaces
      exact ⟨dpid, [], m.allSwitchesRules dpid, [flow], replaces⟩
  | onSwitchDown dpid =>
      exact ⟨dpid, m.allSwitchesRules dpid, [], [],
        replaces_of_drops [] rfl (by rw [List.append_nil]) (List.nil_sublist _)⟩
  | onResponse dpid flows =>
      obtain ⟨gone, perm, manager⟩ := removeIf_drops (m.allSwitchesRules dpid) flows m
      exact ⟨dpid, gone, _, _, replaces_of_drops _ manager perm _⟩

/-! ## What is announced of a rule -/

/-- What has been announced of a rule. -/
def announcedOf (m : FlowManager M I) (rule : Nat) : List EventType :=
  (m.events.filter fun e => e.2 = rule).map Prod.fst

/-- The manager knows the rule. -/
def Knows (m : FlowManager M I) (rule : Nat) : Prop := ∃ dpid, rule ∈ m.allSwitchesRules dpid

/-- The rules are numbered as they are made. A rule that is known is active and known of its own
switch; it has been announced when it was made, and a rule that is not known any more is announced
as gone. -/
structure Tidy (m : FlowManager M I) : Prop where
  lastId : m.lastId = m.made.length
  numbered : ∀ rule r, m.made[rule]? = some r → r.ruleId = rule + 1
  known : ∀ dpid rule, rule ∈ m.allSwitchesRules dpid ↔
    ∃ r, m.made[rule]? = some r ∧ r.switchId = dpid ∧ r.active = true
  announced : ∀ rule r, m.made[rule]? = some r →
    m.announcedOf rule = if r.active then [.add] else [.add, .delete]
  unmade : ∀ rule, m.made.length ≤ rule → m.announcedOf rule = []

omit [BEq M] [BEq I] in
theorem Tidy.initial : Tidy (initial : FlowManager M I) where
  lastId := rfl
  numbered _ _ none := nomatch none
  known _ _ := by simp [FlowManager.initial]
  announced _ _ none := nomatch none
  unmade _ _ := rfl

section

omit [BEq M] [BEq I]

variable {m m' : FlowManager M I} {dpid : Nat} {gone stay : List Nat} {flows : List (FlowStats M I)}

theorem madeFor_getElem (dpid : Nat) : ∀ (flows : List (FlowStats M I)) (lastId n : Nat),
    (madeFor dpid lastId flows)[n]? = (flows[n]?).map fun flow => ⟨lastId + n + 1, dpid, flow, true⟩
  | [], _, _ => by simp [madeFor]
  | flow :: flows, lastId, 0 => by simp [madeFor]
  | flow :: flows, lastId, n + 1 => by
      simp only [madeFor, List.getElem?_cons_succ]
      rw [madeFor_getElem dpid flows (lastId + 1) n]
      congr 1
      funext f
      congr 1
      omega

/-- The rules after a replacement: those of before, the ones that have gone marked, and new ones. -/
theorem Replaces.getElem (replaces : Replaces m m' dpid gone stay flows) (rule : Nat) :
    m'.made[rule]? = if rule < m.made.length then
        (m.made[rule]?).map fun r => if rule ∈ gone then { r with active := false } else r
      else (flows[rule - m.made.length]?).map fun flow =>
        ⟨m.lastId + (rule - m.made.length) + 1, dpid, flow, true⟩ := by
  obtain ⟨-, length, -, old⟩ := dropAll_spec gone m
  rw [replaces.made]
  split
  · rename_i before
    rw [List.getElem?_append_left (by omega), old]
  · rename_i after
    rw [List.getElem?_append_right (by omega), length, madeFor_getElem]

theorem madeFor_length (dpid : Nat) : ∀ (flows : List (FlowStats M I)) (lastId : Nat),
    (madeFor dpid lastId flows).length = flows.length
  | [], _ => rfl
  | _ :: flows, lastId => congrArg (· + 1) (madeFor_length dpid flows (lastId + 1))

omit M I in
theorem filter_events (type : EventType) {rules : List Nat} (nodup : rules.Nodup) (rule : Nat) :
    ((rules.map fun other => (type, other)).filter fun e => e.2 = rule).map Prod.fst =
      if rule ∈ rules then [type] else [] := by
  induction rules with
  | nil => rfl
  | cons first rules ih =>
      obtain ⟨fresh, nodup⟩ := List.nodup_cons.mp nodup
      have rest := ih nodup
      by_cases same : first = rule
      · subst same
        rw [if_neg fresh] at rest
        simp [rest]
      · simp [same, rest, Ne.symm same]

theorem Replaces.announcedOf (replaces : Replaces m m' dpid gone stay flows) (rule : Nat) :
    m'.announcedOf rule = m.announcedOf rule ++ ((if rule ∈ gone then [.delete] else []) ++
      if m.made.length ≤ rule ∧ rule < m.made.length + flows.length then [.add] else []) := by
  have nodup := replaces.before.nodup_iff.mp (m.nodup dpid)
  rw [FlowManager.announcedOf, replaces.events, List.filter_append, List.map_append,
    List.filter_append, List.map_append, filter_events _ (List.nodup_append.mp nodup).1,
    filter_events _ List.nodup_range']
  simp only [List.mem_range'_1]
  rfl

theorem Replaces.gone_known (replaces : Replaces m m' dpid gone stay flows) {rule : Nat}
    (mem : rule ∈ gone) : rule ∈ m.allSwitchesRules dpid :=
  replaces.before.symm.subset (List.mem_append_left _ mem)

/-- A rule of before is known afterwards if it was and has not gone. -/
theorem Replaces.mem_old (replaces : Replaces m m' dpid gone stay flows) (tidy : Tidy m) {rule : Nat}
    (old : rule < m.made.length) (d : Nat) :
    rule ∈ m'.allSwitchesRules d ↔ rule ∈ m.allSwitchesRules d ∧ rule ∉ gone := by
  by_cases same : d = dpid
  · subst same
    have nodup := replaces.before.nodup_iff.mp (m.nodup d)
    have apart := (List.nodup_append.mp nodup).2.2
    rw [replaces.after, List.mem_append, List.mem_range'_1, replaces.before.mem_iff, List.mem_append]
    constructor
    · rintro (stays | new)
      · exact ⟨.inr stays, fun mem => apart rule mem rule stays rfl⟩
      · omega
    · rintro ⟨mem | stays, notGone⟩
      · exact absurd mem notGone
      · exact .inl stays
  · rw [replaces.others d same]
    refine (and_iff_left_of_imp fun mem isGone => ?_).symm
    obtain ⟨r, found, own, -⟩ := (tidy.known d rule).mp mem
    obtain ⟨r', found', own', -⟩ := (tidy.known dpid rule).mp (replaces.gone_known isGone)
    rw [found] at found'
    obtain rfl := Option.some.inj found'
    exact same (own.symm.trans own')

theorem Replaces.mem_new (replaces : Replaces m m' dpid gone stay flows) {rule : Nat}
    (new : m.made.length ≤ rule) (d : Nat) :
    rule ∈ m'.allSwitchesRules d ↔ d = dpid ∧ rule < m.made.length + flows.length := by
  have unknown : ∀ d, rule ∉ m.allSwitchesRules d := fun d mem =>
    Nat.not_lt.mpr new (m.valid d rule mem)
  by_cases same : d = dpid
  · subst same
    have notStay : rule ∉ stay := fun mem =>
      unknown d (replaces.before.symm.subset (List.mem_append_right _ mem))
    rw [replaces.after, List.mem_append, List.mem_range'_1]
    simp [notStay, new]
  · rw [replaces.others d same]
    simp [unknown d, same]

theorem Replaces.tidy (replaces : Replaces m m' dpid gone stay flows) (tidy : Tidy m) : Tidy m' := by
  have length : m'.made.length = m.made.length + flows.length := by
    rw [replaces.made, List.length_append, (dropAll_spec gone m).2.1, madeFor_length]
  have announced := replaces.announcedOf
  have wasActive : ∀ rule r, rule ∈ gone → m.made[rule]? = some r → r.active = true := by
    intro rule r mem found
    obtain ⟨r', found', -, active⟩ := (tidy.known dpid rule).mp (replaces.gone_known mem)
    rw [found] at found'
    exact Option.some.inj found' ▸ active
  refine ⟨by rw [replaces.lastId, length, tidy.lastId], fun rule r found => ?_, fun d rule => ?_,
    fun rule r found => ?_, fun rule unmade => ?_⟩
  · rw [replaces.getElem] at found
    split at found
    · obtain ⟨r', found', rfl⟩ := Option.map_eq_some_iff.mp found
      have number := tidy.numbered rule r' found'
      split <;> exact number
    · obtain ⟨flow, -, rfl⟩ := Option.map_eq_some_iff.mp found
      have := tidy.lastId
      simp only
      omega
  · by_cases old : rule < m.made.length
    · rw [replaces.mem_old tidy old, replaces.getElem, if_pos old, tidy.known]
      by_cases isGone : rule ∈ gone
      · simp [isGone]
      · simp [isGone]
    · rw [replaces.mem_new (by omega), replaces.getElem, if_neg old]
      constructor
      · rintro ⟨rfl, before⟩
        have inside : rule - m.made.length < flows.length := by omega
        exact ⟨_, by rw [List.getElem?_eq_getElem inside]; rfl, rfl, rfl⟩
      · rintro ⟨r, found, rfl, -⟩
        obtain ⟨flow, reported, rfl⟩ := Option.map_eq_some_iff.mp found
        have inside := (List.getElem?_eq_some_iff.mp reported).1
        exact ⟨rfl, by omega⟩
  · rw [replaces.getElem] at found
    rw [announced]
    split at found
    · rename_i old
      obtain ⟨r', found', rfl⟩ := Option.map_eq_some_iff.mp found
      rw [tidy.announced rule r' found']
      by_cases isGone : rule ∈ gone
      · have active := wasActive rule r' isGone found'
        simp [isGone, active, Nat.not_le.mpr old]
      · simp [isGone, Nat.not_le.mpr old]
    · rename_i new
      obtain ⟨flow, reported, rfl⟩ := Option.map_eq_some_iff.mp found
      have inside := (List.getElem?_eq_some_iff.mp reported).1
      have notGone : rule ∉ gone := fun mem => new (m.valid dpid rule (replaces.gone_known mem))
      rw [tidy.unmade rule (by omega), if_neg notGone, if_pos (by omega)]
      simp
  · have notGone : rule ∉ gone := fun mem => by
      have := m.valid dpid rule (replaces.gone_known mem)
      omega
    rw [announced, tidy.unmade rule (by omega), if_neg notGone, if_neg (by omega)]
    rfl

end

/-- **After every run the rules are numbered as they were made; the active ones are known of their
own switch and have been announced once, and the others have been announced as gone.** -/
theorem tidy_run (slots : List (Slot M I)) : Tidy (final slot (initial : FlowManager M I) slots) :=
  invariant_final Tidy (fun m s tidy => by
    obtain ⟨dpid, gone, stay, flows, replaces⟩ := slot_replaces m s
    exact replaces.tidy tidy) slots .initial

/-! ## A polling client -/

/-- A call of `addEvent` for the event manager. -/
def changeOf : EventType × Nat → Change Nat
  | (.delete, rule) => .delete rule
  | (_, rule) => .add rule

/-- The calls of `addEvent` from one manager to the next. -/
def newChanges (m m' : FlowManager M I) : List (Change Nat) :=
  (m'.events.drop m.events.length).map changeOf

structure Followed (M I : Type) where
  manager : FlowManager M I := initial
  polling : Polling Nat := {}

inductive Moment (M I : Type) where
  | slot (s : Slot M I)
  | poll

/-- A slot with the events it makes, or a poll of the client. -/
def moment (rest : RestHandler) (mask : BitVec 32) (w : Followed M I) : Moment M I → Followed M I
  | .slot s =>
      ⟨w.manager.slot s, final (step (fun _ => rest) mask) w.polling
        (newChanges w.manager (w.manager.slot s))⟩
  | .poll => { w with polling := step (fun _ => rest) mask w.polling .poll }

/-- The client's next number does not come between the `Add` and the `Delete` of a rule. -/
def PollsClear (mask : BitVec 32) (w : Followed M I) : Moment M I → Prop
  | .slot _ => True
  | .poll => ∀ events ∈ w.polling.manager, NotBetween mask w.polling.last events

/-- No null pointer is followed; and after a poll the client, if it asks for the flow manager, knows
the rules that the manager knows. -/
def RulesTold (rest : RestHandler) (mask : BitVec 32) (w : Followed M I) (e : Moment M I) : Prop :=
  (moment rest mask w e).polling.manager.isSome = true ∧
    (e = .poll → ∀ rule, ∃ knows, replay false ((moment rest mask w e).polling.received rule) = some knows ∧
      (knows = true ↔ rest.hash &&& mask ≠ 0 ∧ w.manager.Knows rule))

section

omit [BEq M] [BEq I]

variable {owner : Nat → RestHandler} {mask : BitVec 32}

theorem deletes_good : ∀ {rules : List Nat} {p : Polling Nat} {events : EventManager Nat},
    rules.Nodup → (∀ rule ∈ rules, p.live rule = true) → Good owner mask p events →
      ∃ events', Good owner mask (final (step owner mask) p (rules.map .delete)) events' ∧
        ∀ rule, (final (step owner mask) p (rules.map .delete)).live rule =
          (p.live rule && decide (rule ∉ rules))
  | [], p, events, _, _, good => ⟨events, good, by simp⟩
  | first :: rules, p, events, nodup, live, good => by
      obtain ⟨fresh, nodup⟩ := List.nodup_cons.mp nodup
      obtain ⟨isLive, live⟩ := List.forall_mem_cons.mp live
      obtain ⟨next, good⟩ := delete_good good isLive
      have others : ∀ rule ∈ rules, (step owner mask p (.delete first)).live rule = true := by
        intro rule mem
        have ne : rule ≠ first := fun same => fresh (same ▸ mem)
        simpa [step, ne] using live rule mem
      obtain ⟨last, good, after⟩ := deletes_good nodup others good
      refine ⟨last, good, fun rule => (after rule).trans ?_⟩
      by_cases same : rule = first <;> simp [step, same]

theorem adds_good : ∀ {rules : List Nat} {p : Polling Nat} {events : EventManager Nat},
    rules.Nodup → (∀ rule ∈ rules, p.live rule = false) → Good owner mask p events →
      ∃ events', Good owner mask (final (step owner mask) p (rules.map .add)) events' ∧
        ∀ rule, (final (step owner mask) p (rules.map .add)).live rule =
          (p.live rule || decide (rule ∈ rules))
  | [], p, events, _, _, good => ⟨events, good, by simp⟩
  | first :: rules, p, events, nodup, live, good => by
      obtain ⟨fresh, nodup⟩ := List.nodup_cons.mp nodup
      obtain ⟨isNew, live⟩ := List.forall_mem_cons.mp live
      obtain ⟨next, good⟩ := add_good good fun _ => isNew
      have others : ∀ rule ∈ rules, (step owner mask p (.add first)).live rule = false := by
        intro rule mem
        have ne : rule ≠ first := fun same => fresh (same ▸ mem)
        simpa [step, ne] using live rule mem
      obtain ⟨last, good, after⟩ := adds_good nodup others good
      refine ⟨last, good, fun rule => (after rule).trans ?_⟩
      by_cases same : rule = first <;> simp [step, same]

end

/-- What the manager knows is live for its client. -/
structure InStep (rest : RestHandler) (mask : BitVec 32) (w : Followed M I)
    (events : EventManager Nat) : Prop where
  tidy : Tidy w.manager
  good : Good (fun _ => rest) mask w.polling events
  live : ∀ rule, w.polling.live rule = true ↔ w.manager.Knows rule

omit [BEq M] [BEq I] in
theorem Replaces.knows_iff {m m' : FlowManager M I} {dpid : Nat} {gone stay : List Nat}
    {flows : List (FlowStats M I)} (replaces : Replaces m m' dpid gone stay flows) (tidy : Tidy m)
    (rule : Nat) : m'.Knows rule ↔ (m.Knows rule ∧ rule ∉ gone) ∨
      rule ∈ List.range' m.made.length flows.length := by
  rw [List.mem_range'_1]
  by_cases old : rule < m.made.length
  · simp only [Knows, replaces.mem_old tidy old, exists_and_right]
    exact (or_iff_left (by omega)).symm
  · have unknown : ¬m.Knows rule := fun ⟨d, mem⟩ => old (m.valid d rule mem)
    have new : m.made.length ≤ rule := Nat.not_lt.mp old
    simp only [Knows, replaces.mem_new new, exists_eq_left] at unknown ⊢
    simp [unknown, new]

theorem slot_inStep {rest : RestHandler} {mask : BitVec 32} {w : Followed M I}
    {events : EventManager Nat} (inStep : InStep rest mask w events) (s : Slot M I) :
    ∃ events', InStep rest mask (moment rest mask w (.slot s)) events' := by
  obtain ⟨dpid, gone, stay, flows, replaces⟩ := slot_replaces w.manager s
  have nodup := replaces.before.nodup_iff.mp (w.manager.nodup dpid)
  have changes : newChanges w.manager (w.manager.slot s) = gone.map .delete ++
      (List.range' w.manager.made.length flows.length).map .add := by
    rw [newChanges, replaces.events, List.drop_left, List.map_append, List.map_map, List.map_map]
    rfl
  obtain ⟨between, goodBetween, gones⟩ := deletes_good (List.nodup_append.mp nodup).1
    (fun rule mem => (inStep.live rule).mpr ⟨dpid, replaces.gone_known mem⟩) inStep.good
  obtain ⟨last, good, news⟩ := adds_good
    (List.nodup_range' (s := w.manager.made.length) (n := flows.length)) (fun rule mem => by
      have new : w.manager.made.length ≤ rule := (List.mem_range'_1.mp mem).1
      have unknown : w.polling.live rule = false := by
        by_contra isLive
        obtain ⟨d, known⟩ := (inStep.live rule).mp (by simpa using isLive)
        exact absurd (w.manager.valid d rule known) (by omega)
      rw [gones, unknown, Bool.false_and]) goodBetween
  refine ⟨last, replaces.tidy inStep.tidy, ?_, fun rule => ?_⟩
  · simp only [moment, changes, final, List.foldl_append]
    exact good
  · have liveAfter : (moment rest mask w (.slot s)).polling.live rule =
        ((w.polling.live rule && decide (rule ∉ gone)) ||
          decide (rule ∈ List.range' w.manager.made.length flows.length)) := by
      simp only [moment, changes, final, List.foldl_append]
      rw [← gones rule]
      exact news rule
    rw [liveAfter]
    refine Iff.trans ?_ (replaces.knows_iff inStep.tidy rule).symm
    simp only [Bool.or_eq_true, Bool.and_eq_true, decide_eq_true_eq, inStep.live]

theorem poll_told {rest : RestHandler} {mask : BitVec 32} {w : Followed M I}
    {events : EventManager Nat} (inStep : InStep rest mask w events)
    (clear : PollsClear mask w .poll) :
    RulesTold rest mask w .poll ∧ InStep rest mask (moment rest mask w .poll) events := by
  obtain ⟨received, next⟩ := poll_good inStep.good
  have good := next (clear events inStep.good.manager)
  have live : (moment rest mask w .poll).polling.live = w.polling.live := by
    simp [moment, step, Polling.poll, inStep.good.manager]
  refine ⟨⟨by rw [moment, good.manager]; rfl, fun _ rule => ⟨_, received rule, ?_⟩⟩,
    inStep.tidy, good, fun rule => by rw [live]; exact inStep.live rule⟩
  simp only [Bool.and_eq_true, inStep.live, inMask, decide_eq_true_eq, ne_eq]
  exact and_comm

end FlowManager

end Drunos.Rest
