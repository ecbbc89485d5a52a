/-
# Drunos.Rest.FlowManager — the rules of a switch and what it reports

`FlowManager::updateSwitchRules`. The known rules of a switch are compared with the flows
it reports: a rule takes the first reported flow that is equal to its own, a rule that finds
none goes, and a flow that no rule took becomes a new rule. Each that goes and each that
comes is announced as an event.

A `Rule` is an object that is never freed. Objects are kept in the order they are made, and a
pointer to one is its place there.
-/
import Drunos.Rest.EventManager
import Mathlib.Data.Multiset.AddSub
import Mathlib.Data.Multiset.MapFold

namespace Drunos.Rest

set_option autoImplicit false

/-- What `equalflows` reads of an `of13::FlowStats`; a match and instructions are libfluid's. -/
structure FlowStats (M I : Type) where
  cookie : BitVec 64
  hardTimeout : BitVec 16
  idleTimeout : BitVec 16
  priority : BitVec 16
  tableId : BitVec 8
  flags : BitVec 16
  match' : M
  instructions : I

variable {M I : Type}

structure Rule (M I : Type) where
  ruleId : Nat
  switchId : Nat
  flow : FlowStats M I
  active : Bool

structure FlowManager (M I : Type) where
  /-- The rules that were ever made. -/
  made : List (Rule M I)
  allSwitchesRules : Nat → List Nat
  /-- `RuleIDs::last_event`. -/
  lastId : Nat
  /-- The calls of `addEvent`. -/
  events : List (EventType × Nat)
  valid : ∀ dpid, ∀ rule ∈ allSwitchesRules dpid, rule < made.length
  nodup : ∀ dpid, (allSwitchesRules dpid).Nodup

namespace FlowManager

def addEvent (type : EventType) (rule : Nat) (m : FlowManager M I) : FlowManager M I :=
  { m with events := m.events ++ [(type, rule)] }

/-- `rule->active = false`. -/
def deactivate (rule : Nat) (m : FlowManager M I) : FlowManager M I where
  made := m.made.modify rule fun r => { r with active := false }
  allSwitchesRules := m.allSwitchesRules
  lastId := m.lastId
  events := m.events
  valid := by simpa using m.valid
  nodup := m.nodup

/-- The rules of the switch become some of those they were. -/
def keepRules (dpid : Nat) (rules : List Nat) (m : FlowManager M I)
    (sub : rules.Sublist (m.allSwitchesRules dpid)) : FlowManager M I where
  made := m.made
  allSwitchesRules := Function.update m.allSwitchesRules dpid rules
  lastId := m.lastId
  events := m.events
  valid := by
    intro other
    by_cases same : other = dpid
    · subst same
      simpa using fun rule mem => m.valid other rule (sub.subset mem)
    · simpa [same] using m.valid other
  nodup := by
    intro other
    by_cases same : other = dpid
    · subst same
      simpa using (m.nodup other).sublist sub
    · simpa [same] using m.nodup other

/-- `new Rule`, which becomes the last rule of the switch. -/
def pushRule (dpid : Nat) (m : FlowManager M I) (flow : FlowStats M I) : FlowManager M I where
  made := m.made ++ [{ ruleId := m.lastId + 1, switchId := dpid, flow, active := true }]
  allSwitchesRules :=
    Function.update m.allSwitchesRules dpid (m.allSwitchesRules dpid ++ [m.made.length])
  lastId := m.lastId + 1
  events := m.events
  valid := by
    intro other rule mem
    by_cases same : other = dpid
    · subst same
      simp only [Function.update_self, List.mem_append, List.mem_singleton] at mem
      rcases mem with old | rfl
      · have bound := m.valid other rule old
        simp
        omega
      · simp
    · have bound := m.valid other rule (by simpa [same] using mem)
      simp
      omega
  nodup := by
    intro other
    by_cases same : other = dpid
    · subst same
      have fresh : m.made.length ∉ m.allSwitchesRules other := fun mem =>
        Nat.lt_irrefl _ (m.valid other _ mem)
      simpa using List.nodup_append.mpr ⟨m.nodup other, by simp, by
        intro rule mem last here
        simp only [List.mem_singleton] at here
        rintro rfl
        exact fresh (here ▸ mem)⟩
    · simpa [same] using m.nodup other

section

variable [BEq M] [BEq I]

def equalflows (one two : FlowStats M I) : Bool :=
  one.cookie == two.cookie && one.hardTimeout == two.hardTimeout &&
    one.idleTimeout == two.idleTimeout && one.priority == two.priority &&
    one.tableId == two.tableId && one.flags == two.flags && one.match' == two.match' &&
    one.instructions == two.instructions

/-- The loop over the reported flows: the first that is equal is erased. -/
def takeFlow (flow : FlowStats M I) : List (FlowStats M I) → Option (List (FlowStats M I))
  | [] => none
  | it :: rest => if equalflows it flow then some rest else (takeFlow flow rest).map (it :: ·)

/-- What `remove_if` leaves: the rules, the flows that no rule took, and the manager. -/
structure Removed (M I : Type) where
  rules : List Nat
  flows : List (FlowStats M I)
  manager : FlowManager M I

/-- The `flow` of a rule. -/
def flowOf (m : FlowManager M I) (rule : Nat) : Option (FlowStats M I) := (m.made[rule]?).map (·.flow)

/-- `std::remove_if` with its predicate. -/
def removeIf : List Nat → List (FlowStats M I) → FlowManager M I → Removed M I
  | [], flows, m => ⟨[], flows, m⟩
  | rule :: rules, flows, m =>
      match (m.flowOf rule).bind (takeFlow · flows) with
      | some left =>
          let r := removeIf rules left m
          { r with rules := rule :: r.rules }
      | none => removeIf rules flows ((m.addEvent .delete rule).deactivate rule)

/-! ## Which rules stay -/

theorem removeIf_sublist (rules : List Nat) : ∀ (flows : List (FlowStats M I)) (m : FlowManager M I),
    (removeIf rules flows m).rules.Sublist rules := by
  induction rules with
  | nil => exact fun _ _ => .slnil
  | cons rule rules ih =>
      intro flows m
      rw [removeIf]
      split
      · exact (ih _ _).cons_cons rule
      · exact (ih _ _).cons rule

theorem removeIf_known (rules : List Nat) : ∀ (flows : List (FlowStats M I)) (m : FlowManager M I),
    (removeIf rules flows m).manager.allSwitchesRules = m.allSwitchesRules := by
  induction rules with
  | nil => exact fun _ _ => rfl
  | cons rule rules ih =>
      intro flows m
      rw [removeIf]
      split
      · exact ih _ _
      · exact ih _ _

def updateSwitchRules (dpid : Nat) (flows : List (FlowStats M I)) (m : FlowManager M I) :
    FlowManager M I :=
  let r := removeIf (m.allSwitchesRules dpid) flows m
  let kept := r.manager.keepRules dpid r.rules
    (removeIf_known (m.allSwitchesRules dpid) flows m ▸ removeIf_sublist _ _ _)
  r.flows.foldl (fun m flow => (m.pushRule dpid flow).addEvent .add m.made.length) kept

/-- The flows of the known rules of a switch. -/
def flows (m : FlowManager M I) (dpid : Nat) : List (FlowStats M I) :=
  (m.allSwitchesRules dpid).filterMap m.flowOf

def idOf (m : FlowManager M I) (rule : Nat) : Option Nat := (m.made[rule]?).map (·.ruleId)

/-- The rules of before are there, with their ids and flows. -/
structure Keeps (m m' : FlowManager M I) : Prop where
  flow : ∀ rule < m.made.length, m'.flowOf rule = m.flowOf rule
  id : ∀ rule < m.made.length, m'.idOf rule = m.idOf rule
  length : m.made.length ≤ m'.made.length

omit [BEq M] [BEq I] in
theorem Keeps.refl (m : FlowManager M I) : Keeps m m := ⟨fun _ _ => rfl, fun _ _ => rfl, Nat.le_refl _⟩

omit [BEq M] [BEq I] in
theorem Keeps.trans {m m' m'' : FlowManager M I} (first : Keeps m m') (next : Keeps m' m'') :
    Keeps m m'' where
  flow rule bound := (next.flow rule (Nat.lt_of_lt_of_le bound first.length)).trans (first.flow rule bound)
  id rule bound := (next.id rule (Nat.lt_of_lt_of_le bound first.length)).trans (first.id rule bound)
  length := Nat.le_trans first.length next.length

omit [BEq M] [BEq I] in
theorem keeps_addEvent (type : EventType) (rule : Nat) (m : FlowManager M I) :
    Keeps m (m.addEvent type rule) :=
  ⟨fun _ _ => rfl, fun _ _ => rfl, Nat.le_refl _⟩

omit [BEq M] [BEq I] in
theorem keeps_deactivate (rule : Nat) (m : FlowManager M I) : Keeps m (m.deactivate rule) where
  flow other _ := by
    simp only [flowOf, deactivate, List.getElem?_modify]
    cases m.made[other]? <;> simp
    split <;> rfl
  id other _ := by
    simp only [idOf, deactivate, List.getElem?_modify]
    cases m.made[other]? <;> simp
    split <;> rfl
  length := by simp [deactivate]

omit [BEq M] [BEq I] in
theorem keeps_pushRule (dpid : Nat) (flow : FlowStats M I) (m : FlowManager M I) :
    Keeps m (m.pushRule dpid flow) where
  flow rule bound := by simp [flowOf, pushRule, List.getElem?_append_left bound]
  id rule bound := by simp [idOf, pushRule, List.getElem?_append_left bound]
  length := by simp [pushRule]

/-! ## What is taken -/

theorem takeFlow_some {flow : FlowStats M I} {flows left : List (FlowStats M I)}
    (taken : takeFlow flow flows = some left) :
    ∃ it, equalflows it flow = true ∧ flows.Perm (it :: left) := by
  induction flows generalizing left with
  | nil => simp [takeFlow] at taken
  | cons it rest ih =>
      rw [takeFlow] at taken
      split_ifs at taken with equal
      · cases taken
        exact ⟨it, equal, .refl _⟩
      · obtain ⟨left', taken', rfl⟩ := Option.map_eq_some_iff.mp taken
        obtain ⟨found, equal', perm⟩ := ih taken'
        exact ⟨found, equal', (perm.cons it).trans (.swap found it left')⟩

theorem takeFlow_none {flow : FlowStats M I} {flows : List (FlowStats M I)}
    (none : takeFlow flow flows = none) : ∀ it ∈ flows, equalflows it flow = false := by
  induction flows with
  | nil => simp
  | cons it rest ih =>
      rw [takeFlow] at none
      split_ifs at none with equal
      exact List.forall_mem_cons.mpr ⟨by simpa using equal, ih (Option.map_eq_none_iff.mp none)⟩

/-- What `remove_if` does: the rules are those that went and those that stay, each that went is
announced and finds no equal flow among what is left, and what was taken are the flows of those that
stay, up to `cls`. -/
structure Sifts {Q : Type} (cls : FlowStats M I → Q) (rules : List Nat) (flows : List (FlowStats M I))
    (m : FlowManager M I) (gone : List Nat) (r : Removed M I) : Prop where
  perm : rules.Perm (gone ++ r.rules)
  events : r.manager.events = m.events ++ gone.map fun rule => (.delete, rule)
  keeps : Keeps m r.manager
  length : r.manager.made.length = m.made.length
  taken : (flows.map cls).Perm ((r.rules.filterMap m.flowOf).map cls ++ r.flows.map cls)
  left : r.flows ⊆ flows
  apart : ∀ rule ∈ gone, ∀ flow, m.flowOf rule = some flow → ∀ it ∈ r.flows, equalflows it flow = false

theorem removeIf_sifts {Q : Type} {cls : FlowStats M I → Q}
    (respects : ∀ one two, equalflows one two = true → cls one = cls two) {rules : List Nat} :
    ∀ (flows : List (FlowStats M I)) {m : FlowManager M I}, (∀ rule ∈ rules, rule < m.made.length) →
      ∃ gone, Sifts cls rules flows m gone (removeIf rules flows m) := by
  induction rules with
  | nil =>
      exact fun flows m _ => ⟨[], .refl _, by simp [removeIf], .refl m, rfl, by simp [removeIf],
        fun _ => id, by simp⟩
  | cons rule rules ih =>
      intro flows m valid
      obtain ⟨bound, valid⟩ := List.forall_mem_cons.mp valid
      obtain ⟨flow, own⟩ : ∃ flow, m.flowOf rule = some flow :=
        ⟨m.made[rule].flow, by simp [flowOf, bound]⟩
      rw [removeIf, own, Option.bind_some]
      cases taken : takeFlow flow flows with
      | some left =>
          obtain ⟨gone, sifts⟩ := ih left valid
          obtain ⟨it, equal, perm⟩ := takeFlow_some taken
          refine ⟨gone, ?_, sifts.events, sifts.keeps, sifts.length, ?_, fun f mem => ?_, sifts.apart⟩
          · exact (sifts.perm.cons rule).trans List.perm_middle.symm
          · have same : cls it = cls flow := respects it flow equal
            simpa [own, same] using (perm.map cls).trans (sifts.taken.cons (cls it))
          · exact perm.symm.subset (List.mem_cons_of_mem it (sifts.left mem))
      | none =>
          have keeps : Keeps m ((m.addEvent .delete rule).deactivate rule) :=
            (keeps_addEvent .delete rule m).trans (keeps_deactivate rule _)
          have length : ((m.addEvent .delete rule).deactivate rule).made.length = m.made.length := by
            simp [deactivate, addEvent]
          obtain ⟨gone, sifts⟩ := @ih flows ((m.addEvent .delete rule).deactivate rule)
            (by simpa [length] using valid)
          -- the flows of the rules are what they were
          have flowsOf : ∀ other ∈ rules,
              ((m.addEvent .delete rule).deactivate rule).flowOf other = m.flowOf other :=
            fun other mem => keeps.flow other (valid other mem)
          refine ⟨rule :: gone, sifts.perm.cons rule, ?_, keeps.trans sifts.keeps,
            sifts.length.trans length, ?_, sifts.left, ?_⟩
          · rw [sifts.events]
            simp [deactivate, addEvent]
          · have kept := removeIf_sublist rules flows ((m.addEvent .delete rule).deactivate rule)
            rw [← List.filterMap_congr fun other mem => flowsOf other (kept.subset mem)]
            exact sifts.taken
          · refine List.forall_mem_cons.mpr ⟨fun f here it mem => ?_, fun other mem f here => ?_⟩
            · rw [own] at here
              cases here
              exact takeFlow_none taken it (sifts.left mem)
            · have known : other ∈ rules := sifts.perm.symm.subset (List.mem_append_left _ mem)
              exact sifts.apart other mem f ((flowsOf other known).trans here)

/-! ## What becomes a rule -/

/-- The flows that are left become the next rules. -/
structure Pushed (dpid : Nat) (flows : List (FlowStats M I)) (m m' : FlowManager M I) : Prop where
  rules : m'.allSwitchesRules dpid =
    m.allSwitchesRules dpid ++ List.range' m.made.length flows.length
  events : m'.events =
    m.events ++ (List.range' m.made.length flows.length).map fun rule => (.add, rule)
  keeps : Keeps m m'
  flows : (List.range' m.made.length flows.length).filterMap m'.flowOf = flows

omit [BEq M] [BEq I] in
theorem foldl_pushed (dpid : Nat) (flows : List (FlowStats M I)) : ∀ m : FlowManager M I,
    Pushed dpid flows m
      (flows.foldl (fun m flow => (m.pushRule dpid flow).addEvent .add m.made.length) m) := by
  induction flows with
  | nil => exact fun m => ⟨by simp, by simp, .refl m, rfl⟩
  | cons flow flows ih =>
      intro m
      have later := ih ((m.pushRule dpid flow).addEvent .add m.made.length)
      have first : Keeps m ((m.pushRule dpid flow).addEvent .add m.made.length) :=
        (keeps_pushRule dpid flow m).trans (keeps_addEvent _ _ _)
      have length : ((m.pushRule dpid flow).addEvent .add m.made.length).made.length =
          m.made.length + 1 := by simp [addEvent, pushRule]
      have own : ((m.pushRule dpid flow).addEvent .add m.made.length).flowOf m.made.length =
          some flow := by simp [flowOf, addEvent, pushRule]
      refine ⟨?_, ?_, first.trans later.keeps, ?_⟩
      · rw [List.foldl_cons, later.rules, length]
        simp [addEvent, pushRule, List.range'_succ]
      · rw [List.foldl_cons, later.events, length]
        simp [addEvent, pushRule, List.range'_succ]
      · rw [List.foldl_cons, List.length_cons, List.range'_succ, List.filterMap_cons,
          later.keeps.flow _ (by omega), own, ← length, later.flows]

/-! ## The update -/

/-- How often a rule is announced. -/
def announcedFor (before after : List Nat) : EventType × Nat → Nat
  | (.delete, rule) => if rule ∈ before ∧ rule ∉ after then 1 else 0
  | (.add, rule) => if rule ∈ after ∧ rule ∉ before then 1 else 0
  | (.change, _) => 0

omit [BEq M] [BEq I] in
theorem count_map_event {type : EventType} {rules : List Nat} (nodup : rules.Nodup)
    (other : EventType) (rule : Nat) :
    (rules.map fun rule => (type, rule)).count (other, rule) =
      if other = type ∧ rule ∈ rules then 1 else 0 := by
  have nodup' : (rules.map fun rule => (type, rule)).Nodup :=
    nodup.map fun one two same => (Prod.mk.inj same).2
  rw [nodup'.count]
  congr 1
  simp [eq_comm, and_comm]

section

variable {gone new : List Nat} {rule : Nat}

theorem mem_announced_delete :
    (EventType.delete, rule) ∈ gone.map (fun rule => (EventType.delete, rule)) ++
      new.map (fun rule => (EventType.add, rule)) ↔ rule ∈ gone := by simp

theorem mem_announced_add :
    (EventType.add, rule) ∈ gone.map (fun rule => (EventType.delete, rule)) ++
      new.map (fun rule => (EventType.add, rule)) ↔ rule ∈ new := by simp

end

/-- The rules that went, those that stay and those that came. -/
structure Updated {Q : Type} (cls : FlowStats M I → Q) (dpid : Nat) (reported : List (FlowStats M I))
    (m m' : FlowManager M I) (gone stay new : List Nat) : Prop where
  before : (m.allSwitchesRules dpid).Perm (gone ++ stay)
  after : m'.allSwitchesRules dpid = stay ++ new
  fresh : ∀ rule ∈ new, m.made.length ≤ rule
  nodup : new.Nodup
  events : m'.events =
    m.events ++ (gone.map (fun rule => (.delete, rule)) ++ new.map fun rule => (.add, rule))
  keeps : Keeps m m'
  flows : ((m'.flows dpid).map cls).Perm (reported.map cls)
  apart : ∀ rule ∈ gone, ∀ rule' ∈ new, ∀ flow flow', m.flowOf rule = some flow →
    m'.flowOf rule' = some flow' → equalflows flow' flow = false

theorem Sifts.updated {Q : Type} {cls : FlowStats M I → Q} {m : FlowManager M I} {dpid : Nat}
    {reported : List (FlowStats M I)} {gone : List Nat} {r : Removed M I}
    (sifts : Sifts cls (m.allSwitchesRules dpid) reported m gone r)
    (sub : r.rules.Sublist (r.manager.allSwitchesRules dpid)) :
    Updated cls dpid reported m
      (r.flows.foldl (fun m flow => (m.pushRule dpid flow).addEvent .add m.made.length)
        (r.manager.keepRules dpid r.rules sub))
      gone r.rules (List.range' m.made.length r.flows.length) := by
  have pushed := foldl_pushed dpid r.flows (r.manager.keepRules dpid r.rules sub)
  have made : (r.manager.keepRules dpid r.rules sub).made.length = m.made.length := sifts.length
  have known : (r.manager.keepRules dpid r.rules sub).allSwitchesRules dpid = r.rules := by
    simp [keepRules]
  have events : (r.manager.keepRules dpid r.rules sub).events =
      m.events ++ gone.map fun rule => (.delete, rule) := sifts.events
  have keeps : Keeps m (r.manager.keepRules dpid r.rules sub) :=
    ⟨sifts.keeps.flow, sifts.keeps.id, sifts.keeps.length⟩
  obtain ⟨rules, added, later, flows⟩ := pushed
  rw [made] at rules added flows
  rw [known] at rules
  rw [events, List.append_assoc] at added
  have all := keeps.trans later
  refine ⟨sifts.perm, rules, by simp +contextual, List.nodup_range' , added, all, ?_, ?_⟩
  · -- the flows of the rules that stay, and those that no rule took
    have old : r.rules.filterMap m.flowOf = r.rules.filterMap _ := List.filterMap_congr fun rule mem =>
      (all.flow rule (m.valid dpid rule (sifts.perm.symm.subset (List.mem_append_right _ mem)))).symm
    rw [FlowManager.flows, rules, List.filterMap_append, flows, List.map_append, ← old]
    exact sifts.taken.symm
  · intro rule mem rule' mem' flow flow' here here'
    refine sifts.apart rule mem flow here flow' ?_
    rw [← flows]
    exact List.mem_filterMap.mpr ⟨rule', mem', here'⟩

theorem updateSwitchRules_updated {Q : Type} (cls : FlowStats M I → Q)
    (respects : ∀ one two, equalflows one two = true → cls one = cls two) (m : FlowManager M I)
    (dpid : Nat) (reported : List (FlowStats M I)) :
    ∃ gone stay new, Updated cls dpid reported m (m.updateSwitchRules dpid reported) gone stay new := by
  obtain ⟨gone, sifts⟩ := removeIf_sifts respects reported (m.valid dpid)
  exact ⟨gone, _, _, sifts.updated _⟩

/-- **After an update the known rules have the reported flows, the rules that stay are what they were,
and the events are one `Delete` for each that went and one `Add` for each that came**; and no rule came
that is equal to one that went. -/
theorem updateSwitchRules_reconciles
    (equal : Equivalence fun one two : FlowStats M I => equalflows one two = true)
    (m : FlowManager M I) (dpid : Nat) (reported : List (FlowStats M I)) :
    let m' := m.updateSwitchRules dpid reported
    let before := m.allSwitchesRules dpid
    let after := m'.allSwitchesRules dpid
    let class_ : FlowStats M I → Quotient ⟨_, equal⟩ := Quotient.mk _
    ((m'.flows dpid : Multiset (FlowStats M I)).map class_) = (reported : Multiset _).map class_ ∧
      (∀ rule ∈ before, rule ∈ after → m'.idOf rule = m.idOf rule ∧ m'.flowOf rule = m.flowOf rule) ∧
      ∃ announced, m'.events = m.events ++ announced ∧
        (∀ event, announced.count event = announcedFor before after event) ∧
        (∀ rule, (.delete, rule) ∈ announced → (.add, rule) ∉ announced) ∧
        ∀ gone new f g, (.delete, gone) ∈ announced → (.add, new) ∈ announced →
          m'.flowOf gone = some f → m'.flowOf new = some g → equalflows g f = false := by
  intro m' before after class_
  obtain ⟨gone, stay, new, updated⟩ := updateSwitchRules_updated class_
    (fun one two here => Quotient.sound here) m dpid reported
  have bound (rule : Nat) (mem : rule ∈ before) : rule < m.made.length := m.valid dpid rule mem
  have nodup : (gone ++ stay).Nodup := updated.before.nodup_iff.mp (m.nodup dpid)
  have inBefore (rule : Nat) : rule ∈ before ↔ rule ∈ gone ∨ rule ∈ stay :=
    updated.before.mem_iff.trans List.mem_append
  have inAfter (rule : Nat) : rule ∈ after ↔ rule ∈ stay ∨ rule ∈ new := by
    simp [after, m', updated.after]
  have apart (rule : Nat) (went : rule ∈ gone) : rule ∉ stay := fun stays =>
    (List.nodup_append.mp nodup).2.2 rule went rule stays rfl
  have fresh (rule : Nat) (known : rule ∈ before) : rule ∉ new := fun came =>
    Nat.not_le_of_lt (bound rule known) (updated.fresh rule came)
  refine ⟨?_, fun rule mem _ => ?_, _, updated.events, fun event => ?_, fun rule => ?_, ?_⟩
  · simpa using updated.flows
  · exact ⟨updated.keeps.id rule (bound rule mem), updated.keeps.flow rule (bound rule mem)⟩
  · obtain ⟨type, rule⟩ := event
    rw [List.count_append, count_map_event (List.nodup_append.mp nodup).1,
      count_map_event updated.nodup]
    have came := fresh rule
    have went := apart rule
    cases type with
    | add => simp only [announcedFor, inAfter, inBefore] at came ⊢; grind
    | delete => simp only [announcedFor, inAfter, inBefore] at came ⊢; grind
    | change => simp [announcedFor]
  · simp only [mem_announced_delete, mem_announced_add]
    exact fun went => fresh rule ((inBefore rule).mpr (.inl went))
  · simp only [mem_announced_delete, mem_announced_add]
    intro rule rule' f g went came here here'
    rw [updated.keeps.flow rule (bound rule ((inBefore rule).mpr (.inl went)))] at here
    exact updated.apart rule went rule' came f g here here'

end

/-! ## Duplicates -/

/-- Two rules of one flow, of which the switch reports one, and another flow twice. -/
def twoRules : FlowManager Nat Nat where
  made := [⟨1, 5, ⟨0, 0, 0, 10, 0, 0, 7, 8⟩, true⟩, ⟨2, 5, ⟨0, 0, 0, 10, 0, 0, 7, 8⟩, true⟩]
  allSwitchesRules := fun dpid => if dpid = 5 then [0, 1] else []
  lastId := 2
  events := [(.add, 0), (.add, 1)]
  valid := by
    intro dpid
    split_ifs <;> simp
  nodup := by
    intro dpid
    split_ifs <;> simp

theorem equalflows_iff [BEq M] [BEq I] [LawfulBEq M] [LawfulBEq I] {one two : FlowStats M I} :
    equalflows one two = true ↔ one = two := by
  obtain ⟨⟩ := one
  obtain ⟨⟩ := two
  simp [equalflows, and_assoc]

/-- The first rule stays, the second goes, and both flows of priority 20 are new. -/
theorem updateSwitchRules_reconciles_twoRules :
    ∃ announced, (twoRules.updateSwitchRules 5 [⟨0, 0, 0, 20, 0, 0, 7, 8⟩, ⟨0, 0, 0, 10, 0, 0, 7, 8⟩,
        ⟨0, 0, 0, 20, 0, 0, 7, 8⟩]).events = [(.add, 0), (.add, 1)] ++ announced ∧
      ∀ event, announced.count event = announcedFor [0, 1] [0, 2, 3] event := by
  have equal : Equivalence fun one two : FlowStats Nat Nat => equalflows one two = true := by
    simpa [equalflows_iff] using eq_equivalence
  obtain ⟨-, -, announced, events, counts, -⟩ := updateSwitchRules_reconciles equal twoRules 5
    [⟨0, 0, 0, 20, 0, 0, 7, 8⟩, ⟨0, 0, 0, 10, 0, 0, 7, 8⟩, ⟨0, 0, 0, 20, 0, 0, 7, 8⟩]
  exact ⟨announced, events, counts⟩

end FlowManager

end Drunos.Rest
