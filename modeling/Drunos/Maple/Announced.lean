/-
# Drunos.Maple.Announced — what augmenting asks of the backend

A tree is read as the table its switches should have (`placing`): a test of the
switch id has no barrier, and what fails it is not placed on that switch. Augmenting
a tree adds rules to this table, and these are the ones it asks the backend for:
the barrier rules of its new tests and the rule of the leaf (`trace_rules`). Each of
them has one field for a type, and whole switch ids (`trace_clean`), and the barrier
rules are numbered in order (`trace_numbered`).
-/
import Drunos.Maple.Backend
import Drunos.Maple.Commit

namespace Drunos.Maple

open Drunos.Oxm Drunos.Theory Drunos.Theory.Exploration Drunos.Theory.PriorityTable

set_option autoImplicit false

variable [OxmTypes] {R D : Type}

/-- The test is one of the switch id. -/
def onSwitch (f : Field) : Bool := f.type = switchId

/-- The tree as the table of the switches, each with the packets it has. -/
def placing : Reading Mask Nat Field TestNode FlowNode Packet FlowId :=
  reading (fun _ => true) onSwitch

/-- The packet is on a switch the match does not rule out, and matches it. -/
def placed (m : FullFieldSet) (x : Packet) : Bool :=
  m.included.test x && !(m.excluded.elements switchId).any fun b => b.Matches (x switchId)

/-- The rule a backend that places rules on switches is asked for. -/
def BackendCall.announced : BackendCall → Option (Rule Packet (Option FlowId))
  | .install prio m flow => some ⟨prio, placed m, some flow⟩
  | .barrierRule prio m test _ => if onSwitch test then none else some ⟨prio, placed m, none⟩
  | .barrier => none
  | .remove _ => none

theorem placed_add {m : FullFieldSet} {f : Field} (fresh : m.included.elements f.type = []) :
    placed (m.add f) = placing.passing f (placed m) := by
  funext x
  have matches_ : (m.add f).included.test x = (m.included.test x && x.test f) := by
    rw [Bool.eq_iff_iff, FullFieldSet.add, MultiFieldSet.test_add fresh, Bool.and_eq_true_iff]
  show ((m.add f).included.test x && _) = (placed m x && x.test f)
  rw [matches_, placed, Bool.and_right_comm]
  rfl

theorem placed_case {m : FullFieldSet} {data : Field} (fresh : m.included.elements data.type = []) :
    placed (m.add data) = placing.loading data.mask (valueBits data) (placed m) := by
  rw [placed_add fresh]
  funext x
  have own := test_caseField (congrArg valueBits (caseField_valueBits data)) x
  rw [caseField_valueBits] at own
  show (placed m x && x.test data) = (placed m x && _)
  rw [own]
  rfl

theorem placed_exclude (m : FullFieldSet) (f : Field) :
    placed (m.exclude f) = placing.failing f (placed m) := by
  obtain ⟨t, bits⟩ := f
  funext x
  show (m.included.test x && !((m.excluded.add ⟨t, bits⟩).elements switchId).any _) =
    ((m.included.test x && !(m.excluded.elements switchId).any _) && !(onSwitch ⟨t, bits⟩ && _))
  by_cases own : switchId = t
  · subst own
    have added : ((m.excluded.add ⟨switchId, bits⟩).elements switchId).any
          (fun b => b.Matches (x switchId)) =
        (x.test ⟨switchId, bits⟩ ||
          (m.excluded.elements switchId).any fun b => b.Matches (x switchId)) := by
      rw [Bool.eq_iff_iff, Bool.or_eq_true_iff, Packet.test_iff]
      simpa using MultiFieldSet.elements_add_matches m.excluded ⟨switchId, bits⟩ (x switchId)
    have own : onSwitch ⟨switchId, bits⟩ = true := decide_eq_true rfl
    rw [added, own, Bool.true_and, Bool.not_or, Bool.and_assoc, Bool.and_comm (!x.test _)]
    rfl
  · rw [MultiFieldSet.elements_add_of_ne _ own]
    have other : onSwitch ⟨t, bits⟩ = false := decide_eq_false (Ne.symm own)
    rw [other, Bool.false_and, Bool.not_false, Bool.and_true]

/-! ## The rules of an augmented tree -/

/-- The calls are answered by the packet as it came in. -/
def Told (x : Packet) (calls : List (TraceCall × Packet)) : Prop :=
  ∀ c ∈ calls, c.1.asked.AnsweredBy (answers x)

theorem traceable_told (h : Handler R) (x : Packet) : Told x (traceable h x ∅).calls := by
  intro c mem
  have told := (traceable_unexplored h (FieldSet.apply_empty x)).1
  refine Prog.asked_answered (answers x) c.1.asked (p := unexplored h ∅) ?_
  rw [← told]
  exact List.mem_map.mpr ⟨c, mem, rfl⟩

/-- The rule of the leaf a packet is led to, with the match of the installer. -/
def Installs (x : Packet) (flow : FlowId) (t : Traced) (r : Rule Packet (Option FlowId)) : Prop :=
  ∃ m l, t.installer = some m ∧ t.node.lookup (answers x) = some l ∧
    r = ⟨l.prio, placed m, some flow⟩

theorem Installs.congr {x : Packet} {flow : FlowId} {t t' : Traced} {r : Rule Packet (Option FlowId)}
    (installer : t.installer = t'.installer)
    (leaf : t.node.lookup (answers x) = t'.node.lookup (answers x)) :
    Installs x flow t r ↔ Installs x flow t' r := by
  rw [Installs, Installs, installer, leaf]

theorem mem_announced_barrier {prio id : Nat} {m : FullFieldSet} {test : Field}
    {calls : List BackendCall} {r : Rule Packet (Option FlowId)} :
    r ∈ (BackendCall.barrierRule prio m test id :: calls).filterMap BackendCall.announced ↔
      (onSwitch test = false ∧ r = ⟨prio, placed m, none⟩) ∨
        r ∈ calls.filterMap BackendCall.announced := by
  rw [List.filterMap_cons, BackendCall.announced]
  cases onSwitch test <;> simp

section

variable {flow : FlowId} {last x : Packet} {r : Rule Packet (Option FlowId)}

theorem finish_rules {c : Cursor} {id : Nat} {node : Node}
    (same : ∀ l, node.lookup (answers x) = some l → l.flow = flow)
    (done : (finish flow last c id node).thrown = none) :
    r ∈ placing.rules (finish flow last c id node).node (placed c.match') ↔
      r ∈ placing.rules node (placed c.match') ∨
        r ∈ (finish flow last c id node).calls.filterMap BackendCall.announced ∨
          Installs x flow (finish flow last c id node) r := by
  have leaf (l : FlowNode) : r ∈ placing.rules (.leaf l) (placed c.match') ↔
      r = ⟨l.prio, placed c.match', some l.flow⟩ := List.mem_singleton
  have installs (l : FlowNode) : Installs x flow (installing last c id l) r ↔
      r = ⟨l.prio, placed c.match', some flow⟩ := by
    constructor
    · rintro ⟨m, l', hm, hl, rule⟩
      cases hm
      cases hl
      exact rule
    · exact fun rule => ⟨c.match', l, rfl, rfl, rule⟩
  cases node with
  | unexplored =>
      rw [finish] at done ⊢
      split at done
      · cases done
      · rw [if_neg ‹_›, installs]
        show r ∈ placing.rules (.leaf _) _ ↔ r ∈ [] ∨ r ∈ [] ∨ _
        rw [leaf]
        simp
  | leaf l =>
      obtain rfl := same l rfl
      rw [finish, installs]
      show r ∈ placing.rules (.leaf _) _ ↔ _ ∨ r ∈ [] ∨ _
      rw [leaf]
      simp
  | test need info pos neg => cases done
  | load mask cases => cases done

/-- A load node gets the rules its augmented case gets. -/
theorem load_rules {t : Traced} {m : FullFieldSet} {data : Field} {cases : List (Nat × Node)}
    (value : valueBits data = (answers x).load data.mask)
    (unmatched : m.included.elements data.type = []) (nodup : (cases.map Prod.fst).Nodup)
    (inner : r ∈ placing.rules t.node (placed (m.add data)) ↔
      r ∈ placing.rules (Tree.caseAt (valueBits data) cases) (placed (m.add data)) ∨
        r ∈ t.calls.filterMap BackendCall.announced ∨ Installs x flow t r) :
    let t' := { t with node := .load data.mask (Tree.setCase (valueBits data) t.node cases) }
    r ∈ placing.rules t'.node (placed m) ↔
      r ∈ placing.rules (.load data.mask cases) (placed m) ∨
        r ∈ t.calls.filterMap BackendCall.announced ∨ Installs x flow t' r := by
  intro t'
  rw [placed_case unmatched] at inner
  have leaf : t'.node.lookup (answers x) = t.node.lookup (answers x) := by
    show Tree.lookup _ (.load _ (Tree.setCase _ _ _)) = _
    rw [Tree.lookup_load, Tree.caseAt_setCase, if_pos value]
  have installs : Installs x flow t' r ↔ Installs x flow t r := Installs.congr rfl leaf
  rw [installs, Reading.mem_rules_setCase nodup fun mem => inner.mpr (.inl mem), inner, ← or_assoc,
    or_iff_left_of_imp Reading.mem_rules_caseAt]

/-- A test node gets the rules its augmented branch gets. -/
theorem test_rules {t : Traced} {m : FullFieldSet} {pred : Field} {info : TestNode} {pos neg : Node}
    {ret : Bool} (value : ret = (answers x).test pred)
    (inner :
      let cov := if ret then placing.passing pred (placed m) else placing.failing pred (placed m)
      r ∈ placing.rules t.node cov ↔ r ∈ placing.rules (if ret then pos else neg) cov ∨
        r ∈ t.calls.filterMap BackendCall.announced ∨ Installs x flow t r) :
    let t' := { t with
      node := .test pred info (if ret then t.node else pos) (if ret then neg else t.node) }
    r ∈ placing.rules t'.node (placed m) ↔
      r ∈ placing.rules (.test pred info pos neg) (placed m) ∨
        r ∈ t.calls.filterMap BackendCall.announced ∨ Installs x flow t' r := by
  intro t'
  have leaf : t'.node.lookup (answers x) = t.node.lookup (answers x) := by
    show Tree.lookup _ (.test _ _ _ _) = _
    rw [Tree.lookup_test, ← value]
    cases ret <;> rfl
  have installs : Installs x flow t' r ↔ Installs x flow t r := Installs.congr rfl leaf
  rw [installs]
  cases ret with
  | true =>
      have inner : r ∈ placing.rules t.node (placing.passing pred (placed m)) ↔ _ := inner
      show r ∈ placing.rules (.test pred info t.node neg) _ ↔ _
      rw [Reading.mem_rules_test, Reading.mem_rules_test, inner, or_assoc, or_assoc]
      rfl
  | false =>
      have inner : r ∈ placing.rules t.node (placing.failing pred (placed m)) ↔ _ := inner
      show r ∈ placing.rules (.test pred info pos t.node) _ ↔ _
      rw [Reading.mem_rules_test, Reading.mem_rules_test, inner]
      exact or_right_comm

/-- **The rules of an augmented tree are those it had, those announced to the backend
and the one to be installed**, when no flow is replaced. -/
theorem trace_rules :
    ∀ (calls : List (TraceCall × Packet)) (c : Cursor) (id : Nat) {node : Node}
      {known : List OxmType}, Told x calls → FreshCalls known calls → MatchesOnly known c.match' →
      Ordered known c.leftPrio c.rightPrio node →
      (∀ l, node.lookup (answers x) = some l → l.flow = flow) →
      (trace flow last calls c id node).thrown = none →
        (r ∈ placing.rules (trace flow last calls c id node).node (placed c.match') ↔
          r ∈ placing.rules node (placed c.match') ∨
            r ∈ (trace flow last calls c id node).calls.filterMap BackendCall.announced ∨
              Installs x flow (trace flow last calls c id node) r)
  | [], c, id, node, known, _, _, _, _, same, done => by
      rw [trace] at done ⊢
      exact finish_rules same done
  | (.load data, y) :: calls, c, id, node, known, told, ⟨new, fresh⟩, only, ordered, same, done => by
      obtain ⟨value, later⟩ := List.forall_mem_cons.mp told
      have value : valueBits data = (answers x).load data.mask := value
      have unmatched : c.match'.included.elements data.type = [] := only _ new
      -- a load node with or without cases so far
      have step (cases : List (Nat × Node)) (nodup : (cases.map Prod.fst).Nodup)
          (orderedC : ∀ v, Ordered (data.type :: known) c.leftPrio c.rightPrio (Tree.caseAt v cases))
          (same : ∀ l, Tree.lookup (answers x) (.load data.mask cases) = some l → l.flow = flow) :
          let t := trace flow last calls (c.load data) id (Tree.caseAt (valueBits data) cases)
          let t' := { t with node := .load data.mask (Tree.setCase (valueBits data) t.node cases) }
          t.thrown = none →
            (r ∈ placing.rules t'.node (placed c.match') ↔
              r ∈ placing.rules (.load data.mask cases) (placed c.match') ∨
                r ∈ t.calls.filterMap BackendCall.announced ∨ Installs x flow t' r) := by
        intro t t' done
        rw [Tree.lookup_load, ← value] at same
        exact load_rules value unmatched nodup
          (trace_rules calls (c.load data) id later fresh (only.add data) (orderedC _) same done)
      cases node with
      | unexplored =>
          exact step [] .nil (fun _ => ordered_unexplored _ _ _) (fun _ found => by cases found) done
      | leaf l => cases done
      | test need info pos neg => cases done
      | load mask cases =>
          rw [trace] at done ⊢
          by_cases mask_eq : mask = data.mask
          · subst mask_eq
            rw [if_pos rfl] at done ⊢
            obtain ⟨_, nodup, all⟩ := ordered_load.mp ordered
            exact step cases nodup (ordered_caseAt fun p mem => (all p mem).2) same done
          · rw [if_neg mask_eq] at done
            cases done
  | (.test pred ret, y) :: calls, c, id, node, known, told, ⟨new, fresh⟩, only, ordered, same, done => by
      obtain ⟨value, later⟩ := List.forall_mem_cons.mp told
      have value : ret = (answers x).test pred := value
      have unmatched : c.match'.included.elements pred.type = [] := only _ new
      -- a test node, with what is told of its rule so far
      have step (info : TestNode) (pos neg : Node)
          (orderedP : Ordered (pred.type :: known) info.prio c.rightPrio pos)
          (orderedN : Ordered known c.leftPrio info.prio neg)
          (same : ∀ l, Tree.lookup (answers x) (.test pred info pos neg) = some l → l.flow = flow)
          (id : Nat) :
          let t := trace flow last calls (c.test pred ret info.prio) id (if ret then pos else neg)
          let t' := { t with node := .test pred info (if ret then t.node else pos) (if ret then neg else t.node) }
          t.thrown = none →
            (r ∈ placing.rules t'.node (placed c.match') ↔
              r ∈ placing.rules (.test pred info pos neg) (placed c.match') ∨
                r ∈ t.calls.filterMap BackendCall.announced ∨ Installs x flow t' r) := by
        intro t t' done
        rw [Tree.lookup_test, ← value] at same
        refine test_rules value ?_
        cases ret with
        | true =>
            have inner := trace_rules calls (c.test pred true info.prio) id later fresh (only.add pred)
              orderedP same done
            rwa [show (c.test pred true info.prio).match' = c.match'.add pred from rfl,
              placed_add unmatched] at inner
        | false =>
            have inner := trace_rules calls (c.test pred false info.prio) id later fresh only orderedN
              same done
            rwa [show (c.test pred false info.prio).match' = c.match'.exclude pred from rfl,
              placed_exclude] at inner
      cases node with
      | unexplored =>
          rw [trace] at done ⊢
          by_cases exceeded : c.exceeded = true
          · rw [if_pos exceeded] at done
            cases done
          · rw [if_neg exceeded] at done ⊢
            have grown := step { id := id, prio := c.middle } .unexplored .unexplored
              (ordered_unexplored _ _ _) (ordered_unexplored _ _ _)
              (fun l found => by rw [Tree.lookup_test, ite_self] at found; cases found) (id + 1)
            simp only [ite_self] at grown
            have none (cov : Packet → Bool) : r ∉ placing.rules .unexplored cov := List.not_mem_nil
            rw [grown done, Reading.mem_rules_test, mem_announced_barrier, placed_add unmatched]
            simp only [none, false_or, or_false, or_assoc]
            exact Iff.rfl
      | leaf l => cases done
      | load mask cases => cases done
      | test need info pos neg =>
          rw [trace] at done ⊢
          by_cases need_eq : need = pred
          · subst need_eq
            rw [if_pos rfl] at done ⊢
            obtain ⟨_, _, orderedP, orderedN⟩ := ordered_test.mp ordered
            exact step info pos neg orderedP orderedN same id done
          · rw [if_neg need_eq] at done
            cases done

/-- The leaves a tree has are kept, when no flow is replaced. -/
theorem trace_keeps {a : Answers Mask Nat Field} {l : FlowNode} :
    ∀ {calls : List (TraceCall × Packet)} {c : Cursor} {id : Nat} {node : Node}, Told x calls →
      (∀ l, node.lookup (answers x) = some l → l.flow = flow) → node.lookup a = some l →
        (trace flow last calls c id node).node.lookup a = some l
  | [], c, id, node, _, same, found => by
      rw [trace]
      cases node with
      | unexplored => cases found
      | leaf l' =>
          obtain rfl := same l' rfl
          exact found
      | test need info pos neg => exact found
      | load mask cases => exact found
  | (.load data, y) :: calls, c, id, node, told, same, found => by
      obtain ⟨value, later⟩ := List.forall_mem_cons.mp told
      have value : valueBits data = (answers x).load data.mask := value
      cases node with
      | unexplored => cases found
      | leaf l => exact found
      | test need info pos neg => exact found
      | load mask cases =>
          rw [trace]
          by_cases mask_eq : mask = data.mask
          · subst mask_eq
            rw [Tree.lookup_load, ← value] at same
            rw [if_pos rfl]
            show Tree.lookup a (.load _ (Tree.setCase _ _ _)) = some l
            rw [Tree.lookup_load] at found ⊢
            rw [Tree.caseAt_setCase]
            split_ifs with here
            · exact trace_keeps later same (here ▸ found)
            · exact found
          · rw [if_neg mask_eq]
            exact found
  | (.test pred ret, y) :: calls, c, id, node, told, same, found => by
      obtain ⟨value, later⟩ := List.forall_mem_cons.mp told
      have value : ret = (answers x).test pred := value
      cases node with
      | unexplored => cases found
      | leaf l => exact found
      | load mask cases => exact found
      | test need info pos neg =>
          rw [trace]
          by_cases need_eq : need = pred
          · subst need_eq
            rw [Tree.lookup_test, ← value] at same
            rw [if_pos rfl]
            show Tree.lookup a (.test _ _ _ _) = some l
            rw [Tree.lookup_test] at found ⊢
            by_cases holds : a.test need = true
            · rw [if_pos holds] at found ⊢
              cases ret with
              | true => exact trace_keeps later same found
              | false => exact found
            · rw [if_neg holds] at found ⊢
              cases ret with
              | true => exact found
              | false => exact trace_keeps later same found
          · rw [if_neg need_eq]
            exact found

/-- Augmenting ends in a leaf that has the flow, with an installer for it. -/
theorem trace_installs :
    ∀ {calls : List (TraceCall × Packet)} {c : Cursor} {id : Nat} {node : Node}, Told x calls →
      (trace flow last calls c id node).thrown = none →
        ∃ m l, (trace flow last calls c id node).installer = some m ∧
          (trace flow last calls c id node).node.lookup (answers x) = some l ∧ l.flow = flow
  | [], c, id, node, _, done => by
      rw [trace] at done ⊢
      cases node with
      | unexplored =>
          rw [finish] at done ⊢
          split at done
          · cases done
          · rw [if_neg ‹_›]
            exact ⟨c.match', _, rfl, rfl, rfl⟩
      | leaf l => exact ⟨c.match', _, rfl, rfl, rfl⟩
      | test need info pos neg => cases done
      | load mask cases => cases done
  | (.load data, y) :: calls, c, id, node, told, done => by
      obtain ⟨value, later⟩ := List.forall_mem_cons.mp told
      have value : valueBits data = (answers x).load data.mask := value
      have at_ (cases : List (Nat × Node)) (t : Node) :
          Tree.lookup (answers x) (.load data.mask (Tree.setCase (valueBits data) t cases)) =
            t.lookup (answers x) := by
        rw [Tree.lookup_load, Tree.caseAt_setCase, if_pos value]
      cases node with
      | unexplored =>
          obtain ⟨m, l, installer, leaf, own⟩ := trace_installs later done
          exact ⟨m, l, installer, (at_ [] _).trans leaf, own⟩
      | leaf l => cases done
      | test need info pos neg => cases done
      | load mask cases =>
          rw [trace] at done ⊢
          by_cases mask_eq : mask = data.mask
          · subst mask_eq
            rw [if_pos rfl] at done ⊢
            obtain ⟨m, l, installer, leaf, own⟩ := trace_installs later done
            exact ⟨m, l, installer, (at_ cases _).trans leaf, own⟩
          · rw [if_neg mask_eq] at done
            cases done
  | (.test pred ret, y) :: calls, c, id, node, told, done => by
      obtain ⟨value, later⟩ := List.forall_mem_cons.mp told
      have value : ret = (answers x).test pred := value
      have at_ (info : TestNode) (pos neg t : Node) :
          Tree.lookup (answers x) (.test pred info (if ret then t else pos) (if ret then neg else t)) =
            t.lookup (answers x) := by
        rw [Tree.lookup_test, ← value]
        cases ret <;> rfl
      cases node with
      | unexplored =>
          rw [trace] at done ⊢
          by_cases exceeded : c.exceeded = true
          · rw [if_pos exceeded] at done
            cases done
          · rw [if_neg exceeded] at done ⊢
            obtain ⟨m, l, installer, leaf, own⟩ := trace_installs later done
            exact ⟨m, l, installer, (at_ _ _ _ _).trans leaf, own⟩
      | leaf l => cases done
      | load mask cases => cases done
      | test need info pos neg =>
          rw [trace] at done ⊢
          by_cases need_eq : need = pred
          · subst need_eq
            rw [if_pos rfl] at done ⊢
            obtain ⟨m, l, installer, leaf, own⟩ := trace_installs later done
            exact ⟨m, l, installer, (at_ _ _ _ _).trans leaf, own⟩
          · rw [if_neg need_eq] at done
            cases done

end

/-! ## What the calls look like -/

/-- One field for each type, and whole switch ids. -/
structure Clean (m : FullFieldSet) : Prop where
  single : ∀ t, (m.included.elements t).length ≤ 1
  included : ∀ b ∈ m.included.elements switchId, b.exact = true
  excluded : ∀ b ∈ m.excluded.elements switchId, b.exact = true

/-- What is told of the switch id is whole. -/
def WholeSwitch (calls : List (TraceCall × Packet)) : Prop :=
  ∀ c ∈ calls, c.1.field.type = switchId → c.1.field.exact = true

theorem Clean.add {m : FullFieldSet} (clean : Clean m) {f : Field}
    (fresh : m.included.elements f.type = []) (whole : f.type = switchId → f.exact = true) :
    Clean (m.add f) where
  single t := by
    by_cases own : t = f.type
    · subst own
      rw [FullFieldSet.add, MultiFieldSet.elements_add_self _ fresh]
      exact Nat.le_refl 1
    · rw [FullFieldSet.add, MultiFieldSet.elements_add_of_ne _ own]
      exact clean.single t
  included := by
    obtain ⟨t, bits⟩ := f
    intro b mem
    by_cases own : switchId = t
    · subst own
      rcases MultiFieldSet.mem_elements_add mem with rfl | mem
      · exact whole rfl
      · exact clean.included b mem
    · rw [FullFieldSet.add, MultiFieldSet.elements_add_of_ne _ own] at mem
      exact clean.included b mem
  excluded := clean.excluded

theorem Clean.exclude {m : FullFieldSet} (clean : Clean m) {f : Field}
    (whole : f.type = switchId → f.exact = true) : Clean (m.exclude f) where
  single := clean.single
  included := clean.included
  excluded := by
    obtain ⟨t, bits⟩ := f
    intro b mem
    by_cases own : switchId = t
    · subst own
      rcases MultiFieldSet.mem_elements_add mem with rfl | mem
      · exact whole rfl
      · exact clean.excluded b mem
    · rw [FullFieldSet.exclude, MultiFieldSet.elements_add_of_ne _ own] at mem
      exact clean.excluded b mem

/-- Of the type, all bits are known or none. -/
def AllOrNone (t : OxmType) (cache : FieldSet) : Prop :=
  (cache.get t).exact = true ∨ (cache.get t).wildcard = true

theorem AllOrNone.modify {t : OxmType} {cache : FieldSet} (known : AllOrNone t cache) {f : Field}
    (whole : f.type = t → f.exact = true ∨ f.wildcard = true) : AllOrNone t (cache.modify f) := by
  by_cases own : t = f.type
  · subst own
    rw [AllOrNone, FieldSet.get_modify_self]
    rcases whole rfl with exact | nothing
    · rw [MaskedBits.overwrite_exact exact]
      exact .inl exact
    · exact known.imp (fun all => MaskedBits.exact_overwrite all _)
        fun none => MaskedBits.wildcard_overwrite none nothing
  · rw [AllOrNone, FieldSet.get_modify_of_ne _ own]
    exact known

/-- What is left to ask of a whole field is whole. -/
theorem AllOrNone.rest {t u : OxmType} {cache : FieldSet} (known : AllOrNone t cache)
    {b : MaskedBits (nbits u)} (rest : b.mask = (cache.get u).unknownOf (BitVec.allOnes _))
    (some : b.wildcard ≠ true) (own : u = t) : b.exact = true := by
  subst own
  rcases known with all | none
  · rw [MaskedBits.unknownOf_of_exact all] at rest
    exact absurd (decide_eq_true rest) some
  · rw [MaskedBits.unknownOf_of_wildcard none] at rest
    exact MaskedBits.exact_iff.mpr rest

/-- A program that reads whole fields tells of whole fields of a type that is not
maskable. -/
theorem traceable_whole {t : OxmType} (h : Handler R) : ∀ {x : Packet} {cache : FieldSet},
    h.WholeFields → h.Unmasked t → AllOrNone t cache →
      ∀ c ∈ (traceable h x cache).calls, c.1.field.type = t → c.1.field.exact = true := by
  induction h with
  | ret r => exact fun _ _ _ c mem => absurd mem List.not_mem_nil
  | modify patch next ih =>
      rintro x cache whole ⟨unmasked, unmaskedNext⟩ known
      exact ih whole unmaskedNext (known.modify unmasked)
  | load m next ih =>
      rintro x cache ⟨whole, wholeNext⟩ unmasked known
      rw [traceable]
      by_cases none : ((MaskedBits.read (x m.type) m.bits).without
          (cache.load m.type m.bits).mask).wildcard = true
      · simp only [if_pos none]
        exact ih _ (wholeNext _) (unmasked _) known
      · simp only [if_neg none]
        have exact := known.rest (u := m.type) (by rw [← whole]; rfl) none
        exact List.forall_mem_cons.mpr
          ⟨exact, ih _ (wholeNext _) (unmasked _) (known.modify fun own => .inl (exact own))⟩
  | test need next ih =>
      rintro x cache ⟨whole, wholeNext⟩ unmasked known
      have all : need.bits.mask = BitVec.allOnes _ := of_decide_eq_true whole
      rw [traceable]
      by_cases compatible : (cache.load need.type need.bits.mask).Compatible need.bits
      · by_cases none : ((MaskedBits.read (x need.type) need.bits.mask).without
            (cache.load need.type need.bits.mask).mask).wildcard = true
        · simp only [if_pos compatible, if_pos none]
          exact ih _ (wholeNext _) (unmasked _) known
        · simp only [if_pos compatible, if_neg none]
          have exact := known.rest (u := need.type) (by rw [← all]; rfl) none
          refine List.forall_mem_cons.mpr ⟨fun own => ?_, ih _ (wholeNext _) (unmasked _) ?_⟩
          · exact MaskedBits.exact_restrict whole (MaskedBits.exact_iff.mp (exact own))
          · split
            · exact known.modify fun own => .inl (exact own)
            · exact known
      · simp only [if_neg compatible]
        exact ih _ (wholeNext _) (unmasked _) known

/-- Barrier rules with clean matches, numbered from one id to another. -/
inductive Numbered : Nat → List BackendCall → Nat → Prop where
  | nil (id : Nat) : Numbered id [] id
  | cons {id next : Nat} {calls : List BackendCall} (prio : Nat) {m : FullFieldSet} (test : Field)
      (clean : Clean m) (rest : Numbered (id + 1) calls next) :
      Numbered id (.barrierRule prio m test id :: calls) next

/-- A trace that throws has nothing to number. -/
theorem thrown_numbered {error : TraceError} {decided : Bool} {x : Packet} {id : Nat} {node : Node} :
    Numbered id (thrown error decided x id node).calls (thrown error decided x id node).nextId ∧
      ∀ m, (thrown error decided x id node).installer = some m → Clean m := by
  refine ⟨.nil id, fun m same => ?_⟩
  cases same

theorem trace_numbered {flow : FlowId} {last : Packet} :
    ∀ (calls : List (TraceCall × Packet)) (c : Cursor) (id : Nat) {node : Node}
      {known : List OxmType}, FreshCalls known calls → MatchesOnly known c.match' →
      WholeSwitch calls → Clean c.match' →
        Numbered id (trace flow last calls c id node).calls (trace flow last calls c id node).nextId ∧
          ∀ m, (trace flow last calls c id node).installer = some m → Clean m
  | [], c, id, node, known, _, _, _, clean => by
      rw [trace]
      cases node with
      | unexplored =>
          rw [finish]
          split
          · exact thrown_numbered
          · exact ⟨.nil id, fun m same => Option.some.inj same ▸ clean⟩
      | leaf l => exact ⟨.nil id, fun m same => Option.some.inj same ▸ clean⟩
      | test need info pos neg => exact thrown_numbered
      | load mask cases => exact thrown_numbered
  | (.load data, y) :: calls, c, id, node, known, ⟨new, fresh⟩, only, whole, clean => by
      obtain ⟨wholeC, whole⟩ := List.forall_mem_cons.mp whole
      have matched : Clean (c.match'.add data) := clean.add (only _ new) wholeC
      have inner (node : Node) : Numbered id (trace flow last calls (c.load data) id node).calls
            (trace flow last calls (c.load data) id node).nextId ∧
          ∀ m, (trace flow last calls (c.load data) id node).installer = some m → Clean m :=
        trace_numbered calls (c.load data) id fresh (only.add data) whole matched
      cases node with
      | unexplored => exact inner _
      | leaf l => exact thrown_numbered
      | test need info pos neg => exact thrown_numbered
      | load mask cases =>
          rw [trace]
          split
          · exact inner _
          · exact thrown_numbered
  | (.test pred ret, y) :: calls, c, id, node, known, ⟨new, fresh⟩, only, whole, clean => by
      obtain ⟨wholeC, wholeR⟩ := List.forall_mem_cons.mp whole
      have matched : Clean (c.match'.add pred) := clean.add (only _ new) wholeC
      have inner (id prio : Nat) {node : Node} : Numbered id
            (trace flow last calls (c.test pred ret prio) id node).calls
            (trace flow last calls (c.test pred ret prio) id node).nextId ∧
          ∀ m, (trace flow last calls (c.test pred ret prio) id node).installer = some m → Clean m := by
        cases ret with
        | true => exact trace_numbered calls _ id fresh (only.add pred) wholeR matched
        | false => exact trace_numbered calls _ id fresh only wholeR (clean.exclude wholeC)
      cases node with
      | unexplored =>
          rw [trace]
          split
          · exact thrown_numbered
          · exact ⟨.cons _ _ matched (inner (id + 1) _).1, (inner (id + 1) _).2⟩
      | leaf l => exact thrown_numbered
      | load mask cases => exact thrown_numbered
      | test need info pos neg =>
          rw [trace]
          split
          · exact inner id _
          · exact thrown_numbered

end Drunos.Maple
