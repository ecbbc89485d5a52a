/-
# Drunos.Maple.Commit — the table a tree is committed to

A trace tree is read as a table of priorities (`Theory.PriorityTable`). What its
compiler hands to a backend is that table (`compile_table`), as long as no path
reads a type twice (`ReadOnce`): then adding and erasing fields is undone on every
branch. A policy that reads whole fields never does (`traceable_fresh`), for what it
read or saw in a successful test is known from there on; so every augmentation keeps
a tree that way (`trace_readOnce`), and it puts its priorities between those of the
path (`trace_ranged`).

The committed table then gives each packet to the flow that a lookup finds for it,
or to the controller: `commit_decides`.
-/
import Drunos.Maple.Lookup
import Drunos.Oxm.OpenflowBasic
import Drunos.Theory.PriorityTable

namespace Drunos.Maple

open Drunos.Oxm Drunos.Theory Drunos.Theory.Run Drunos.Theory.Exploration
open Drunos.Theory.PriorityTable

set_option autoImplicit false

section

variable [OxmTypes] {R D : Type}

/-! ## The table -/

/-- The rule a backend is asked for; one without a flow is a barrier rule. -/
def BackendCall.rule : BackendCall → Option (Rule Packet (Option FlowId))
  | .install prio m flow => some ⟨prio, m.included.test, some flow⟩
  | .barrierRule prio m _ _ => some ⟨prio, m.included.test, none⟩
  | .barrier => none
  | .remove _ => none

def table (calls : List BackendCall) : List (Rule Packet (Option FlowId)) :=
  calls.filterMap BackendCall.rule

theorem table_append (calls later : List BackendCall) :
    table (calls ++ later) = table calls ++ table later := List.filterMap_append

/-- A trace tree as a table: a flow that is alive for each leaf, and a barrier rule
for each test but for hidden ones. -/
def reading (alive : FlowId → Bool) (hidden : Field → Bool) :
    Reading Mask Nat Field TestNode FlowNode Packet FlowId where
  ask := answers
  testPrio := TestNode.prio
  leafPrio := FlowNode.prio
  outcome := FlowNode.flow
  alive l := alive l.flow
  hidden := hidden

/-- No path below a node reads a known type, or a type twice, but for tests that
fail; and values are those under the mask. -/
def ReadOnce : List OxmType → Node → Prop
  | _, .unexplored => True
  | _, .leaf _ => True
  | known, .test need _ pos neg =>
      need.type ∉ known ∧ ReadOnce (need.type :: known) pos ∧ ReadOnce known neg
  | known, .load mask cases => mask.type ∉ known ∧ cases_ mask (mask.type :: known) cases
where
  cases_ (mask : Mask) (known : List OxmType) : List (Nat × Node) → Prop
    | [] => True
    | (bits, node) :: rest =>
        valueBits (caseField mask bits) = bits ∧ ReadOnce known node ∧ cases_ mask known rest

theorem readOnce_cases_iff {mask : Mask} {known : List OxmType} {cases : List (Nat × Node)} :
    ReadOnce.cases_ mask known cases ↔
      ∀ c ∈ cases, valueBits (caseField mask c.1) = c.1 ∧ ReadOnce known c.2 := by
  induction cases with
  | nil => simp [ReadOnce.cases_]
  | cons c rest ih => rw [ReadOnce.cases_, ih, List.forall_mem_cons, and_assoc]

/-- Of the known types only, fields are matched. -/
def MatchesOnly (known : List OxmType) (m : FullFieldSet) : Prop :=
  ∀ t, t ∉ known → m.included.elements t = []

theorem MatchesOnly.add {known : List OxmType} {m : FullFieldSet} (only : MatchesOnly known m)
    (f : Field) : MatchesOnly (f.type :: known) (m.add f) := by
  intro t new
  obtain ⟨ne, new⟩ := not_or.mp (List.mem_cons.not.mp new)
  rw [FullFieldSet.add, MultiFieldSet.elements_add_of_ne _ ne]
  exact only t new

/-- A packet has the field of a case when this is the case of its value. -/
theorem test_caseField {mask : Mask} {bits : Nat} (own : valueBits (caseField mask bits) = bits)
    (x : Packet) : x.test (caseField mask bits) = decide ((answers x).load mask = bits) := by
  rw [Bool.eq_iff_iff, Packet.test_iff, decide_eq_true_iff]
  exact MaskedBits.read_matches_iff.trans (Eq.congr_right own)

/-- **The compiler hands the table of the tree to the backend**, and its match is
left as it was. -/
theorem compile_table (alive : FlowId → Bool) {node : Node} :
    ∀ {known : List OxmType} {m : FullFieldSet}, ReadOnce known node → MatchesOnly known m →
      table (compile alive node m).1 = (reading alive fun _ => false).rules node m.included.test ∧
        (compile alive node m).2.included.elements = m.included.elements := by
  induction node using Tree.induct with
  | unexplored => exact fun _ _ => ⟨rfl, rfl⟩
  | leaf l =>
      intro known m _ _
      rw [compile, Reading.rules]
      refine ⟨?_, rfl⟩
      show table (if alive l.flow then _ else _) = if alive l.flow then _ else _
      split <;> rfl
  | test need info pos neg ihP ihN =>
      intro known m once only
      obtain ⟨new, onceP, onceN⟩ := once
      obtain ⟨tableN, leftN⟩ := ihN onceN (m := m.exclude need) only
      -- the match for the positive branch, as the negative one has left it
      have fresh : (compile alive neg (m.exclude need)).2.included.elements need.type = [] := by
        rw [leftN]
        exact only _ new
      have onlyN : MatchesOnly known ((compile alive neg (m.exclude need)).2.includeMask need.mask) := by
        intro t out
        show (compile alive neg (m.exclude need)).2.included.elements t = []
        rw [leftN]
        exact only t out
      obtain ⟨tableP, leftP⟩ := ihP onceP (onlyN.add need)
      have passing : ((compile alive neg (m.exclude need)).2.included.add need).test =
          (reading alive fun _ => false).passing need m.included.test := by
        funext x
        rw [Bool.eq_iff_iff, MultiFieldSet.test_add fresh, MultiFieldSet.test_congr leftN]
        exact Bool.and_eq_true_iff.symm
      have failing : (reading alive fun _ => false).failing need m.included.test =
          m.included.test := by
        funext x
        exact Bool.and_true _
      constructor
      · rw [compile, Reading.rules, failing, ← passing, table_append, tableN]
        exact congrArg (_ ++ ·) (congrArg (_ :: ·) tableP)
      · rw [compile]
        show MultiFieldSet.elements (MultiFieldSet.erase _ _) = _
        rw [MultiFieldSet.elements_erase_congr leftP]
        exact (MultiFieldSet.elements_add_erase need.bits fresh).trans leftN
  | load mask cases ih =>
      intro known m once only
      obtain ⟨new, once⟩ := once
      rw [compile, Reading.rules]
      -- one case after the other, each leaving the match as it was
      have all : ∀ c ∈ cases, valueBits (caseField mask c.1) = c.1 ∧
          ReadOnce (mask.type :: known) c.2 := readOnce_cases_iff.mp once
      clear once
      induction cases generalizing m with
      | nil => exact ⟨rfl, rfl⟩
      | cons c rest ihRest =>
          obtain ⟨bits, node⟩ := c
          obtain ⟨⟨own, onceC⟩, all⟩ := List.forall_mem_cons.mp all
          obtain ⟨ihC, ih⟩ := List.forall_mem_cons.mp ih
          obtain ⟨tableC, leftC⟩ := ihC onceC (only.add (caseField mask bits))
          have fresh : m.included.elements mask.type = [] := only _ new
          have left : ((compile alive node (m.add (caseField mask bits))).2.erase mask).included.elements =
              m.included.elements :=
            (MultiFieldSet.elements_erase_congr leftC mask).trans
              (MultiFieldSet.elements_add_erase (caseField mask bits).bits fresh)
          have loading : (m.add (caseField mask bits)).included.test =
              (reading alive fun _ => false).loading mask bits m.included.test := by
            funext x
            rw [Bool.eq_iff_iff, FullFieldSet.add, MultiFieldSet.test_add fresh, test_caseField own]
            exact Bool.and_eq_true_iff.symm
          obtain ⟨tableR, leftR⟩ := ihRest ih (fun t out => (congrFun left t).trans (only t out)) all
          rw [compile.compileCases, Reading.rules.rulesCases, ← loading]
          constructor
          · show table (_ ++ _) = _
            rw [table_append, tableC, tableR, MultiFieldSet.test_congr left]
          · exact leftR.trans left

/-! ## What a policy that reads whole fields asks -/

/-- The types known after a call. -/
def TraceCall.knows (known : List OxmType) : TraceCall → List OxmType
  | .load data => data.type :: known
  | .test pred ret => if ret then pred.type :: known else known

/-- No call is about a type known by then. -/
def FreshCalls : List OxmType → List (TraceCall × Packet) → Prop
  | _, [] => True
  | known, (call, _) :: rest => call.field.type ∉ known ∧ FreshCalls (call.knows known) rest

/-- The cache has all bits of the known types. -/
def Knows (cache : FieldSet) (known : List OxmType) : Prop :=
  ∀ t ∈ known, (cache.get t).exact = true

theorem Knows.modify {cache : FieldSet} {known : List OxmType} (knows : Knows cache known)
    (f : Field) : Knows (cache.modify f) known := by
  intro t mem
  by_cases same : t = f.type
  · subst same
    rw [FieldSet.get_modify_self]
    exact MaskedBits.exact_overwrite (knows _ mem) _
  · rw [FieldSet.get_modify_of_ne _ same]
    exact knows t mem

/-- With the rest of a field in the cache, all its bits are. -/
theorem Knows.modify_rest {cache : FieldSet} {known : List OxmType} (knows : Knows cache known)
    {f : Field} (rest : f.bits.mask = (cache.get f.type).unknownOf (BitVec.allOnes _)) :
    Knows (cache.modify f) (f.type :: known) := by
  intro t mem
  rcases List.mem_cons.mp mem with rfl | mem
  · rw [FieldSet.get_modify_self]
    exact MaskedBits.overwrite_unknownOf_exact rest
  · exact knows.modify f t mem

/-- What is known has no unexplored bits. -/
theorem Knows.not_mem {cache : FieldSet} {known : List OxmType} (knows : Knows cache known)
    {t : OxmType} {m : BitVec (nbits t)} (some : (cache.get t).unknownOf m ≠ 0) : t ∉ known :=
  fun mem => some (MaskedBits.unknownOf_of_exact (knows t mem) m)

/-- **A program that reads whole fields never has the tracer told of a field whose
bits are known.** -/
theorem traceable_fresh (h : Handler R) : ∀ {x : Packet} {cache : FieldSet} {known : List OxmType},
    h.WholeFields → Knows cache known → FreshCalls known (traceable h x cache).calls := by
  induction h with
  | ret r => exact fun _ _ => trivial
  | modify patch next ih => exact fun whole knows => ih whole (knows.modify patch)
  | load m next ih =>
      rintro x cache known ⟨whole, wholeNext⟩ knows
      rw [traceable]
      by_cases none : ((MaskedBits.read (x m.type) m.bits).without
          (cache.load m.type m.bits).mask).wildcard = true
      · simp only [if_pos none]
        exact ih _ (wholeNext _) knows
      · simp only [if_neg none]
        refine ⟨knows.not_mem fun zero => none (decide_eq_true zero), ih _ (wholeNext _) ?_⟩
        exact knows.modify_rest (by rw [← whole]; rfl)
  | test need next ih =>
      rintro x cache known ⟨whole, wholeNext⟩ knows
      rw [traceable]
      by_cases compatible : (cache.load need.type need.bits.mask).Compatible need.bits
      · by_cases none : ((MaskedBits.read (x need.type) need.bits.mask).without
            (cache.load need.type need.bits.mask).mask).wildcard = true
        · simp only [if_pos compatible, if_pos none]
          exact ih _ (wholeNext _) knows
        · simp only [if_pos compatible, if_neg none]
          refine ⟨knows.not_mem fun zero => none (decide_eq_true zero), ih _ (wholeNext _) ?_⟩
          rw [TraceCall.knows]
          split
          · exact knows.modify_rest (by rw [← of_decide_eq_true whole]; rfl)
          · exact knows
      · simp only [if_neg compatible]
        exact ih _ (wholeNext _) knows

/-! ## What augmenting keeps -/

theorem caseField_valueBits (data : Field) : caseField data.mask (valueBits data) = data := by
  have value : BitVec.ofNat (nbits data.type) (valueBits data) &&& data.bits.mask =
      data.bits.value := by
    rw [valueBits, BitVec.ofNat_toNat, BitVec.setWidth_eq, data.bits.masked]
  exact congrArg (Oxm.Field.mk data.type) (MaskedBits.ext value rfl)

/-- A tree as augmenting makes it: on each path a type is read once, and the
priorities split the interval. -/
structure Ordered (known : List OxmType) (lo hi : Nat) (node : Node) : Prop where
  once : ReadOnce known node
  ranged : Ranged TestNode.prio FlowNode.prio lo hi node

theorem ordered_unexplored (known : List OxmType) (lo hi : Nat) :
    Ordered known lo hi .unexplored := ⟨trivial, trivial⟩

theorem ordered_test {known : List OxmType} {lo hi : Nat} {need : Field} {info : TestNode}
    {pos neg : Node} :
    Ordered known lo hi (.test need info pos neg) ↔
      need.type ∉ known ∧ (lo < info.prio ∧ info.prio < hi) ∧
        Ordered (need.type :: known) info.prio hi pos ∧ Ordered known lo info.prio neg := by
  constructor
  · rintro ⟨⟨new, onceP, onceN⟩, bounds, rangedP, rangedN⟩
    exact ⟨new, bounds, ⟨onceP, rangedP⟩, ⟨onceN, rangedN⟩⟩
  · rintro ⟨new, bounds, ⟨onceP, rangedP⟩, ⟨onceN, rangedN⟩⟩
    exact ⟨⟨new, onceP, onceN⟩, bounds, rangedP, rangedN⟩

theorem ordered_load {known : List OxmType} {lo hi : Nat} {mask : Mask}
    {cases : List (Nat × Node)} :
    Ordered known lo hi (.load mask cases) ↔
      mask.type ∉ known ∧ (cases.map Prod.fst).Nodup ∧
        ∀ c ∈ cases, valueBits (caseField mask c.1) = c.1 ∧
          Ordered (mask.type :: known) lo hi c.2 := by
  constructor
  · rintro ⟨⟨new, once⟩, nodup, ranged⟩
    refine ⟨new, nodup, fun c mem => ?_⟩
    obtain ⟨own, once⟩ := readOnce_cases_iff.mp once c mem
    exact ⟨own, once, rangedCases_iff.mp ranged c mem⟩
  · rintro ⟨new, nodup, all⟩
    refine ⟨⟨new, readOnce_cases_iff.mpr fun c mem => ?_⟩, nodup, rangedCases_iff.mpr fun c mem => ?_⟩
    · exact ⟨(all c mem).1, (all c mem).2.once⟩
    · exact (all c mem).2.ranged

theorem ordered_caseAt {known : List OxmType} {lo hi : Nat} {cases : List (Nat × Node)}
    (all : ∀ c ∈ cases, Ordered known lo hi c.2) (v : Nat) :
    Ordered known lo hi (Tree.caseAt v cases) := by
  rcases Tree.caseAt_mem v cases with none | mem
  · rw [none]
    exact ordered_unexplored known lo hi
  · exact all _ mem

theorem Cursor.not_exceeded {c : Cursor} (fits : c.exceeded ≠ true) :
    c.leftPrio < c.middle ∧ c.middle < c.rightPrio := by
  simpa [Cursor.exceeded] using fits

theorem finish_ordered {flow : FlowId} {x : Packet} {c : Cursor} {id : Nat} {known : List OxmType}
    {node : Node} (ordered : Ordered known c.leftPrio c.rightPrio node) :
    Ordered known c.leftPrio c.rightPrio (finish flow x c id node).node := by
  cases node with
  | unexplored =>
      rw [finish]
      split
      · exact ordered
      · exact ⟨trivial, Cursor.not_exceeded ‹_›⟩
  | leaf l => exact ⟨trivial, ordered.ranged⟩
  | test need info pos neg => exact ordered
  | load mask cases => exact ordered

/-- **The tracer keeps a tree ordered**, when it is told of no field twice. -/
theorem trace_ordered (flow : FlowId) (last : Packet) :
    ∀ (calls : List (TraceCall × Packet)) (c : Cursor) (id : Nat) {node : Node}
      {known : List OxmType}, FreshCalls known calls →
      Ordered known c.leftPrio c.rightPrio node →
        Ordered known c.leftPrio c.rightPrio (trace flow last calls c id node).node
  | [], _, _, _, _, _, ordered => finish_ordered ordered
  | (.load data, x) :: calls, c, id, node, known, ⟨new, fresh⟩, ordered => by
      cases node with
      | unexplored =>
          have inner := trace_ordered flow last calls (c.load data) id fresh
            (ordered_unexplored _ _ _)
          rw [trace]
          refine ordered_load.mpr ⟨new, List.nodup_singleton _, ?_⟩
          intro p mem
          obtain rfl := List.mem_singleton.mp mem
          exact ⟨congrArg valueBits (caseField_valueBits data), inner⟩
      | leaf l => exact ordered
      | test need info pos neg => exact ordered
      | load mask cases =>
          rw [trace]
          by_cases same : mask = data.mask
          · subst same
            rw [if_pos rfl]
            obtain ⟨_, nodup, all⟩ := ordered_load.mp ordered
            have inner := trace_ordered flow last calls (c.load data) id fresh
              (ordered_caseAt (fun p mem => (all p mem).2) (valueBits data))
            refine ordered_load.mpr ⟨new, Tree.nodup_setCase nodup, fun p mem => ?_⟩
            rcases Tree.mem_setCase mem with rfl | mem
            · exact ⟨congrArg valueBits (caseField_valueBits data), inner⟩
            · exact all p mem
          · rw [if_neg same]
            exact ordered
  | (.test pred ret, x) :: calls, c, id, node, known, ⟨new, fresh⟩, ordered => by
      cases node with
      | unexplored =>
          rw [trace]
          by_cases exceeded : c.exceeded = true
          · rw [if_pos exceeded]
            exact ordered
          · rw [if_neg exceeded]
            have inner := trace_ordered flow last calls (c.test pred ret c.middle) (id + 1) fresh
              (ordered_unexplored _ _ _)
            refine ordered_test.mpr ⟨new, Cursor.not_exceeded exceeded, ?_⟩
            cases ret with
            | true => exact ⟨inner, ordered_unexplored _ _ _⟩
            | false => exact ⟨ordered_unexplored _ _ _, inner⟩
      | leaf l => exact ordered
      | load mask cases => exact ordered
      | test need info pos neg =>
          rw [trace]
          by_cases same : need = pred
          · subst same
            rw [if_pos rfl]
            obtain ⟨_, bounds, orderedP, orderedN⟩ := ordered_test.mp ordered
            refine ordered_test.mpr ⟨new, bounds, ?_⟩
            cases ret with
            | true =>
                exact ⟨trace_ordered _ _ calls (c.test need true info.prio) id fresh orderedP, orderedN⟩
            | false =>
                exact ⟨orderedP, trace_ordered _ _ calls (c.test need false info.prio) id fresh orderedN⟩
          · rw [if_neg same]
            exact ordered

/-! ## Runs -/

/-- The tree of a runtime is ordered in its priority space. -/
def Runtime.Ordered (r : Runtime D) : Prop := Maple.Ordered [] r.leftPrio r.rightPrio r.root

theorem augment_ordered {policy : Handler D} (whole : policy.WholeFields) {r : Runtime D}
    (ordered : r.Ordered) (x : Packet) (flow : FlowId) : (r.augment policy x flow).1.Ordered :=
  trace_ordered _ _ _ r.cursor r.nextId (traceable_fresh policy whole fun _ mem => nomatch mem) ordered

theorem runtimeStep_ordered [Inhabited D] {policy : Handler D} (whole : policy.WholeFields)
    {r : Runtime D} {e : RuntimeEvent} (ordered : r.Ordered) (augments : e ≠ .update) :
    (runtimeStep policy r e).Ordered := by
  cases e with
  | release flow => exact ordered
  | update => exact absurd rfl augments
  | augment x reuse =>
      refine augment_ordered whole ?_ x _
      rw [Runtime.flowFor]
      split
      · split <;> exact ordered
      · exact ordered

theorem ordered_final [Inhabited D] {policy : Handler D} (whole : policy.WholeFields)
    (left right : Nat) {es : List RuntimeEvent} (augments : .update ∉ es) :
    (final (runtimeStep policy) (.initial left right) es).Ordered := by
  have each : Each (runtimeStep policy) (fun _ e => e ≠ .update) (.initial left right) es :=
    each_of_forall fun e mem same => augments (same ▸ mem)
  exact each.invariant Runtime.Ordered
    (fun _ _ ordered augments => runtimeStep_ordered whole ordered augments)
    (ordered_unexplored _ _ _)

/-- What is found for a packet is what the tree leads it to, if that is alive. -/
theorem Runtime.lookup_eq_some {r : Runtime D} {x : Packet} {flow : FlowId} :
    r.lookup x = some flow ↔
      ∃ l, r.root.lookup (answers x) = some l ∧ r.alive l.flow = true ∧ l.flow = flow := by
  rw [Runtime.lookup]
  cases r.root.lookup (answers x) with
  | none => simp
  | some l =>
      by_cases alive : r.alive l.flow = true
      · simp [alive]
      · simp [alive]

theorem commit_table (r : Runtime D) (ordered : r.Ordered) :
    table r.commit = (reading r.alive fun _ => false).rules r.root fun _ => true := by
  have matches_ : (∅ : FullFieldSet).included.test = fun _ => true := by
    funext x
    exact MultiFieldSet.test_empty x
  have compiled := (compile_table r.alive (m := ∅) ordered.once fun _ _ => rfl).1
  rw [matches_] at compiled
  rw [Runtime.commit, table_append, ← compiled]
  exact List.append_nil _

/-- **After any augmentations of a policy that reads whole fields, the committed table
gives a packet to the flow a lookup finds for it, and else to the controller or to
no rule; and no two of its rules are tied.** -/
theorem commit_decides [Inhabited D] (policy : Handler D) (whole : policy.WholeFields)
    (left right : Nat) (es : List RuntimeEvent) (augments : .update ∉ es) (x : Packet) :
    let r := final (runtimeStep policy) (.initial left right) es
    (∀ flow, r.lookup x = some flow →
        (∃ rule, Wins (table r.commit) x rule) ∧
          ∀ rule, Wins (table r.commit) x rule → rule.action = some flow) ∧
      (r.lookup x = none → ∀ rule, Wins (table r.commit) x rule → rule.action = none) ∧
        Untied (table r.commit) := by
  intro r
  have ordered : r.Ordered := ordered_final whole left right augments
  have untied : Untied (table r.commit) := by
    rw [commit_table r ordered]
    exact Reading.rules_untied ordered.ranged
  refine ⟨fun flow found => ?_, fun none rule wins => ?_, untied⟩
  · obtain ⟨l, leaf, alive, rfl⟩ := Runtime.lookup_eq_some.mp found
    obtain ⟨best, wins, action⟩ := Reading.rules_wins (g := reading r.alive fun _ => false)
      (c := fun _ => true) ordered.ranged rfl leaf alive
    rw [← commit_table r ordered] at wins
    refine ⟨⟨best, wins⟩, fun rule wins' => ?_⟩
    rw [untied.unique wins' wins]
    exact action
  · rw [commit_table r ordered] at wins
    rcases Reading.rules_shadowed ordered.ranged wins.1.1 wins.1.2 with
      barrier | ⟨l, leaf, alive, -⟩ | ⟨b, mem, -, covers, above⟩
    · exact barrier
    · have found := Runtime.lookup_eq_some.mpr ⟨l, leaf, alive, rfl⟩
      rw [none] at found
      cases found
    · have most := wins.2 b mem covers
      omega

end

open scoped Drunos.Oxm.OpenflowBasic in
/-- The flow of an IPv4 packet wins the packet. -/
theorem commit_decides_ipv4 :
    let policy : Handler Bool := .test (.exactly ethType 0x800) .ret
    let x := OpenflowBasic.packet [.exactly ethType 0x800]
    let r := final (runtimeStep policy) (.initial 1 65535) [.augment x false]
    (∃ rule, Wins (table r.commit) x rule) ∧
      ∀ rule, Wins (table r.commit) x rule → rule.action = some 0 :=
  (commit_decides (.test (.exactly ethType 0x800) .ret)
    ⟨Field.exactly_exact _ _, fun _ => trivial⟩ 1 65535 [.augment _ false] (by simp) _).1 0 rfl

end Drunos.Maple
