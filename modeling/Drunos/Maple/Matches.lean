/-
# Drunos.Maple.Matches — what the match of a path stands for

The match of a flow is one that the loads and passed tests on its path were added to, in order:
that of the tracer when it finishes (`trace_path`), and that of the compiler, which takes the other
branches in between (`compile_installs`). For on a path each load and each passed test is about bits
that none before it was about (`NewBits`): a traceable packet only tells of what it does not know
(`traceable_newCalls`), so that nothing is covered and erasing a mask takes back one field.

A match takes fields of one type for alternatives. It stands for its path when no type is met twice
there, and else for more: `matches_exact_iff`.
-/
import Drunos.Maple.Commit
import Drunos.Oxm.Overlaps

namespace Drunos.Maple

open Drunos.Oxm Drunos.Theory Drunos.Theory.Run Drunos.Theory.Exploration

set_option autoImplicit false

section

variable [OxmTypes] {R D : Type}

/-! ## Paths -/

/-- What a call has the tracer include. -/
def TraceCall.passed : TraceCall → List Field
  | .load data => [data]
  | .test pred ret => if ret then [pred] else []

/-- The loads and passed tests of a trace. -/
def passed (calls : List (TraceCall × Packet)) : List Field := calls.flatMap fun c => c.1.passed

/-- The flows of a tree, each with the loads and passed tests on the path to it. -/
def flowPaths : Node → List (List Field × FlowNode)
  | .unexplored => []
  | .leaf l => [([], l)]
  | .test need _ pos neg => flowPaths neg ++ (flowPaths pos).map (Prod.map (need :: ·) id)
  | .load mask cases => casesPaths mask cases
where
  casesPaths (mask : Mask) : List (Nat × Node) → List (List Field × FlowNode)
    | [] => []
    | (bits, node) :: rest =>
        (flowPaths node).map (Prod.map (caseField mask bits :: ·) id) ++ casesPaths mask rest

theorem mem_casesPaths {mask : Mask} {cases : List (Nat × Node)} {p : List Field × FlowNode} :
    p ∈ flowPaths.casesPaths mask cases ↔
      ∃ c ∈ cases, ∃ q ∈ flowPaths c.2, p = (caseField mask c.1 :: q.1, q.2) := by
  induction cases with
  | nil => simp [flowPaths.casesPaths]
  | cons c rest ih =>
      rw [flowPaths.casesPaths, List.mem_append, ih, List.mem_map, List.exists_mem_cons_iff]
      exact or_congr_left (exists_congr fun q => and_congr_right fun _ => eq_comm)

/-- On each path, loads and passed tests are about bits that are not known by then. -/
def NewBits : List Mask → Node → Prop
  | _, .unexplored => True
  | _, .leaf _ => True
  | known, .test need _ pos neg =>
      need.mask.New known ∧ NewBits (need.mask :: known) pos ∧ NewBits known neg
  | known, .load mask cases => mask.New known ∧ cases_ (mask :: known) cases
where
  cases_ (known : List Mask) : List (Nat × Node) → Prop
    | [] => True
    | (_, node) :: rest => NewBits known node ∧ cases_ known rest

theorem newBits_cases_iff {known : List Mask} {cases : List (Nat × Node)} :
    NewBits.cases_ known cases ↔ ∀ c ∈ cases, NewBits known c.2 := by
  induction cases with
  | nil => simp [NewBits.cases_]
  | cons c rest ih => rw [NewBits.cases_, ih, List.forall_mem_cons]

theorem newBits_caseAt {known : List Mask} {cases : List (Nat × Node)}
    (all : ∀ c ∈ cases, NewBits known c.2) (v : Nat) : NewBits known (Tree.caseAt v cases) := by
  rcases Tree.caseAt_mem v cases with none | mem
  · rw [none]
    trivial
  · exact all _ mem

/-- The first field of a path and those after it. -/
theorem unshared_cons {known : List Mask} {f : Field} {path : List Field} (new : f.mask.New known)
    (later : (∀ g ∈ path, g.mask.New (f.mask :: known)) ∧ Unshared path) :
    (∀ g ∈ f :: path, g.mask.New known) ∧ Unshared (f :: path) := by
  obtain ⟨newer, some, apart⟩ := later
  refine ⟨List.forall_mem_cons.mpr ⟨new, fun g mem => ⟨(newer g mem).1, fun m here => ?_⟩⟩, ?_, ?_⟩
  · exact (newer g mem).2 m (List.mem_cons_of_mem _ here)
  · exact List.forall_mem_cons.mpr ⟨new.1, some⟩
  · exact .cons (fun g mem => ((newer g mem).2 _ List.mem_cons_self).symm) apart

theorem flowPaths_unshared {node : Node} : ∀ {known : List Mask}, NewBits known node →
    ∀ p ∈ flowPaths node, (∀ f ∈ p.1, f.mask.New known) ∧ Unshared p.1 := by
  induction node using Tree.induct with
  | unexplored => exact fun _ _ mem => nomatch mem
  | leaf l =>
      intro known _ p mem
      obtain rfl := List.mem_singleton.mp mem
      exact ⟨by simp, by simp, .nil⟩
  | test need info pos neg ihP ihN =>
      rintro known ⟨new, newP, newN⟩ p mem
      rcases List.mem_append.mp mem with memN | memP
      · exact ihN newN p memN
      · obtain ⟨q, memQ, rfl⟩ := List.mem_map.mp memP
        exact unshared_cons new (ihP newP q memQ)
  | load mask cases ih =>
      rintro known ⟨new, all⟩ p mem
      obtain ⟨c, memC, q, memQ, rfl⟩ := mem_casesPaths.mp mem
      exact unshared_cons (f := caseField mask c.1) new (ih c memC (newBits_cases_iff.mp all c memC) q memQ)

/-! ## What a traceable packet tells -/

/-- Each call is about bits that none of the fields included before is about. -/
def NewCalls : List Mask → List (TraceCall × Packet) → Prop
  | _, [] => True
  | known, (call, _) :: rest =>
      call.field.mask.New known ∧ NewCalls (call.passed.map Field.mask ++ known) rest

/-- The cache has all bits of the masks. -/
def Covers (cache : FieldSet) (known : List Mask) : Prop :=
  ∀ m ∈ known, ∀ i, m.bits.getLsbD i = true → (cache.get m.type).mask.getLsbD i = true

theorem Covers.modify {cache : FieldSet} {known : List Mask} (covers : Covers cache known)
    (f : Field) : Covers (cache.modify f) known := by
  intro m mem i has
  have before := covers m mem i has
  by_cases same : m.type = f.type
  · obtain ⟨t, bits⟩ := m
    obtain rfl : t = f.type := same
    rw [FieldSet.get_modify_self, MaskedBits.overwrite_mask, BitVec.getLsbD_or, before, Bool.true_or]
  · rwa [FieldSet.get_modify_of_ne _ same]

/-- The bits of a field that is put in are known, too. -/
theorem Covers.learn {cache : FieldSet} {known : List Mask} (covers : Covers cache known) {f : Field}
    {m : Mask} (learnt : m = f.mask) : Covers (cache.modify f) (m :: known) := by
  subst learnt
  refine List.forall_mem_cons.mpr ⟨fun i has => ?_, covers.modify f⟩
  show ((cache.modify f).get f.type).mask.getLsbD i = true
  rw [FieldSet.get_modify_self, MaskedBits.overwrite_mask, BitVec.getLsbD_or]
  exact (Bool.or_eq_true _ _).mpr (.inr has)

theorem Covers.new {cache : FieldSet} {known : List Mask} (covers : Covers cache known) {t : OxmType}
    {m : BitVec (nbits t)} (some : (cache.get t).unknownOf m ≠ 0) :
    Mask.New known ⟨t, (cache.get t).unknownOf m⟩ := by
  refine ⟨some, fun m' mem b same => ?_⟩
  subst same
  refine BitVec.eq_of_getLsbD_eq fun i bound => ?_
  have covered := covers _ mem i
  rw [BitVec.getLsbD_and, MaskedBits.unknownOf_bit _ _ bound]
  cases has : b.getLsbD i with
  | false => simp
  | true => simp [covered has]

/-- **A traceable packet tells only of bits that it has not told of on the path.** -/
theorem traceable_newCalls (h : Handler R) : ∀ {x : Packet} {cache : FieldSet} {known : List Mask},
    Covers cache known → NewCalls known (traceable h x cache).calls := by
  induction h with
  | ret r => exact fun _ => trivial
  | modify patch next ih => exact fun covers => ih (covers.modify patch)
  | load m next ih =>
      intro x cache known covers
      rw [traceable]
      by_cases none : ((MaskedBits.read (x m.type) m.bits).without
          (cache.load m.type m.bits).mask).wildcard = true
      · simp only [if_pos none]
        exact ih _ covers
      · simp only [if_neg none]
        exact ⟨covers.new fun zero => none (decide_eq_true zero), ih _ (covers.learn rfl)⟩
  | test need next ih =>
      intro x cache known covers
      rw [traceable]
      by_cases compatible : (cache.load need.type need.bits.mask).Compatible need.bits
      · by_cases none : ((MaskedBits.read (x need.type) need.bits.mask).without
            (cache.load need.type need.bits.mask).mask).wildcard = true
        · simp only [if_pos compatible, if_pos none]
          exact ih _ covers
        · -- the test has the bits that are not known
          have mask : (⟨need.type, need.bits.restrict ((cache.get need.type).unknownOf need.bits.mask)⟩ :
              Field).mask = ⟨need.type, (cache.get need.type).unknownOf need.bits.mask⟩ :=
            congrArg (Mask.mk need.type) (MaskedBits.restrict_unknownOf_mask _ _)
          have new : Mask.New known ⟨need.type, (cache.get need.type).unknownOf need.bits.mask⟩ :=
            covers.new fun zero => none (decide_eq_true zero)
          rw [← mask] at new
          simp only [if_pos compatible, if_neg none]
          refine ⟨new, ih _ ?_⟩
          rw [TraceCall.passed]
          split
          · exact covers.learn mask
          · exact covers
      · simp only [if_neg compatible]
        exact ih _ covers

/-! ## The tracer -/

theorem finish_newBits {flow : FlowId} {x : Packet} {c : Cursor} {id : Nat} {known : List Mask}
    {node : Node} (new : NewBits known node) : NewBits known (finish flow x c id node).node := by
  cases node with
  | unexplored =>
      rw [finish]
      split <;> trivial
  | leaf l => trivial
  | test need info pos neg => exact new
  | load mask cases => exact new

/-- What a trace puts in a tree is about new bits, too. -/
theorem trace_newBits (flow : FlowId) (last : Packet) :
    ∀ (calls : List (TraceCall × Packet)) (c : Cursor) (id : Nat) {node : Node} {known : List Mask},
      NewCalls known calls → NewBits known node →
        NewBits known (trace flow last calls c id node).node
  | [], _, _, _, _, _, new => finish_newBits new
  | (.load data, x) :: calls, c, id, node, known, ⟨fresh, freshR⟩, new => by
      cases node with
      | unexplored =>
          exact ⟨fresh, trace_newBits flow last calls (c.load data) id freshR trivial, trivial⟩
      | leaf l => exact new
      | test need info pos neg => exact new
      | load mask cases =>
          rw [trace]
          by_cases same : mask = data.mask
          · subst same
            rw [if_pos rfl]
            have all := newBits_cases_iff.mp new.2
            refine ⟨fresh, newBits_cases_iff.mpr fun p mem => ?_⟩
            rcases Tree.mem_setCase mem with rfl | mem
            · exact trace_newBits flow last calls (c.load data) id freshR (newBits_caseAt all _)
            · exact all p mem
          · rw [if_neg same]
            exact new
  | (.test pred ret, x) :: calls, c, id, node, known, ⟨fresh, freshR⟩, new => by
      cases node with
      | unexplored =>
          rw [trace]
          by_cases exceeded : c.exceeded = true
          · rw [if_pos exceeded]
            exact new
          · rw [if_neg exceeded]
            cases ret with
            | true => exact ⟨fresh, trace_newBits flow last calls _ (id + 1) freshR trivial, trivial⟩
            | false => exact ⟨fresh, trivial, trace_newBits flow last calls _ (id + 1) freshR trivial⟩
      | leaf l => exact new
      | load mask cases => exact new
      | test need info pos neg =>
          rw [trace]
          by_cases same : need = pred
          · subst same
            rw [if_pos rfl]
            obtain ⟨_, newP, newN⟩ := new
            cases ret with
            | true => exact ⟨fresh, trace_newBits flow last calls _ id freshR newP, newN⟩
            | false => exact ⟨fresh, newP, trace_newBits flow last calls _ id freshR newN⟩
          · rw [if_neg same]
            exact new

/-- **The match of a tracer that finishes is one its loads and passed tests were added to, and these
are the path to its flow.** -/
theorem trace_path (flow : FlowId) (last : Packet) :
    ∀ (calls : List (TraceCall × Packet)) (c : Cursor) (id : Nat) {node : Node} {m : FullFieldSet},
      (trace flow last calls c id node).installer = some m →
        m.included = (passed calls).foldl .add c.match'.included ∧
          ∃ prio, (passed calls, ⟨flow, prio⟩) ∈ flowPaths (trace flow last calls c id node).node
  | [], c, id, node, m, installs => by
      rw [trace] at installs ⊢
      cases node with
      | unexplored =>
          rw [finish] at installs ⊢
          split at installs
          · cases installs
          · rw [if_neg ‹_›]
            obtain rfl := Option.some.inj installs
            exact ⟨rfl, _, List.mem_singleton_self _⟩
      | leaf l =>
          obtain rfl := Option.some.inj installs
          exact ⟨rfl, _, List.mem_singleton_self _⟩
      | test need info pos neg => cases installs
      | load mask cases => cases installs
  | (.load data, x) :: calls, c, id, node, m, installs => by
      have here := caseField_valueBits data
      cases node with
      | unexplored =>
          rw [trace] at installs ⊢
          obtain ⟨included, prio, mem⟩ := trace_path flow last calls (c.load data) id installs
          refine ⟨included, prio, mem_casesPaths.mpr ⟨_, List.mem_singleton_self _, _, mem, ?_⟩⟩
          rw [here]
          rfl
      | leaf l => cases installs
      | test need info pos neg => cases installs
      | load mask cases =>
          rw [trace] at installs ⊢
          by_cases same : mask = data.mask
          · subst same
            rw [if_pos rfl] at installs ⊢
            obtain ⟨included, prio, mem⟩ := trace_path flow last calls (c.load data) id installs
            refine ⟨included, prio, mem_casesPaths.mpr ⟨_, Tree.mem_setCase_self _ _ _, _, mem, ?_⟩⟩
            rw [here]
            rfl
          · rw [if_neg same] at installs
            cases installs
  | (.test pred ret, x) :: calls, c, id, node, m, installs => by
      cases node with
      | unexplored =>
          rw [trace] at installs ⊢
          by_cases exceeded : c.exceeded = true
          · rw [if_pos exceeded] at installs
            cases installs
          · rw [if_neg exceeded] at installs ⊢
            obtain ⟨included, prio, mem⟩ :=
              trace_path flow last calls (c.test pred ret c.middle) (id + 1) installs
            refine ⟨?_, prio, List.mem_append.mpr ?_⟩
            · cases ret <;> exact included
            · cases ret with
              | true => exact .inr (List.mem_map_of_mem mem)
              | false => exact .inl mem
      | leaf l => cases installs
      | load mask cases => cases installs
      | test need info pos neg =>
          rw [trace] at installs ⊢
          by_cases same : need = pred
          · subst same
            rw [if_pos rfl] at installs ⊢
            obtain ⟨included, prio, mem⟩ :=
              trace_path flow last calls (c.test need ret info.prio) id installs
            refine ⟨?_, prio, List.mem_append.mpr ?_⟩
            · cases ret <;> exact included
            · cases ret with
              | true => exact .inr (List.mem_map_of_mem mem)
              | false => exact .inl mem
          · rw [if_neg same] at installs
            cases installs

/-! ## The compiler -/

/-- The flows a backend is asked to install: priority, match and flow. -/
def BackendCall.asInstall : BackendCall → Option (Nat × FullFieldSet × FlowId)
  | .install prio m flow => some (prio, m, flow)
  | .barrierRule _ _ _ _ => none
  | .barrier => none
  | .remove _ => none

def installs (calls : List BackendCall) : List (Nat × FullFieldSet × FlowId) :=
  calls.filterMap BackendCall.asInstall

theorem installs_append (calls later : List BackendCall) :
    installs (calls ++ later) = installs calls ++ installs later := List.filterMap_append

/-- The flow at the end of a path, with the match that the fields of the path were added to. -/
structure InstalledFor (start : MultiFieldSet) (p : List Field × FlowNode)
    (i : Nat × FullFieldSet × FlowId) : Prop where
  prio : i.1 = p.2.prio
  flow : i.2.2 = p.2.flow
  included : i.2.1.included.elements = (p.1.foldl .add start).elements

theorem InstalledFor.congr {start start' : MultiFieldSet} {p : List Field × FlowNode}
    {i : Nat × FullFieldSet × FlowId} (installed : InstalledFor start p i)
    (same : start.elements = start'.elements) : InstalledFor start' p i :=
  ⟨installed.prio, installed.flow,
    installed.included.trans (MultiFieldSet.elements_foldl_add_congr same)⟩

/-- The paths of the flows that are alive. -/
def alivePaths (alive : FlowId → Bool) (paths : List (List Field × FlowNode)) :
    List (List Field × FlowNode) := paths.filter fun p => alive p.2.flow

theorem alivePaths_append (alive : FlowId → Bool) (paths later : List (List Field × FlowNode)) :
    alivePaths alive (paths ++ later) = alivePaths alive paths ++ alivePaths alive later :=
  List.filter_append ..

/-- Below a field, the paths begin with it. -/
theorem installedFor_below {alive : FlowId → Bool} {start next : MultiFieldSet} {f : Field}
    {paths : List (List Field × FlowNode)} {calls : List (Nat × FullFieldSet × FlowId)}
    (below : List.Forall₂ (InstalledFor next) (alivePaths alive paths) calls)
    (same : next.elements = (start.add f).elements) :
    List.Forall₂ (InstalledFor start) (alivePaths alive (paths.map (Prod.map (f :: ·) id))) calls := by
  rw [alivePaths, List.filter_map, List.forall₂_map_left_iff]
  refine below.imp fun p i installed => ?_
  exact ⟨installed.prio, installed.flow, (installed.congr same).included⟩

/-- **The compiler installs the flow of each path with the match that the fields of the path were
added to**, and its match is left as it was. -/
theorem compile_installs (alive : FlowId → Bool) {node : Node} :
    ∀ {known : List Mask} {m : FullFieldSet}, NewBits known node → m.included.Under known →
      (compile alive node m).2.included.elements = m.included.elements ∧
        List.Forall₂ (InstalledFor m.included) (alivePaths alive (flowPaths node))
          (installs (compile alive node m).1) := by
  induction node using Tree.induct with
  | unexplored => exact fun _ _ => ⟨rfl, .nil⟩
  | leaf l =>
      intro known m _ _
      rw [compile, flowPaths]
      refine ⟨rfl, ?_⟩
      by_cases living : alive l.flow = true
      · simpa [living, alivePaths, installs, BackendCall.asInstall] using InstalledFor.mk rfl rfl rfl
      · simp [living, alivePaths, installs]
  | test need info pos neg ihP ihN =>
      rintro known m ⟨new, newP, newN⟩ under
      obtain ⟨leftN, installsN⟩ := ihN newN (m := m.exclude need) under
      have underN := under.congr leftN
      obtain ⟨leftP, installsP⟩ := ihP newP
        (m := ((compile alive neg (m.exclude need)).2.includeMask need.mask).add need) (underN.add new)
      rw [compile]
      constructor
      · show MultiFieldSet.elements (MultiFieldSet.erase _ _) = _
        rw [MultiFieldSet.elements_erase_congr leftP]
        exact (MultiFieldSet.erase_add underN new).trans leftN
      · rw [flowPaths, alivePaths_append, installs_append]
        exact List.rel_append installsN
          (installedFor_below installsP (MultiFieldSet.elements_add_congr leftN need))
  | load mask cases ih =>
      intro known m newBits under
      obtain ⟨new, all⟩ := newBits
      replace all := newBits_cases_iff.mp all
      rw [compile, flowPaths]
      -- one case after the other, each leaving the match as it was
      induction cases generalizing m with
      | nil => exact ⟨rfl, .nil⟩
      | cons c rest ihRest =>
          obtain ⟨bits, node⟩ := c
          obtain ⟨newC, all⟩ := List.forall_mem_cons.mp all
          obtain ⟨ihC, ih⟩ := List.forall_mem_cons.mp ih
          have own : (caseField mask bits).mask.New known := new
          obtain ⟨leftC, installsC⟩ := ihC newC (m := m.add (caseField mask bits)) (under.add own)
          have left : ((compile alive node (m.add (caseField mask bits))).2.erase mask).included.elements =
              m.included.elements :=
            (MultiFieldSet.elements_erase_congr leftC mask).trans (MultiFieldSet.erase_add under own)
          obtain ⟨leftR, installsR⟩ := ihRest ih (under.congr left) all
          rw [compile.compileCases, flowPaths.casesPaths]
          refine ⟨leftR.trans left, ?_⟩
          show List.Forall₂ _ _ (installs (_ ++ _))
          rw [alivePaths_append, installs_append]
          exact List.rel_append (installedFor_below installsC rfl)
            (installsR.imp fun _ _ installed => installed.congr left)

/-! ## Trees of traceable packets -/

/-- The trees there are: of what traceable packets tell of any policies, and of updates. -/
inductive Recorded : Node → Prop where
  | empty : Recorded .unexplored
  | augmented {D : Type} (policy : Handler D) (x last : Packet) (flow : FlowId) (c : Cursor) (id : Nat)
      {node : Node} (recorded : Recorded node) :
      Recorded (trace flow last (traceable policy x ∅).calls c id node).node
  | updated (left right : ℚ) {node : Node} (recorded : Recorded node) :
      Recorded (assignPriorities left right node)

theorem traceable_new (policy : Handler D) (x : Packet) :
    NewCalls [] (traceable policy x ∅).calls := traceable_newCalls policy fun _ mem => nomatch mem

theorem assignPriorities_newBits {node : Node} : ∀ {known : List Mask} {left right : ℚ},
    NewBits known node → NewBits known (assignPriorities left right node) := by
  induction node using Tree.induct with
  | unexplored => exact fun _ => trivial
  | leaf l => exact fun _ => trivial
  | test need info pos neg ihP ihN =>
      rintro known left right ⟨new, newP, newN⟩
      exact ⟨new, ihP newP, ihN newN⟩
  | load mask cases ih =>
      rintro known left right ⟨new, all⟩
      refine ⟨new, ?_⟩
      induction cases with
      | nil => trivial
      | cons c rest ihRest =>
          obtain ⟨ihC, ih⟩ := List.forall_mem_cons.mp ih
          exact ⟨ihC all.1, ihRest ih all.2⟩

theorem Recorded.newBits {node : Node} (recorded : Recorded node) : NewBits [] node := by
  induction recorded with
  | empty => trivial
  | augmented policy x last flow c id _ ih =>
      exact trace_newBits flow last _ c id (traceable_new policy x) ih
  | updated left right _ ih => exact assignPriorities_newBits ih

/-- The tree of a runtime is one of these. -/
theorem runtime_recorded [Inhabited D] (policy : Handler D) (left right : Nat)
    (es : List RuntimeEvent) :
    Recorded (final (runtimeStep policy) (.initial left right) es).root := by
  have step (r : Runtime D) (e : RuntimeEvent) (recorded : Recorded r.root) :
      Recorded (runtimeStep policy r e).root := by
    cases e with
    | release flow => exact recorded
    | update => exact .updated _ _ recorded
    | augment x reuse =>
        refine .augmented policy x _ _ _ _ ?_
        rw [Runtime.flowFor]
        split
        · split <;> exact recorded
        · exact recorded
  exact invariant_final (fun r : Runtime D => Recorded r.root) step es .empty

/-! ## What a match stands for -/

/-- The field sets of a match are of exactly the packets that have all fields of the path. -/
def Denotes (m : FullFieldSet) (path : List Field) : Prop :=
  ∀ x : Packet, (∃ fs ∈ m.included.enumerate, fs.test x = true) ↔ ∀ f ∈ path, x.test f = true

/-- No type is loaded or passed in a test twice. -/
def OnePerType (path : List Field) : Prop := (path.map Field.type).Nodup

theorem denotes_iff {m : FullFieldSet} {path : List Field}
    (added : m.included.elements = (MultiFieldSet.addAll path).elements) (unshared : Unshared path) :
    Denotes m path ↔ OnePerType path := by
  rw [OnePerType, ← MultiFieldSet.addAll_all_iff unshared, ← MultiFieldSet.test_congr added]
  exact forall_congr' fun x => by rw [MultiFieldSet.enumerate_test]

/-- **The match of each path, of the tracer when it finishes and of the compiler, stands for the
loads and passed tests of the path if and only if no two of them are of one type.** -/
theorem matches_exact_iff {r : Runtime D} (recorded : Recorded r.root) :
    (∀ (policy : Handler D) (x : Packet) (flow : FlowId) (m : FullFieldSet),
      (r.augment policy x flow).2.installer = some m →
        let path := passed (traceable policy x ∅).calls
        (∃ prio, (path, ⟨flow, prio⟩) ∈ flowPaths (r.augment policy x flow).1.root) ∧
          (Denotes m path ↔ OnePerType path)) ∧
      List.Forall₂
        (fun p i => i.1 = p.2.prio ∧ i.2.2 = p.2.flow ∧ (Denotes i.2.1 p.1 ↔ OnePerType p.1))
        (alivePaths r.alive (flowPaths r.root)) (installs r.commit) := by
  constructor
  · intro policy x flow m installs path
    obtain ⟨included, prio, mem⟩ := trace_path flow _ _ r.cursor r.nextId installs
    have new : NewBits [] (r.augment policy x flow).1.root :=
      trace_newBits _ _ _ r.cursor r.nextId (traceable_new policy x) recorded.newBits
    exact ⟨⟨prio, mem⟩, denotes_iff (congrArg MultiFieldSet.elements included)
      (flowPaths_unshared new _ mem).2⟩
  · have compiled := (compile_installs r.alive (m := ∅) recorded.newBits
      (MultiFieldSet.under_empty [])).2
    have committed : installs r.commit = installs (compile r.alive r.root ∅).1 := by
      rw [Runtime.commit, installs_append]
      exact List.append_nil _
    rw [committed]
    have unshared : ∀ p ∈ alivePaths r.alive (flowPaths r.root), Unshared p.1 := fun p mem =>
      (flowPaths_unshared recorded.newBits p (List.mem_of_mem_filter mem)).2
    refine ((List.forall₂_and_left _ _).mpr ⟨unshared, compiled⟩).imp ?_
    rintro p i ⟨unshared, installed⟩
    exact ⟨installed.prio, installed.flow, denotes_iff installed.included unshared⟩

end

open scoped Drunos.Oxm.OpenflowBasic in
/-- The type of the frame read whole: the match of the path has only one field of it. -/
theorem matches_exact_iff_whole :
    let policy : Handler Bool := .test (.exactly ethType 0x800) .ret
    let x := OpenflowBasic.packet [.exactly ethType 0x800]
    let r := final (runtimeStep policy) (.initial 1 65535) [.augment x false]
    List.Forall₂ (fun p i => i.1 = p.2.prio ∧ i.2.2 = p.2.flow ∧ (Denotes i.2.1 p.1 ↔ OnePerType p.1))
      (alivePaths r.alive (flowPaths r.root)) (installs r.commit) :=
  (matches_exact_iff (runtime_recorded _ 1 65535 [.augment _ false])).2

open scoped Drunos.Oxm.OpenflowBasic in
/-- The two halves of an address are read one after the other: the matches are also of packets that
have only one of them. -/
theorem matches_oneHalf :
    let policy : Handler Bool :=
      .load ⟨ipv4Src, 0xffff0000#32⟩ fun _ => .load ⟨ipv4Src, 0x0000ffff#32⟩ fun _ => .ret true
    let x := OpenflowBasic.packet [.exactly ipv4Src 0x0a000001#32]
    let traced := (Runtime.initial 1 65535).augment policy x 0
    let r := final (runtimeStep policy) (.initial 1 65535) [.augment x false]
    policy.Fits ∧
      (∃ m, traced.2.installer = some m ∧ ¬ Denotes m (passed (traceable policy x ∅).calls)) ∧
      ∃ p i, alivePaths r.alive (flowPaths r.root) = [p] ∧ installs r.commit = [i] ∧
        ¬ Denotes i.2.1 p.1 := by
  refine ⟨⟨by decide, fun _ => ⟨by decide, fun _ => trivial⟩⟩, ⟨_, rfl, fun all => ?_⟩, _, _, rfl, rfl,
    fun all => ?_⟩
  · have both := (all (OpenflowBasic.packet [.exactly ipv4Src 0x0a000002#32])).mp (by decide)
    exact absurd both (by decide)
  · have both := (all (OpenflowBasic.packet [.exactly ipv4Src 0x0a000002#32])).mp (by decide)
    exact absurd both (by decide)

end Drunos.Maple
