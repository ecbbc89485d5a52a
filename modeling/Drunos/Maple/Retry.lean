/-
# Drunos.Maple.Retry — the second attempt when no priority was left

`MapleImpl::processPacketIn` catches `priority_exceeded`, has the tree updated and augments it again
with the same `ModTrackingPacket`. Its packet and its modifications are those the first attempt has
left; only the cache of the `TraceablePacketImpl` is a new one.

`steps` is what a policy does on a traceable packet, in order: what it reads, what the tracer is
told, what it modifies. An attempt that is thrown out of the tracer has made those before a call
(`made`). The second attempt makes the steps of a first one on the packet as it arrived exactly when
the modified packet gives the answers the trace has (`steps_congr`), and then it leaves its decision
and its modifications: `retry_asOnArrival_iff`.
-/
import Drunos.Maple.Lookup
import Drunos.Oxm.AddedFields
import Drunos.Oxm.OpenflowBasic

namespace Drunos.Maple

open Drunos.Oxm Drunos.Theory Drunos.Theory.Exploration

set_option autoImplicit false

section

variable [OxmTypes] {R D : Type}

/-! ## Pipelines -/

/-- One program after another. -/
def andThen {S : Type} : Handler R → (R → Handler S) → Handler S
  | .ret r, k => k r
  | .load m next, k => .load m fun v => andThen (next v) k
  | .test need next, k => .test need fun b => andThen (next b) k
  | .modify patch next, k => .modify patch (andThen next k)

/-- `MapleImpl::process`: the handlers in turn, each given the decision of the one before, until one
returns (`return_`). -/
def process (return_ : D → Bool) : List (D → Handler D) → D → Handler D
  | [], ret => .ret ret
  | handler :: pipeline, ret =>
      andThen (handler ret) fun ret => if return_ ret then .ret ret else process return_ pipeline ret

/-! ## What a policy does -/

inductive Step where
  | read (data : Field)
  | tested (need : Field) (ret : Bool)
  | told (call : TraceCall)
  | modified (patch : Field)

def Step.call : Step → Option TraceCall
  | .told call => some call
  | .read _ => none
  | .tested _ _ => none
  | .modified _ => none

def Step.patch : Step → Option Field
  | .modified patch => some patch
  | .read _ => none
  | .tested _ _ => none
  | .told _ => none

def told (steps : List Step) : List TraceCall := steps.filterMap Step.call

def patches (steps : List Step) : List Field := steps.filterMap Step.patch

/-- The steps of a program on a `TraceablePacketImpl`. -/
def steps : Handler R → Packet → FieldSet → List Step
  | .ret _, _, _ => []
  | .load m next, x, cache =>
      let read := MaskedBits.read (x m.type) m.bits
      let unexplored := read.without (cache.load m.type m.bits).mask
      if unexplored.wildcard then .read ⟨m.type, read⟩ :: steps (next read.value) x cache
      else
        .told (.load ⟨m.type, unexplored⟩) :: .read ⟨m.type, read⟩ ::
          steps (next read.value) x (cache.modify ⟨m.type, unexplored⟩)
  | .test need next, x, cache =>
      let read := MaskedBits.read (x need.type) need.bits.mask
      let explored := cache.load need.type need.bits.mask
      let unexplored := read.without explored.mask
      if explored.Compatible need.bits then
        if unexplored.wildcard then .tested need true :: steps (next true) x cache
        else
          let ret := decide (unexplored.Compatible need.bits)
          let pred := need.bits.restrict unexplored.mask
          .told (.test ⟨need.type, pred⟩ ret) :: .tested need ret ::
            steps (next ret) x (if ret then cache.modify ⟨need.type, unexplored⟩ else cache)
      else .tested need false :: steps (next false) x cache
  | .modify patch next, x, cache =>
      .modified patch :: steps next (x.modify patch) (cache.modify patch)

/-- The steps before a call of the tracer. -/
def stepsBefore : Nat → List Step → List Step
  | _, [] => []
  | n, .told call :: rest =>
      match n with
      | 0 => []
      | n + 1 => .told call :: stepsBefore n rest
  | n, .read data :: rest => .read data :: stepsBefore n rest
  | n, .tested need ret :: rest => .tested need ret :: stepsBefore n rest
  | n, .modified patch :: rest => .modified patch :: stepsBefore n rest

theorem stepsBefore_initial (n : Nat) (all : List Step) : stepsBefore n all <+: all := by
  induction all generalizing n with
  | nil => simp [stepsBefore]
  | cons s rest ih =>
      cases s with
      | told call => cases n <;> simp [stepsBefore, ih]
      | read data => simp [stepsBefore, ih]
      | tested need ret => simp [stepsBefore, ih]
      | modified patch => simp [stepsBefore, ih]

theorem stepsBefore_all (all : List Step) : stepsBefore (told all).length all = all := by
  induction all with
  | nil => rfl
  | cons s rest ih =>
      cases s <;> exact congrArg (List.cons _) ih

/-- The tracer is told what it is told of a traceable packet. -/
theorem told_steps (h : Handler R) : ∀ (x : Packet) (cache : FieldSet),
    told (steps h x cache) = (traceable h x cache).calls.map Prod.fst := by
  induction h with
  | ret r => exact fun _ _ => rfl
  | modify patch next ih => exact fun x cache => ih (x.modify patch) (cache.modify patch)
  | load m next ih =>
      intro x cache
      simp only [steps, traceable]
      split
      · exact ih _ x cache
      · exact congrArg (List.cons _) (ih _ x _)
  | test need next ih =>
      intro x cache
      simp only [steps, traceable]
      split
      · split
        · exact ih _ x cache
        · exact congrArg (List.cons _) (ih _ x _)
      · exact ih _ x cache

/-! ## How far an attempt comes -/

/-- The calls that a tracer takes before it throws, or all. -/
def reached : List TraceCall → Cursor → Node → Nat
  | [], _, _ => 0
  | .load data :: calls, c, node =>
      match node with
      | .unexplored => reached calls (c.load data) .unexplored + 1
      | .load mask cases =>
          if mask = data.mask then reached calls (c.load data) (Tree.caseAt (valueBits data) cases) + 1
          else 0
      | _ => 0
  | .test pred ret :: calls, c, node =>
      match node with
      | .unexplored =>
          if c.exceeded then 0 else reached calls (c.test pred ret c.middle) .unexplored + 1
      | .test need info pos neg =>
          if need = pred then reached calls (c.test pred ret info.prio) (if ret then pos else neg) + 1
          else 0
      | _ => 0

/-- The packet an attempt leaves is the one at the call it is thrown at. -/
theorem trace_packet (flow : FlowId) (last : Packet) :
    ∀ (calls : List (TraceCall × Packet)) (c : Cursor) (id : Nat) (node : Node),
      (calls.map Prod.snd ++ [last])[reached (calls.map Prod.fst) c node]? =
        some (trace flow last calls c id node).packet
  | [], c, id, node => by
      rw [trace]
      cases node with
      | unexplored =>
          rw [finish]
          split <;> rfl
      | leaf l => rfl
      | test need info pos neg => rfl
      | load mask cases => rfl
  | (.load data, x) :: calls, c, id, node => by
      cases node with
      | unexplored => exact trace_packet flow last calls (c.load data) id .unexplored
      | leaf l => rfl
      | test need info pos neg => rfl
      | load mask cases =>
          simp only [trace, List.map_cons, reached]
          split
          · exact trace_packet flow last calls (c.load data) id _
          · rfl
  | (.test pred ret, x) :: calls, c, id, node => by
      cases node with
      | unexplored =>
          simp only [trace, List.map_cons, reached]
          split
          · rfl
          · exact trace_packet flow last calls (c.test pred ret c.middle) (id + 1) .unexplored
      | leaf l => rfl
      | load mask cases => rfl
      | test need info pos neg =>
          simp only [trace, List.map_cons, reached]
          split
          · exact trace_packet flow last calls (c.test pred ret info.prio) id _
          · rfl

/-- An attempt that is not thrown has a decision, and all calls are made. -/
theorem trace_ends (flow : FlowId) (last : Packet) :
    ∀ (calls : List (TraceCall × Packet)) (c : Cursor) (id : Nat) (node : Node),
      (trace flow last calls c id node).thrown = none →
        (trace flow last calls c id node).decided = true ∧
          reached (calls.map Prod.fst) c node = calls.length
  | [], c, id, node, ends => by
      rw [trace] at ends ⊢
      cases node with
      | unexplored =>
          rw [finish] at ends ⊢
          split at ends
          · cases ends
          · rw [if_neg ‹_›]
            exact ⟨rfl, rfl⟩
      | leaf l => exact ⟨rfl, rfl⟩
      | test need info pos neg => cases ends
      | load mask cases => cases ends
  | (.load data, x) :: calls, c, id, node, ends => by
      cases node with
      | unexplored =>
          exact (trace_ends flow last calls (c.load data) id .unexplored ends).imp_right (congrArg (· + 1))
      | leaf l => cases ends
      | test need info pos neg => cases ends
      | load mask cases =>
          simp only [trace, List.map_cons, reached] at ends ⊢
          split
          · rw [if_pos ‹_›] at ends
            exact (trace_ends flow last calls (c.load data) id _ ends).imp_right (congrArg (· + 1))
          · rw [if_neg ‹_›] at ends
            cases ends
  | (.test pred ret, x) :: calls, c, id, node, ends => by
      cases node with
      | unexplored =>
          simp only [trace, List.map_cons, reached] at ends ⊢
          split
          · rw [if_pos ‹_›] at ends
            cases ends
          · rw [if_neg ‹_›] at ends
            exact (trace_ends flow last calls (c.test pred ret c.middle) (id + 1) .unexplored ends).imp_right
              (congrArg (· + 1))
      | leaf l => cases ends
      | load mask cases => cases ends
      | test need info pos neg =>
          simp only [trace, List.map_cons, reached] at ends ⊢
          split
          · rw [if_pos ‹_›] at ends
            exact (trace_ends flow last calls (c.test pred ret info.prio) id _ ends).imp_right
              (congrArg (· + 1))
          · rw [if_neg ‹_›] at ends
            cases ends

/-- The tree has the nodes of a trace or room for them: a priority for each new test, and for the
flow. -/
def room : List TraceCall → Cursor → Node → Bool
  | [], c, node =>
      match node with
      | .unexplored => !c.exceeded
      | .leaf _ => true
      | _ => false
  | .load data :: calls, c, node =>
      match node with
      | .unexplored => room calls (c.load data) .unexplored
      | .load mask cases =>
          mask = data.mask && room calls (c.load data) (Tree.caseAt (valueBits data) cases)
      | _ => false
  | .test pred ret :: calls, c, node =>
      match node with
      | .unexplored => !c.exceeded && room calls (c.test pred ret c.middle) .unexplored
      | .test need info pos neg =>
          need = pred && room calls (c.test pred ret info.prio) (if ret then pos else neg)
      | _ => false

/-- An attempt is not thrown where there is room for it. -/
theorem trace_room (flow : FlowId) (last : Packet) :
    ∀ (calls : List (TraceCall × Packet)) (c : Cursor) (id : Nat) (node : Node),
      (trace flow last calls c id node).thrown = none ↔ room (calls.map Prod.fst) c node = true
  | [], c, id, node => by
      rw [trace]
      cases node with
      | unexplored =>
          rw [finish]
          split <;> simp_all [thrown, installing, room]
      | leaf l => simp [finish, installing, room]
      | test need info pos neg => simp [finish, thrown, room]
      | load mask cases => simp [finish, thrown, room]
  | (.load data, x) :: calls, c, id, node => by
      cases node with
      | unexplored => exact trace_room flow last calls (c.load data) id .unexplored
      | leaf l => simp [trace, thrown, room]
      | test need info pos neg => simp [trace, thrown, room]
      | load mask cases =>
          simp only [trace, List.map_cons, room, Bool.and_eq_true, decide_eq_true_eq]
          split
          · rw [and_iff_right ‹_›]
            exact trace_room flow last calls (c.load data) id _
          · simp [thrown, ‹mask ≠ data.mask›]
  | (.test pred ret, x) :: calls, c, id, node => by
      cases node with
      | unexplored =>
          simp only [trace, List.map_cons, room, Bool.and_eq_true, Bool.not_eq_true']
          split
          · simp [thrown, ‹c.exceeded = true›]
          · rw [and_iff_right (by simpa using ‹¬ c.exceeded = true›)]
            exact trace_room flow last calls (c.test pred ret c.middle) (id + 1) .unexplored
      | leaf l => simp [trace, thrown, room]
      | load mask cases => simp [trace, thrown, room]
      | test need info pos neg =>
          simp only [trace, List.map_cons, room, Bool.and_eq_true, decide_eq_true_eq]
          split
          · rw [and_iff_right ‹_›]
            exact trace_room flow last calls (c.test pred ret info.prio) id _
          · simp [thrown, ‹need ≠ pred›]

/-- The steps an augmentation makes before it is thrown, or all. -/
def Runtime.made (policy : Handler D) (x : Packet) (r : Runtime D) : List Step :=
  stepsBefore (reached (told (steps policy x ∅)) r.cursor r.root) (steps policy x ∅)

/-- `ModTrackingPacket`: the modifications on top of some. -/
def mods (start : FieldSet) (made : List Step) : FieldSet := (patches made).foldl .modify start

/-- At each call, the packet is as the steps before it have modified it. -/
theorem steps_packet (h : Handler R) : ∀ (x : Packet) (cache : FieldSet) (n : Nat) (p : Packet),
    ((traceable h x cache).calls.map Prod.snd ++ [(traceable h x cache).packet])[n]? = some p →
      p = (patches (stepsBefore n (steps h x cache))).foldl .modify x := by
  induction h with
  | ret r =>
      intro x cache n p found
      cases n with
      | zero => exact (Option.some.inj found).symm
      | succ n => cases found
  | modify patch next ih => exact fun x cache n p found => ih (x.modify patch) (cache.modify patch) n p found
  | load m next ih =>
      intro x cache n p
      simp only [steps, traceable]
      split
      · exact ih _ x cache n p
      · intro found
        cases n with
        | zero => exact (Option.some.inj found).symm
        | succ n => exact ih _ x _ n p found
  | test need next ih =>
      intro x cache n p
      simp only [steps, traceable]
      split
      · split
        · exact ih _ x cache n p
        · intro found
          cases n with
          | zero => exact (Option.some.inj found).symm
          | succ n => exact ih _ x _ n p found
      · exact ih _ x cache n p

theorem apply_mods (x : Packet) (made : List Step) (start : FieldSet) :
    (mods start made).apply x = (patches made).foldl .modify (start.apply x) := by
  rw [mods]
  induction patches made generalizing start with
  | nil => rfl
  | cons patch rest ih => rw [List.foldl_cons, List.foldl_cons, ih, FieldSet.apply_modify]

/-- The packet that an augmentation leaves is the one it got with the modifications made. -/
theorem augment_packet (policy : Handler D) (x : Packet) (flow : FlowId) (r : Runtime D) :
    (r.augment policy x flow).2.packet = (mods ∅ (r.made policy x)).apply x := by
  rw [apply_mods, FieldSet.apply_empty, Runtime.made, told_steps]
  exact steps_packet policy x ∅ _ _ (trace_packet flow _ _ r.cursor r.nextId r.root)

/-! ## Two packets that answer alike -/

/-- The call is answered so by the packet as it comes in. -/
def TraceCall.AnsweredBy (x : Packet) (call : TraceCall) : Prop := call.asked.AnsweredBy (answers x)

instance (x : Packet) : ∀ call : TraceCall, Decidable (call.AnsweredBy x)
  | .load data => inferInstanceAs (Decidable (valueBits data = valueBits (x.load data.mask)))
  | .test pred ret => inferInstanceAs (Decidable (ret = x.test pred))

theorem read_congr {x₀ y₀ x y : Packet} {cache : FieldSet} (applied : cache.apply x₀ = x)
    (applied' : cache.apply y₀ = y) {t : OxmType} {m : BitVec (nbits t)}
    (same : MaskedBits.read (x₀ t) ((cache.get t).unknownOf m) =
      .read (y₀ t) ((cache.get t).unknownOf m)) :
    MaskedBits.read (x t) m = .read (y t) m := by
  have value := MaskedBits.known_or_read (cache.get t) (x₀ t) m
  have value' := MaskedBits.known_or_read (cache.get t) (y₀ t) m
  rw [← now_eq applied] at value
  rw [← now_eq applied', ← same] at value'
  exact MaskedBits.ext (value.symm.trans value') rfl

/-- **On a packet that gives the answers of its trace, a policy makes the same steps.** -/
theorem steps_congr (h : Handler R) : ∀ {x₀ y₀ x y : Packet} {cache : FieldSet},
    cache.apply x₀ = x → cache.apply y₀ = y →
      (∀ call ∈ told (steps h x cache), call.AnsweredBy y₀) → steps h y cache = steps h x cache := by
  induction h with
  | ret r => exact fun _ _ _ => rfl
  | modify patch next ih =>
      intro x₀ y₀ x y cache applied applied' alike
      refine congrArg (List.cons _) (@ih x₀ y₀ _ _ _ ?_ ?_ alike)
      · rw [FieldSet.apply_modify, applied]
      · rw [FieldSet.apply_modify, applied']
  | load m next ih =>
      intro x₀ y₀ x y cache applied applied' alike
      have read := MaskedBits.read_without_known (cache.get m.type) (x₀ m.type) m.bits
      have read' := MaskedBits.read_without_known (cache.get m.type) (y₀ m.type) m.bits
      rw [← now_eq applied] at read
      rw [← now_eq applied'] at read'
      simp only [steps, FieldSet.load, read, read', MaskedBits.read_wildcard] at alike ⊢
      by_cases known : (cache.get m.type).unknownOf m.bits = 0
      · rw [if_pos known] at alike ⊢
        have seen := read_congr applied applied' (m := m.bits) (by simp [known, MaskedBits.read])
        rw [if_pos known, ← seen]
        exact congrArg (List.cons _) (ih _ applied applied' alike)
      · rw [if_neg known] at alike ⊢
        obtain ⟨here, later⟩ := List.forall_mem_cons.mp alike
        have same : MaskedBits.read (x₀ m.type) ((cache.get m.type).unknownOf m.bits) =
            .read (y₀ m.type) ((cache.get m.type).unknownOf m.bits) :=
          MaskedBits.ext (BitVec.eq_of_toNat_eq here) rfl
        have seen := read_congr applied applied' same
        have cached := apply_modify_read applied' m.type m.bits
        rw [← same] at cached
        rw [if_neg known, ← seen, ← same, ih _ (apply_modify_read applied m.type m.bits) cached later]
  | test need next ih =>
      intro x₀ y₀ x y cache applied applied' alike
      have read := MaskedBits.read_without_known (cache.get need.type) (x₀ need.type) need.bits.mask
      have read' := MaskedBits.read_without_known (cache.get need.type) (y₀ need.type) need.bits.mask
      rw [← now_eq applied] at read
      rw [← now_eq applied'] at read'
      simp only [steps, FieldSet.load, read, read', MaskedBits.read_wildcard, MaskedBits.read_mask,
        MaskedBits.read_compatible_iff] at alike ⊢
      by_cases compatible : (cache.load need.type need.bits.mask).Compatible need.bits
      · rw [if_pos compatible] at alike ⊢
        rw [if_pos compatible]
        by_cases known : (cache.get need.type).unknownOf need.bits.mask = 0
        · rw [if_pos known] at alike ⊢
          rw [if_pos known]
          exact congrArg (List.cons _) (ih _ applied applied' alike)
        · rw [if_neg known] at alike ⊢
          rw [if_neg known]
          obtain ⟨here, later⟩ := List.forall_mem_cons.mp alike
          have same : decide ((need.bits.restrict ((cache.get need.type).unknownOf need.bits.mask)).Matches
              (y₀ need.type)) = decide ((need.bits.restrict
                ((cache.get need.type).unknownOf need.bits.mask)).Matches (x₀ need.type)) := here.symm
          rw [same]
          by_cases has : (need.bits.restrict ((cache.get need.type).unknownOf need.bits.mask)).Matches
              (x₀ need.type)
          · -- the bits of a test that succeeds are the same
            have has' := of_decide_eq_true (same.trans (decide_eq_true has))
            have read := (MaskedBits.restrict_eq_read has).symm.trans (MaskedBits.restrict_eq_read has')
            have cached := apply_modify_read applied need.type need.bits.mask
            have cached' := apply_modify_read applied' need.type need.bits.mask
            rw [← read] at cached'
            simp only [has, decide_true, if_true] at later ⊢
            rw [← read, ih _ cached cached' later]
          · simp only [has, decide_false, Bool.false_eq_true, if_false] at later ⊢
            rw [ih _ applied applied' later]
      · rw [if_neg compatible] at alike ⊢
        rw [if_neg compatible]
        exact congrArg (List.cons _) (ih _ applied applied' alike)

/-! ## Modifying again -/

theorem types_foldl_modify {ps : List Field} : ∀ {s : FieldSet}, (∀ p ∈ ps, p.type ∈ s.types) →
    (ps.foldl .modify s).types = s.types := by
  induction ps with
  | nil => exact fun _ => rfl
  | cons p ps ih =>
      intro s known
      obtain ⟨here, later⟩ := List.forall_mem_cons.mp known
      have types : (s.modify p).types = s.types := if_pos here
      rw [List.foldl_cons, ih (by rw [types]; exact later), types]

theorem mem_types_foldl_modify {ps : List Field} : ∀ {s : FieldSet} {t : OxmType},
    t ∈ s.types ∨ (∃ p ∈ ps, p.type = t) → t ∈ (ps.foldl .modify s).types := by
  induction ps with
  | nil => simp
  | cons p ps ih =>
      intro s t mem
      refine ih ?_
      have own : p.type ∈ (s.modify p).types := by simp [FieldSet.mem_types]
      have old (mem : t ∈ s.types) : t ∈ (s.modify p).types := by
        rw [FieldSet.modify]
        split
        · exact mem
        · exact List.mem_append_left _ mem
      rcases mem with mem | ⟨q, mem, rfl⟩
      · exact .inl (old mem)
      · rcases List.mem_cons.mp mem with rfl | mem
        · exact .inl own
        · exact .inr ⟨q, mem, rfl⟩

theorem get_foldl_modify (ps : List Field) (t : OxmType) : ∀ s : FieldSet,
    (ps.foldl .modify s).get t = (s.get t).overwrite ((ps.foldl FieldSet.modify ∅).get t) := by
  induction ps with
  | nil => simp
  | cons p ps ih =>
      intro s
      have first : (s.modify p).get t = (s.get t).overwrite (((∅ : FieldSet).modify p).get t) := by
        by_cases same : t = p.type
        · subst same
          simp
        · simp [FieldSet.get_modify_of_ne _ same]
      rw [List.foldl_cons, List.foldl_cons, ih, ih (FieldSet.modify ∅ p), first, MaskedBits.overwrite_assoc]

theorem ext_get {s s' : FieldSet} (types : s.types = s'.types) (get : s.get = s'.get) : s = s' := by
  refine FieldSet.ext_entry types (funext fun t => ?_)
  have value := congrFun get t
  have mem := s.mem_types t
  have mem' := s'.mem_types t
  rw [types] at mem
  cases found : s.entry t <;> cases found' : s'.entry t <;> simp_all [FieldSet.get]

/-- Modifying again what was modified changes nothing. -/
theorem foldl_modify_again (ps : List Field) (s : FieldSet) :
    ps.foldl .modify (ps.foldl .modify s) = ps.foldl .modify s := by
  refine ext_get (types_foldl_modify fun p mem => mem_types_foldl_modify (.inr ⟨p, mem, rfl⟩)) ?_
  funext t
  rw [get_foldl_modify, get_foldl_modify ps t s, MaskedBits.overwrite_assoc, MaskedBits.overwrite_self]

/-- With all steps after some of them, the modifications are those of all. -/
theorem mods_again {made all : List Step} (earlier : made <+: all) :
    mods (mods ∅ made) all = mods ∅ all := by
  obtain ⟨rest, rfl⟩ := earlier
  simp only [mods, patches, List.filterMap_append, List.foldl_append, foldl_modify_again]

/-! ## The retry -/

/-- A second attempt that saw the packet as it arrived, and left what a first one with enough
priorities would have. -/
structure AsOnArrival (policy : Handler D) (x : Packet) (flow : FlowId) (made : List Step)
    (left : FieldSet) (second : Runtime D × Traced) : Prop where
  ends : second.2.thrown = none
  sees : made = steps policy x ∅
  trace : told made = (traceable policy x ∅).calls.map Prod.fst
  decision : second.1.flows flow = some (policy.run x).1
  mods : left = mods ∅ (steps policy x ∅)

/-- An augmentation that is not thrown makes all steps and decides. -/
theorem augment_ends {policy : Handler D} {x : Packet} {flow : FlowId} {r : Runtime D}
    (ends : (r.augment policy x flow).2.thrown = none) :
    r.made policy x = steps policy x ∅ ∧
      (r.augment policy x flow).1.flows flow = some (policy.run x).1 := by
  obtain ⟨decided, all⟩ := trace_ends flow _ _ r.cursor r.nextId r.root ends
  constructor
  · rw [Runtime.made, told_steps, all, ← List.length_map (f := Prod.fst), ← told_steps, stepsBefore_all]
  · have result : (traceable policy x ∅).result = (policy.run x).1 := by
      rw [← traceable_run policy (FieldSet.apply_empty x)]
    simp [Runtime.augment, decided, result]

theorem told_asked (policy : Handler D) (x : Packet) :
    (told (steps policy x ∅)).map TraceCall.asked = (unexplored policy ∅).asked (answers x) := by
  rw [← (traceable_unexplored policy (FieldSet.apply_empty x)).1, told_steps, List.map_map]
  rfl

theorem told_answered (policy : Handler D) (x : Packet) :
    ∀ call ∈ told (steps policy x ∅), call.AnsweredBy x := by
  intro call mem
  refine Prog.asked_answered (answers x) (p := unexplored policy ∅) _ ?_
  rw [← told_asked]
  exact List.mem_map_of_mem mem

/-- **The second attempt is as on arrival if and only if the modifications made before the exception
change no answer of the trace of the packet, and the updated tree has room for that trace.** -/
theorem retry_asOnArrival_iff [Inhabited D] (return_ : D → Bool) (pipeline : List (D → Handler D))
    (x : Packet) (flow : FlowId) (r : Runtime D) :
    let policy := process return_ pipeline default
    let first := r.augment policy x flow
    let retried := first.1.update
    let made := mods ∅ (r.made policy x)
    let again := retried.made policy first.2.packet
    first.2.thrown = some .priorityExceeded →
      first.2.packet = made.apply x ∧
        (AsOnArrival policy x flow again (mods made again)
            (retried.augment policy first.2.packet flow) ↔
          (∀ call ∈ (traceable policy x ∅).calls, call.1.AnsweredBy (made.apply x)) ∧
            room ((traceable policy x ∅).calls.map Prod.fst) retried.cursor retried.root = true) := by
  intro policy first retried made again exceeded
  have packet : first.2.packet = made.apply x := augment_packet policy x flow r
  have ends : (retried.augment policy first.2.packet flow).2.thrown = none ↔
      room (told (steps policy first.2.packet ∅)) retried.cursor retried.root = true := by
    rw [told_steps]
    exact trace_room flow _ _ retried.cursor retried.nextId retried.root
  have condition : (∀ call ∈ (traceable policy x ∅).calls, call.1.AnsweredBy (made.apply x)) ↔
      ∀ call ∈ told (steps policy x ∅), call.AnsweredBy first.2.packet := by
    rw [told_steps, List.forall_mem_map, packet]
  refine ⟨packet, ?_⟩
  rw [condition, ← told_steps]
  constructor
  · intro as
    -- the second attempt makes the steps of the first packet
    have same : steps policy first.2.packet ∅ = steps policy x ∅ :=
      (augment_ends as.ends).1.symm.trans as.sees
    refine ⟨fun call mem => ?_, ?_⟩
    · exact told_answered policy first.2.packet call (same ▸ mem)
    · rw [← same]
      exact ends.mp as.ends
  · rintro ⟨alike, fits⟩
    have same := steps_congr policy (FieldSet.apply_empty x) (FieldSet.apply_empty first.2.packet) alike
    have done := ends.mpr (by rw [same]; exact fits)
    obtain ⟨all, decision⟩ := augment_ends done
    have sees : again = steps policy x ∅ := all.trans same
    refine ⟨done, sees, ?_, ?_, ?_⟩
    · rw [sees, told_steps]
    · have answered : ∀ q ∈ (unexplored policy ∅).asked (answers x),
          q.AnsweredBy (answers first.2.packet) := by
        rw [← told_asked, List.forall_mem_map]
        exact alike
      rw [decision, ← unexplored_run, ← unexplored_run, (Prog.run_congr answered).1]
    · rw [sees]
      exact mods_again (stepsBefore_initial _ _)

end

/-! ## Fifteen tests -/

section

open scoped Drunos.Oxm.OpenflowBasic

/-- Fifteen TCP ports are tested, which takes the priorities from 1 to 65535. -/
def portsTested : Handler Nat :=
  [1, 2, 3, 4, 5, 6, 7, 8, 9, 10, 11, 12, 13, 14, 15].foldr
    (fun port next => .test (.exactly tcpDst port) fun b => if b then .ret port.toNat else next) (.ret 0)

/-- The VLAN is decided on, and the next one is put in. -/
def nextVlan : Handler Nat :=
  .load ⟨vlanVid, BitVec.allOnes _⟩ fun vid => .modify (.exactly vlanVid (vid + 1)) (.ret vid.toNat)

/-- A VLAN is put in whatever was there. -/
def setVlan : Handler Nat := .modify (.exactly vlanVid 6#12) (.ret 6)

def onVlan5 : Packet := OpenflowBasic.packet [.exactly tcpDst 80#16, .exactly vlanVid 5#12]

/-- The VLAN that is put in is never read: the second attempt is as on arrival. -/
theorem retry_asOnArrival_iff_setVlan :
    let policy := process (fun _ => false) [fun _ => portsTested, fun _ => setVlan] default
    let r := (Runtime.initial 1 65535).newFlow.1
    let first := r.augment policy onVlan5 0
    let again := first.1.update.made policy first.2.packet
    AsOnArrival policy onVlan5 0 again (mods (mods ∅ (r.made policy onVlan5)) again)
      (first.1.update.augment policy first.2.packet 0) :=
  (retry_asOnArrival_iff (fun _ => false) [fun _ => portsTested, fun _ => setVlan] onVlan5 0
    (Runtime.initial 1 65535).newFlow.1 (by decide +kernel)).2.mpr
      ⟨by decide +kernel, by decide +kernel⟩

/-- The second attempt reads the VLAN that the first one has put in. -/
theorem retry_readsOwnVlan :
    let policy := process (fun _ => false) [fun _ => portsTested, fun _ => nextVlan] default
    let r := (Runtime.initial 1 65535).newFlow.1
    let first := r.augment policy onVlan5 0
    let second := first.1.update.augment policy first.2.packet 0
    first.2.thrown = some .priorityExceeded ∧ second.2.thrown = none ∧
      second.1.flows 0 = some 6 ∧ (policy.run onVlan5).1 = 5 ∧
        ∀ again left, ¬ AsOnArrival policy onVlan5 0 again left second := by
  refine ⟨by decide +kernel, by decide +kernel, by decide +kernel, by decide +kernel, fun _ _ as => ?_⟩
  exact absurd as.decision (by decide +kernel)

end

end Drunos.Maple
