/-
# Drunos.Retic.Traced — what a trace says of a function

A traced run is a sequence of steps: what the function got for its loads and tests, what
was told to the tracer, and the modifications (`log`). `Tracer::trace` keeps of them the
calls, the result and the modifications (`runTraced_log`).

What the function gets is true of the packet at that moment (`Truthful`), and no load is
told twice (`Unrepeated`). The trace decides the run: a packet of which the recorded calls
hold has the same steps and the same result (`log_same`). A failed test teaches no bits,
so that a later load may ask for them.
-/
import Drunos.Retic.Merged

namespace Drunos.Retic

open Drunos.Oxm Drunos.Theory Drunos.Maple

set_option autoImplicit false

section

variable [OxmTypes] {R : Type}

inductive Step where
  /-- The function is given the bits of a load. -/
  | load (m : Mask) (value : BitVec (nbits m.type))
  | test (need : Field) (ret : Bool)
  | told (call : TraceCall)
  | modify (patch : Field)

/-- The steps of a run, and its result. -/
structure Log (R : Type) where
  steps : List Step
  result : R

def Log.after (steps : List Step) (log : Log R) : Log R := { log with steps := steps ++ log.steps }

/-- The program run on a `ModTrackingPacket` over a `TraceablePacketImpl`, step by step. -/
def log : Handler R → Packet → FieldSet → Log R
  | .ret r, _, _ => ⟨[], r⟩
  | .load m next, x, cache =>
      let read := MaskedBits.read (x m.type) m.bits
      let unexplored := read.without (cache.load m.type m.bits).mask
      if unexplored.wildcard then (log (next read.value) x cache).after [.load m read.value]
      else
        (log (next read.value) x (cache.modify ⟨m.type, unexplored⟩)).after
          [.told (.load ⟨m.type, unexplored⟩), .load m read.value]
  | .test need next, x, cache =>
      let read := MaskedBits.read (x need.type) need.bits.mask
      let explored := cache.load need.type need.bits.mask
      let unexplored := read.without explored.mask
      if explored.Compatible need.bits then
        if unexplored.wildcard then (log (next true) x cache).after [.test need true]
        else
          let ret := decide (unexplored.Compatible need.bits)
          let pred := need.bits.restrict unexplored.mask
          (log (next ret) x (if ret then cache.modify ⟨need.type, unexplored⟩ else cache)).after
            [.told (.test ⟨need.type, pred⟩ ret), .test need ret]
      else (log (next false) x cache).after [.test need false]
  | .modify patch next, x, cache =>
      (log next (x.modify patch) (cache.modify patch)).after [.modify patch]

/-- What the tracer was told. -/
def Log.calls (log : Log R) : List TraceCall :=
  log.steps.filterMap fun
    | .told call => some call
    | _ => none

/-- What `Tracer::trace` keeps. -/
def Log.traced (log : Log R) (mods : FieldSet) : TracedRun R where
  calls := log.calls
  result := log.result
  mods := log.steps.foldl
    (fun mods step => match step with
      | .modify patch => mods.modify patch
      | _ => mods) mods

/-- What the function gets is true of the packet, as the modifications have left it. -/
def Truthful : List Step → Packet → Prop
  | [], _ => True
  | .load m value :: rest, x => value = (x.load m).bits.value ∧ Truthful rest x
  | .test need ret :: rest, x => ret = x.test need ∧ Truthful rest x
  | .told _ :: rest, x => Truthful rest x
  | .modify patch :: rest, x => Truthful rest (x.modify patch)

/-- Not the same bits of the same type. -/
def Apart (f g : Field) : Prop :=
  f.type = g.type → ∀ i, f.bits.mask.getLsbD i = true → g.bits.mask.getLsbD i = false

/-- No load is told that asks for bits of an earlier step. -/
def Unrepeated (bits : Step → Option Field) (steps : List Step) : Prop :=
  steps.Pairwise fun earlier later =>
    ∀ f g, bits earlier = some f → later = .told (.load g) → Apart f g

/-- The bits that a load, a passed test or a modification tells. -/
def Step.learned : Step → Option Field
  | .told (.load f) => some f
  | .told (.test f true) => some f
  | .modify f => some f
  | _ => none

/-- The bits of all that is recorded or modified. -/
def Step.recorded : Step → Option Field
  | .told (.load f) => some f
  | .told (.test f _) => some f
  | .modify f => some f
  | _ => none

/-! ## A run in terms of the packet as it came in -/

theorem log_load {x₀ x : Packet} {cache : FieldSet} (applied : cache.apply x₀ = x) (m : Mask)
    (next : BitVec (nbits m.type) → Handler R) :
    let mask := (cache.get m.type).unknownOf m.bits
    let read : Field := ⟨m.type, .read (x₀ m.type) mask⟩
    let value := (cache.load m.type m.bits).value ||| read.bits.value
    log (.load m next) x cache =
      if mask = 0 then (log (next value) x cache).after [.load m value]
      else (log (next value) x (cache.modify read)).after [.told (.load read), .load m value] := by
  have value := MaskedBits.known_or_read (cache.get m.type) (x₀ m.type) m.bits
  have read := MaskedBits.read_without_known (cache.get m.type) (x₀ m.type) m.bits
  rw [← now_eq applied] at value read
  simp only [log, FieldSet.load, read, ← value, MaskedBits.read_wildcard]

theorem log_test {x₀ x : Packet} {cache : FieldSet} (applied : cache.apply x₀ = x)
    (need : Field) (next : Bool → Handler R) :
    let mask := (cache.get need.type).unknownOf need.bits.mask
    let pred : Field := ⟨need.type, need.bits.restrict mask⟩
    log (.test need next) x cache =
      if (cache.load need.type need.bits.mask).Compatible need.bits then
        if mask = 0 then (log (next true) x cache).after [.test need true]
        else
          (log (next (x₀.test pred)) x (if x₀.test pred then cache.modify pred else cache)).after
            [.told (.test pred (x₀.test pred)), .test need (x₀.test pred)]
      else (log (next false) x cache).after [.test need false] := by
  have read := MaskedBits.read_without_known (cache.get need.type) (x₀ need.type) need.bits.mask
  rw [← now_eq applied] at read
  have answer : ∀ bits : MaskedBits (nbits need.type),
      decide (bits.Matches (x₀ need.type)) = x₀.test ⟨need.type, bits⟩ := fun _ => rfl
  simp only [log, FieldSet.load, read, MaskedBits.read_compatible_iff,
    MaskedBits.read_wildcard, MaskedBits.read_mask, answer]
  split_ifs with compatible known has
  · rfl
  · -- the bits of a test that succeeded are those of the test
    rw [MaskedBits.restrict_eq_read (Packet.test_iff.mp has)]
  · rfl
  · rfl

theorem log_modify (patch : Field) (next : Handler R) (x : Packet) (cache : FieldSet) :
    log (.modify patch next) x cache =
      (log next (x.modify patch) (cache.modify patch)).after [.modify patch] := rfl

/-! ## What is kept, and what the function gets -/

theorem runTraced_log (h : Handler R) : ∀ (x : Packet) (cache mods : FieldSet),
    runTraced h x cache mods = some ((log h x cache).traced mods) := by
  induction h with
  | ret r => exact fun x cache mods => rfl
  | modify patch next ih => exact fun x cache mods => ih _ _ _
  | load m next ih =>
      intro x cache mods
      let read := MaskedBits.read (x m.type) m.bits
      let unexplored := read.without (cache.load m.type m.bits).mask
      show (if unexplored.wildcard then runTraced (next read.value) x cache mods
          else (runTraced (next read.value) x (cache.modify ⟨m.type, unexplored⟩) mods).bind
            fun rest => some (rest.told (.load ⟨m.type, unexplored⟩))) = _
      rw [log]
      by_cases known : unexplored.wildcard = true
      · rw [if_pos known, if_pos known]
        exact ih read.value x cache mods
      · rw [if_neg known, if_neg known, ih]
        rfl
  | test need next ih =>
      intro x cache mods
      let read := MaskedBits.read (x need.type) need.bits.mask
      let explored := cache.load need.type need.bits.mask
      let unexplored := read.without explored.mask
      let answer := decide (unexplored.Compatible need.bits)
      show (if explored.Compatible need.bits then
          if unexplored.wildcard then runTraced (next true) x cache mods
          else (runTraced (next answer) x
            (if answer then cache.modify ⟨need.type, unexplored⟩ else cache) mods).bind
              fun rest => some (rest.told (.test ⟨need.type, need.bits.restrict unexplored.mask⟩ answer))
        else runTraced (next false) x cache mods) = _
      rw [log]
      by_cases compatible : explored.Compatible need.bits
      · rw [if_pos compatible, if_pos compatible]
        by_cases known : unexplored.wildcard = true
        · rw [if_pos known, if_pos known]
          exact ih true x cache mods
        · rw [if_neg known, if_neg known, ih]
          rfl
      · rw [if_neg compatible, if_neg compatible]
        exact ih false x cache mods

/-- A traceable packet gives a function what the packet has. -/
theorem log_truthful (h : Handler R) : ∀ {x₀ x : Packet} {cache : FieldSet},
    cache.apply x₀ = x → Truthful (log h x cache).steps x := by
  induction h with
  | ret r => exact fun _ => trivial
  | modify patch next ih =>
      intro x₀ x cache applied
      exact ih (by rw [FieldSet.apply_modify, applied])
  | load m next ih =>
      intro x₀ x cache applied
      have value := MaskedBits.known_or_read (cache.get m.type) (x₀ m.type) m.bits
      rw [← now_eq applied] at value
      rw [log_load applied]
      split_ifs with known
      · exact ⟨value, ih _ applied⟩
      · exact ⟨value, ih _ (apply_modify_read applied m.type m.bits)⟩
  | test need next ih =>
      intro x₀ x cache applied
      have tested := MaskedBits.matches_write_iff (cache.get need.type) need.bits (x₀ need.type)
      rw [← now_eq applied] at tested
      rw [log_test applied]
      have cached := apply_modify_pred applied need
      by_cases compatible : (cache.load need.type need.bits.mask).Compatible need.bits
      · rw [if_pos compatible]
        by_cases known : (cache.get need.type).unknownOf need.bits.mask = 0
        · rw [if_pos known]
          refine ⟨?_, ih true applied⟩
          refine (Packet.test_iff.mpr (tested.mpr ⟨compatible, ?_⟩)).symm
          rw [known]
          simp [MaskedBits.Matches, MaskedBits.restrict]
        · rw [if_neg known]
          refine ⟨?_, ih _ cached⟩
          rw [Bool.eq_iff_iff, Packet.test_iff, Packet.test_iff, tested]
          exact (and_iff_right compatible).symm
      · rw [if_neg compatible]
        refine ⟨?_, ih false applied⟩
        refine (Bool.eq_false_iff.mpr fun has => ?_).symm
        exact compatible (tested.mp (Packet.test_iff.mp has)).1

/-- What is told is true of the packet as it came in. -/
theorem log_holds (h : Handler R) : ∀ {x₀ x : Packet} {cache : FieldSet},
    cache.apply x₀ = x → ∀ call ∈ (log h x cache).calls, Holds x₀ call := by
  induction h with
  | ret r => exact fun _ call mem => absurd mem List.not_mem_nil
  | modify patch next ih =>
      intro x₀ x cache applied
      have modified : (cache.modify patch).apply x₀ = x.modify patch := by
        rw [FieldSet.apply_modify, applied]
      exact ih modified
  | load m next ih =>
      intro x₀ x cache applied
      rw [log_load applied]
      split_ifs with known
      · exact ih _ applied
      · refine List.forall_mem_cons.mpr
          ⟨?_, ih _ (apply_modify_read applied m.type m.bits)⟩
        exact Packet.test_iff.mpr (MaskedBits.read_matches _ _)
  | test need next ih =>
      intro x₀ x cache applied
      rw [log_test applied]
      by_cases compatible : (cache.load need.type need.bits.mask).Compatible need.bits
      · rw [if_pos compatible]
        by_cases known : (cache.get need.type).unknownOf need.bits.mask = 0
        · rw [if_pos known]
          exact ih true applied
        · rw [if_neg known]
          exact List.forall_mem_cons.mpr ⟨rfl, ih _ (apply_modify_pred applied need)⟩
      · rw [if_neg compatible]
        exact ih false applied

/-! ## Loads ask for bits that are not known -/

/-- All bits of the field are in the cache. -/
def Covers (cache : FieldSet) (f : Field) : Prop :=
  ∀ i, f.bits.mask.getLsbD i = true → (cache.get f.type).mask.getLsbD i = true

/-- None of them is. -/
def Avoids (cache : FieldSet) (f : Field) : Prop :=
  ∀ i, (cache.get f.type).mask.getLsbD i = true → f.bits.mask.getLsbD i = false

theorem covers_modify (cache : FieldSet) (f : Field) : Covers (cache.modify f) f := by
  intro i bit
  rw [FieldSet.get_modify_self, MaskedBits.overwrite_mask, BitVec.getLsbD_or, bit, Bool.or_true]

theorem Avoids.of_modify {cache : FieldSet} {f g : Field} (avoids : Avoids (cache.modify f) g) :
    Avoids cache g := by
  intro i bit
  refine avoids i ?_
  by_cases same : g.type = f.type
  · rw [same] at bit ⊢
    rw [FieldSet.get_modify_self, MaskedBits.overwrite_mask, BitVec.getLsbD_or, bit, Bool.true_or]
  · rwa [FieldSet.get_modify_of_ne cache same]

theorem Avoids.apart {cache : FieldSet} {f g : Field} (covers : Covers cache f)
    (avoids : Avoids cache g) : Apart f g := by
  intro same i bit
  exact avoids i (same ▸ covers i bit)

theorem avoids_unknownOf (cache : FieldSet) (t : OxmType) (m v : BitVec (nbits t)) :
    Avoids cache ⟨t, .read v ((cache.get t).unknownOf m)⟩ := by
  intro i bit
  have bound : i < nbits t := BitVec.lt_of_getLsbD bit
  show ((cache.get t).unknownOf m).getLsbD i = false
  rw [MaskedBits.unknownOf_bit _ _ bound, bit, Bool.not_true, Bool.and_false]

/-- Steps whose loads ask for nothing that is in the cache, or that an earlier step has told. -/
structure Fresh (cache : FieldSet) (steps : List Step) : Prop where
  avoid : ∀ f, .told (.load f) ∈ steps → Avoids cache f
  unrepeated : Unrepeated Step.learned steps

theorem Fresh.silent {cache : FieldSet} {first : Step} {rest : List Step} (fresh : Fresh cache rest)
    (none : first.learned = none) : Fresh cache (first :: rest) where
  avoid f mem := by
    rcases List.mem_cons.mp mem with rfl | later
    · cases none
    · exact fresh.avoid f later
  unrepeated := by
    refine List.pairwise_cons.mpr ⟨fun later mem f g learned => ?_, fresh.unrepeated⟩
    rw [none] at learned
    cases learned

theorem Fresh.teaches {cache : FieldSet} {first : Step} {f : Field} {rest : List Step}
    (fresh : Fresh (cache.modify f) rest) (learned : first.learned = some f)
    (asks : ∀ g, first = .told (.load g) → Avoids cache g) : Fresh cache (first :: rest) where
  avoid g mem := by
    rcases List.mem_cons.mp mem with same | later
    · exact asks g same.symm
    · exact (fresh.avoid g later).of_modify
  unrepeated := by
    refine List.pairwise_cons.mpr ⟨fun later mem f' g here load => ?_, fresh.unrepeated⟩
    rw [learned] at here
    obtain rfl := Option.some.inj here
    exact Avoids.apart (covers_modify cache f) (fresh.avoid g (load ▸ mem))

theorem log_fresh (h : Handler R) : ∀ {x₀ x : Packet} {cache : FieldSet},
    cache.apply x₀ = x → Fresh cache (log h x cache).steps := by
  induction h with
  | ret r => exact fun _ => ⟨fun f mem => absurd mem List.not_mem_nil, .nil⟩
  | modify patch next ih =>
      intro x₀ x cache applied
      have modified : (cache.modify patch).apply x₀ = x.modify patch := by
        rw [FieldSet.apply_modify, applied]
      exact (ih modified).teaches rfl fun g same => by cases same
  | load m next ih =>
      intro x₀ x cache applied
      rw [log_load applied]
      split_ifs with known
      · exact (ih _ applied).silent rfl
      · have rest := ih ((cache.load m.type m.bits).value |||
          (MaskedBits.read (x₀ m.type) ((cache.get m.type).unknownOf m.bits)).value)
          (apply_modify_read applied m.type m.bits)
        refine Fresh.teaches (Fresh.silent rest rfl) rfl fun g same => ?_
        injection same with same
        injection same with same
        subst same
        exact avoids_unknownOf cache m.type m.bits _
  | test need next ih =>
      intro x₀ x cache applied
      rw [log_test applied]
      have cached := apply_modify_pred applied need
      have told {pred : Field} {b : Bool} {rest : List Step}
          (fresh : Fresh (if b then cache.modify pred else cache) rest) :
          Fresh cache (.told (.test pred b) :: .test need b :: rest) := by
        cases b with
        | true => exact (fresh.silent rfl).teaches rfl fun g same => by cases same
        | false => exact (fresh.silent rfl).silent rfl
      by_cases compatible : (cache.load need.type need.bits.mask).Compatible need.bits
      · rw [if_pos compatible]
        by_cases known : (cache.get need.type).unknownOf need.bits.mask = 0
        · rw [if_pos known]
          exact (ih true applied).silent rfl
        · rw [if_neg known]
          exact told (ih _ cached)
      · rw [if_neg compatible]
        exact (ih false applied).silent rfl

/-! ## The trace decides the run -/

theorem log_same (h : Handler R) : ∀ {x₀ x y₀ y : Packet} {cache : FieldSet},
    cache.apply x₀ = x → cache.apply y₀ = y → (∀ call ∈ (log h x cache).calls, Holds y₀ call) →
      log h y cache = log h x cache := by
  induction h with
  | ret r => exact fun _ _ _ => rfl
  | modify patch next ih =>
      intro x₀ x y₀ y cache applied applied' holds
      have modified : (cache.modify patch).apply x₀ = x.modify patch := by
        rw [FieldSet.apply_modify, applied]
      have modified' : (cache.modify patch).apply y₀ = y.modify patch := by
        rw [FieldSet.apply_modify, applied']
      rw [log_modify, log_modify, ih modified modified' holds]
  | load m next ih =>
      intro x₀ x y₀ y cache applied applied' holds
      rw [log_load applied] at holds ⊢
      rw [log_load applied']
      by_cases known : (cache.get m.type).unknownOf m.bits = 0
      · -- of neither packet anything is read
        have nothing : ∀ v, MaskedBits.read v ((cache.get m.type).unknownOf m.bits) = .read 0 0 := by
          intro v
          rw [known]
          exact MaskedBits.ext (by simp [MaskedBits.read]) rfl
        rw [if_pos known] at holds ⊢
        rw [if_pos known]
        simp only [nothing] at holds ⊢
        rw [ih _ applied applied' holds]
      · rw [if_neg known] at holds ⊢
        rw [if_neg known]
        obtain ⟨head, tail⟩ := List.forall_mem_cons.mp holds
        have read : MaskedBits.read (y₀ m.type) ((cache.get m.type).unknownOf m.bits) =
            .read (x₀ m.type) ((cache.get m.type).unknownOf m.bits) :=
          (MaskedBits.eq_read (Packet.test_iff.mp head)).symm
        have cached := apply_modify_read applied' m.type m.bits
        rw [read] at cached ⊢
        rw [ih _ (apply_modify_read applied m.type m.bits) cached tail]
  | test need next ih =>
      intro x₀ x y₀ y cache applied applied' holds
      rw [log_test applied] at holds ⊢
      rw [log_test applied']
      have cached := apply_modify_pred applied need
      have cached' := apply_modify_pred applied' need
      by_cases compatible : (cache.load need.type need.bits.mask).Compatible need.bits
      · rw [if_pos compatible] at holds ⊢
        rw [if_pos compatible]
        by_cases known : (cache.get need.type).unknownOf need.bits.mask = 0
        · rw [if_pos known] at holds ⊢
          rw [if_pos known, ih true applied applied' holds]
        · rw [if_neg known] at holds ⊢
          rw [if_neg known]
          obtain ⟨head, tail⟩ := List.forall_mem_cons.mp holds
          dsimp only at cached cached'
          generalize (⟨need.type, need.bits.restrict ((cache.get need.type).unknownOf need.bits.mask)⟩ :
            Field) = pred at *
          have same : y₀.test pred = x₀.test pred := head
          rw [same] at cached' ⊢
          rw [ih _ cached cached' tail]
      · rw [if_neg compatible] at holds ⊢
        rw [if_neg compatible, ih false applied applied' holds]

/-- **A function gets from a traceable packet what the packet has, no load repeats a bit that a
load or a passed test has recorded or that was modified, and another packet that satisfies the
trace has the same trace, modifications and result.** -/
theorem trace_decides (h : Handler R) (x : Packet) :
    runTraced h x ∅ ∅ = some ((log h x ∅).traced ∅) ∧ Truthful (log h x ∅).steps x ∧
      Unrepeated Step.learned (log h x ∅).steps ∧
      ∀ y : Packet, (∀ call ∈ (log h x ∅).calls, Holds y call) →
        log h y ∅ = log h x ∅ ∧ runTraced h y ∅ ∅ = runTraced h x ∅ ∅ := by
  have empty := FieldSet.apply_empty x
  refine ⟨runTraced_log h x ∅ ∅, log_truthful h empty, (log_fresh h empty).unrepeated, fun y holds => ?_⟩
  have same := log_same h empty (FieldSet.apply_empty y) holds
  refine ⟨same, ?_⟩
  rw [runTraced_log, runTraced_log, same]

end

section

open scoped Drunos.Oxm.OpenflowBasic

/-- A test for VLAN 1, and then the whole VLAN. -/
def testThenLoad : Handler Unit :=
  .test (.exactly vlanVid 1#12) fun _ => .load ⟨vlanVid, .allOnes 12⟩ fun _ => .ret ()

/-- A failed test records bits that the load after it records again. -/
theorem failedTest_repeats :
    ¬∀ (h : Handler Unit) (x : Packet), Unrepeated Step.recorded (log h x ∅).steps := by
  intro unrepeated
  have pairs := unrepeated testThenLoad (OpenflowBasic.packet [])
  have apart : Apart (.exactly vlanVid 1#12) ⟨vlanVid, .read 0#12 (.allOnes 12)⟩ :=
    (List.pairwise_cons.mp pairs).1 (.told (.load ⟨vlanVid, .read 0#12 (.allOnes 12)⟩))
      (.tail _ (.head _)) _ _ rfl rfl
  exact absurd (apart rfl 0 rfl) (by decide)

end

end Drunos.Retic
