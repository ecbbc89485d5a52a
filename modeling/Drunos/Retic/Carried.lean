/-
# Drunos.Retic.Carried — packets that lack fields

A packet of the network carries some fields and not others, and the interface throws an
`out_of_range` for the others. A switch does not: a rule that names a field which a
packet lacks does not match it (`AsSwitch`).

`Asks` says which fields are asked for on the way of a packet through a diagram: by the
tests of the diagram, by the trees on the way and by the functions that are run. The
lookup throws no `out_of_range` and goes where a switch goes exactly when the packet
carries all of them (`looksUp_iff`).
-/
import Drunos.Retic.Lookups

namespace Drunos.Retic

open Drunos.Oxm Drunos.Theory Drunos.Theory.Exploration Drunos.Maple

set_option autoImplicit false

variable [OxmTypes]

/-! ## What is carried, and what is asked for -/

/-- The types a packet carries: the interface throws for the others, and modifications leave the
packet with the same ones. -/
class Carrier (V : Type) [PacketView V] where
  Has : V → OxmType → Prop
  load_isSome : ∀ (x : V) (m : Mask), (PacketView.load x m).isSome ↔ Has x m.type
  test_isSome : ∀ (x : V) (f : Field), (PacketView.test x f).isSome ↔ Has x f.type
  modify_isSome : ∀ (x : V) (f : Field), (PacketView.modify x f).isSome ↔ Has x f.type
  modify_has : ∀ {x y : V} {f : Field}, PacketView.modify x f = some y →
    ∀ t, Has y t ↔ Has x t

/-- A packet as a switch matches it: a rule does not match that names a field which is not there. -/
structure AsSwitch (V : Type) where
  packet : V

section

variable {V : Type} [PacketView V]

instance : PacketView (AsSwitch V) where
  load x m := PacketView.load x.packet m
  test x need := some ((PacketView.test x.packet need).getD false)
  modify x patch := (PacketView.modify x.packet patch).map .mk

/-- The types a function asks for, run on a `TraceablePacketImpl`: a test there is a load. -/
def askedOf {R : Type} : Handler R → V → FieldSet → List OxmType
  | .ret _, _, _ => []
  | .load m next, x, cache =>
      m.type :: match PacketView.load x m with
        | none => []
        | some read =>
            let unexplored := read.without (cache.load m.type m.bits).mask
            askedOf (next read.value) x
              (if unexplored.wildcard then cache else cache.modify ⟨m.type, unexplored⟩)
  | .test need next, x, cache =>
      need.type :: match PacketView.load x need.mask with
        | none => []
        | some (read : MaskedBits (nbits need.type)) =>
            let explored := cache.load need.type need.bits.mask
            let unexplored := read.without explored.mask
            if explored.Compatible need.bits then
              if unexplored.wildcard then askedOf (next true) x cache
              else
                let ret := decide (unexplored.Compatible need.bits)
                askedOf (next ret) x
                  (if ret then cache.modify ⟨need.type, unexplored⟩ else cache)
            else askedOf (next false) x cache
  | .modify patch next, x, cache =>
      patch.type :: match PacketView.modify x patch with
        | none => []
        | some y => askedOf next y (cache.modify patch)

/-- The types a tree asks for. -/
def askedIn (x : V) : TraceNode → List OxmType
  | .unexplored => []
  | .leaf _ => []
  | .test need _ pos neg =>
      need.type :: match PacketView.test x need with
        | none => []
        | some true => askedIn x pos
        | some false => askedIn x neg
  | .load mask cases =>
      mask.type :: match PacketView.load x mask with
        | none => []
        | some read => askedCase read.value.toNat cases
where
  askedCase (bits : Nat) : List (Nat × TraceNode) → List OxmType
    | [] => []
    | (u, node) :: rest => if u = bits then askedIn x node else askedCase bits rest

/-- The types the tests of a diagram ask for, down to the leaf. -/
def askedBy (x : V) : Fdd → List OxmType
  | .leaf _ => []
  | .node field pos neg =>
      field.type :: match PacketView.test x field with
        | none => []
        | some true => askedBy x pos
        | some false => askedBy x neg

/-- The type is asked for on the way of the packet through the diagram. -/
inductive Asks (backend : Bool) (x : V) : Fdd → FieldSet → OxmType → Prop where
  | node (field : Field) (pos neg : Fdd) (match' : FieldSet) :
      Asks backend x (.node field pos neg) match' field.type
  | positive {field : Field} {pos neg : Fdd} {match' : FieldSet} {t : OxmType}
      (has : PacketView.test x field = some true)
      (below : Asks backend x pos (match'.modify field) t) :
      Asks backend x (.node field pos neg) match' t
  | negative {field : Field} {pos neg : Fdd} {match' : FieldSet} {t : OxmType}
      (lacks : PacketView.test x field = some false) (below : Asks backend x neg match' t) :
      Asks backend x (.node field pos neg) match' t
  /-- The tree of a leaf with functions. -/
  | tree {l : Leaf TraceTree} {match' : FieldSet} {t : OxmType} (body : l.hasBody = true)
      (mem : t ∈ askedIn x l.mapleTree.node) : Asks backend x (.leaf l) match' t
  /-- What is stored there, to see if it is temporary. -/
  | stored {l : Leaf TraceTree} {match' : FieldSet} {t : OxmType} {found : Found}
      {leaf : LeafNode Fdd} (body : l.hasBody = true)
      (find : findLeaf x l.mapleTree.node = pure found) (here : found.leaf = some leaf)
      (mem : t ∈ askedBy x leaf.katDiagram) : Asks backend x (.leaf l) match' t
  | hit {l : Leaf TraceTree} {match' : FieldSet} {t : OxmType} {found : Found}
      {leaf : LeafNode Fdd} (body : l.hasBody = true)
      (find : findLeaf x l.mapleTree.node = pure found)
      (use : usable x found.leaf = pure (some leaf))
      (below : Asks backend x leaf.katDiagram (fieldSetUnion match' found.match') t) :
      Asks backend x (.leaf l) match' t
  /-- The functions of the leaf, where its tree does not know the packet. -/
  | functions {l : Leaf TraceTree} {match' : FieldSet} {t : OxmType} {found : Found}
      {unit : ActionUnit} (body : l.hasBody = true)
      (find : findLeaf x l.mapleTree.node = pure found) (use : usable x found.leaf = pure none)
      (here : unit ∈ l.sets) (mem : t ∈ askedOf unit.handler x ∅) : Asks backend x (.leaf l) match' t
  | miss {l : Leaf TraceTree} {match' : FieldSet} {t : OxmType} {found : Found} {a : Augmented}
      (body : l.hasBody = true) (find : findLeaf x l.mapleTree.node = pure found)
      (use : usable x found.leaf = pure none) (explored : explore backend x l match' = pure a)
      (below : Asks backend x a.leaf.katDiagram (fieldSetUnion a.match' found.match') t) :
      Asks backend x (.leaf l) match' t

/-- The lookup throws no `out_of_range`, and it goes where it goes if the test of a field that is
not there counts as failed. -/
structure LooksUp (backend : Bool) (x : V) (d : Fdd) (match' : FieldSet) : Prop where
  returns : traverse backend x d match' ≠ throw .outOfRange
  switch : traverse backend x d match' = traverse backend (AsSwitch.mk x) d match'

/-! ## Each part of a lookup -/

variable {backend : Bool} {x : V}

theorem switch_test {f : Field} {b : Bool} (answer : PacketView.test x f = some b) :
    PacketView.test (AsSwitch.mk x) f = some b := by
  show some ((PacketView.test x f).getD false) = some b
  rw [answer]
  rfl

/-- A switch sees of a function what the function does: loads throw for both. -/
theorem runTraced_switch {R : Type} {h : Handler R} : ∀ {x : V} {cache mods : FieldSet},
    runTraced h (AsSwitch.mk x) cache mods = runTraced h x cache mods := by
  induction h with
  | ret r => exact rfl
  | load m next ih =>
      intro x cache mods
      rw [runTraced, runTraced]
      simp only [ih]
      rfl
  | test need next ih =>
      intro x cache mods
      rw [runTraced, runTraced]
      simp only [ih]
      rfl
  | modify patch next ih =>
      intro x cache mods
      rw [runTraced, runTraced]
      show ((PacketView.modify x patch).map AsSwitch.mk).bind _ = _
      cases PacketView.modify x patch with
      | none => rfl
      | some y => exact ih

theorem getTraces_switch (l : Leaf TraceTree) : getTraces (AsSwitch.mk x) l = getTraces x l := by
  unfold getTraces traceUnit
  simp only [runTraced_switch]

/-- The policies that the functions of a leaf return are nested less. -/
theorem getTraces_nests {l : Leaf TraceTree} {n : Nat} (nested : Bodies n l) {traces : List Trace}
    (traced : getTraces x l = some traces) : ∀ trace ∈ traces, trace.result.Nests (n - 1) := by
  unfold getTraces at traced
  unfold Bodies at nested
  generalize l.sets = units at nested traced
  induction units generalizing traces with
  | nil =>
      obtain rfl := Option.some.inj traced
      exact fun _ mem => absurd mem List.not_mem_nil
  | cons unit units ih =>
      obtain ⟨body, nested⟩ := List.forall_mem_cons.mp nested
      rw [List.mapM_cons] at traced
      obtain ⟨trace, first, traced⟩ := Option.bind_eq_some_iff.mp traced
      obtain ⟨rest, later, traced⟩ := Option.bind_eq_some_iff.mp traced
      obtain rfl := Option.some.inj traced
      obtain ⟨r, ran, first⟩ := Option.bind_eq_some_iff.mp first
      obtain rfl := Option.some.inj first
      refine List.forall_mem_cons.mpr ⟨?_, ih nested later⟩
      exact withMods_nests r.mods (runTraced_nests (ActionUnit.nestsHandler body) ran)

/-- The packet and the switch end the same way. -/
theorem LooksUp.of_eq {d : Fdd} {match' : FieldSet} {t : Traversal Traversed}
    (safe : t ≠ throw .outOfRange) (here : traverse backend x d match' = t)
    (there : traverse backend (AsSwitch.mk x) d match' = t) : LooksUp backend x d match' where
  returns := by rwa [here]
  switch := by rw [here, there]

theorem LooksUp.map {d d' : Fdd} {match' match'' : FieldSet} {f : Traversed → Traversed}
    (looksUp : LooksUp backend x d match')
    (here : traverse backend x d' match'' = (do let r ← traverse backend x d match'; pure (f r)))
    (there : traverse backend (AsSwitch.mk x) d' match'' =
      (do let r ← traverse backend (AsSwitch.mk x) d match'; pure (f r))) :
    LooksUp backend x d' match'' := by
  obtain ⟨returns, switch⟩ := looksUp
  refine ⟨fun thrown => ?_, by rw [here, there, switch]⟩
  rw [here] at thrown
  match traverse backend x d match', returns, thrown with
  | none, _, thrown => cases thrown
  | some (.ok r), _, thrown => cases thrown
  | some (.error e), returns, thrown =>
      injection thrown with thrown
      injection thrown with thrown
      exact returns (thrown ▸ rfl)

variable [Carrier V]

/-- A function ends if everything it asks for is carried. -/
theorem runTraced_isSome {R : Type} (h : Handler R) : ∀ (x : V) (cache mods : FieldSet),
    (runTraced h x cache mods).isSome ↔ ∀ t ∈ askedOf h x cache, Carrier.Has x t := by
  induction h with
  | ret r => simp [runTraced, askedOf]
  | modify patch next ih =>
      intro x cache mods
      rw [runTraced, askedOf, List.forall_mem_cons, ← Carrier.modify_isSome]
      cases found : PacketView.modify x patch with
      | none => simp
      | some y => simp [ih, Carrier.modify_has found]
  | load m next ih =>
      intro x cache mods
      rw [runTraced, askedOf, List.forall_mem_cons, ← Carrier.load_isSome]
      cases PacketView.load x m with
      | none => simp
      | some read =>
          simp only [Option.bind_eq_bind, Option.bind_some, Option.isSome_some, true_and]
          split_ifs
          · exact ih _ x _ mods
          · rw [← ih read.value x _ mods]
            cases runTraced (next read.value) x _ mods <;> rfl
  | test need next ih =>
      intro x cache mods
      rw [runTraced, askedOf, List.forall_mem_cons]
      have here : Carrier.Has x need.type ↔ (PacketView.load x need.mask).isSome :=
        (Carrier.load_isSome x need.mask).symm
      rw [here]
      cases PacketView.load x need.mask with
      | none => exact iff_of_false Bool.false_ne_true fun both => Bool.false_ne_true both.1
      | some read =>
          refine Iff.trans ?_ (and_iff_right rfl).symm
          dsimp only [Option.bind_eq_bind, Option.bind]
          split
          · split
            · exact ih _ x _ mods
            · rw [← ih _ x _ mods]
              cases runTraced (next _) x _ mods <;> rfl
          · exact ih _ x _ mods

theorem getTraces_isSome {l : Leaf TraceTree} : (getTraces x l).isSome ↔
    ∀ unit ∈ l.sets, ∀ t ∈ askedOf unit.handler x ∅, Carrier.Has x t := by
  unfold getTraces
  induction l.sets with
  | nil => simp
  | cons unit units ih =>
      rw [List.forall_mem_cons, ← ih, ← runTraced_isSome unit.handler x ∅ ∅, List.mapM_cons, traceUnit]
      cases runTraced unit.handler x ∅ ∅ with
      | none => simp
      | some r => cases units.mapM (traceUnit x) <;> simp

theorem test_answer {f : Field} (carried : Carrier.Has x f.type) :
    ∃ b, PacketView.test x f = some b ∧ PacketView.test (AsSwitch.mk x) f = some b := by
  obtain ⟨b, answer⟩ := Option.isSome_iff_exists.mp ((Carrier.test_isSome x f).mpr carried)
  exact ⟨b, answer, switch_test answer⟩

theorem test_throws {f : Field} (lacks : ¬Carrier.Has x f.type) :
    ofPacket (PacketView.test x f) = throw .outOfRange :=
  ofPacket_none (mt (Carrier.test_isSome x f).mp lacks)

theorem findLeaf_carried {node : TraceNode} : (∀ t ∈ askedIn x node, Carrier.Has x t) →
    ∃ found, findLeaf x node = pure found ∧ findLeaf (AsSwitch.mk x) node = pure found ∧
      ∀ leaf, found.leaf = some leaf → Tree.Has leaf node := by
  induction node using Tree.induct with
  | unexplored => exact fun _ => ⟨_, rfl, rfl, fun _ none => by cases none⟩
  | leaf l => exact fun _ => ⟨_, rfl, rfl, fun _ here => Option.some.inj here ▸ .leaf⟩
  | test f note pos neg ihPos ihNeg =>
      intro carried
      rw [askedIn, List.forall_mem_cons] at carried
      obtain ⟨b, answer, switch⟩ := test_answer carried.1
      rw [findLeaf, findLeaf, ofPacket_some answer, ofPacket_some switch]
      simp only [answer] at carried
      cases b with
      | true =>
          obtain ⟨found, here, there, has⟩ := ihPos carried.2
          simp only [pure_bind, if_pos, here, there]
          exact ⟨_, rfl, rfl, fun leaf same => .positive (has leaf same)⟩
      | false =>
          obtain ⟨found, here, there, has⟩ := ihNeg carried.2
          simp only [pure_bind, Bool.false_eq_true, if_false, here, there]
          exact ⟨_, rfl, rfl, fun leaf same => .negative (has leaf same)⟩
  | load m cases ih =>
      intro carried
      rw [askedIn, List.forall_mem_cons] at carried
      obtain ⟨read, answer⟩ := Option.isSome_iff_exists.mp ((Carrier.load_isSome x m).mpr carried.1)
      have switch : PacketView.load (AsSwitch.mk x) m = some read := answer
      rw [findLeaf, findLeaf, ofPacket_some answer, ofPacket_some switch, pure_bind, pure_bind]
      simp only [answer] at carried
      have inCases : ∀ {rest : List (Nat × TraceNode)}, rest ⊆ cases →
          (∀ t ∈ askedIn.askedCase x read.value.toNat rest, Carrier.Has x t) →
          ∃ found, findLeaf.findCase x m read.value.toNat rest = pure found ∧
            findLeaf.findCase (AsSwitch.mk x) m read.value.toNat rest = pure found ∧
            ∀ leaf, found.leaf = some leaf → Tree.Has leaf (.load m cases) := by
        intro rest
        induction rest with
        | nil => exact fun _ _ => ⟨_, rfl, rfl, fun _ none => by cases none⟩
        | cons c rest ihRest =>
            obtain ⟨u, node⟩ := c
            intro within carried
            obtain ⟨mem, within⟩ := List.cons_subset.mp within
            rw [askedIn.askedCase] at carried
            rw [findLeaf.findCase, findLeaf.findCase]
            split_ifs at carried ⊢
            · obtain ⟨found, here, there, has⟩ := ih (u, node) mem carried
              rw [here, there]
              exact ⟨_, rfl, rfl, fun leaf same => .case mem (has leaf same)⟩
            · exact ihRest within carried
      exact inCases (List.Subset.refl cases) carried.2

theorem findLeaf_throws {t : OxmType} (lacks : ¬Carrier.Has x t) {node : TraceNode} :
    t ∈ askedIn x node → findLeaf x node = throw .outOfRange := by
  induction node using Tree.induct with
  | unexplored => exact fun mem => absurd mem List.not_mem_nil
  | leaf l => exact fun mem => absurd mem List.not_mem_nil
  | test f note pos neg ihPos ihNeg =>
      intro mem
      rw [findLeaf]
      by_cases carried : Carrier.Has x f.type
      · obtain ⟨b, answer, -⟩ := test_answer carried
        have below := (List.mem_cons.mp mem).resolve_left fun same => lacks (same ▸ carried)
        simp only [answer] at below
        rw [ofPacket_some answer]
        cases b with
        | true =>
            simp only [pure_bind, if_pos, ihPos below]
            rfl
        | false =>
            simp only [pure_bind, Bool.false_eq_true, if_false, ihNeg below]
            rfl
      · rw [test_throws carried]
        rfl
  | load m cases ih =>
      intro mem
      rw [findLeaf]
      by_cases carried : Carrier.Has x m.type
      · obtain ⟨read, answer⟩ := Option.isSome_iff_exists.mp ((Carrier.load_isSome x m).mpr carried)
        have below := (List.mem_cons.mp mem).resolve_left fun same => lacks (same ▸ carried)
        simp only [answer] at below
        rw [ofPacket_some answer, pure_bind]
        have inCases : ∀ {rest : List (Nat × TraceNode)}, rest ⊆ cases →
            t ∈ askedIn.askedCase x read.value.toNat rest →
            findLeaf.findCase x m read.value.toNat rest = throw .outOfRange := by
          intro rest
          induction rest with
          | nil => exact fun _ mem => absurd mem List.not_mem_nil
          | cons c rest ihRest =>
              obtain ⟨u, node⟩ := c
              intro within mem
              obtain ⟨here, within⟩ := List.cons_subset.mp within
              rw [askedIn.askedCase] at mem
              rw [findLeaf.findCase]
              split_ifs at mem ⊢
              · rw [ih (u, node) here mem]
                rfl
              · exact ihRest within mem
        exact inCases (List.Subset.refl cases) below
      · rw [ofPacket_none (mt (Carrier.load_isSome x m).mp carried)]
        rfl

theorem plainLeaf_carried {d : Fdd} : (∀ t ∈ askedBy x d, Carrier.Has x t) →
    ∃ l, plainLeaf x d = pure l ∧ plainLeaf (AsSwitch.mk x) d = pure l := by
  induction d with
  | leaf l => exact fun _ => ⟨l, rfl, rfl⟩
  | node f pos neg ihPos ihNeg =>
      intro carried
      rw [askedBy, List.forall_mem_cons] at carried
      obtain ⟨b, answer, switch⟩ := test_answer carried.1
      rw [plainLeaf, plainLeaf, ofPacket_some answer, ofPacket_some switch]
      simp only [answer] at carried
      cases b with
      | true => simpa using ihPos carried.2
      | false => simpa using ihNeg carried.2

theorem plainLeaf_throws {t : OxmType} (lacks : ¬Carrier.Has x t) {d : Fdd} :
    t ∈ askedBy x d → plainLeaf x d = throw .outOfRange := by
  induction d with
  | leaf l => exact fun mem => absurd mem List.not_mem_nil
  | node f pos neg ihPos ihNeg =>
      intro mem
      rw [plainLeaf]
      by_cases carried : Carrier.Has x f.type
      · obtain ⟨b, answer, -⟩ := test_answer carried
        have below := (List.mem_cons.mp mem).resolve_left fun same => lacks (same ▸ carried)
        simp only [answer] at below
        rw [ofPacket_some answer]
        cases b with
        | true => simpa using ihPos below
        | false => simpa using ihNeg below
      · rw [test_throws carried]
        rfl

/-- Whether what is stored is used again. -/
theorem usable_carried {leaf : Option (LeafNode Fdd)}
    (carried : ∀ l, leaf = some l → ∀ t ∈ askedBy x l.katDiagram, Carrier.Has x t) :
    ∃ use, usable x leaf = pure use ∧ usable (AsSwitch.mk x) leaf = pure use ∧
      (use = none ∨ use = leaf) := by
  cases leaf with
  | none => exact ⟨none, rfl, rfl, .inl rfl⟩
  | some l =>
      obtain ⟨final, here, there⟩ := plainLeaf_carried (carried l rfl)
      simp only [usable, leafIsTemporary, here, there, pure_bind]
      split_ifs
      · exact ⟨none, rfl, rfl, .inl rfl⟩
      · exact ⟨some l, rfl, rfl, .inr rfl⟩

/-! ## Lookups -/

/-- A lookup that asks for a field which is not there throws. -/
theorem traverse_throws {d : Fdd} {match' : FieldSet} {t : OxmType}
    (asks : Asks backend x d match' t) :
    ¬Carrier.Has x t → traverse backend x d match' = throw .outOfRange := by
  induction asks with
  | node f pos neg match' =>
      intro lacks
      rw [traverse, test_throws lacks]
      rfl
  | positive has _ ih =>
      intro lacks
      rw [traverse, ofPacket_some has]
      simp only [pure_bind, if_pos, ih lacks]
      rfl
  | negative fails _ ih =>
      intro lacks
      rw [traverse, ofPacket_some fails]
      simp only [pure_bind, Bool.false_eq_true, if_false, ih lacks]
      rfl
  | tree body mem =>
      intro lacks
      rw [traverse, if_pos body, findLeaf_throws lacks mem]
      rfl
  | stored body find here mem =>
      intro lacks
      rw [traverse, if_pos body, find, pure_bind, here]
      simp only [usable, leafIsTemporary, plainLeaf_throws lacks mem]
      rfl
  | hit body find use _ ih =>
      intro lacks
      rw [traverse, if_pos body, find, pure_bind, use, pure_bind]
      simp only [ih lacks]
      rfl
  | @functions l match' t found unit body find use here mem =>
      intro lacks
      have missing : ¬(getTraces x l).isSome :=
        fun traced => lacks (getTraces_isSome.mp traced unit here t mem)
      rw [traverse, if_pos body, find, pure_bind, use, pure_bind]
      simp only [explore, ofPacket_none missing]
      rfl
  | miss body find use explored _ ih =>
      intro lacks
      rw [traverse, if_pos body, find, pure_bind, use, pure_bind]
      simp only [explored, pure_bind, ih lacks]
      rfl

/-- The functions of a leaf are run and the diagram of what they return is added. -/
theorem explore_carried {l : Leaf TraceTree} {match' : FieldSet}
    (carried : ∀ unit ∈ l.sets, ∀ t ∈ askedOf unit.handler x ∅, Carrier.Has x t) :
    explore backend (AsSwitch.mk x) l match' = explore backend x l match' ∧
      InRange (fun a => l.Returns a.leaf.katDiagram) (explore backend x l match') := by
  constructor
  · unfold explore
    rw [getTraces_switch]
  · obtain ⟨traces, traced⟩ := Option.isSome_iff_exists.mp (getTraces_isSome.mpr carried)
    rw [explore, ofPacket_some traced, pure_bind]
    cases traces with
    | nil => exact .throw (by simp)
    | cons first rest =>
        refine (augment_inRange backend _ _ _ _).mono fun a isDiagram n nested => ⟨_, ?_, isDiagram⟩
        have sum : rest.foldl (fun sum trace => sum.add trace.result) first.result =
            .sum ((first :: rest).map (·.result)) := List.foldl_map.symm
        show (rest.foldl (fun sum trace => sum.add trace.result) first.result).Nests (n - 1)
        rw [sum]
        refine Policy.sum_induction (P := (·.Nests (n - 1))) trivial (fun _ _ => .add) fun p mem => ?_
        obtain ⟨trace, here, rfl⟩ := List.mem_map.mp mem
        exact getTraces_nests nested traced trace here

/-- A packet that carries all fields it is asked for is looked up as a switch does it. -/
theorem looksUp_carried (d : Fdd) : ∀ match' : FieldSet,
    (∀ t, Asks backend x d match' t → Carrier.Has x t) → LooksUp backend x d match' := by
  induction d using lookup_induct with
  | plain l plain =>
      intro match' _
      have here : ∀ {V : Type} [PacketView V] (y : V), traverse backend y (.leaf l) match' =
          pure ⟨.leaf l, l, []⟩ := fun y => traverse_plain plain
      refine ⟨fun thrown => ?_, (here x).trans (here _).symm⟩
      rw [here] at thrown
      injection thrown with thrown
      cases thrown
  | node f pos neg ihPos ihNeg =>
      intro match' carried
      obtain ⟨b, answer, switch⟩ := test_answer (carried _ (.node f pos neg match'))
      cases b with
      | true =>
          have below := ihPos (match'.modify f) fun t asks => carried t (.positive answer asks)
          refine below.map (f := fun r => { r with diagram := .node f r.diagram neg }) ?_ ?_
          · rw [traverse, ofPacket_some answer, pure_bind, if_pos rfl]
          · rw [traverse, ofPacket_some switch, pure_bind, if_pos rfl]
      | false =>
          have below := ihNeg match' fun t asks => carried t (.negative answer asks)
          refine below.map (f := fun r => { r with diagram := .node f pos r.diagram }) ?_ ?_
          · rw [traverse, ofPacket_some answer, pure_bind, if_neg Bool.false_ne_true]
          · rw [traverse, ofPacket_some switch, pure_bind, if_neg Bool.false_ne_true]
  | leaf l body ihTree ihReturns =>
      intro match' carried
      obtain ⟨found, find, findS, has⟩ := findLeaf_carried fun t mem => carried t (.tree body mem)
      obtain ⟨use, use', useS, which⟩ := usable_carried fun s here t mem =>
        carried t (.stored body find here mem)
      cases use with
      | some s =>
          have here : found.leaf = some s := (which.resolve_left (by simp)).symm
          have below := ihTree s (has s here) (fieldSetUnion match' found.match') fun t asks =>
            carried t (.hit body find use' asks)
          refine below.map (f := fun r => { r with
            diagram := .leaf (l.setNode
              (Tree.put { s with katDiagram := r.diagram } found.path l.mapleTree.node)) }) ?_ ?_
          · rw [traverse, if_pos body, find, pure_bind, use', pure_bind]
          · rw [traverse, if_pos body, findS, pure_bind, useS, pure_bind]
      | none =>
          obtain ⟨same, inRange⟩ := explore_carried
            fun unit here t mem => carried t (.functions body find use' here mem)
          have step : ∀ {W : Type} [PacketView W] (y : W), findLeaf y l.mapleTree.node = pure found →
              usable y found.leaf = pure none → traverse backend y (.leaf l) match' = (do
                let a ← explore backend y l match'
                let r ← traverse backend y a.leaf.katDiagram (fieldSetUnion a.match' found.match')
                pure (⟨.leaf (l.setNode (Tree.put { a.leaf with katDiagram := r.diagram } a.path a.node)),
                  r.leaf, a.calls ++ r.calls⟩ : Traversed)) := by
            intro W _ y find use
            rw [traverse, if_pos body, find, pure_bind, use, pure_bind]
          have stepX := step x find use'
          have stepS := step (AsSwitch.mk x) findS useS
          rw [same] at stepS
          rcases explored : explore backend x l match' with _ | e | a
          · rw [explored] at stepX stepS
            exact .of_eq (t := none) (fun thrown => by cases thrown) stepX stepS
          · rw [explored] at stepX stepS inRange
            exact .of_eq (t := throw e) (fun thrown => inRange.2 (by cases thrown; rfl)) stepX stepS
          · have explored : explore backend x l match' = pure a := explored
            rw [explored, pure_bind] at stepX stepS
            have below := ihReturns a.leaf.katDiagram (inRange.1 a explored)
              (fieldSetUnion a.match' found.match') fun t asks =>
                carried t (.miss body find use' explored asks)
            exact below.map (f := fun r => ⟨.leaf (l.setNode
              (Tree.put { a.leaf with katDiagram := r.diagram } a.path a.node)), r.leaf,
              a.calls ++ r.calls⟩) stepX stepS

/-- **A lookup throws no `out_of_range`, and it goes where a switch goes, exactly when the packet
carries every field that is asked for on its way.** -/
theorem looksUp_iff (d : Fdd) (match' : FieldSet) : LooksUp backend x d match' ↔
    ∀ t, Asks backend x d match' t → Carrier.Has x t := by
  constructor
  · intro looksUp t asks
    by_contra lacks
    exact looksUp.returns (traverse_throws asks lacks)
  · exact looksUp_carried d match'

end

end Drunos.Retic
