/-
# Drunos.Retic.Sound — diagrams whose trees agree with the functions

Every leaf with functions keeps a tree, and every leaf of such a tree a diagram with
trees of its own. A diagram is sound (`Sound`) if every tree in it agrees with the
program its functions are, asked for what is not known where the leaf stands, to any
depth of diagrams in trees.

What a packet finds in a tree is its way and what is stored there (`findLeaf_packet`).
A trace that follows the program of a tree augments it (`augment_path`). What is done at
the leaf of a packet is done in the whole diagram (`traverse_lift`).
-/
import Drunos.Retic.Merged

namespace Drunos.Retic

open Drunos.Oxm Drunos.Theory Drunos.Theory.Exploration Drunos.Maple

set_option autoImplicit false

variable [OxmTypes]

/-! ## What is known along a path -/

namespace Knowledge

def call (κ : Knowledge) : TraceCall → Knowledge
  | .load f => κ.note f
  | .test f true => κ.note f
  | .test _ false => κ

theorem get_noteCall (s : FieldSet) (c : TraceCall) : (noteCall s c).get = call s.get c := by
  cases c with
  | load f => exact get_modify s f
  | test f b =>
      cases b
      · rfl
      · exact get_modify s f

theorem get_foldl (calls : List TraceCall) (s : FieldSet) :
    (calls.foldl noteCall s).get = calls.foldl call s.get := by
  induction calls generalizing s with
  | nil => rfl
  | cons c calls ih => rw [List.foldl_cons, ih, get_noteCall, List.foldl_cons]

/-- First the one, then the other. -/
def seq (κ κ' : Knowledge) : Knowledge := fun t => (κ t).overwrite (κ' t)

theorem note_seq (κ κ' : Knowledge) (f : Field) : (κ.seq κ').note f = κ.seq (κ'.note f) := by
  funext t
  by_cases same : t = f.type
  · subst same
    simp only [note, seq, Function.update_self, MaskedBits.overwrite_assoc]
  · simp only [note, seq, Function.update_of_ne same]

theorem foldl_seq (calls : List TraceCall) (κ κ' : Knowledge) :
    calls.foldl call (κ.seq κ') = κ.seq (calls.foldl call κ') := by
  induction calls generalizing κ' with
  | nil => rfl
  | cons c calls ih =>
      have step : call (κ.seq κ') c = κ.seq (call κ' c) := by
        cases c with
        | load f => exact note_seq κ κ' f
        | test f b =>
            cases b
            · rfl
            · exact note_seq κ κ' f
      rw [List.foldl_cons, step, ih, List.foldl_cons]

theorem seq_empty (κ : Knowledge) : κ.seq (∅ : FieldSet).get = κ :=
  funext fun _ => MaskedBits.overwrite_unknown _

theorem get_union (s s' : FieldSet) : (fieldSetUnion s s').get = seq s.get s'.get := by
  funext t
  rw [fieldSetUnion, FieldSet.fields, FieldSet.get_foldl_modify s' t s s'.nodup, seq]
  split_ifs with mem
  · rfl
  · have absent : s'.entry t = none := by simpa [s'.mem_types] using mem
    simp [FieldSet.get, absent]

theorem Of.seq {κ κ' : Knowledge} {x : Packet} (of : κ.Of x) (of' : κ'.Of x) : (κ.seq κ').Of x :=
  fun t => MaskedBits.overwrite_matches (of t) (of' t)

theorem Of.empty (x : Packet) : Of (∅ : FieldSet).get x := fun t => MaskedBits.unknown_matches (x t)

/-- No more is known. -/
def Within (κ κ' : Knowledge) : Prop := ∀ t, (κ' t).mask ||| (κ t).mask = (κ' t).mask

theorem over_known {κ κ' : Knowledge} {x : Packet} (of : κ.Of x) (of' : κ'.Of x)
    (within : κ'.Within κ) : κ.seq κ' = κ :=
  funext fun t => MaskedBits.overwrite_known (of t) (of' t) (within t)

theorem Within.empty (κ : Knowledge) : Within (∅ : FieldSet).get κ := fun _ => BitVec.or_zero

theorem Within.note {κ κ' : Knowledge} (within : κ.Within κ') (f : Field) :
    (κ.note f).Within (κ'.note f) := by
  intro t
  by_cases same : t = f.type
  · subst same
    have bits := within f.type
    simp only [Knowledge.note, Function.update_self, MaskedBits.overwrite_mask]
    rw [BitVec.or_assoc, BitVec.or_comm f.bits.mask, BitVec.or_assoc, BitVec.or_self,
      ← BitVec.or_assoc, bits]
  · simp only [Knowledge.note, Function.update_of_ne same]
    exact within t

theorem Within.noted {κ κ' : Knowledge} (within : κ.Within κ') (f : Field) :
    κ.Within (κ'.note f) := by
  intro t
  by_cases same : t = f.type
  · subst same
    have bits := within f.type
    simp only [Knowledge.note, Function.update_self, MaskedBits.overwrite_mask]
    rw [BitVec.or_assoc, BitVec.or_comm f.bits.mask, ← BitVec.or_assoc, bits]
  · simp only [Knowledge.note, Function.update_of_ne same]
    exact within t

/-- What the first calls say is within what all say. -/
theorem within_foldl (pre rest : List TraceCall) {κ κ' : Knowledge} (within : κ.Within κ') :
    (pre.foldl call κ).Within ((pre ++ rest).foldl call κ') := by
  rw [List.foldl_append]
  have first : (pre.foldl call κ).Within (pre.foldl call κ') := by
    induction pre generalizing κ κ' with
    | nil => exact within
    | cons c pre ih =>
        refine ih ?_
        cases c with
        | load f => exact within.note f
        | test f b => cases b <;> first | exact within | exact within.note f
  generalize pre.foldl call κ' = κ₁ at first
  induction rest generalizing κ₁ with
  | nil => exact first
  | cons c rest ih =>
      refine ih (call κ₁ c) ?_
      cases c with
      | load f => exact first.noted f
      | test f b => cases b <;> first | exact first | exact first.noted f

end Knowledge

/-! ## Looking up -/

/-- What a packet's way in a tree says, and what it finds. -/
theorem findLeaf_packet (x : Packet) (t : TraceNode) :
    findLeaf x t = pure ⟨t.way (answers x), t.lookup (answers x)⟩ := by
  induction t using Tree.induct with
  | unexplored => rfl
  | leaf l => rfl
  | test f note pos neg ihPos ihNeg =>
      rw [findLeaf, Tree.way, Tree.lookup]
      have answer : (answers x).test f = x.test f := rfl
      rw [answer, ihPos, ihNeg]
      show (if x.test f = true then _ else _) = _
      cases x.test f <;> rfl
  | load m cases ih =>
      rw [findLeaf]
      show findLeaf.findCase x m ((answers x).load m) cases =
        pure ⟨Tree.way.wayCase (answers x) m ((answers x).load m) cases,
          Tree.lookup.find (answers x) ((answers x).load m) cases⟩
      induction cases with
      | nil => rfl
      | cons c rest ihRest =>
          obtain ⟨u, t⟩ := c
          obtain ⟨head, tail⟩ := List.forall_mem_cons.mp ih
          rw [findLeaf.findCase, Tree.way.wayCase, Tree.lookup.find]
          split_ifs with here
          · subst here
            rw [head]
            rfl
          · exact ihRest tail

/-- A call of a path in a tree says what the call says. -/
theorem noteAnswer_asked (s : FieldSet) (call : TraceCall) :
    noteAnswer s call.asked = noteCall s call := by
  cases call with
  | load f =>
      obtain ⟨t, b⟩ := f
      exact congrArg s.modify (congrArg (Oxm.Field.mk t) (MaskedBits.read_value b))
  | test f b => cases b <;> rfl

theorem foldl_noteAnswer (calls : List TraceCall) (s : FieldSet) :
    (calls.map TraceCall.asked).foldl noteAnswer s = calls.foldl noteCall s := by
  induction calls generalizing s with
  | nil => rfl
  | cons c calls ih => rw [List.map_cons, List.foldl_cons, noteAnswer_asked, ih, List.foldl_cons]

/-- What a packet answers is true of it. -/
theorem noteAnswer_of {x : Packet} {path : List (Asked Mask Nat Field)} :
    ∀ {s : FieldSet}, (∀ asked ∈ path, asked.AnsweredBy (answers x)) → Knowledge.Of s.get x →
      Knowledge.Of (path.foldl noteAnswer s).get x := by
  induction path with
  | nil => exact fun _ of => of
  | cons asked path ih =>
      intro s answered of
      obtain ⟨head, tail⟩ := List.forall_mem_cons.mp answered
      refine ih tail ?_
      cases asked with
      | load m bits =>
          obtain rfl : bits = (answers x).load m := head
          have read : (Field.ofMask m (BitVec.ofNat _ ((answers x).load m))) = x.load m :=
            congrArg (Oxm.Field.mk m.type) (MaskedBits.read_ofNat (x m.type) m.bits)
          rw [noteAnswer, read, Knowledge.get_modify]
          exact of.note (Packet.test_iff.mpr (MaskedBits.read_matches _ _))
      | test need b =>
          cases b with
          | false => exact of
          | true =>
              have has : true = x.test need := head
              rw [noteAnswer, Knowledge.get_modify]
              exact of.note has.symm

/-! ## Augmenting -/

/-- What an augmention comes to: the path of the trace, with the new diagram at its end. -/
structure Augments {R : Type} (p : Prog Mask Nat Field R) (path : List (Asked Mask Nat Field)) (r : R)
    (d : Fdd) (match' : FieldSet) (node : TraceNode) (a : Augmented) : Prop where
  path : a.path = path
  diagram : d.Alike a.leaf.katDiagram
  match' : a.match' = match'
  agrees : ∀ stored : R → LeafNode Fdd → Prop, Agrees stored p node → stored r a.leaf →
    Agrees stored p a.node

theorem Augmention.match'_test (a : Augmention) (f : Field) (b : Bool) :
    (a.test f b).match' = noteCall a.match' (.test f b) := by
  cases b <;> simp [Augmention.test, noteCall]

/-- A trace that follows the program of a tree augments it. -/
theorem augment_path {R : Type} (backend : Bool) {policy : Policy} {d : Fdd}
    (compiled : compile policy = some d) {r : R} (calls : List TraceCall) :
    ∀ {p : Prog Mask Nat Field R} {a : Augmention} {node : TraceNode},
      p.Path (calls.map TraceCall.asked) r → Agrees (fun _ _ => True) p node →
        ∃ res, augment backend policy calls a node = pure res ∧
          Augments p (calls.map TraceCall.asked) r d (calls.foldl noteCall a.match') node res := by
  induction calls with
  | nil =>
      intro p a node follows agrees
      cases follows
      have alike : d.Alike (if backend then
          (translate d a.match' { prioDown := a.prioDown, prioUp := a.prioUp }).diagram else d) := by
        split
        · exact translate_alike d _ _
        · exact .refl d
      rcases agrees.ret with rfl | ⟨l, rfl, -⟩
      · simp only [augment, finish, compiled]
        exact ⟨_, rfl, rfl, alike, rfl, fun _ _ holds => holds⟩
      · simp only [augment, finish, compiled]
        exact ⟨_, rfl, rfl, alike, rfl, fun _ _ holds => holds⟩
  | cons call calls ih =>
      intro p a node follows agrees
      cases call with
      | load f =>
          cases follows with
          | load rest =>
          rcases agrees.load with rfl | ⟨cases, rfl, all⟩
          · obtain ⟨res, result, aug⟩ := ih (a := a.load f) rest (agrees_unexplored _)
            rw [augment, result]
            refine ⟨_, rfl, congrArg (List.cons _) aug.path, aug.diagram, aug.match', ?_⟩
            intro stored _ holds
            show Agrees stored _ (.load f.mask (Tree.setCase (valueBits f) res.node []))
            refine agrees_setCase (fun u => ?_) (aug.agrees stored (agrees_unexplored _) holds)
            exact agrees_unexplored _
          · obtain ⟨res, result, aug⟩ := ih (a := a.load f) rest (all _)
            rw [augment, if_pos rfl, result]
            refine ⟨_, rfl, congrArg (List.cons _) aug.path, aug.diagram, aug.match', ?_⟩
            intro stored agrees holds
            exact agrees_setCase agrees.2 (aug.agrees stored (agrees.2 _) holds)
      | test f b =>
          cases follows with
          | @test _ next _ _ _ rest =>
          have noted : calls.foldl noteCall (a.test f b).match' =
              (TraceCall.test f b :: calls).foldl noteCall a.match' := by
            rw [List.foldl_cons, Augmention.match'_test]
          rcases agrees.test with rfl | ⟨note, pos, neg, rfl, agreesP, agreesN⟩
          · obtain ⟨res, result, aug⟩ := ih (a := a.test f b) rest (agrees_unexplored _)
            rw [augment, result]
            refine ⟨_, rfl, congrArg (List.cons _) aug.path, aug.diagram, aug.match'.trans noted, ?_⟩
            intro stored _ holds
            have agrees := aug.agrees stored (agrees_unexplored _) holds
            cases b with
            | true => exact agrees_test agrees (agrees_unexplored _)
            | false => exact agrees_test (agrees_unexplored _) agrees
          · have side : Agrees (R := R) (fun _ _ => True) (next b) (if b then pos else neg) := by
              cases b
              · exact agreesN
              · exact agreesP
            obtain ⟨res, result, aug⟩ := ih (a := a.test f b) rest side
            rw [augment, if_pos rfl, result]
            refine ⟨_, rfl, congrArg (List.cons _) aug.path, aug.diagram, aug.match'.trans noted, ?_⟩
            rintro stored ⟨-, positive, negative⟩ holds
            cases b with
            | true => exact agrees_test (aug.agrees stored positive holds) negative
            | false => exact agrees_test positive (aug.agrees stored negative holds)

/-! ## Sound diagrams -/

/-- A diagram without its trees and priorities. -/
def Diagram.bare {T : Type} : Diagram T → Diagram Unit
  | leaf l => leaf { sets := l.sets, flowSettings := l.flowSettings, mapleTree := () }
  | node f pos neg => node f (bare pos) (bare neg)

/-- The match at the leaf of a packet. -/
def Diagram.matchAt {T : Type} (x : Packet) : Diagram T → FieldSet → FieldSet
  | leaf _, s => s
  | node f pos neg, s => if x.test f then matchAt x pos (s.modify f) else matchAt x neg s

/-- What is stored for a result: the diagram of the policy, sound with what is known. -/
def Stored (sound : Fdd → Knowledge → Prop) : Option (List Policy × Knowledge) → LeafNode Fdd → Prop
  | none, _ => False
  | some (ps, κ), leaf =>
      (∃ d : Fdd, compile (.sum ps) = some d ∧ leaf.katDiagram.bare = d.bare) ∧
        sound leaf.katDiagram κ

/-- The trees of the leaves agree with the functions. -/
def Diagram.Keeps (sound : Fdd → Knowledge → Prop) : Fdd → Knowledge → Prop
  | leaf l, κ => Agrees (Stored sound) (known (unitsProg l.sets) κ) l.mapleTree.node
  | node f pos neg, κ => Keeps sound pos (κ.note f) ∧ Keeps sound neg κ

/-- Sound to a depth of diagrams in trees. -/
def SoundTo : Nat → Fdd → Knowledge → Prop
  | 0, _, _ => True
  | n + 1, d, κ => d.Keeps (SoundTo n) κ

/-- Sound to any depth. -/
def Sound (d : Fdd) (κ : Knowledge) : Prop := ∀ n, SoundTo n d κ

theorem sound_leaf {l : Leaf TraceTree} {κ : Knowledge} : Sound (.leaf l) κ ↔
    ∀ n, Agrees (Stored (SoundTo n)) (known (unitsProg l.sets) κ) l.mapleTree.node :=
  ⟨fun sound n => sound (n + 1), fun all n => by
    cases n with
    | zero => trivial
    | succ n => exact all n⟩

theorem sound_node {f : Field} {pos neg : Fdd} {κ : Knowledge} :
    Sound (.node f pos neg) κ ↔ Sound pos (κ.note f) ∧ Sound neg κ := by
  constructor
  · intro sound
    refine ⟨fun n => ?_, fun n => ?_⟩ <;> cases n with
    | zero => trivial
    | succ n => first | exact (sound (n + 1)).1 | exact (sound (n + 1)).2
  · rintro ⟨soundP, soundN⟩ n
    cases n with
    | zero => trivial
    | succ n => exact ⟨soundP (n + 1), soundN (n + 1)⟩

/-- Where no tree was explored, whatever is known. -/
theorem sound_unexplored {d : Fdd} (unexplored : d.Unexplored) (κ : Knowledge) : Sound d κ := by
  induction d generalizing κ with
  | leaf l =>
      have fresh : l.mapleTree = default := unexplored
      refine sound_leaf.mpr fun n => ?_
      rw [fresh]
      exact agrees_unexplored _
  | node f pos neg ihPos ihNeg => exact sound_node.mpr ⟨ihPos unexplored.1 _, ihNeg unexplored.2 _⟩

/-! ## Leaves of diagrams that differ in their trees -/

namespace Diagram

theorem Alike.bare {T : Type} {d d' : Diagram T} (alike : d.Alike d') : d.bare = d'.bare := by
  induction d generalizing d' with
  | leaf l =>
      cases d' with
      | leaf l' =>
          have verdict := alike.1
          injection verdict with sets settings
          rw [Diagram.bare, Diagram.bare, sets, settings]
      | node => exact alike.elim
  | node f pos neg ihPos ihNeg =>
      cases d' with
      | leaf => exact alike.elim
      | node f' pos' neg' =>
          obtain ⟨rfl, alikeP, alikeN⟩ := alike
          rw [Diagram.bare, Diagram.bare, ihPos alikeP, ihNeg alikeN]

theorem Alike.unexplored {T : Type} [Inhabited T] {d d' : Diagram T} (alike : d.Alike d')
    (unexplored : d.Unexplored) : d'.Unexplored := by
  induction d generalizing d' with
  | leaf l =>
      cases d' with
      | leaf l' => exact alike.2.symm.trans unexplored
      | node => exact alike.elim
  | node f pos neg ihPos ihNeg =>
      cases d' with
      | leaf => exact alike.elim
      | node f' pos' neg' =>
          exact ⟨ihPos alike.2.1 unexplored.1, ihNeg alike.2.2 unexplored.2⟩

theorem bare_leafAt {T : Type} (x : Packet) {d d' : Diagram T} (same : d.bare = d'.bare) :
    (d.leafAt x).verdict = (d'.leafAt x).verdict ∧ ∀ s, d.matchAt x s = d'.matchAt x s := by
  induction d generalizing d' with
  | leaf l =>
      cases d' with
      | leaf l' =>
          injection same with same
          injection same with sets settings
          exact ⟨by rw [leafAt_leaf, leafAt_leaf, Leaf.verdict, Leaf.verdict, sets, settings], fun _ => rfl⟩
      | node => cases same
  | node f pos neg ihPos ihNeg =>
      cases d' with
      | leaf => cases same
      | node f' pos' neg' =>
          injection same with field sameP sameN
          subst field
          obtain ⟨verdictP, matchP⟩ := ihPos sameP
          obtain ⟨verdictN, matchN⟩ := ihNeg sameN
          simp only [leafAt_node, matchAt]
          split_ifs
          · exact ⟨verdictP, fun s => matchP _⟩
          · exact ⟨verdictN, fun s => matchN _⟩

theorem matchAt_get {T : Type} (x : Packet) (d : Diagram T) {s s' : FieldSet} (same : s.get = s'.get) :
    (d.matchAt x s).get = (d.matchAt x s').get := by
  induction d generalizing s s' with
  | leaf l => exact same
  | node f pos neg ihPos ihNeg =>
      simp only [matchAt]
      split_ifs
      · exact ihPos (by rw [Knowledge.get_modify, Knowledge.get_modify, same])
      · exact ihNeg same

theorem matchAt_of {T : Type} {x : Packet} (d : Diagram T) {s : FieldSet}
    (of : Knowledge.Of s.get x) : Knowledge.Of (d.matchAt x s).get x := by
  induction d generalizing s with
  | leaf l => exact of
  | node f pos neg ihPos ihNeg =>
      simp only [matchAt]
      split_ifs with has
      · exact ihPos (Knowledge.get_modify _ _ ▸ of.note has)
      · exact ihNeg of

end Diagram

theorem Sound.leafAt {d : Fdd} (x : Packet) {s : FieldSet} (sound : Sound d s.get) :
    Sound (.leaf (d.leafAt x)) (d.matchAt x s).get := by
  induction d generalizing s with
  | leaf l => exact sound
  | node f pos neg ihPos ihNeg =>
      obtain ⟨soundP, soundN⟩ := sound_node.mp sound
      simp only [Diagram.leafAt_node, Diagram.matchAt]
      split_ifs
      · exact ihPos (Knowledge.get_modify _ _ ▸ soundP)
      · exact ihNeg soundN

section

variable {x : Packet} {backend : Bool}

/-- What a traversal does at the leaf of the packet, it does in the diagram. -/
theorem traverse_lift (d : Fdd) : ∀ {s : FieldSet} {r : Traversed},
    traverse backend x (.leaf (d.leafAt x)) (d.matchAt x s) = pure r →
      r.diagram.bare = (Diagram.leaf (d.leafAt x)).bare →
        ∃ r', traverse backend x d s = pure r' ∧ r'.leaf = r.leaf ∧ r'.diagram.bare = d.bare ∧
          (Sound d s.get → Sound r.diagram (d.matchAt x s).get → Sound r'.diagram s.get) := by
  induction d with
  | leaf l => exact fun {s r} result bare => ⟨r, result, rfl, bare, fun _ sound => sound⟩
  | node f pos neg ihPos ihNeg =>
      intro s r result bare
      rw [Diagram.leafAt_node, Diagram.matchAt] at result
      rw [Diagram.leafAt_node] at bare
      rw [traverse_node]
      by_cases has : x.test f = true
      · rw [if_pos has, if_pos has] at result
        rw [if_pos has] at bare
        obtain ⟨r', result', leaf, bare', sound⟩ := ihPos result bare
        rw [if_pos has, result', pure_bind]
        refine ⟨_, rfl, leaf, congrArg (fun d => Diagram.node f d neg.bare) bare', ?_⟩
        intro sound₀ soundL
        obtain ⟨soundP, soundN⟩ := sound_node.mp sound₀
        rw [Diagram.matchAt, if_pos has] at soundL
        refine sound_node.mpr ⟨?_, soundN⟩
        rw [← Knowledge.get_modify] at soundP ⊢
        exact sound soundP soundL
      · rw [if_neg has, if_neg has] at result
        rw [if_neg has] at bare
        obtain ⟨r', result', leaf, bare', sound⟩ := ihNeg result bare
        rw [if_neg has, result', pure_bind]
        refine ⟨_, rfl, leaf, congrArg (fun d => Diagram.node f pos.bare d) bare', ?_⟩
        intro sound₀ soundL
        obtain ⟨soundP, soundN⟩ := sound_node.mp sound₀
        rw [Diagram.matchAt, if_neg has] at soundL
        exact sound_node.mpr ⟨soundP, sound soundN soundL⟩

end

end Drunos.Retic
