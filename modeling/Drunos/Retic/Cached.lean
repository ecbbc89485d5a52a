/-
# Drunos.Retic.Cached — trees grown by earlier packets

On a sound diagram every packet is handled as on a new one (`traverse_sound`). The
diagram stays sound if all that the traces of the packet record holds of it
(`Straight`): a trace records a test as failed that known bits contradict, and the
packet may pass the bits that are recorded.

So after any run of straight packets the trees do not change the answer for any packet
(`handled_fresh`).
-/
import Drunos.Retic.Sound
import Drunos.Retic.Whole

namespace Drunos.Retic

open Drunos.Oxm Drunos.Theory Drunos.Theory.Exploration Drunos.Maple

set_option autoImplicit false

section

variable [OxmTypes]

/-! ## Straight packets -/

/-- The merged trace of a leaf for a packet. -/
def Verdict.merged (x : Packet) (v : Verdict) (match' : FieldSet) : List TraceCall :=
  mergeCalls (v.calls x) match'

/-- The match after it. -/
def Verdict.matchAfter (x : Packet) (v : Verdict) (match' : FieldSet) : FieldSet :=
  (v.merged x match').foldl noteCall match'

/-- What is recorded of the packet holds of it, at the leaf and at all it leads to. -/
inductive Straight (x : Packet) : Verdict → FieldSet → Prop where
  | plain {v : Verdict} {match' : FieldSet} (plain : v.hasBody = false) : Straight x v match'
  | returned {v : Verdict} {match' : FieldSet} (holds : ∀ call ∈ v.merged x match', Holds x call)
      (rest : ∀ d : Fdd, compile (v.returned x) = some d →
        Straight x (d.leafAt x).verdict (d.matchAt x (v.matchAfter x match'))) :
      Straight x v match'

theorem mergeCalls_get (calls : List TraceCall) {s s' : FieldSet} (same : s.get = s'.get) :
    mergeCalls calls s = mergeCalls calls s' := by
  induction calls generalizing s s' with
  | nil => rfl
  | cons call calls ih =>
      have modified : ∀ f, (s.modify f).get = (s'.modify f).get := fun f => by
        rw [Knowledge.get_modify, Knowledge.get_modify, same]
      cases call with
      | load f =>
          rw [mergeCalls_load, mergeCalls_load, same, ih same, ih (modified _)]
      | test f b =>
          rw [mergeCalls_test, mergeCalls_test, same, ih same]
          cases b with
          | false => rw [if_neg Bool.false_ne_true, if_neg Bool.false_ne_true, ih same]
          | true => rw [if_pos rfl, if_pos rfl, ih (modified _)]

theorem Verdict.matchAfter_get (x : Packet) (v : Verdict) {s s' : FieldSet} (same : s.get = s'.get) :
    (v.matchAfter x s).get = (v.matchAfter x s').get := by
  rw [matchAfter, matchAfter, merged, merged, Knowledge.get_foldl, Knowledge.get_foldl,
    mergeCalls_get _ same, same]

/-- It depends on what is known only. -/
theorem Straight.congr {x : Packet} {v : Verdict} {s : FieldSet} (straight : Straight x v s) :
    ∀ {s' : FieldSet}, s.get = s'.get → Straight x v s' := by
  induction straight with
  | plain plain => exact fun _ => .plain plain
  | @returned v s holds _ ih =>
      intro s' same
      have merged : v.merged x s = v.merged x s' := mergeCalls_get (v.calls x) same
      refine .returned (merged ▸ holds) fun d compiled => ?_
      exact ih d compiled (d.matchAt_get x (v.matchAfter_get x same))

/-! ## Handling a packet on a sound diagram -/

section

variable {x : Packet} (backend : Bool)

/-- Whether the stored leaf is used again, or its functions are run anew. -/
theorem usable_packet (x : Packet) (leaf : LeafNode Fdd) :
    usable x (some leaf) = pure (some leaf) ∨ usable x (some leaf) = pure none := by
  have plain : ∀ d : Fdd, plainLeaf x d = pure (d.leafAt x) := by
    intro d
    induction d with
    | leaf l => rfl
    | node f pos neg ihPos ihNeg =>
        show (if x.test f then plainLeaf x pos else plainLeaf x neg) = _
        rw [ihPos, ihNeg, Diagram.leafAt_node]
        split_ifs <;> rfl
  simp only [usable, leafIsTemporary, plain, pure_bind]
  split_ifs
  · exact .inr rfl
  · exact .inl rfl

/-- What a leaf asks of a packet, and what its tree may hold for it. -/
theorem leaf_follows (l : Leaf TraceTree) {s : FieldSet} (of : Knowledge.Of s.get x) :
    Follows x (known (unitsProg l.sets) s.get) (l.verdict.merged x s)
      ((unitsProg l.sets).run (answers x), (l.verdict.matchAfter x s).get) :=
  merged_follows _ of (unitsProg_answers x l.verdict).1

theorem Verdict.matchAfter_of (v : Verdict) {s : FieldSet} (of : Knowledge.Of s.get x) :
    Knowledge.Of (v.matchAfter x s).get x := merged_of of (v.calls_hold x)

/-- What the way in a tree says is known after the trace, if what the trace says holds. -/
theorem way_known {l : Leaf TraceTree} {s : FieldSet} {n : Nat} (of : Knowledge.Of s.get x)
    (agrees : Agrees (Stored (SoundTo n)) (known (unitsProg l.sets) s.get) l.mapleTree.node)
    (holds : ∀ call ∈ l.verdict.merged x s, Holds x call) :
    ∃ pre rest, l.verdict.merged x s = pre ++ rest ∧
      l.mapleTree.node.way (answers x) = pre.map TraceCall.asked ∧
      ∀ leaf, l.mapleTree.node.lookup (answers x) = some leaf → rest = [] := by
  obtain ⟨-, ⟨-, asked, -⟩ | ⟨fails, -⟩⟩ := leaf_follows l of
  · obtain ⟨rest, way, found⟩ := agrees.way (answers x)
    rw [asked] at way
    obtain ⟨pre, rest', merged, preWay, restWay⟩ := List.map_eq_append_iff.mp way
    refine ⟨pre, rest', merged, preWay.symm, fun leaf lookup => ?_⟩
    have none := found leaf lookup
    rw [← restWay] at none
    exact List.map_eq_nil_iff.mp none
  · exact absurd holds fails

/-- The match the traversal goes on with, where the tree knew the packet. -/
theorem hit_known {l : Leaf TraceTree} {s : FieldSet} {n : Nat} {leaf : LeafNode Fdd}
    (of : Knowledge.Of s.get x)
    (agrees : Agrees (Stored (SoundTo n)) (known (unitsProg l.sets) s.get) l.mapleTree.node)
    (holds : ∀ call ∈ l.verdict.merged x s, Holds x call)
    (found : l.mapleTree.node.lookup (answers x) = some leaf) :
    l.mapleTree.node.way (answers x) = (l.verdict.merged x s).map TraceCall.asked ∧
      (fieldSetUnion s ((l.mapleTree.node.way (answers x)).foldl noteAnswer ∅)).get =
        (l.verdict.matchAfter x s).get := by
  obtain ⟨pre, rest, merged, way, none⟩ := way_known of agrees holds
  rw [none leaf found, List.append_nil] at merged
  subst merged
  rw [way, foldl_noteAnswer, Knowledge.get_union, Knowledge.get_foldl, ← Knowledge.foldl_seq,
    Knowledge.seq_empty, Verdict.matchAfter, Knowledge.get_foldl]
  exact ⟨rfl, rfl⟩

/-- What the way in a tree says is true of the packet. -/
theorem way_of {l : Leaf TraceTree} {s : FieldSet} {n : Nat}
    (agrees : Agrees (Stored (SoundTo n)) (known (unitsProg l.sets) s.get) l.mapleTree.node) :
    Knowledge.Of ((l.mapleTree.node.way (answers x)).foldl noteAnswer ∅).get x := by
  obtain ⟨rest, asked, -⟩ := agrees.way (answers x)
  refine noteAnswer_of (fun q mem => ?_) (.empty x)
  exact Prog.asked_answered (answers x) q (asked.symm ▸ List.mem_append_left rest mem)

/-- The match the traversal goes on with, where the functions were run. -/
theorem miss_known {l : Leaf TraceTree} {s : FieldSet} {n : Nat} (of : Knowledge.Of s.get x)
    (agrees : Agrees (Stored (SoundTo n)) (known (unitsProg l.sets) s.get) l.mapleTree.node)
    (holds : ∀ call ∈ l.verdict.merged x s, Holds x call) :
    (fieldSetUnion (l.verdict.matchAfter x s)
        ((l.mapleTree.node.way (answers x)).foldl noteAnswer ∅)).get =
      (l.verdict.matchAfter x s).get := by
  have ofWay := way_of (x := x) agrees
  obtain ⟨pre, rest, merged, way, -⟩ := way_known of agrees holds
  rw [Knowledge.get_union]
  refine Knowledge.over_known (l.verdict.matchAfter_of of) ofWay ?_
  rw [way, foldl_noteAnswer, Knowledge.get_foldl, Verdict.matchAfter, merged, Knowledge.get_foldl]
  exact Knowledge.within_foldl pre rest (.empty s.get)

/-- A packet handled on a diagram: the leaf says `w`, and the diagram is the same but for its
trees, and sound if `straight` holds. -/
structure Handled (x : Packet) (d : Fdd) (s : FieldSet) (w : Verdict) (straight : Prop)
    (r : Traversed) : Prop where
  result : traverse backend x d s = pure r
  leaf : r.leaf.verdict = w
  bare : r.diagram.bare = d.bare
  sound : straight → Sound r.diagram s.get

section

variable {l : Leaf TraceTree} {s : FieldSet} {w : Verdict} {d₁ : Fdd}
  (body : l.hasBody = true) (compiled : compile (l.verdict.returned x) = some d₁)
  (sound : Sound (.leaf l) s.get) (of : Knowledge.Of s.get x)
  (next : ∀ (d : Fdd) (s' : FieldSet), d.bare = d₁.bare → Sound d s'.get → Knowledge.Of s'.get x →
    ∃ r, Handled backend x d s' w
      (Straight x l.verdict s ∧ s'.get = (l.verdict.matchAfter x s).get) r)

include compiled in
theorem stored_returned {n : Nat} {leaf : LeafNode Fdd} (bare : leaf.katDiagram.bare = d₁.bare)
    (sound : SoundTo n leaf.katDiagram (l.verdict.matchAfter x s).get) :
    Stored (SoundTo n) (some ((unitsProg l.sets).run (answers x), (l.verdict.matchAfter x s).get))
      leaf := by
  have sum := (unitsProg_answers x l.verdict).2
  exact ⟨⟨d₁, sum ▸ compiled, bare⟩, sound⟩

theorem Straight.holds {v : Verdict} {s : FieldSet} (straight : Straight x v s)
    (body : v.hasBody = true) : ∀ call ∈ v.merged x s, Holds x call := by
  cases straight with
  | plain plain => simp [plain] at body
  | returned holds _ => exact holds

include body compiled sound of next in
/-- The functions are run on the packet. -/
theorem handled_miss (use : usable x (l.mapleTree.node.lookup (answers x)) = pure none) :
    ∃ r, Handled backend x (.leaf l) s w (Straight x l.verdict s) r := by
  have agrees := sound_leaf.mp sound
  have follows := leaf_follows l of
  obtain ⟨a, augmented, aug⟩ := augment_path backend compiled (l.verdict.merged x s)
    (a := ⟨s, l.prioDown, l.prioUp⟩) follows.path ((agrees 0).mono fun _ _ _ => trivial)
  have explored : explore backend x l s = pure a := (explore_packet backend body s).trans augmented
  have unexplored : a.leaf.katDiagram.Unexplored := aug.diagram.unexplored (compile_unexplored compiled)
  obtain ⟨r, handled⟩ := next a.leaf.katDiagram
    (fieldSetUnion a.match' ((l.mapleTree.node.way (answers x)).foldl noteAnswer ∅))
    aug.diagram.bare.symm (sound_unexplored unexplored _)
    (by rw [aug.match', Knowledge.get_union]; exact .seq (l.verdict.matchAfter_of of) (way_of (agrees 0)))
  have result := traverse_miss body (findLeaf_packet x l.mapleTree.node) use explored handled.result
  refine ⟨_, result, handled.leaf, rfl, fun straight => sound_leaf.mpr fun n => ?_⟩
  have after : (fieldSetUnion a.match' ((l.mapleTree.node.way (answers x)).foldl noteAnswer ∅)).get =
      (l.verdict.matchAfter x s).get := by
    rw [aug.match']
    exact miss_known of (agrees 0) (straight.holds body)
  have tree := aug.agrees (Stored (SoundTo n)) (agrees n)
    (stored_returned compiled aug.diagram.bare.symm (sound_unexplored unexplored _ n))
  have final := handled.sound ⟨straight, after⟩ n
  rw [after] at final
  rw [aug.path]
  exact tree.put follows.path (stored_returned compiled (handled.bare.trans aug.diagram.bare.symm) final)

include body compiled sound of next in
/-- The tree knows the packet. -/
theorem handled_hit {leaf : LeafNode Fdd} (found : l.mapleTree.node.lookup (answers x) = some leaf)
    (use : usable x (some leaf) = pure (some leaf)) :
    ∃ r, Handled backend x (.leaf l) s w (Straight x l.verdict s) r := by
  have agrees := sound_leaf.mp sound
  have follows := leaf_follows l of
  have kept : ∀ n, Stored (SoundTo n) ((known (unitsProg l.sets) s.get).run (answers x)) leaf :=
    fun n => (agrees n).lookup found
  rcases follows.answers with ⟨holds, -, run⟩ | ⟨-, none⟩
  · obtain ⟨way, after⟩ := hit_known of (agrees 0) holds found
    rw [run] at kept
    obtain ⟨⟨d, compiled', bare⟩, -⟩ := kept 0
    have sum : l.verdict.returned x = .sum ((unitsProg l.sets).run (answers x)) :=
      (unitsProg_answers x l.verdict).2
    rw [← sum, compiled] at compiled'
    obtain rfl := Option.some.inj compiled'
    obtain ⟨r, handled⟩ := next leaf.katDiagram
      (fieldSetUnion s ((l.mapleTree.node.way (answers x)).foldl noteAnswer ∅)) bare
      (fun n => after ▸ (kept n).2)
      (after ▸ l.verdict.matchAfter_of of)
    have find := findLeaf_packet x l.mapleTree.node
    rw [found] at find
    have result := traverse_hit body find use handled.result
    refine ⟨_, result, handled.leaf, rfl, fun straight => sound_leaf.mpr fun n => ?_⟩
    have final := handled.sound ⟨straight, after⟩ n
    rw [after] at final
    show Agrees _ _ (Tree.put _ (l.mapleTree.node.way (answers x)) l.mapleTree.node)
    rw [way]
    exact (agrees n).put follows.path (stored_returned compiled (handled.bare.trans bare) final)
  · have nothing := kept 0
    rw [none] at nothing
    exact nothing.elim

end

/-- **A packet is handled at a sound leaf as at a new one, and leaves it sound if what is recorded
of it holds.** -/
theorem traverse_leaf {v w : Verdict} (leads : Leads x v w) :
    ∀ {l : Leaf TraceTree} {s : FieldSet}, l.verdict = v → Sound (.leaf l) s.get →
      Knowledge.Of s.get x → ∃ r, Handled backend x (.leaf l) s w (Straight x v s) r := by
  induction leads with
  | plain plain =>
      rintro l s rfl sound _
      exact ⟨_, traverse_plain plain, rfl, rfl, fun _ => sound⟩
  | @returned v w d₁ body compiled rest ih =>
      rintro l s rfl sound of
      -- the diagram of the returned policy, with the trees it may have
      have next : ∀ (d : Fdd) (s' : FieldSet), d.bare = d₁.bare → Sound d s'.get →
          Knowledge.Of s'.get x → ∃ r, Handled backend x d s' w
            (Straight x l.verdict s ∧ s'.get = (l.verdict.matchAfter x s).get) r := by
        intro d s' same sound' of'
        obtain ⟨verdict, matchAt⟩ := Diagram.bare_leafAt x same
        obtain ⟨r, handled⟩ := ih verdict (sound'.leafAt x) (d.matchAt_of of')
        obtain ⟨r', result', leaf', bare', lifted⟩ := traverse_lift d handled.result handled.bare
        refine ⟨r', result', leaf' ▸ handled.leaf, bare', fun ⟨straight, after⟩ => ?_⟩
        refine lifted sound' (handled.sound ?_)
        cases straight with
        | plain plain => simp [plain] at body
        | returned _ rest =>
            refine (rest d₁ compiled).congr ?_
            rw [matchAt]
            exact d₁.matchAt_get x after.symm
      cases found : l.mapleTree.node.lookup (answers x) with
      | none => exact handled_miss backend body compiled sound of next (by rw [found]; rfl)
      | some leaf =>
          rcases usable_packet x leaf with use | use
          · exact handled_hit backend body compiled sound of next found use
          · exact handled_miss backend body compiled sound of next (by rw [found]; exact use)

theorem traverse_sound {d : Fdd} {s : FieldSet} {w : Verdict} (sound : Sound d s.get)
    (of : Knowledge.Of s.get x) (leads : Leads x (d.leafAt x).verdict w) :
    ∃ r, Handled backend x d s w (Straight x (d.leafAt x).verdict (d.matchAt x s)) r := by
  obtain ⟨r, handled⟩ := traverse_leaf backend leads rfl (sound.leafAt x) (d.matchAt_of of)
  obtain ⟨r', result, leaf, bare, lifted⟩ := traverse_lift d handled.result handled.bare
  exact ⟨r', result, leaf ▸ handled.leaf, bare, fun straight => lifted sound (handled.sound straight)⟩

end

/-! ## Runs -/

/-- A diagram of the policy, whatever priorities a translation has put into it. -/
def DiagramOf (p : Policy) (d : Fdd) : Prop := ∃ d₀ : Fdd, compile p = some d₀ ∧ d₀.Alike d

/-- The diagram after the packets were handled. -/
def handleAll (backend : Bool) (d : Fdd) (packets : List Packet) : Traversal Fdd :=
  packets.foldlM (fun d x => do return (← traverse backend x d ∅).diagram) d

/-- The handling of the packet on a new diagram ends: the policies that functions return are
compiled. -/
def Settles (d : Fdd) (x : Packet) : Prop := ∃ w, Leads x (d.leafAt x).verdict w

/-- All that is recorded of the packet holds of it. -/
def StraightOn (d : Fdd) (x : Packet) : Prop := Straight x (d.leafAt x).verdict (d.matchAt x ∅)

theorem handleAll_sound (backend : Bool) {packets : List Packet} : ∀ {d : Fdd}, Sound d (∅ : FieldSet).get →
    (∀ y ∈ packets, Settles d y ∧ StraightOn d y) →
      ∃ d', handleAll backend d packets = pure d' ∧ d'.bare = d.bare ∧ Sound d' (∅ : FieldSet).get := by
  induction packets with
  | nil => exact fun {d} sound _ => ⟨d, rfl, rfl, sound⟩
  | cons y packets ih =>
      intro d sound all
      obtain ⟨⟨⟨w, leads⟩, straight⟩, tail⟩ := List.forall_mem_cons.mp all
      obtain ⟨r, handled⟩ := traverse_sound backend sound (.empty y) leads
      have tail' : ∀ y ∈ packets, Settles r.diagram y ∧ StraightOn r.diagram y := by
        intro y mem
        obtain ⟨verdict, matchAt⟩ := Diagram.bare_leafAt y handled.bare
        rw [Settles, StraightOn, verdict, matchAt]
        exact tail y mem
      obtain ⟨d', result, bare, sound'⟩ := ih (handled.sound straight) tail'
      refine ⟨d', ?_, bare.trans handled.bare, sound'⟩
      rw [handleAll, List.foldlM_cons, handled.result, pure_bind, pure_bind]
      exact result

/-- **Whatever straight packets were handled before, every packet is handled as on the new
diagram.** -/
theorem handleAll_fresh (backend : Bool) {p : Policy} {d : Fdd} (diagram : DiagramOf p d)
    {packets : List Packet} (settle : ∀ y ∈ packets, Settles d y)
    (straight : ∀ y ∈ packets, StraightOn d y) {x : Packet} (settles : Settles d x) :
    ∃ d' r r₀, handleAll backend d packets = pure d' ∧ traverse backend x d' ∅ = pure r ∧
      traverse backend x d ∅ = pure r₀ ∧ r.leaf.sets = r₀.leaf.sets ∧
        r.leaf.flowSettings = r₀.leaf.flowSettings := by
  obtain ⟨d₀, compiled, alike⟩ := diagram
  have sound : Sound d (∅ : FieldSet).get :=
    sound_unexplored (alike.unexplored (compile_unexplored compiled)) _
  obtain ⟨d', result, bare, sound'⟩ :=
    handleAll_sound backend sound fun y mem => ⟨settle y mem, straight y mem⟩
  obtain ⟨w, leads⟩ := settles
  have leads' : Leads x (d'.leafAt x).verdict w := (Diagram.bare_leafAt x bare).1 ▸ leads
  obtain ⟨r, handled⟩ := traverse_sound backend sound' (.empty x) leads'
  obtain ⟨r₀, handled₀⟩ := traverse_sound backend sound (.empty x) leads
  have same := handled.leaf.trans handled₀.leaf.symm
  exact ⟨d', r, r₀, result, handled.result, handled₀.result, congrArg Verdict.sets same,
    congrArg Verdict.flowSettings same⟩

/-- Policies of whole fields settle for every packet. -/
theorem settles_whole {p : Policy} (whole : p.Whole) {d : Fdd} (diagram : DiagramOf p d) (x : Packet) :
    Settles d x := by
  obtain ⟨d₀, compiled, alike⟩ := diagram
  obtain ⟨d₁, -, w, compiled', -, leads, -⟩ := leads_smooth (smooth_whole x whole)
  obtain rfl := Option.some.inj (compiled.symm.trans compiled')
  exact ⟨w, (Diagram.bare_leafAt x alike.bare).1 ▸ leads⟩

end

section

open scoped Drunos.Oxm.OpenflowBasic

/-! ## A tree that answers for the wrong packets -/

/-- Packets go out of the port that the second last digit of their source says. -/
def highDigit : Handler Policy :=
  .load ⟨ipv4Src, 0x0F0#32⟩ fun v =>
    .ret (.modify (.exactly outPort ((v.toNat / 16 : Nat) : BitVec 32)))

/-- A test for the source 0x32, of which nothing depends. -/
def thirtyTwo : Handler Policy :=
  .test (.exactly ipv4Src 0x032#32) fun _ => .ret (.packetFunction 2 highDigit)

def lowDigit : Handler Policy :=
  .load ⟨ipv4Src, 0x00F#32⟩ fun _ => .ret (.packetFunction 1 thirtyTwo)

def digits : Policy := .packetFunction 0 lowDigit

/-- The diagram of a function, with a tree. -/
def functionDiagram (i : Nat) (h : Handler Policy) (node : TraceNode) : Fdd :=
  .leaf { sets := [.mk ∅ (some ⟨i, h⟩) none], mapleTree := .mk node }

def portLeaf (port : BitVec 32) : Leaf TraceTree :=
  { sets := [.ofActions (.ofField (.exactly outPort port))], mapleTree := default }

/-- What was stored for a packet from 0x31. -/
def portThree : TraceNode := .leaf ⟨.modify (.exactly outPort 3#32), .leaf (portLeaf 3)⟩

/-- The diagram after packets from 0x31. The last digit contradicts the test for 0x32, so it is
recorded that the test of the other bits failed; the packets pass these. -/
def grown (high : TraceNode) : Fdd :=
  functionDiagram 0 lowDigit (.load ⟨ipv4Src, 0x00F#32⟩ [(1, .leaf ⟨.packetFunction 1 thirtyTwo,
    functionDiagram 1 thirtyTwo (.test ⟨ipv4Src, .read 0x030#32 0xFFFFFFF0#32⟩ () .unexplored
      (.leaf ⟨.packetFunction 2 highDigit, functionDiagram 2 highDigit high⟩))⟩)])

def sentFrom (source : BitVec 32) : Packet := OpenflowBasic.packet [.exactly ipv4Src source]

/-- A packet from 0x31 that is handled twice leaves a tree that sends packets from 0x51 to
port 3. -/
theorem digits_differ : (lowDigit.Fits ∧ thirtyTwo.Fits ∧ highDigit.Fits) ∧
    ∃ d d' r r₀, compile digits = some d ∧
    handleAll false d [sentFrom 0x31#32, sentFrom 0x31#32] = pure d' ∧
      traverse false (sentFrom 0x51#32) d' ∅ = pure r ∧ traverse false (sentFrom 0x51#32) d ∅ = pure r₀ ∧
        (r.leaf.sets : Multiset ActionUnit) ≠ r₀.leaf.sets := by
  have fits : lowDigit.Fits ∧ thirtyTwo.Fits ∧ highDigit.Fits :=
    ⟨⟨by decide, fun _ => trivial⟩, ⟨by decide, fun _ => trivial⟩, by decide, fun _ => trivial⟩
  obtain ⟨r₁, first, grown₁⟩ : ∃ r, traverse false (sentFrom 0x31#32)
      (functionDiagram 0 lowDigit .unexplored) ∅ = pure r ∧
        r.diagram = grown (.load ⟨ipv4Src, 0x0F0#32⟩ [(0x030, portThree)]) :=
    ⟨_, traverse_miss rfl rfl rfl rfl <| traverse_miss rfl rfl rfl rfl <|
      traverse_miss rfl rfl rfl rfl <| traverse_plain rfl, rfl⟩
  -- now the packet passes the recorded test where it was looked up, and the high digit is known
  obtain ⟨r₂, second, grown₂⟩ : ∃ r, traverse false (sentFrom 0x31#32)
      (grown (.load ⟨ipv4Src, 0x0F0#32⟩ [(0x030, portThree)])) ∅ = pure r ∧
        r.diagram = grown portThree :=
    ⟨_, traverse_hit rfl rfl rfl <| traverse_miss rfl rfl rfl rfl <|
      traverse_miss rfl rfl rfl rfl <| traverse_plain rfl, rfl⟩
  obtain ⟨r, third, leaf⟩ : ∃ r, traverse false (sentFrom 0x51#32) (grown portThree) ∅ = pure r ∧
      r.leaf = portLeaf 3 :=
    ⟨_, traverse_hit rfl rfl rfl <| traverse_hit rfl rfl rfl <| traverse_hit rfl rfl rfl <|
      traverse_plain rfl, rfl⟩
  obtain ⟨r₀, fresh, leaf₀⟩ : ∃ r, traverse false (sentFrom 0x51#32)
      (functionDiagram 0 lowDigit .unexplored) ∅ = pure r ∧ r.leaf = portLeaf 5 :=
    ⟨_, traverse_miss rfl rfl rfl rfl <| traverse_miss rfl rfl rfl rfl <|
      traverse_miss rfl rfl rfl rfl <| traverse_plain rfl, rfl⟩
  refine ⟨fits, functionDiagram 0 lowDigit .unexplored, _, r, r₀, rfl, ?_, third, fresh, fun same => ?_⟩
  · simp only [handleAll, List.foldlM_cons, List.foldlM_nil, first, pure_bind, grown₁, second, grown₂]
  · rw [leaf, leaf₀] at same
    have ports := congrArg (Multiset.map fun unit => (unit.predActions.get outPort).value) same
    exact absurd ports (by decide)

instance (x : Packet) (call : TraceCall) : Decidable (Holds x call) := by
  cases call <;> exact inferInstanceAs (Decidable (_ = _))

/-- The same function after a packet from 0x51, of which all holds that is recorded. -/
theorem handleAll_fresh_straight :
    let d : Fdd := functionDiagram 0 lowDigit .unexplored
    ∃ d' r r₀, handleAll true d [sentFrom 0x51#32] = pure d' ∧
      traverse true (sentFrom 0x31#32) d' ∅ = pure r ∧ traverse true (sentFrom 0x31#32) d ∅ = pure r₀ ∧
        r.leaf.sets = r₀.leaf.sets ∧ r.leaf.flowSettings = r₀.leaf.flowSettings := by
  intro d
  have diagram : DiagramOf digits d := ⟨d, rfl, .refl d⟩
  have whole : digits.Whole := fun _ _ _ => ⟨Field.exactly_exact _ _, .inr rfl⟩
  have straight : StraightOn d (sentFrom 0x51#32) := by
    refine .returned (by decide) fun d compiled => ?_
    obtain rfl := Option.some.inj compiled
    refine .returned (by decide) fun d compiled => ?_
    obtain rfl := Option.some.inj compiled
    refine .returned (by decide) fun d compiled => ?_
    obtain rfl := Option.some.inj compiled
    exact .plain rfl
  refine handleAll_fresh true diagram (fun y _ => settles_whole whole diagram y) ?_
    (settles_whole whole diagram _)
  exact fun y mem => List.mem_singleton.mp mem ▸ straight

end

end Drunos.Retic
