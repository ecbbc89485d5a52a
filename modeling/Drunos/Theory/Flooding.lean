/-
# Drunos.Theory.Flooding — floods over cabled ports

Nodes have ports, and a cable joins two ports. A node that takes in a copy at an open port
sends one out of each of its other open ports; a copy goes over the cable of its port, or
leaves the net where there is none. What comes in at a closed port is dropped. Copies in
flight are taken in one at a time, in any order.

In a `Forest` of open cables no node takes in a second copy (`Spread.nodup`), each cable that
leads away from the nodes reached so far has one copy on it (`Spread.crossing`), and a flood
comes to an end (`flood_ends`). Then it has reached whatever the open cables connect
(`flood_complete`).
-/
import Drunos.Theory.Run
import Mathlib.Algebra.BigOperators.Group.Finset.Basic
import Mathlib.Algebra.GroupWithZero.Nat
import Mathlib.Algebra.Order.BigOperators.Group.Finset
import Mathlib.Data.Finset.Basic
import Mathlib.Data.Multiset.Filter
import Mathlib.Data.Multiset.Count
import Mathlib.Logic.Relation

namespace Drunos.Theory.Flooding

open Relation Run

set_option autoImplicit false

/-- Nodes, ports and cables. -/
structure Net (V P : Type*) where
  node : P → V
  /-- The other end of the cable at a port. -/
  peer : P → Option P
  /-- The open ports of a node. -/
  ports : V → Finset P
  peer_symm : ∀ {p q}, peer p = some q → peer q = some p
  node_of_mem : ∀ {v p}, p ∈ ports v → node p = v

variable {V P : Type*} [DecidableEq P] {net : Net V P}

namespace Net

def Open (net : Net V P) (p : P) : Prop := p ∈ net.ports (net.node p)

/-- A cable between two open ports. -/
structure Cable (net : Net V P) (p q : P) : Prop where
  peer : net.peer p = some q
  left : net.Open p
  right : net.Open q

/-- An open cable leads from one node to the other, and none of its ends is `c`. -/
def HopBut (net : Net V P) (c : P) (u v : V) : Prop :=
  ∃ p q, net.Cable p q ∧ p ≠ c ∧ q ≠ c ∧ net.node p = u ∧ net.node q = v

/-- An open cable leads from one node to the other, and both are among the given ones. -/
def HopIn (net : Net V P) (among : List V) (u v : V) : Prop :=
  u ∈ among ∧ v ∈ among ∧ ∃ p q, net.Cable p q ∧ net.node p = u ∧ net.node q = v

def Hop (net : Net V P) (u v : V) : Prop := ∃ p q, net.Cable p q ∧ net.node p = u ∧ net.node q = v

/-- The two nodes of an open cable are not connected without it. -/
def Forest (net : Net V P) : Prop :=
  ∀ p q, net.Cable p q → ¬ReflTransGen (net.HopBut p) (net.node p) (net.node q)

/-- Where copies come in when a node sends them out of its open ports but `p`. -/
def arrivals (net : Net V P) (p : P) : Multiset P :=
  ((net.ports (net.node p)).erase p).val.filterMap net.peer

/-- The ports where copies leave the net. -/
def leaving (net : Net V P) (p : P) : Multiset P :=
  ((net.ports (net.node p)).erase p).val.filter fun q => net.peer q = none

end Net

structure State (V P : Type*) where
  /-- The ports at which copies are about to come in. -/
  flight : Multiset P
  /-- The nodes that have sent copies out. -/
  handled : List V := []
  /-- The ports where copies have left the net. -/
  delivered : Multiset P := 0

/-- One copy comes in at a port. -/
def start (origin : P) : State V P := { flight := {origin} }

/-- A copy in flight is taken in at a port. -/
def step (net : Net V P) [DecidablePred net.Open] (s : State V P) (p : P) : State V P :=
  if p ∈ s.flight then
    if net.Open p then
      { flight := s.flight.erase p + net.arrivals p
        handled := net.node p :: s.handled
        delivered := s.delivered + net.leaving p }
    else { s with flight := s.flight.erase p }
  else s

/-! ## Cables -/

section

variable {p q r : P} {u v : V}

omit [DecidableEq P] in
theorem Net.Cable.symm (cable : net.Cable p q) : net.Cable q p :=
  ⟨net.peer_symm cable.peer, cable.right, cable.left⟩

omit [DecidableEq P] in
theorem Net.Cable.unique (cable : net.Cable p q) (other : net.Cable r q) : p = r :=
  Option.some.inj (cable.symm.peer.symm.trans other.symm.peer)

omit [DecidableEq P] in
theorem Net.Forest.node_ne (forest : net.Forest) (cable : net.Cable p q) :
    net.node p ≠ net.node q := fun same =>
  forest p q cable (same ▸ .refl)

theorem Net.mem_arrivals : q ∈ net.arrivals p ↔
    ∃ r ∈ net.ports (net.node p), r ≠ p ∧ net.peer r = some q := by
  simp only [Net.arrivals, Multiset.mem_filterMap, Finset.mem_val, Finset.mem_erase]
  exact exists_congr fun r => by tauto

/-- No two cables end at one port. -/
theorem Net.arrivals_nodup : (net.arrivals p).Nodup := by
  refine Multiset.Nodup.filterMap _ (fun a b c here there => ?_) (Finset.nodup _)
  exact Option.some.inj ((net.peer_symm here).symm.trans (net.peer_symm there))

theorem Net.card_arrivals : (net.arrivals p).card ≤ (net.ports (net.node p)).card := by
  have mapped : ∀ m : Multiset P, (m.filterMap net.peer).card ≤ m.card := fun m =>
    Quotient.inductionOn m fun _ => List.length_filterMap_le _ _
  exact (mapped _).trans Finset.card_erase_le

theorem Net.mem_leaving : q ∈ net.leaving p ↔
    q ∈ net.ports (net.node p) ∧ q ≠ p ∧ net.peer q = none := by
  simp only [Net.leaving, Multiset.mem_filter, Finset.mem_val, Finset.mem_erase]
  tauto

theorem Net.leaving_nodup : (net.leaving p).Nodup := Multiset.Nodup.filter _ (Finset.nodup _)

omit [DecidableEq P] in
/-- What is sent out goes to another node than the one it is sent from. -/
theorem Net.cable_of_port (mem : r ∈ net.ports v) (peer : net.peer r = some q)
    (isOpen : net.Open q) : net.Cable r q ∧ net.node r = v := by
  have node := net.node_of_mem mem
  exact ⟨⟨peer, by rw [Net.Open, node]; exact mem, isOpen⟩, node⟩

omit [DecidableEq P] in
theorem Net.HopIn.mono {fewer more : List V} (sub : ∀ v ∈ fewer, v ∈ more)
    (hop : net.HopIn fewer u v) : net.HopIn more u v :=
  ⟨sub u hop.1, sub v hop.2.1, hop.2.2⟩

omit [DecidableEq P] in
/-- A way among nodes that are not the one of a port is a way without its cable. -/
theorem Net.HopIn.but {among : List V} (away : net.node r ∉ among)
    (way : ReflTransGen (net.HopIn among) u v) : ReflTransGen (net.HopBut r) u v := by
  have each : net.HopIn among ≤ net.HopBut r := by
    rintro a b ⟨memA, memB, p, q, cable, nodeP, nodeQ⟩
    refine ⟨p, q, cable, ?_, ?_, nodeP, nodeQ⟩
    · rintro rfl
      exact away (nodeP ▸ memA)
    · rintro rfl
      exact away (nodeQ ▸ memB)
  exact ReflTransGen.mono each u v way

end

/-! ## What a flood keeps -/

/-- A flood that has left the node it came in at. -/
structure Spread (net : Net V P) (origin : P) (s : State V P) : Prop where
  nodup : s.handled.Nodup
  first : net.node origin ∈ s.handled
  connected : ∀ u ∈ s.handled, ∀ v ∈ s.handled, ReflTransGen (net.HopIn s.handled) u v
  /-- What comes in at an open port has been sent by a node reached to one that is not. -/
  frontier : ∀ q ∈ s.flight, net.Open q →
    net.node q ∉ s.handled ∧ ∃ p, net.Cable p q ∧ net.node p ∈ s.handled
  crossing : ∀ p q, net.Cable p q → net.node p ∈ s.handled → net.node q ∉ s.handled →
    s.flight.count q = 1
  left : ∀ q ∈ s.delivered,
    net.Open q ∧ net.peer q = none ∧ net.node q ∈ s.handled ∧ q ≠ origin
  leaves : ∀ q, net.Open q → net.peer q = none → net.node q ∈ s.handled → q ≠ origin →
    s.delivered.count q = 1

variable [DecidablePred net.Open] {s : State V P} {origin p : P}

/-- The first node sends its copies. -/
theorem spread_start (forest : net.Forest) (host : net.peer origin = none) (isOpen : net.Open origin) :
    Spread net origin (step net (start origin) origin) := by
  have state : step net (start origin) origin =
      ⟨net.arrivals origin, [net.node origin], net.leaving origin⟩ := by
    simp [step, start, isOpen]
  rw [state]
  have sent : ∀ q ∈ net.arrivals origin, net.Open q →
      ∃ r, net.Cable r q ∧ net.node r = net.node origin := by
    intro q mem openQ
    obtain ⟨r, port, -, peer⟩ := Net.mem_arrivals.mp mem
    exact ⟨r, Net.cable_of_port port peer openQ⟩
  refine ⟨List.nodup_singleton _, List.mem_singleton_self _, ?_, ?_, ?_, ?_, ?_⟩
  · simp only [List.mem_singleton, forall_eq]
    exact .refl
  · intro q mem openQ
    obtain ⟨r, cable, node⟩ := sent q mem openQ
    simp only [List.mem_singleton]
    exact ⟨fun same => forest.node_ne cable (node.trans same.symm), r, cable, node⟩
  · intro p q cable near far
    have ne : p ≠ origin := by
      rintro rfl
      exact absurd (cable.peer.symm.trans host) (by simp)
    exact Multiset.count_eq_one_of_mem Net.arrivals_nodup (Net.mem_arrivals.mpr
      ⟨p, List.mem_singleton.mp near ▸ cable.left, ne, cable.peer⟩)
  · intro q mem
    obtain ⟨port, ne, peer⟩ := Net.mem_leaving.mp mem
    have node := net.node_of_mem port
    exact ⟨by rw [Net.Open, node]; exact port, peer, by simp [node], ne⟩
  · intro q openQ peer near ne
    simp only [List.mem_singleton] at near
    exact Multiset.count_eq_one_of_mem Net.leaving_nodup
      (Net.mem_leaving.mpr ⟨near ▸ openQ, ne, peer⟩)

omit [DecidablePred net.Open] in
/-- A closed port drops what comes in. -/
theorem Spread.closed (spread : Spread net origin s) (isClosed : ¬net.Open p) :
    Spread net origin { s with flight := s.flight.erase p } where
  nodup := spread.nodup
  first := spread.first
  connected := spread.connected
  frontier q mem isOpen := spread.frontier q (Multiset.mem_of_mem_erase mem) isOpen
  crossing a b cable near far := by
    have ne : b ≠ p := fun same => isClosed (same ▸ cable.right)
    rw [Multiset.count_erase_of_ne ne]
    exact spread.crossing a b cable near far
  left := spread.left
  leaves := spread.leaves

omit [DecidablePred net.Open] in
/-- Of two copies on open cables, the second does not go to the node that takes in the first. -/
theorem Spread.apart (spread : Spread net origin s) (forest : net.Forest) (mem : p ∈ s.flight)
    (isOpen : net.Open p) {q : P} (other : q ∈ s.flight.erase p) (openQ : net.Open q) :
    net.node q ≠ net.node p := by
  obtain ⟨far, a, cable, near⟩ := spread.frontier p mem isOpen
  obtain ⟨farQ, b, cableQ, nearQ⟩ := spread.frontier q (Multiset.mem_of_mem_erase other) openQ
  have ne : p ≠ q := by
    rintro rfl
    have once := spread.crossing a p cable near far
    have again := Multiset.one_le_count_iff_mem.mpr other
    rw [Multiset.count_erase_self, once] at again
    omega
  intro same
  -- from the node to the one that sent it the second copy, without the cable of that copy
  have back : net.HopBut q (net.node p) (net.node a) :=
    ⟨p, a, cable.symm, ne, fun here => farQ (here ▸ near), rfl, rfl⟩
  refine forest q b cableQ.symm (same ▸ .head back ?_)
  exact Net.HopIn.but farQ (spread.connected _ near _ nearQ)

omit [DecidablePred net.Open] in
/-- What the node sends goes to nodes that have not been reached. -/
theorem Spread.beyond (spread : Spread net origin s) (forest : net.Forest) (mem : p ∈ s.flight)
    (isOpen : net.Open p) {r q : P} (cable : net.Cable r q) (here : net.node r = net.node p)
    (ne : r ≠ p) : net.node q ∉ net.node p :: s.handled := by
  obtain ⟨far, a, cableP, near⟩ := spread.frontier p mem isOpen
  intro reached
  rcases List.mem_cons.mp reached with same | reached
  · exact forest.node_ne cable (here.trans same.symm)
  · have farR : net.node r ∉ s.handled := here ▸ far
    have back : net.HopBut r (net.node p) (net.node a) :=
      ⟨p, a, cableP.symm, ne.symm, fun same => farR (same ▸ near), rfl, rfl⟩
    exact forest r q cable (here ▸ .head back (Net.HopIn.but farR (spread.connected _ near _ reached)))

omit [DecidablePred net.Open] in
/-- A node that has not been reached takes in a copy and sends it on. -/
theorem Spread.opened (spread : Spread net origin s) (forest : net.Forest) (mem : p ∈ s.flight)
    (isOpen : net.Open p) :
    Spread net origin
      { flight := s.flight.erase p + net.arrivals p
        handled := net.node p :: s.handled
        delivered := s.delivered + net.leaving p } := by
  obtain ⟨far, a, cable, near⟩ := spread.frontier p mem isOpen
  refine ⟨List.nodup_cons.mpr ⟨far, spread.nodup⟩, List.mem_cons_of_mem _ spread.first, ?_, ?_, ?_, ?_, ?_⟩
  · -- the node is connected with the one that has sent it the copy
    have old : ∀ u ∈ s.handled, ∀ v ∈ s.handled,
        ReflTransGen (net.HopIn (net.node p :: s.handled)) u v := fun u memU v memV =>
      ReflTransGen.mono (fun _ _ => Net.HopIn.mono fun _ => List.mem_cons_of_mem _) u v
        (spread.connected u memU v memV)
    have there : net.HopIn (net.node p :: s.handled) (net.node a) (net.node p) :=
      ⟨List.mem_cons_of_mem _ near, List.mem_cons_self, a, p, cable, rfl, rfl⟩
    have back : net.HopIn (net.node p :: s.handled) (net.node p) (net.node a) :=
      ⟨List.mem_cons_self, List.mem_cons_of_mem _ near, p, a, cable.symm, rfl, rfl⟩
    simp only [List.forall_mem_cons]
    exact ⟨⟨.refl, fun v memV => .head back (old _ near v memV)⟩,
      fun u memU => ⟨.tail (old u memU _ near) there, old u memU⟩⟩
  · intro q memQ openQ
    rcases Multiset.mem_add.mp memQ with other | sent
    · obtain ⟨farQ, b, cableQ, nearQ⟩ := spread.frontier q (Multiset.mem_of_mem_erase other) openQ
      have apart := spread.apart forest mem isOpen other openQ
      exact ⟨by simp [apart, farQ], b, cableQ, List.mem_cons_of_mem _ nearQ⟩
    · obtain ⟨r, port, ne, peer⟩ := Net.mem_arrivals.mp sent
      obtain ⟨cableQ, node⟩ := Net.cable_of_port port peer openQ
      exact ⟨spread.beyond forest mem isOpen cableQ node ne, r, cableQ, by simp [node]⟩
  · intro b c cableB near' far'
    rw [Multiset.count_add]
    obtain ⟨notHere, farC⟩ : net.node c ≠ net.node p ∧ net.node c ∉ s.handled := by
      simpa using far'
    have ne : c ≠ p := fun same => notHere (congrArg net.node same)
    rw [Multiset.count_erase_of_ne ne]
    rcases List.mem_cons.mp near' with here | nearB
    · -- a cable of the node itself
      have notYet : c ∉ s.flight := by
        intro memC
        obtain ⟨-, d, cableD, nearD⟩ := spread.frontier c memC cableB.right
        exact far (here ▸ cableB.unique cableD ▸ nearD)
      have notBack : b ≠ p := by
        rintro rfl
        exact farC (cableB.symm.unique cable ▸ near)
      rw [Multiset.count_eq_zero_of_notMem notYet, zero_add]
      exact Multiset.count_eq_one_of_mem Net.arrivals_nodup
        (Net.mem_arrivals.mpr ⟨b, here ▸ cableB.left, notBack, cableB.peer⟩)
    · have notSent : c ∉ net.arrivals p := by
        intro sent
        obtain ⟨r, port, -, peer⟩ := Net.mem_arrivals.mp sent
        obtain ⟨cableC, node⟩ := Net.cable_of_port port peer cableB.right
        exact far (node ▸ cableB.unique cableC ▸ nearB)
      rw [Multiset.count_eq_zero_of_notMem notSent, add_zero]
      exact spread.crossing b c cableB nearB farC
  · intro q memQ
    rcases Multiset.mem_add.mp memQ with old | new
    · obtain ⟨openQ, peer, nearQ, ne⟩ := spread.left q old
      exact ⟨openQ, peer, List.mem_cons_of_mem _ nearQ, ne⟩
    · obtain ⟨port, -, peer⟩ := Net.mem_leaving.mp new
      have node := net.node_of_mem port
      refine ⟨by rw [Net.Open, node]; exact port, peer, by simp [node], ?_⟩
      rintro rfl
      exact far (node ▸ spread.first)
  · intro q openQ peer near' ne
    rw [Multiset.count_add]
    rcases List.mem_cons.mp near' with here | nearQ
    · have notYet : q ∉ s.delivered := fun old => far (here ▸ (spread.left q old).2.2.1)
      have notCabled : q ≠ p := by
        rintro rfl
        exact absurd (peer.symm.trans cable.symm.peer) (by simp)
      rw [Multiset.count_eq_zero_of_notMem notYet, zero_add]
      exact Multiset.count_eq_one_of_mem Net.leaving_nodup
        (Net.mem_leaving.mpr ⟨here ▸ openQ, notCabled, peer⟩)
    · have notSent : q ∉ net.leaving p := by
        intro new
        exact far (net.node_of_mem (Net.mem_leaving.mp new).1 ▸ nearQ)
      rw [Multiset.count_eq_zero_of_notMem notSent, add_zero]
      exact spread.leaves q openQ peer nearQ ne

theorem Spread.step (spread : Spread net origin s) (forest : net.Forest) (p : P) :
    Spread net origin (step net s p) := by
  unfold Flooding.step
  split
  · split
    · exact spread.opened forest ‹_› ‹_›
    · exact spread.closed ‹_›
  · exact spread

/-! ## Whole floods -/

/-- Nothing has been taken in yet, or the flood has left the first node. -/
theorem flood_spread (forest : net.Forest) (host : net.peer origin = none)
    (isOpen : net.Open origin) (ps : List P) :
    final (step net) (start origin) ps = start origin ∨
      Spread net origin (final (step net) (start origin) ps) := by
  refine invariant_final (fun s => s = start origin ∨ Spread net origin s) (fun s p inv => ?_) ps
    (.inl rfl)
  rcases inv with rfl | spread
  · by_cases first : p = origin
    · rw [first]
      exact .inr (spread_start forest host isOpen)
    · refine .inl ?_
      have away : p ∉ (start origin : State V P).flight := by simpa [start] using first
      rw [Flooding.step, if_neg away]
  · exact .inr (spread.step forest p)

/-- **Whatever the order, no node takes in a second copy, and none leaves the net twice at a
port or where it came in.** -/
theorem flood_once (forest : net.Forest) (host : net.peer origin = none)
    (isOpen : net.Open origin) (ps : List P) :
    let s := final (step net) (start origin) ps
    s.handled.Nodup ∧ s.delivered.Nodup ∧ origin ∉ s.delivered := by
  rcases flood_spread forest host isOpen ps with first | spread
  · rw [first]
    exact ⟨List.nodup_nil, Multiset.nodup_zero, Multiset.notMem_zero _⟩
  · refine ⟨spread.nodup, Multiset.nodup_iff_count_le_one.mpr fun q => ?_, fun mem =>
      (spread.left origin mem).2.2.2 rfl⟩
    by_cases mem : q ∈ (final (step net) (start origin) ps).delivered
    · obtain ⟨openQ, peer, near, ne⟩ := spread.left q mem
      exact le_of_eq (spread.leaves q openQ peer near ne)
    · rw [Multiset.count_eq_zero_of_notMem mem]
      exact Nat.zero_le 1

omit [DecidablePred net.Open] in
theorem Spread.reached (spread : Spread net origin s) {v : V} (mem : v ∈ s.handled) :
    ReflTransGen net.Hop (net.node origin) v :=
  ReflTransGen.mono (fun _ _ hop => hop.2.2) _ _ (spread.connected _ spread.first v mem)

/-- The copies that the nodes reached may have sent. -/
def sent (net : Net V P) (s : State V P) : ℕ := (s.handled.map fun v => (net.ports v).card).sum

/-- A copy in flight has been sent by a node, and is taken in once. -/
theorem sent_step (taken : p ∈ s.flight) :
    (step net s p).flight.card + 1 + sent net s ≤ s.flight.card + sent net (step net s p) := by
  have one := Multiset.card_erase_add_one taken
  rw [step, if_pos taken]
  split
  · have fewer : (net.arrivals p).card ≤ (net.ports (net.node p)).card := net.card_arrivals
    simp only [sent, Multiset.card_add, List.map_cons, List.sum_cons]
    omega
  · simp only [sent]
    omega

theorem sent_run : ∀ {ps : List P} {s : State V P}, Each (step net) (fun s p => p ∈ s.flight) s ps →
    (final (step net) s ps).flight.card + ps.length + sent net s ≤
      s.flight.card + sent net (final (step net) s ps)
  | [], s, _ => by simp
  | p :: ps, s, ⟨taken, rest⟩ => by
      have one : _ ≤ s.flight.card + sent net (step net s p) := sent_step taken
      have more := sent_run rest
      simp only [final_cons, List.length_cons] at more ⊢
      omega

/-- **Taking in copies comes to an end**, since the nodes send no more of them than they have
ports, once each. -/
theorem flood_ends (forest : net.Forest) (host : net.peer origin = none) (isOpen : net.Open origin)
    {nodes : Finset V} (connected : ∀ v, ReflTransGen net.Hop (net.node origin) v → v ∈ nodes)
    {ps : List P} (taken : Each (step net) (fun s p => p ∈ s.flight) (start origin) ps) :
    ps.length ≤ 1 + ∑ v ∈ nodes, (net.ports v).card := by
  classical
  have count := sent_run taken
  have bound : sent net (final (step net) (start origin) ps) ≤ ∑ v ∈ nodes, (net.ports v).card := by
    rcases flood_spread forest host isOpen ps with first | spread
    · rw [first]
      exact Nat.zero_le _
    · rw [sent, ← List.sum_toFinset _ spread.nodup]
      refine Finset.sum_le_sum_of_subset fun v mem => connected v (spread.reached ?_)
      simpa using mem
  have none : sent net (start origin : State V P) = 0 := rfl
  have one : (start origin : State V P).flight.card = 1 := Multiset.card_singleton _
  omega

/-- **Once nothing is in flight, the nodes reached are those that open cables connect with the
first one, and a copy has left at each of their open ports without a cable.** -/
theorem flood_complete (forest : net.Forest) (host : net.peer origin = none)
    (isOpen : net.Open origin) {ps : List P}
    (quiet : (final (step net) (start origin) ps).flight = 0) :
    let s := final (step net) (start origin) ps
    (∀ v, v ∈ s.handled ↔ ReflTransGen net.Hop (net.node origin) v) ∧
      ∀ q, q ∈ s.delivered ↔
        net.Open q ∧ net.peer q = none ∧ q ≠ origin ∧ ReflTransGen net.Hop (net.node origin) (net.node q) := by
  rcases flood_spread forest host isOpen ps with first | spread
  · rw [first] at quiet
    exact absurd quiet (by simp [start])
  · have reached : ∀ v, v ∈ (final (step net) (start origin) ps).handled ↔
        ReflTransGen net.Hop (net.node origin) v := by
      intro v
      constructor
      · exact spread.reached
      · intro way
        induction way with
        | refl => exact spread.first
        | tail _ hop near =>
            obtain ⟨p, q, cable, rfl, rfl⟩ := hop
            -- a cable to a node that is not reached would have a copy on it
            by_contra far
            have once := spread.crossing p q cable near far
            rw [quiet, Multiset.count_zero] at once
            exact absurd once (by decide)
    refine ⟨reached, fun q => ⟨fun mem => ?_, fun ⟨openQ, peer, ne, way⟩ => ?_⟩⟩
    · obtain ⟨openQ, peer, near, ne⟩ := spread.left q mem
      exact ⟨openQ, peer, ne, (reached _).mp near⟩
    · exact Multiset.one_le_count_iff_mem.mp
        (le_of_eq (spread.leaves q openQ peer ((reached _).mpr way) ne).symm)

end Drunos.Theory.Flooding
