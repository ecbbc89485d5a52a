/-
# Drunos.Topology.LinkDiscovery — the two stores of link discovery

`LinkDiscovery.cc` keeps the known links in `m_links`, a set ordered by expiry time
alone, and for each port in `m_out_edges` an iterator into that set. A node of the
set has an identity here, which is what an iterator holds; one whose node has been
erased dangles, and to follow it is undefined. A step has no result then, nor when
one of the internal checks fails.

Part of the work of `timerEvent` stands inside `assert`, so the functions are told
whether assertions are compiled in.
-/
import Drunos.Topology.Location
import Mathlib.Data.List.Perm.Basic
import Mathlib.Logic.Function.Basic

namespace Drunos.Topology

set_option autoImplicit false

structure DiscoveredLink where
  source : SwitchAndPort
  target : SwitchAndPort
  validThrough : Nat
  deriving DecidableEq

/-- A node of `m_links`. -/
structure Node where
  id : Nat
  link : DiscoveredLink
  deriving DecidableEq

/-- The port is one of the two ends of the link. -/
def DiscoveredLink.hasEnd (l : DiscoveredLink) (p : SwitchAndPort) : Prop :=
  l.source = p ∨ l.target = p

instance (l : DiscoveredLink) (p : SwitchAndPort) : Decidable (l.hasEnd p) :=
  inferInstanceAs (Decidable (_ ∨ _))

theorem DiscoveredLink.hasEnd_iff {l : DiscoveredLink} {p : SwitchAndPort} :
    l.hasEnd p ↔ p = l.source ∨ p = l.target :=
  or_congr eq_comm eq_comm

inductive Signal where
  | linkDiscovered (source target : SwitchAndPort)
  | linkBroken (source target : SwitchAndPort)
  deriving DecidableEq

structure LinkDiscovery where
  /-- `m_links`, in order. -/
  links : List Node := []
  /-- `m_out_edges`. -/
  outEdges : SwitchAndPort → Option Nat := fun _ => none
  nextId : Nat := 0

namespace LinkDiscovery

/-! ## Operations of the containers -/

def insertNode (n : Node) : List Node → List Node
  | [] => [n]
  | m :: ms =>
      if n.link.validThrough < m.link.validThrough then n :: m :: ms else m :: insertNode n ms

/-- `m_links.insert`: a node of the same expiry time is taken for the link. -/
def insert (link : DiscoveredLink) (s : LinkDiscovery) : LinkDiscovery × Nat :=
  match s.links.find? fun n => n.link.validThrough = link.validThrough with
  | some n => (s, n.id)
  | none =>
      ({ s with links := insertNode ⟨s.nextId, link⟩ s.links, nextId := s.nextId + 1 }, s.nextId)

/-- The node of an iterator, if it has not been erased. -/
def node (s : LinkDiscovery) (id : Nat) : Option Node := s.links.find? fun n => n.id = id

/-- `m_links.erase`. -/
def erase (id : Nat) (s : LinkDiscovery) : LinkDiscovery :=
  { s with links := s.links.filter fun n => n.id ≠ id }

def eraseEdge (p : SwitchAndPort) (s : LinkDiscovery) : LinkDiscovery :=
  { s with outEdges := Function.update s.outEdges p none }

def setEdge (p : SwitchAndPort) (id : Nat) (s : LinkDiscovery) : LinkDiscovery :=
  { s with outEdges := Function.update s.outEdges p (some id) }

/-- `m_out_edges.erase(p) == 1`, checked. -/
def checkEraseEdge (p : SwitchAndPort) (s : LinkDiscovery) : Option LinkDiscovery :=
  if (s.outEdges p).isSome then some (s.eraseEdge p) else none

/-! ## handleBeacon -/

/-- `source > target` are swapped before the beacon is handled. -/
def ordered (a b : SwitchAndPort) : SwitchAndPort × SwitchAndPort :=
  if b.lt a then (b, a) else (a, b)

/-- The older edge at `source` is removed: whether there was none. -/
def removeOlder (source target : SwitchAndPort) (s : LinkDiscovery) : Option (LinkDiscovery × Bool) :=
  match s.outEdges source with
  | none => some (s, true)
  | some id =>
      (s.node id).map fun _ => (((s.erase id).eraseEdge source).eraseEdge target, false)

def insertNew (link : DiscoveredLink) (s : LinkDiscovery) : LinkDiscovery :=
  let (s, it) := s.insert link
  (s.setEdge link.source it).setEdge link.target it

/-- `ttl` is twice the poll interval. -/
def handleBeacon (ttl : Nat) (source target : SwitchAndPort) (now : Nat) (s : LinkDiscovery) :
    Option (LinkDiscovery × List Signal) :=
  (s.removeOlder source target).map fun (s, isNew) =>
    (s.insertNew ⟨source, target, now + ttl⟩,
      if isNew then [.linkDiscovered source target] else [])

/-! ## clearLinkAt -/

def clearLinkAt (asserts : Bool) (source : SwitchAndPort) (s : LinkDiscovery) :
    Option (LinkDiscovery × List Signal) :=
  match s.outEdges source with
  | none => some (s, [])
  | some id =>
      match s.node id with
      | none => none
      | some n =>
          if asserts ∧ ¬n.link.hasEnd source then none
          else
            let target := if n.link.source = source then n.link.target else n.link.source
            ((s.erase id).checkEraseEdge source).bind fun s =>
              (s.checkEraseEdge target).map fun s =>
                (s, [if source.lt target then .linkBroken source target
                  else .linkBroken target source])

/-! ## timerEvent -/

/-- The edges of an expired link are erased inside assertions. -/
def eraseExpired (asserts : Bool) (link : DiscoveredLink) (s : LinkDiscovery) :
    Option LinkDiscovery :=
  if asserts then (s.checkEraseEdge link.source).bind (checkEraseEdge link.target) else some s

/-- The expired links are removed from the front of the set. -/
def removeExpired (asserts : Bool) (now : Nat) :
    List Node → LinkDiscovery → Option (LinkDiscovery × List Signal)
  | [], s => some ({ s with links := [] }, [])
  | n :: ns, s =>
      if n.link.validThrough < now then do
        let s ← s.eraseExpired asserts n.link
        let (s, signals) ← removeExpired asserts now ns s
        return (s, .linkBroken n.link.source n.link.target :: signals)
      else some ({ s with links := n :: ns }, [])

def timerEvent (asserts : Bool) (now : Nat) (s : LinkDiscovery) :
    Option (LinkDiscovery × List Signal) :=
  removeExpired asserts now s.links s

/-! ## Events -/

inductive LinkEvent where
  | beacon (source target : SwitchAndPort) (now : Nat)
  | portDown (port : SwitchAndPort)
  | timer (now : Nat)

def handle (asserts : Bool) (ttl : Nat) (s : LinkDiscovery) :
    LinkEvent → Option (LinkDiscovery × List Signal)
  | .beacon source target now =>
      s.handleBeacon ttl (ordered source target).1 (ordered source target).2 now
  | .portDown port => s.clearLinkAt asserts port
  | .timer now => s.timerEvent asserts now

/-! ## What the operations do to the set -/

theorem insertNode_perm (n : Node) : ∀ ms : List Node, (insertNode n ms).Perm (n :: ms)
  | [] => .refl _
  | m :: ms => by
      rw [insertNode]
      split
      · exact .refl _
      · exact ((insertNode_perm n ms).cons m).trans (.swap n m ms)

theorem mem_insertNode {n m : Node} {ms : List Node} : m ∈ insertNode n ms ↔ m = n ∨ m ∈ ms := by
  rw [(insertNode_perm n ms).mem_iff, List.mem_cons]

theorem insertNode_sorted {n : Node} : ∀ {ms : List Node},
    (∀ m ∈ ms, m.link.validThrough ≠ n.link.validThrough) →
      ms.Pairwise (fun a b => a.link.validThrough < b.link.validThrough) →
      (insertNode n ms).Pairwise fun a b => a.link.validThrough < b.link.validThrough
  | [], _, _ => List.pairwise_singleton _ _
  | m :: ms, ne, sorted => by
      obtain ⟨first, sorted'⟩ := List.pairwise_cons.mp sorted
      obtain ⟨ne, neRest⟩ := List.forall_mem_cons.mp ne
      rw [insertNode]
      split
      · refine List.pairwise_cons.mpr ⟨fun a mem => ?_, sorted⟩
        rcases List.mem_cons.mp mem with rfl | later
        · assumption
        · exact Nat.lt_trans ‹_› (first a later)
      · refine List.pairwise_cons.mpr ⟨fun a mem => ?_, insertNode_sorted neRest sorted'⟩
        rcases mem_insertNode.mp mem with rfl | later
        · omega
        · exact first a later

/-- The nodes are different, in order, and made before the next one. -/
structure WellFormed (s : LinkDiscovery) : Prop where
  ids : (s.links.map Node.id).Nodup
  sorted : s.links.Pairwise fun a b => a.link.validThrough < b.link.validThrough
  fresh : ∀ n ∈ s.links, n.id < s.nextId
  /-- Iterators are of nodes that have been made. -/
  edges : ∀ p id, s.outEdges p = some id → id < s.nextId

theorem WellFormed.initial : WellFormed {} :=
  ⟨List.nodup_nil, .nil, fun _ mem => absurd mem List.not_mem_nil, fun _ _ found => nomatch found⟩

namespace WellFormed

variable {s : LinkDiscovery}

theorem node_of_mem (wf : s.WellFormed) {n : Node} (mem : n ∈ s.links) : s.node n.id = some n := by
  unfold node
  have ids := wf.ids
  generalize s.links = links at mem ids
  induction links with
  | nil => cases mem
  | cons m links ih =>
      obtain ⟨new, ids⟩ := List.nodup_cons.mp ids
      rcases List.mem_cons.mp mem with rfl | later
      · exact List.find?_cons_of_pos (by simp)
      · have ne : m.id ≠ n.id := fun same => new (same ▸ List.mem_map_of_mem later)
        rw [List.find?_cons_of_neg (by simpa using ne)]
        exact ih later ids

/-- Nodes of one identity are one. -/
theorem eq_of_id (wf : s.WellFormed) {n m : Node} (mem : n ∈ s.links) (mem' : m ∈ s.links)
    (same : n.id = m.id) : n = m := by
  have found := wf.node_of_mem mem
  rw [same, wf.node_of_mem mem'] at found
  exact (Option.some.inj found).symm

theorem eraseEdge (wf : s.WellFormed) (p : SwitchAndPort) : (s.eraseEdge p).WellFormed where
  ids := wf.ids
  sorted := wf.sorted
  fresh := wf.fresh
  edges := by
    intro q id found
    unfold LinkDiscovery.eraseEdge at found
    by_cases same : q = p
    · simp [same] at found
    · exact wf.edges q id (by simpa [same] using found)

theorem setEdge (wf : s.WellFormed) (p : SwitchAndPort) {id : Nat} (made : id < s.nextId) :
    (s.setEdge p id).WellFormed where
  ids := wf.ids
  sorted := wf.sorted
  fresh := wf.fresh
  edges := by
    intro q id' found
    unfold LinkDiscovery.setEdge at found
    by_cases same : q = p
    · obtain rfl : id = id' := by simpa [same] using found
      exact made
    · exact wf.edges q id' (by simpa [same] using found)

theorem erase (wf : s.WellFormed) (id : Nat) : (s.erase id).WellFormed where
  ids := wf.ids.sublist (List.filter_sublist.map _)
  sorted := wf.sorted.sublist List.filter_sublist
  fresh := fun n mem => wf.fresh n (List.mem_filter.mp mem).1
  edges := wf.edges

theorem checkEraseEdge (wf : s.WellFormed) {p : SwitchAndPort} {s' : LinkDiscovery}
    (erased : s.checkEraseEdge p = some s') : s'.WellFormed := by
  unfold LinkDiscovery.checkEraseEdge at erased
  split at erased
  · cases erased
    exact wf.eraseEdge p
  · cases erased

end WellFormed

theorem node_some {s : LinkDiscovery} {id : Nat} {n : Node} (found : s.node id = some n) :
    n ∈ s.links ∧ n.id = id :=
  ⟨List.mem_of_find?_eq_some found, by simpa using List.find?_some found⟩

/-- A link is inserted, or a node of its expiry time is taken for it. -/
theorem insert_cases (link : DiscoveredLink) (s : LinkDiscovery) :
    (∃ n ∈ s.links, n.link.validThrough = link.validThrough ∧ s.insert link = (s, n.id)) ∨
      ((∀ n ∈ s.links, n.link.validThrough ≠ link.validThrough) ∧
        s.insert link =
          ({ s with links := insertNode ⟨s.nextId, link⟩ s.links, nextId := s.nextId + 1 },
            s.nextId)) := by
  unfold insert
  cases found : s.links.find? fun n => n.link.validThrough = link.validThrough with
  | some n =>
      exact .inl ⟨n, List.mem_of_find?_eq_some found, by simpa using List.find?_some found, rfl⟩
  | none =>
      refine .inr ⟨fun n mem same => ?_, rfl⟩
      exact absurd (by simpa using same) (List.find?_eq_none.mp found n mem)

theorem WellFormed.insertNew {s : LinkDiscovery} (wf : s.WellFormed) (link : DiscoveredLink) :
    (s.insertNew link).WellFormed := by
  unfold LinkDiscovery.insertNew
  rcases insert_cases link s with ⟨n, mem, -, same⟩ | ⟨ne, new⟩
  · rw [same]
    exact (wf.setEdge _ (wf.fresh n mem)).setEdge _ (wf.fresh n mem)
  · rw [new]
    refine WellFormed.setEdge (WellFormed.setEdge ⟨?_, insertNode_sorted ne wf.sorted, ?_, ?_⟩ _
      (Nat.lt_succ_self _)) _ (Nat.lt_succ_self _)
    · rw [((insertNode_perm _ _).map Node.id).nodup_iff, List.map_cons, List.nodup_cons]
      refine ⟨fun mem => ?_, wf.ids⟩
      obtain ⟨n, mem, same⟩ := List.mem_map.mp mem
      exact absurd (wf.fresh n mem) (by rw [same]; exact lt_irrefl _)
    · intro n mem
      rcases mem_insertNode.mp mem with rfl | old
      · exact Nat.lt_succ_self _
      · exact Nat.lt_succ_of_lt (wf.fresh n old)
    · exact fun p id found => Nat.lt_succ_of_lt (wf.edges p id found)

/-! ## What handleBeacon and clearLinkAt do -/

theorem eraseEdge_outEdges (s : LinkDiscovery) (p q : SwitchAndPort) :
    (s.eraseEdge p).outEdges q = if q = p then none else s.outEdges q :=
  Function.update_apply ..

theorem setEdge_outEdges (s : LinkDiscovery) (p q : SwitchAndPort) (id : Nat) :
    (s.setEdge p id).outEdges q = if q = p then some id else s.outEdges q :=
  Function.update_apply ..

theorem mem_erase {s : LinkDiscovery} {id : Nat} {n : Node} :
    n ∈ (s.erase id).links ↔ n ∈ s.links ∧ n.id ≠ id := by
  simp [erase]

/-- An entry at the first port has to refer to a node, and goes with it. -/
theorem removeOlder_cases (source target : SwitchAndPort) (s : LinkDiscovery) :
    (s.outEdges source = none ∧ s.removeOlder source target = some (s, true)) ∨
      (∃ n ∈ s.links, s.outEdges source = some n.id ∧ s.removeOlder source target =
        some (((s.erase n.id).eraseEdge source).eraseEdge target, false)) ∨
      (∃ id, s.outEdges source = some id ∧ s.node id = none ∧
        s.removeOlder source target = none) := by
  unfold removeOlder
  cases found : s.outEdges source with
  | none => exact .inl ⟨rfl, rfl⟩
  | some id =>
      cases live : s.node id with
      | none => exact .inr (.inr ⟨id, rfl, live, by simp [live]⟩)
      | some n =>
          obtain ⟨mem, rfl⟩ := node_some live
          exact .inr (.inl ⟨n, mem, rfl, by simp [live]⟩)

/-- After an insertion both ports refer to one node: to a new one with the link,
or to an old one that expires at the same time. -/
theorem insertNew_cases (link : DiscoveredLink) (s : LinkDiscovery) :
    ∃ n ∈ (s.insertNew link).links,
      (∀ p, (s.insertNew link).outEdges p =
        if p = link.source ∨ p = link.target then some n.id else s.outEdges p) ∧
      ((n ∈ s.links ∧ n.link.validThrough = link.validThrough ∧
          (s.insertNew link).links = s.links) ∨
        (n = ⟨s.nextId, link⟩ ∧ (∀ m ∈ s.links, m.link.validThrough ≠ link.validThrough) ∧
          (s.insertNew link).links.Perm (n :: s.links))) := by
  have edges : ∀ (s : LinkDiscovery) (id : Nat) (p : SwitchAndPort),
      ((s.setEdge link.source id).setEdge link.target id).outEdges p =
        if p = link.source ∨ p = link.target then some id else s.outEdges p := by
    intro s id p
    simp only [setEdge_outEdges]
    by_cases source : p = link.source <;> by_cases target : p = link.target <;>
      simp [source, target]
  unfold insertNew
  rcases insert_cases link s with ⟨n, mem, same, taken⟩ | ⟨ne, new⟩
  · rw [taken]
    exact ⟨n, mem, edges s n.id, .inl ⟨mem, same, rfl⟩⟩
  · rw [new]
    have perm := insertNode_perm ⟨s.nextId, link⟩ s.links
    exact ⟨⟨s.nextId, link⟩, perm.mem_iff.mpr List.mem_cons_self, edges _ s.nextId,
      .inr ⟨rfl, ne, perm⟩⟩

/-- The other end of the link of a port that is one of its ends. -/
def otherEnd (link : DiscoveredLink) (p : SwitchAndPort) : SwitchAndPort :=
  if link.source = p then link.target else link.source

theorem ends_of_end {link : DiscoveredLink} {p q : SwitchAndPort} (isEnd : link.hasEnd p) :
    link.hasEnd q ↔ q = p ∨ q = otherEnd link p := by
  rw [DiscoveredLink.hasEnd_iff, otherEnd]
  by_cases first : link.source = p
  · rw [if_pos first, first]
  · rw [if_neg first, isEnd.resolve_left first, or_comm]

theorem otherEnd_ne {link : DiscoveredLink} {p : SwitchAndPort} (isEnd : link.hasEnd p) :
    otherEnd link p ≠ p ↔ link.source ≠ link.target := by
  rw [otherEnd]
  by_cases first : link.source = p
  · rw [if_pos first, first, ne_comm]
  · rw [if_neg first, isEnd.resolve_left first]

/-- The link at a port goes when its ends are different ports that both have
entries; a check fails otherwise. -/
theorem clearLinkAt_cases (asserts : Bool) {source : SwitchAndPort} {s : LinkDiscovery} {id : Nat}
    (entry : s.outEdges source = some id) {n : Node} (found : s.node id = some n)
    (isEnd : n.link.hasEnd source) :
    (s.clearLinkAt asserts source =
        if otherEnd n.link source ≠ source ∧ (s.outEdges (otherEnd n.link source)).isSome then
          some (((s.erase id).eraseEdge source).eraseEdge (otherEnd n.link source),
            [if source.lt (otherEnd n.link source) then
                .linkBroken source (otherEnd n.link source)
              else .linkBroken (otherEnd n.link source) source])
        else none) := by
  unfold clearLinkAt
  simp only [entry, found, isEnd, not_true_eq_false, and_false, if_false, ← otherEnd.eq_def]
  have first : ((s.erase id).checkEraseEdge source) = some ((s.erase id).eraseEdge source) := by
    simp [checkEraseEdge, erase, entry]
  rw [first, Option.bind_some, checkEraseEdge, eraseEdge_outEdges]
  by_cases same : otherEnd n.link source = source
  · simp [same]
  · by_cases target : (s.outEdges (otherEnd n.link source)).isSome = true
    · simp [same, target, erase]
    · simp [same, target, erase]

/-! ## What timerEvent does -/

/-- Both ends of the expired links, in the order they are met. -/
def expiredEnds (now : Nat) (links : List Node) : List SwitchAndPort :=
  (links.filter fun n => n.link.validThrough < now).flatMap fun n => [n.link.source, n.link.target]

theorem mem_expiredEnds {now : Nat} {links : List Node} {p : SwitchAndPort} :
    p ∈ expiredEnds now links ↔ ∃ n ∈ links, n.link.validThrough < now ∧ n.link.hasEnd p := by
  simp only [expiredEnds, List.mem_flatMap, List.mem_filter, decide_eq_true_eq, List.mem_cons,
    List.not_mem_nil, or_false, and_assoc]
  exact exists_congr fun n => and_congr_right fun _ => and_congr_right fun _ =>
    DiscoveredLink.hasEnd_iff.symm

/-- The timer ends when no assertion fails: no two expired links have a port in
common, and all their ports have entries. -/
def TimerEnds (asserts : Bool) (now : Nat) (links : List Node) (s : LinkDiscovery) : Prop :=
  asserts = true →
    (expiredEnds now links).Nodup ∧ ∀ p ∈ expiredEnds now links, (s.outEdges p).isSome = true

def afterTimer (asserts : Bool) (now : Nat) (links : List Node) (s : LinkDiscovery) :
    LinkDiscovery where
  links := links.filter fun n => ¬n.link.validThrough < now
  outEdges := fun p => if asserts ∧ p ∈ expiredEnds now links then none else s.outEdges p
  nextId := s.nextId

def timerSignals (now : Nat) (links : List Node) : List Signal :=
  (links.filter fun n => n.link.validThrough < now).map fun n =>
    .linkBroken n.link.source n.link.target

theorem eraseExpired_cases (asserts : Bool) (link : DiscoveredLink) (s : LinkDiscovery) :
    (asserts = true → link.source ≠ link.target ∧ (s.outEdges link.source).isSome = true ∧
        (s.outEdges link.target).isSome = true) ∧
      s.eraseExpired asserts link =
        some { s with outEdges := fun p => if asserts ∧ link.hasEnd p then none else s.outEdges p } ∨
    (asserts = true ∧ ¬(link.source ≠ link.target ∧ (s.outEdges link.source).isSome = true ∧
        (s.outEdges link.target).isSome = true)) ∧ s.eraseExpired asserts link = none := by
  cases asserts with
  | false =>
      refine .inl ⟨fun no => absurd no (by decide), ?_⟩
      simp [eraseExpired]
  | true =>
      unfold eraseExpired checkEraseEdge
      by_cases source : (s.outEdges link.source).isSome = true
      · by_cases same : link.source = link.target
        · refine .inr ⟨⟨rfl, fun all => all.1 same⟩, ?_⟩
          simp [eraseEdge, same]
        · by_cases target : (s.outEdges link.target).isSome = true
          · refine .inl ⟨fun _ => ⟨same, source, target⟩, ?_⟩
            simp only [source, if_true, Option.bind_some, eraseEdge,
              Function.update_of_ne (Ne.symm same), target, DiscoveredLink.hasEnd, true_and]
            congr 2
            funext p
            by_cases isTarget : p = link.target
            · simp [isTarget]
            · by_cases isSource : p = link.source
              · rw [Function.update_of_ne isTarget, isSource, Function.update_self]
                simp
              · simp [isTarget, isSource, Ne.symm isTarget, Ne.symm isSource]
          · refine .inr ⟨⟨rfl, fun all => target all.2.2⟩, ?_⟩
            simp [source, eraseEdge, Function.update_of_ne (Ne.symm same), target]
      · refine .inr ⟨⟨rfl, fun all => source all.2.1⟩, ?_⟩
        simp [source]

theorem expiredEnds_cons {now : Nat} {n : Node} (expired : n.link.validThrough < now)
    (ns : List Node) :
    expiredEnds now (n :: ns) = n.link.source :: n.link.target :: expiredEnds now ns := by
  simp [expiredEnds, expired]

theorem timerEnds_cons {asserts : Bool} {now : Nat} {n : Node} {ns : List Node} {s : LinkDiscovery}
    (expired : n.link.validThrough < now) :
    TimerEnds asserts now (n :: ns) s ↔
      (asserts = true → n.link.source ≠ n.link.target ∧
        (s.outEdges n.link.source).isSome = true ∧ (s.outEdges n.link.target).isSome = true) ∧
      TimerEnds asserts now ns
        { s with
            outEdges := fun p => if asserts ∧ n.link.hasEnd p then none else s.outEdges p } := by
  cases asserts with
  | false => simp [TimerEnds]
  | true =>
      simp only [TimerEnds, expiredEnds_cons expired, List.nodup_cons, List.mem_cons, true_implies,
        forall_eq_or_imp, not_or, true_and]
      constructor
      · rintro ⟨⟨⟨ne, source⟩, target, nodup⟩, some, some', all⟩
        refine ⟨⟨ne, some, some'⟩, nodup, fun p mem => ?_⟩
        have other : ¬n.link.hasEnd p := by
          rintro (rfl | rfl)
          · exact source mem
          · exact target mem
        rw [if_neg other]
        exact all p mem
      · rintro ⟨⟨ne, some, some'⟩, nodup, all⟩
        have other : ∀ p ∈ expiredEnds now ns, ¬n.link.hasEnd p ∧ (s.outEdges p).isSome = true := by
          intro p mem
          have found := all p mem
          split at found
          · cases found
          · exact ⟨‹_›, found⟩
        exact ⟨⟨⟨ne, fun mem => (other _ mem).1 (.inl rfl)⟩,
          fun mem => (other _ mem).1 (.inr rfl), nodup⟩, some, some', fun p mem => (other p mem).2⟩

/-- **What the timer does: all expired links go, with an announcement for each.** -/
theorem removeExpired_eq (asserts : Bool) (now : Nat) : ∀ {ns : List Node} {s : LinkDiscovery},
    ns.Pairwise (fun a b => a.link.validThrough < b.link.validThrough) →
      (TimerEnds asserts now ns s →
        removeExpired asserts now ns s =
          some (afterTimer asserts now ns s, timerSignals now ns)) ∧
      (¬TimerEnds asserts now ns s → removeExpired asserts now ns s = none)
  | [], s, _ => by
      refine ⟨fun _ => ?_, fun not => ?_⟩
      · simp [removeExpired, afterTimer, expiredEnds, timerSignals]
      · exact absurd (fun _ => ⟨List.nodup_nil, fun _ mem => absurd mem List.not_mem_nil⟩) not
  | n :: ns, s, sorted => by
      obtain ⟨first, sorted⟩ := List.pairwise_cons.mp sorted
      by_cases expired : n.link.validThrough < now
      · rw [timerEnds_cons expired, removeExpired, if_pos expired]
        rcases eraseExpired_cases asserts n.link s with ⟨ends, erased⟩ | ⟨⟨compiled, fails⟩, erased⟩
        · rw [erased]
          obtain ⟨done, stuck⟩ := removeExpired_eq asserts now
            (s := { s with
              outEdges := fun p => if asserts ∧ n.link.hasEnd p then none else s.outEdges p }) sorted
          refine ⟨fun all => ?_, fun not => ?_⟩
          · simp only [Option.bind_eq_bind, Option.bind_some, done all.2, Option.pure_def,
              Option.some.injEq, Prod.mk.injEq]
            constructor
            · simp only [afterTimer, expiredEnds_cons expired, List.mem_cons,
                LinkDiscovery.mk.injEq, and_true]
              constructor
              · simp [expired]
              · funext p
                have ends : p = n.link.source ∨ p = n.link.target ∨ p ∈ expiredEnds now ns ↔
                    n.link.hasEnd p ∨ p ∈ expiredEnds now ns := by
                  rw [← or_assoc, DiscoveredLink.hasEnd_iff]
                simp only [ends]
                by_cases a : asserts = true <;> by_cases here : n.link.hasEnd p <;>
                  simp [a, here]
            · simp [timerSignals, expired]
          · have stop := stuck fun rest => not ⟨ends, rest⟩
            simp [stop]
        · rw [erased]
          exact ⟨fun all => absurd (all.1 compiled) fails, fun _ => rfl⟩
      · have live : ∀ m ∈ n :: ns, ¬m.link.validThrough < now := by
          intro m mem
          rcases List.mem_cons.mp mem with rfl | later
          · exact expired
          · have later := first m later
            omega
        have none : (n :: ns).filter (fun m => m.link.validThrough < now) = [] :=
          List.filter_eq_nil_iff.mpr fun m mem => by simpa using live m mem
        have all : (n :: ns).filter (fun m => ¬m.link.validThrough < now) = n :: ns :=
          List.filter_eq_self.mpr fun m mem => by simpa using live m mem
        have ends : TimerEnds asserts now (n :: ns) s := fun _ => by
          rw [expiredEnds, none]
          exact ⟨List.nodup_nil, fun _ mem => absurd mem List.not_mem_nil⟩
        refine ⟨fun _ => ?_, fun not => absurd ends not⟩
        rw [removeExpired, if_neg expired, afterTimer, timerSignals, expiredEnds, none, all]
        simp

theorem WellFormed.afterTimer {s : LinkDiscovery} (wf : s.WellFormed) (asserts : Bool) (now : Nat) :
    (LinkDiscovery.afterTimer asserts now s.links s).WellFormed where
  ids := wf.ids.sublist (List.filter_sublist.map _)
  sorted := wf.sorted.sublist List.filter_sublist
  fresh := fun n mem => wf.fresh n (List.mem_filter.mp mem).1
  edges := by
    intro p id found
    unfold LinkDiscovery.afterTimer at found
    simp only at found
    split at found
    · cases found
    · exact wf.edges p id found

end LinkDiscovery

end Drunos.Topology
