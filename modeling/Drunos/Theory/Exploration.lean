/-
# Drunos.Theory.Exploration — trees of what a program asked

A program of questions (`Prog`) loads values and tests predicates of something
that answers (`Answers`), and returns a result. A `Tree` records what a program
asked on the subjects it was run on so far: the question at each node, a subtree
for each answer met, and at a leaf what was stored for the result. What the rest
of a path holds is not known (`unexplored`).

`Agrees stored p t` says that every explored path of `t` is the path `p` takes on
those answers, and that what it ends in is `stored` for the result. It is all that
looking up needs (`Agrees.lookup`): what is found for some answers is stored for
the result of the program on these answers, whoever explored the path. A program
that runs along a tree that agrees with it never meets a different question
(`Agrees.load`, `Agrees.test`, `Agrees.ret`), and putting an agreeing subtree back
keeps the tree agreeing (`agrees_setCase`).
-/
import Mathlib.Data.List.Nodup

namespace Drunos.Theory.Exploration

set_option autoImplicit false

/-- Programs that load values `V` under masks `M`, test predicates `F` and return
an `R`. -/
inductive Prog (M V F R : Type) where
  | ret (r : R)
  | load (m : M) (next : V → Prog M V F R)
  | test (f : F) (next : Bool → Prog M V F R)

/-- Something that answers. -/
structure Answers (M V F : Type) where
  load : M → V
  test : F → Bool

/-- A question with its answer. -/
inductive Asked (M V F : Type) where
  | load (m : M) (v : V)
  | test (f : F) (b : Bool)

/-- What was asked, with notes `A` at the tests and `L` at the leaves. -/
inductive Tree (M V F A L : Type) where
  | unexplored
  | leaf (l : L)
  | test (need : F) (note : A) (positive negative : Tree M V F A L)
  | load (mask : M) (cases : List (V × Tree M V F A L))

variable {M V F A L R : Type}

/-- The answer is the one these answers give. -/
def Asked.AnsweredBy (a : Answers M V F) : Asked M V F → Prop
  | .load m v => v = a.load m
  | .test f b => b = a.test f

namespace Prog

def run (a : Answers M V F) : Prog M V F R → R
  | ret r => r
  | load m next => run a (next (a.load m))
  | test f next => run a (next (a.test f))

/-- What a program asks. -/
def asked (a : Answers M V F) : Prog M V F R → List (Asked M V F)
  | ret _ => []
  | load m next => .load m (a.load m) :: asked a (next (a.load m))
  | test f next => .test f (a.test f) :: asked a (next (a.test f))

theorem asked_answered (a : Answers M V F) {p : Prog M V F R} :
    ∀ q ∈ p.asked a, q.AnsweredBy a := by
  induction p with
  | ret r => exact fun _ mem => absurd mem List.not_mem_nil
  | load m next ih => exact List.forall_mem_cons.mpr ⟨rfl, ih _⟩
  | test f next ih => exact List.forall_mem_cons.mpr ⟨rfl, ih _⟩

/-- A program that is answered alike on what it asks does the same. -/
theorem run_congr {a b : Answers M V F} {p : Prog M V F R} :
    (∀ q ∈ p.asked a, q.AnsweredBy b) → p.run b = p.run a ∧ p.asked b = p.asked a := by
  induction p with
  | ret r => exact fun _ => ⟨rfl, rfl⟩
  | load m next ih =>
      intro alike
      obtain ⟨here, later⟩ := List.forall_mem_cons.mp alike
      have same : b.load m = a.load m := here.symm
      obtain ⟨run, asked⟩ := ih _ later
      exact ⟨by rw [Prog.run, Prog.run, same, run], by rw [Prog.asked, Prog.asked, same, asked]⟩
  | test f next ih =>
      intro alike
      obtain ⟨here, later⟩ := List.forall_mem_cons.mp alike
      have same : b.test f = a.test f := here.symm
      obtain ⟨run, asked⟩ := ih _ later
      exact ⟨by rw [Prog.run, Prog.run, same, run], by rw [Prog.asked, Prog.asked, same, asked]⟩

/-- One program after another. -/
def bind {S : Type} : Prog M V F R → (R → Prog M V F S) → Prog M V F S
  | ret r, k => k r
  | load m next, k => load m fun v => bind (next v) k
  | test f next, k => test f fun b => bind (next b) k

theorem bind_answers {S : Type} (a : Answers M V F) (p : Prog M V F R) (k : R → Prog M V F S) :
    (p.bind k).run a = (k (p.run a)).run a ∧
      (p.bind k).asked a = p.asked a ++ (k (p.run a)).asked a := by
  induction p with
  | ret r => exact ⟨rfl, rfl⟩
  | load m next ih => exact ⟨(ih _).1, congrArg (List.cons _) (ih _).2⟩
  | test f next ih => exact ⟨(ih _).1, congrArg (List.cons _) (ih _).2⟩

/-- Programs run in turn. -/
def sequence : List (Prog M V F R) → Prog M V F (List R)
  | [] => ret []
  | p :: ps => p.bind fun r => (sequence ps).bind fun rs => ret (r :: rs)

theorem sequence_answers (a : Answers M V F) (ps : List (Prog M V F R)) :
    (sequence ps).run a = ps.map (run a) ∧ (sequence ps).asked a = ps.flatMap (asked a) := by
  induction ps with
  | nil => exact ⟨rfl, rfl⟩
  | cons p ps ih =>
      simp only [sequence, bind_answers, ih, run, asked, List.append_nil, List.map_cons,
        List.flatMap_cons, and_self]

/-- On these answers the program ends with the result. -/
inductive Path : Prog M V F R → List (Asked M V F) → R → Prop where
  | ret (r : R) : Path (ret r) [] r
  | load {m : M} {next : V → Prog M V F R} {v : V} {path : List (Asked M V F)} {r : R}
      (rest : Path (next v) path r) : Path (load m next) (.load m v :: path) r
  | test {f : F} {next : Bool → Prog M V F R} {b : Bool} {path : List (Asked M V F)} {r : R}
      (rest : Path (next b) path r) : Path (test f next) (.test f b :: path) r

end Prog

namespace Tree

instance : Inhabited (Tree M V F A L) := ⟨unexplored⟩

variable [DecidableEq V]

/-- The subtree of a value: unexplored where there is none. -/
def caseAt (v : V) : List (V × Tree M V F A L) → Tree M V F A L
  | [] => unexplored
  | (u, t) :: rest => if u = v then t else caseAt v rest

/-- The cases with `t` as the subtree of `v`. -/
def setCase (v : V) (t : Tree M V F A L) : List (V × Tree M V F A L) → List (V × Tree M V F A L)
  | [] => [(v, t)]
  | (u, t') :: rest => if u = v then (v, t) :: rest else (u, t') :: setCase v t rest

/-- The tree with something else at the leaf these answers lead to. -/
def put (l : L) : List (Asked M V F) → Tree M V F A L → Tree M V F A L
  | [], _ => leaf l
  | .load _ v :: path, load m cases => load m (setCase v (put l path (caseAt v cases)) cases)
  | .test _ true :: path, test f note pos neg => test f note (put l path pos) neg
  | .test _ false :: path, test f note pos neg => test f note pos (put l path neg)
  | _ :: _, t => t

/-- Something is stored at one of the leaves. -/
inductive Has (l : L) : Tree M V F A L → Prop where
  | leaf : Has l (leaf l)
  | positive {f : F} {note : A} {pos neg : Tree M V F A L} (below : Has l pos) :
      Has l (test f note pos neg)
  | negative {f : F} {note : A} {pos neg : Tree M V F A L} (below : Has l neg) :
      Has l (test f note pos neg)
  | case {m : M} {v : V} {t : Tree M V F A L} {cases : List (V × Tree M V F A L)}
      (mem : (v, t) ∈ cases) (below : Has l t) : Has l (load m cases)

/-- What is stored where the answers lead. -/
def lookup (a : Answers M V F) : Tree M V F A L → Option L
  | unexplored => none
  | leaf l => some l
  | test f _ pos neg => if a.test f then lookup a pos else lookup a neg
  | load m cases => find (a.load m) cases
where
  find (v : V) : List (V × Tree M V F A L) → Option L
    | [] => none
    | (u, t) :: rest => if u = v then lookup a t else find v rest

/-- The way the answers lead, as far as it is explored. -/
def way (a : Answers M V F) : Tree M V F A L → List (Asked M V F)
  | unexplored => []
  | leaf _ => []
  | test f _ pos neg => .test f (a.test f) :: if a.test f then way a pos else way a neg
  | load m cases => wayCase m (a.load m) cases
where
  wayCase (m : M) (v : V) : List (V × Tree M V F A L) → List (Asked M V F)
    | [] => []
    | (u, t) :: rest => if u = v then .load m v :: way a t else wayCase m v rest

omit [DecidableEq V] in
/-- Induction over trees: of a load node all cases are smaller. -/
@[induction_eliminator]
theorem induct {motive : Tree M V F A L → Prop} (unexplored : motive unexplored)
    (leaf : ∀ l, motive (leaf l))
    (test : ∀ f note pos neg, motive pos → motive neg → motive (test f note pos neg))
    (load : ∀ m cases, (∀ c ∈ cases, motive c.2) → motive (load m cases)) : ∀ t, motive t
  | .unexplored => unexplored
  | .leaf l => leaf l
  | .test f note pos neg =>
      test f note pos neg (induct unexplored leaf test load pos) (induct unexplored leaf test load neg)
  | .load m cases => load m cases (all cases)
where
  all : ∀ (cases : List (V × Tree M V F A L)), ∀ c ∈ cases, motive c.2
    | [], _, mem => absurd mem List.not_mem_nil
    | (_, t) :: rest, c, mem => by
        rcases List.mem_cons.mp mem with rfl | later
        · exact induct unexplored leaf test load t
        · exact all rest c later

theorem caseAt_setCase (u v : V) (t : Tree M V F A L) (cases : List (V × Tree M V F A L)) :
    caseAt u (setCase v t cases) = if v = u then t else caseAt u cases := by
  induction cases with
  | nil => rfl
  | cons c rest ih =>
      obtain ⟨w, t'⟩ := c
      by_cases same : w = v
      · subst same
        rw [setCase, if_pos rfl, caseAt, caseAt]
        split_ifs <;> rfl
      · rw [setCase, if_neg same, caseAt, ih, caseAt]
        by_cases here : w = u
        · subst here
          rw [if_pos rfl, if_neg (Ne.symm same), if_pos rfl]
        · rw [if_neg here, if_neg here]

theorem setCase_setCase (v : V) (t t' : Tree M V F A L) (cases : List (V × Tree M V F A L)) :
    setCase v t' (setCase v t cases) = setCase v t' cases := by
  induction cases with
  | nil => exact if_pos rfl
  | cons c rest ih =>
      rw [setCase, setCase]
      by_cases same : c.1 = v
      · rw [if_pos same, if_pos same, setCase, if_pos rfl]
      · rw [if_neg same, if_neg same, setCase, if_neg same, ih]

theorem put_setCase (l : L) (m m' : M) (v : V) (path : List (Asked M V F)) (t : Tree M V F A L)
    (cases : List (V × Tree M V F A L)) :
    put l (.load m' v :: path) (load m (setCase v t cases)) =
      load m (setCase v (put l path t) cases) := by
  rw [put, caseAt_setCase, if_pos rfl, setCase_setCase]

/-- The cases but for the one of the value are those there were. -/
theorem mem_setCase {v : V} {t : Tree M V F A L} {cases : List (V × Tree M V F A L)}
    {c : V × Tree M V F A L} (mem : c ∈ setCase v t cases) : c = (v, t) ∨ c ∈ cases := by
  induction cases with
  | nil => exact .inl (List.mem_singleton.mp mem)
  | cons head rest ih =>
      rw [setCase] at mem
      split at mem
      · exact (List.mem_cons.mp mem).imp_right (List.mem_cons_of_mem _)
      · rcases List.mem_cons.mp mem with rfl | later
        · exact .inr List.mem_cons_self
        · exact (ih later).imp_right (List.mem_cons_of_mem _)

theorem mem_setCase_self (v : V) (t : Tree M V F A L) (cases : List (V × Tree M V F A L)) :
    (v, t) ∈ setCase v t cases := by
  induction cases with
  | nil => exact List.mem_singleton_self _
  | cons head rest ih =>
      rw [setCase]
      split
      · exact List.mem_cons_self
      · exact List.mem_cons_of_mem _ ih

/-- Where values are met once, one case is replaced. -/
theorem mem_setCase_iff {v : V} {t : Tree M V F A L} {cases : List (V × Tree M V F A L)}
    (nodup : (cases.map Prod.fst).Nodup) {c : V × Tree M V F A L} :
    c ∈ setCase v t cases ↔ c = (v, t) ∨ (c ∈ cases ∧ c.1 ≠ v) := by
  induction cases with
  | nil => simp [setCase]
  | cons head rest ih =>
      obtain ⟨u, t'⟩ := head
      obtain ⟨fresh, nodup⟩ := List.nodup_cons.mp nodup
      have others : c ∈ rest → c.1 ≠ u := fun mem same =>
        fresh (List.mem_map.mpr ⟨c, mem, same⟩)
      rw [setCase, List.mem_cons]
      by_cases same : u = v
      · subst same
        rw [if_pos rfl, List.mem_cons]
        constructor
        · rintro (rfl | mem)
          · exact .inl rfl
          · exact .inr ⟨.inr mem, others mem⟩
        · rintro (rfl | ⟨rfl | mem, ne⟩)
          · exact .inl rfl
          · exact absurd rfl ne
          · exact .inr mem
      · rw [if_neg same, List.mem_cons, ih nodup]
        constructor
        · rintro (rfl | rfl | ⟨mem, ne⟩)
          · exact .inr ⟨.inl rfl, same⟩
          · exact .inl rfl
          · exact .inr ⟨.inr mem, ne⟩
        · rintro (rfl | ⟨rfl | mem, ne⟩)
          · exact .inr (.inl rfl)
          · exact .inl rfl
          · exact .inr (.inr ⟨mem, ne⟩)

/-- Where values are met once, they still are. -/
theorem nodup_setCase {v : V} {t : Tree M V F A L} {cases : List (V × Tree M V F A L)}
    (nodup : (cases.map Prod.fst).Nodup) : ((setCase v t cases).map Prod.fst).Nodup := by
  induction cases with
  | nil => exact List.nodup_singleton v
  | cons head rest ih =>
      obtain ⟨fresh, nodup⟩ := List.nodup_cons.mp nodup
      rw [setCase]
      split
      · rw [List.map_cons, List.nodup_cons, ← ‹head.1 = v›]
        exact ⟨fresh, nodup⟩
      · refine List.nodup_cons.mpr ⟨fun mem => ?_, ih nodup⟩
        obtain ⟨c, memC, same⟩ := List.mem_map.mp mem
        rcases mem_setCase memC with rfl | memC
        · exact ‹¬head.1 = v› same.symm
        · exact fresh (List.mem_map.mpr ⟨c, memC, same⟩)

/-- The subtree of a value is one of the cases, or unexplored. -/
theorem caseAt_mem (v : V) (cases : List (V × Tree M V F A L)) :
    caseAt v cases = unexplored ∨ (v, caseAt v cases) ∈ cases := by
  induction cases with
  | nil => exact .inl rfl
  | cons c rest ih =>
      obtain ⟨u, t⟩ := c
      by_cases same : u = v
      · subst same
        rw [caseAt, if_pos rfl]
        exact .inr List.mem_cons_self
      · rw [caseAt, if_neg same]
        exact ih.imp_right (List.mem_cons_of_mem _)

/-- Where values are met once, a case is the subtree of its value. -/
theorem caseAt_of_mem {v : V} {t : Tree M V F A L} {cases : List (V × Tree M V F A L)}
    (nodup : (cases.map Prod.fst).Nodup) (mem : (v, t) ∈ cases) : caseAt v cases = t := by
  induction cases with
  | nil => cases mem
  | cons c rest ih =>
      obtain ⟨fresh, nodup⟩ := List.nodup_cons.mp nodup
      rcases List.mem_cons.mp mem with rfl | later
      · rw [caseAt, if_pos rfl]
      · have other : c.1 ≠ v := fun same => fresh (List.mem_map.mpr ⟨_, later, same.symm⟩)
        rw [caseAt, if_neg other]
        exact ih nodup later

theorem lookup_find (a : Answers M V F) (v : V) (cases : List (V × Tree M V F A L)) :
    lookup.find a v cases = lookup a (caseAt v cases) := by
  induction cases with
  | nil => rfl
  | cons c rest ih =>
      rw [lookup.find, caseAt, ih]
      split_ifs <;> rfl

theorem lookup_load (a : Answers M V F) (m : M) (cases : List (V × Tree M V F A L)) :
    lookup a (load m cases) = lookup a (caseAt (a.load m) cases) :=
  lookup_find a _ cases

/-- A load leads to the subtree of the value, if there is one. -/
theorem way_load (a : Answers M V F) (m : M) (cases : List (V × Tree M V F A L)) :
    (way a (load m cases) = [] ∧ caseAt (a.load m) cases = unexplored) ∨
      way a (load m cases) = .load m (a.load m) :: way a (caseAt (a.load m) cases) := by
  show (way.wayCase a m (a.load m) cases = [] ∧ _) ∨ way.wayCase a m (a.load m) cases = _
  induction cases with
  | nil => exact .inl ⟨rfl, rfl⟩
  | cons c rest ih =>
      rw [way.wayCase, caseAt]
      split_ifs
      · exact .inr rfl
      · exact ih

theorem lookup_test (a : Answers M V F) (f : F) (note : A) (pos neg : Tree M V F A L) :
    lookup a (test f note pos neg) = if a.test f then lookup a pos else lookup a neg := rfl

/-- What is stored where the answers lead, with the way to it. -/
def reached (a : Answers M V F) (t : Tree M V F A L) : Option (List (Asked M V F) × L) :=
  (lookup a t).map fun l => (way a t, l)

theorem reached_load (a : Answers M V F) (m : M) (cases : List (V × Tree M V F A L)) :
    reached a (load m cases) = (reached a (caseAt (a.load m) cases)).map
      (Prod.map (.load m (a.load m) :: ·) id) := by
  rw [reached, lookup_load, reached, Option.map_map]
  rcases way_load a m cases with ⟨-, none⟩ | way
  · rw [none]
    rfl
  · rw [way]
    rfl

theorem reached_test (a : Answers M V F) (f : F) (note : A) (pos neg : Tree M V F A L) :
    reached a (test f note pos neg) = (reached a (if a.test f then pos else neg)).map
      (Prod.map (.test f (a.test f) :: ·) id) := by
  rw [reached, lookup_test, reached, Option.map_map, way]
  cases a.test f <;> rfl

end Tree

/-! ## Agreement -/

section

variable [DecidableEq V] (stored : R → L → Prop)

/-- Every explored path is the path of the program on its answers, and ends in
what is stored for the result. -/
def Agrees : Prog M V F R → Tree M V F A L → Prop
  | _, .unexplored => True
  | .ret r, .leaf l => stored r l
  | .load m next, .load m' cases => m' = m ∧ ∀ v, Agrees (next v) (Tree.caseAt v cases)
  | .test f next, .test f' _ pos neg => f' = f ∧ Agrees (next true) pos ∧ Agrees (next false) neg
  | _, _ => False

variable {stored}

@[simp] theorem agrees_unexplored (p : Prog M V F R) :
    Agrees stored p (.unexplored : Tree M V F A L) := by
  unfold Agrees
  trivial

/-- Where a program returns, an agreeing tree has a leaf for the result if any. -/
theorem Agrees.ret {r : R} {t : Tree M V F A L} (agrees : Agrees stored (.ret r) t) :
    t = .unexplored ∨ ∃ l, t = .leaf l ∧ stored r l := by
  cases t with
  | unexplored => exact .inl rfl
  | leaf l => exact .inr ⟨l, rfl, agrees⟩
  | test f note pos neg => exact agrees.elim
  | load m cases => exact agrees.elim

/-- Where a program loads, an agreeing tree loads the same if anything. -/
theorem Agrees.load {m : M} {next : V → Prog M V F R} {t : Tree M V F A L}
    (agrees : Agrees stored (.load m next) t) :
    t = .unexplored ∨ ∃ cases, t = .load m cases ∧
      ∀ v, Agrees stored (next v) (Tree.caseAt v cases) := by
  cases t with
  | unexplored => exact .inl rfl
  | leaf l => exact agrees.elim
  | test f note pos neg => exact agrees.elim
  | load m' cases =>
      obtain ⟨rfl, agrees⟩ := agrees
      exact .inr ⟨cases, rfl, agrees⟩

/-- Where a program tests, an agreeing tree tests the same if anything. -/
theorem Agrees.test {f : F} {next : Bool → Prog M V F R} {t : Tree M V F A L}
    (agrees : Agrees stored (.test f next) t) :
    t = .unexplored ∨ ∃ note pos neg, t = .test f note pos neg ∧
      Agrees stored (next true) pos ∧ Agrees stored (next false) neg := by
  cases t with
  | unexplored => exact .inl rfl
  | leaf l => exact agrees.elim
  | load m cases => exact agrees.elim
  | test f' note pos neg =>
      obtain ⟨rfl, agreesP, agreesN⟩ := agrees
      exact .inr ⟨note, pos, neg, rfl, agreesP, agreesN⟩

theorem agrees_setCase {m : M} {next : V → Prog M V F R} {v : V} {t : Tree M V F A L}
    {cases : List (V × Tree M V F A L)}
    (agrees : ∀ u, Agrees stored (next u) (Tree.caseAt u cases)) (subtree : Agrees stored (next v) t) :
    Agrees stored (.load m next) (.load m (Tree.setCase v t cases)) := by
  refine ⟨rfl, fun u => ?_⟩
  rw [Tree.caseAt_setCase]
  split_ifs with same
  · exact same ▸ subtree
  · exact agrees u

theorem agrees_test {f : F} {next : Bool → Prog M V F R} {note : A} {pos neg : Tree M V F A L}
    (positive : Agrees stored (next true) pos) (negative : Agrees stored (next false) neg) :
    Agrees stored (.test f next) (.test f note pos neg) := ⟨rfl, positive, negative⟩

/-- **What a tree finds for some answers is stored for the result of any program
that agrees with it.** -/
theorem Agrees.lookup {a : Answers M V F} {l : L} :
    ∀ {p : Prog M V F R} {t : Tree M V F A L}, Agrees stored p t → t.lookup a = some l →
      stored (p.run a) l := by
  intro p
  induction p with
  | ret r =>
      intro t agrees found
      rcases agrees.ret with rfl | ⟨l', rfl, holds⟩
      · cases found
      · obtain rfl : l' = l := Option.some.inj found
        exact holds
  | load m next ih =>
      intro t agrees found
      rcases agrees.load with rfl | ⟨cases, rfl, all⟩
      · cases found
      · rw [Tree.lookup_load] at found
        exact ih _ (all _) found
  | test f next ih =>
      intro t agrees found
      rcases agrees.test with rfl | ⟨note, pos, neg, rfl, agreesP, agreesN⟩
      · cases found
      · rw [Tree.lookup_test] at found
        rw [Prog.run]
        cases holds : a.test f with
        | true => exact ih true agreesP (by simpa [holds] using found)
        | false => exact ih false agreesN (by simpa [holds] using found)

/-- The explored way is the way of the program, and all of it if a leaf was found. -/
theorem Agrees.way (a : Answers M V F) : ∀ {p : Prog M V F R} {t : Tree M V F A L},
    Agrees stored p t → ∃ rest, p.asked a = t.way a ++ rest ∧
      ∀ l, t.lookup a = some l → rest = [] := by
  intro p
  induction p with
  | ret r =>
      intro t agrees
      rcases agrees.ret with rfl | ⟨l, rfl, -⟩
      · exact ⟨[], rfl, fun _ _ => rfl⟩
      · exact ⟨[], rfl, fun _ _ => rfl⟩
  | load m next ih =>
      intro t agrees
      rcases agrees.load with rfl | ⟨cases, rfl, all⟩
      · exact ⟨_, rfl, fun _ found => by cases found⟩
      · obtain ⟨rest, asked, found⟩ := ih _ (all (a.load m))
        rw [Tree.lookup_load]
        rcases Tree.way_load a m cases with ⟨way, none⟩ | way
        · rw [way, none]
          exact ⟨_, rfl, fun _ found => by cases found⟩
        · exact ⟨rest, by rw [way, Prog.asked, asked]; rfl, found⟩
  | test f next ih =>
      intro t agrees
      rcases agrees.test with rfl | ⟨note, pos, neg, rfl, agreesP, agreesN⟩
      · exact ⟨_, rfl, fun _ found => by cases found⟩
      · rw [Tree.lookup_test, Tree.way, Prog.asked]
        cases a.test f with
        | true =>
            obtain ⟨rest, asked, found⟩ := ih true agreesP
            exact ⟨rest, congrArg (List.cons _) asked, found⟩
        | false =>
            obtain ⟨rest, asked, found⟩ := ih false agreesN
            exact ⟨rest, congrArg (List.cons _) asked, found⟩

/-- Something stored for the result may be put at the end of its path. -/
theorem Agrees.put {r : R} {l : L} {path : List (Asked M V F)} {p : Prog M V F R}
    (follows : p.Path path r) (holds : stored r l) :
    ∀ {t : Tree M V F A L}, Agrees stored p t → Agrees stored p (t.put l path) := by
  induction follows with
  | ret r => exact fun _ => holds
  | load _ ih =>
      intro t agrees
      rcases agrees.load with rfl | ⟨cases, rfl, all⟩
      · exact agrees_unexplored _
      · exact agrees_setCase all (ih holds (all _))
  | @test f next b path r _ ih =>
      intro t agrees
      rcases agrees.test with rfl | ⟨note, pos, neg, rfl, agreesP, agreesN⟩
      · cases b <;> exact agrees_unexplored _
      · cases b with
        | true => exact agrees_test (ih holds agreesP) agreesN
        | false => exact agrees_test agreesP (ih holds agreesN)

end

/-- What is stored may be weakened, leaf by leaf. -/
theorem Agrees.mono [DecidableEq V] {stored stored' : R → L → Prop}
    (weaker : ∀ r l, stored r l → stored' r l) :
    ∀ {p : Prog M V F R} {t : Tree M V F A L}, Agrees stored p t → Agrees stored' p t := by
  intro p
  induction p with
  | ret r =>
      intro t agrees
      rcases agrees.ret with rfl | ⟨l, rfl, holds⟩
      · exact agrees_unexplored _
      · exact weaker r l holds
  | load m next ih =>
      intro t agrees
      rcases agrees.load with rfl | ⟨cases, rfl, all⟩
      · exact agrees_unexplored _
      · exact ⟨rfl, fun v => ih v (all v)⟩
  | test f next ih =>
      intro t agrees
      rcases agrees.test with rfl | ⟨note, pos, neg, rfl, agreesP, agreesN⟩
      · exact agrees_unexplored _
      · exact agrees_test (ih true agreesP) (ih false agreesN)

end Drunos.Theory.Exploration
