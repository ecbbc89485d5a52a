/-
# Drunos.Rest.Requests — the request that a handler is given, and the file that is sent

`RestListener::startUp`. Every path that an application accepts is an expression that the path of
a request has to match as a whole, one segment after the other. The handler is given the segments
behind the name of the application. These are as many as the expression has, each one of the form
that it asks for, so that the handlers may read them by their index without looking
(`accepts_params`), and no request is for two handlers (`accepts_unique`).

Any other path is that of a file. Of two dots that stand together one is erased, until no two are left.
The loop ends, whatever the path, and the file of a path that begins with a slash is at or below
`web-dir` (`fileName_below`).
-/
import Drunos.Types.Text
import Mathlib.Data.List.Forall2

namespace Drunos.Rest

open Drunos.Types Drunos.Theory

set_option autoImplicit false

inductive Method where
  | get
  | put
  | post
  | delete
  deriving DecidableEq

/-- A segment of an accepted path. -/
inductive Segment where
  | literal (name : String)
  /-- `[0-9]+`. -/
  | digits
  /-- `(all|[0-9]+)`. -/
  | allOrDigits
  deriving DecidableEq

/-- A path that an application accepts, with the name of the application. -/
structure Resource where
  restName : String
  method : Method
  path : List Segment
  deriving DecidableEq

/-- What is accepted by `acceptPath`, in the applications that have a REST interface. -/
def resources : List Resource :=
  [⟨"flow-manager", .get, [.digits]⟩,
    ⟨"flow-manager", .delete, [.digits, .digits]⟩,
    ⟨"host-manager", .get, [.literal "hosts"]⟩,
    ⟨"rest-flowmod", .post, [.literal "flowentry"]⟩,
    ⟨"rest-flowmod", .post, [.literal "flowentry", .literal "delete"]⟩,
    ⟨"rest-flowmod", .post, [.literal "flowentry", .literal "delete_strict"]⟩,
    ⟨"rest-flowmod", .delete, [.literal "flowentry", .literal "clear", .digits]⟩,
    ⟨"rest-multipart", .get, [.literal "flow", .digits]⟩,
    ⟨"rest-multipart", .post, [.literal "flow", .digits]⟩,
    ⟨"rest-multipart", .get, [.literal "port", .digits, .allOrDigits]⟩,
    ⟨"rest-multipart", .get, [.literal "port-desc", .digits]⟩,
    ⟨"rest-multipart", .get, [.literal "switch", .allOrDigits]⟩,
    ⟨"rest-multipart", .get, [.literal "aggregate-flow", .digits]⟩,
    ⟨"rest-multipart", .post, [.literal "aggregate-flow", .digits]⟩,
    ⟨"rest-multipart", .get, [.literal "table", .digits]⟩,
    ⟨"rest-multipart", .get, [.literal "queue", .digits, .allOrDigits, .allOrDigits]⟩,
    ⟨"static-flow-pusher", .post, [.literal "newflow", .digits]⟩,
    ⟨"switch-stats", .get, [.literal "port", .digits, .allOrDigits]⟩,
    ⟨"switch-manager", .get, [.literal "switches", .literal "all"]⟩,
    ⟨"topology", .get, [.literal "links"]⟩,
    ⟨"webui", .get, [.literal "webinfo", .literal "all"]⟩,
    ⟨"webui", .get, [.literal "webinfo", .digits]⟩,
    ⟨"webui", .put, [.literal "coord", .digits]⟩,
    ⟨"webui", .put, [.literal "name", .digits]⟩]

/-! ## Expressions -/

/-- `most` bounds `+`, by the length of what is matched. The groups are not read. -/
def Segment.regex (most : Nat) : Segment → Regex Char
  | .literal name => .ofText name.toList
  | .digits => .rep 1 most (.letter isDigit)
  | .allOrDigits => .alt (.ofText "all".toList) (.rep 1 most (.letter isDigit))

def segmentsRegex (most : Nat) : List Segment → Regex Char
  | [] => .empty
  | [segment] => segment.regex most
  | segment :: rest => .seq (segment.regex most) (.seq (.ofText ['/']) (segmentsRegex most rest))

/-- `^/api/` with the name of the application. -/
def Resource.front (r : Resource) : Text := ['/', 'a', 'p', 'i', '/'] ++ r.restName.toList ++ ['/']

/-- With `/{0,1}$` behind the path. -/
def Resource.regex (r : Resource) (most : Nat) : Regex Char :=
  .seq (.ofText r.front)
    (.seq (segmentsRegex most r.path) (.rep 0 1 (.letter (· == '/'))))

def Resource.accepts (r : Resource) (path : Text) : Bool :=
  (Regex.fullMatch (r.regex path.length) path).isSome

/-- `split`, with the loop of `std::getline`: nothing is behind a delimiter at the end. -/
def split (delim : Char) : Text → List Text
  | [] => []
  | c :: s =>
      if c = delim then [] :: split delim s
      else
        match split delim s with
        | [] => [[c]]
        | item :: elems => (c :: item) :: elems

/-- What a handler is given of the path. There is no such vector where it has fewer than three elements. -/
def params (path : Text) : Option (List Text) :=
  let elems := split '/' path
  if 3 ≤ elems.length then some (elems.drop 3) else none

/-! ## Splitting -/

theorem split_item {delim : Char} {item : Text} (plain : delim ∉ item) (rest : Text) :
    split delim (item ++ delim :: rest) = item :: split delim rest := by
  induction item with
  | nil => simp [split]
  | cons c item ih =>
      obtain ⟨other, plain⟩ := List.ne_and_not_mem_of_not_mem_cons plain
      rw [List.cons_append, split, if_neg (Ne.symm other), ih plain]

theorem split_last {delim : Char} {item : Text} (plain : delim ∉ item) (some : item ≠ []) :
    split delim item = [item] := by
  induction item with
  | nil => exact absurd rfl some
  | cons c item ih =>
      obtain ⟨other, plain⟩ := List.ne_and_not_mem_of_not_mem_cons plain
      rw [split, if_neg (Ne.symm other)]
      cases item with
      | nil => rfl
      | cons d item => rw [ih plain (List.cons_ne_nil d item)]

/-- An element of a path: it is not empty and no delimiter is in it. -/
def Plain (delim : Char) (item : Text) : Prop := item ≠ [] ∧ delim ∉ item

instance (delim : Char) (item : Text) : Decidable (Plain delim item) := inferInstanceAs (Decidable (_ ∧ _))

/-- The elements are those that are joined, also with a delimiter behind them. -/
theorem split_intercalate {delim : Char} {items : List Text} (plain : ∀ item ∈ items, Plain delim item)
    (some : items ≠ []) :
    split delim ([delim].intercalate items) = items ∧
      split delim ([delim].intercalate items ++ [delim]) = items := by
  induction items with
  | nil => exact absurd rfl some
  | cons item items ih =>
      obtain ⟨here, others⟩ := List.forall_mem_cons.mp plain
      cases items with
      | nil =>
          rw [List.intercalate_singleton]
          exact ⟨split_last here.2 here.1, split_item here.2 []⟩
      | cons next items =>
          obtain ⟨same, trailing⟩ := ih others (List.cons_ne_nil next items)
          rw [List.intercalate_cons_cons, List.append_assoc, List.append_assoc, List.append_assoc,
            List.singleton_append, List.singleton_append, split_item here.2, split_item here.2, same, trailing]
          exact ⟨rfl, rfl⟩

/-- The elements are parts of what is split, the first one at its front. -/
theorem split_parts (delim : Char) (s : Text) :
    (∀ item ∈ split delim s, item <:+: s) ∧ ∀ item ∈ (split delim s).head?, item <+: s := by
  induction s with
  | nil => simp [split]
  | cons c s ih =>
      have later {item : Text} (part : item <:+: s) : item <:+: c :: s :=
        part.trans (List.infix_cons (List.infix_refl s))
      rw [split]
      split_ifs with here
      · refine ⟨List.forall_mem_cons.mpr ⟨List.nil_infix, fun item mem => later (ih.1 item mem)⟩, ?_⟩
        rintro item ⟨⟩
        exact List.nil_prefix
      · cases elems : split delim s with
        | nil =>
            have front : [c] <+: c :: s := ⟨s, rfl⟩
            refine ⟨fun item mem => ?_, ?_⟩
            · rw [List.mem_singleton.mp mem]
              exact front.isInfix
            · rintro item ⟨⟩
              exact front
        | cons first elems' =>
            rw [elems] at ih
            have front : c :: first <+: c :: s := List.cons_prefix_cons.mpr ⟨rfl, ih.2 first rfl⟩
            refine ⟨List.forall_mem_cons.mpr ⟨front.isInfix, fun item mem => ?_⟩, ?_⟩
            · exact later (ih.1 item (List.mem_cons_of_mem _ mem))
            · rintro item ⟨⟩
              exact front

/-! ## What is accepted -/

/-- The texts of a segment. -/
def Segment.Takes : Segment → Text → Prop
  | .literal name, t => t = name.toList
  | .digits, t => t ≠ [] ∧ ∀ c ∈ t, isDigit c
  | .allOrDigits, t => t = "all".toList ∨ t ≠ [] ∧ ∀ c ∈ t, isDigit c

/-- A literal is an element of a path. -/
def Segment.Fits : Segment → Prop
  | .literal name => Plain '/' name.toList
  | _ => True

instance : (segment : Segment) → Decidable segment.Fits
  | .literal name => inferInstanceAs (Decidable (Plain '/' name.toList))
  | .digits => inferInstanceAs (Decidable True)
  | .allOrDigits => inferInstanceAs (Decidable True)

/-- A resource whose name and segments are elements of a path. -/
structure Resource.Fits (r : Resource) : Prop where
  restName : Plain '/' r.restName.toList
  path : r.path ≠ []
  segments : ∀ segment ∈ r.path, segment.Fits

theorem resources_fit : ∀ r ∈ resources, r.Fits := by
  have each : ∀ r ∈ resources, Plain '/' r.restName.toList ∧ r.path ≠ [] ∧ ∀ segment ∈ r.path, segment.Fits := by
    decide
  exact fun r known => ⟨(each r known).1, (each r known).2.1, (each r known).2.2⟩

theorem plain_digits {t : Text} (some : t ≠ []) (digits : ∀ c ∈ t, isDigit c) : Plain '/' t :=
  ⟨some, fun mem => absurd (digits '/' mem) (by decide)⟩

theorem Segment.Takes.plain {segment : Segment} {t : Text} (fits : segment.Fits) (takes : segment.Takes t) :
    Plain '/' t := by
  cases segment with
  | literal name => exact takes ▸ fits
  | digits => exact plain_digits takes.1 takes.2
  | allOrDigits =>
      rcases takes with rfl | takes
      · decide
      · exact plain_digits takes.1 takes.2

theorem takes_digits {t : Text} {most : Nat} :
    (∃ c, Regex.Denotes (.rep 1 most (.letter isDigit)) t c) ↔
      t.length ≤ most ∧ t ≠ [] ∧ ∀ c ∈ t, isDigit c := by
  rw [Regex.takes_letters, Nat.one_le_iff_ne_zero, Ne, List.length_eq_zero_iff]
  tauto

/-- A text that is not longer than the bound. -/
theorem takes_segment {segment : Segment} {t : Text} {most : Nat} (short : t.length ≤ most) :
    (∃ c, Regex.Denotes (segment.regex most) t c) ↔ segment.Takes t := by
  cases segment with
  | literal name => exact Regex.takes_ofText
  | digits =>
      rw [Segment.regex, takes_digits, Segment.Takes]
      exact and_iff_right short
  | allOrDigits =>
      rw [Segment.regex, Regex.takes_alt, Regex.takes_ofText, takes_digits, Segment.Takes]
      exact or_congr_right (and_iff_right short)

theorem takes_segments {most : Nat} {segments : List Segment} {t : Text} (short : t.length ≤ most) :
    (∃ c, Regex.Denotes (segmentsRegex most segments) t c) ↔
      ∃ texts, List.Forall₂ Segment.Takes segments texts ∧ t = ['/'].intercalate texts := by
  induction segments generalizing t with
  | nil =>
      simp [segmentsRegex, Regex.denotes_empty]
  | cons segment segments ih =>
      cases segments with
      | nil =>
          rw [segmentsRegex, takes_segment short]
          constructor
          · exact fun takes => ⟨[t], .cons takes .nil, (List.intercalate_singleton ..).symm⟩
          · rintro ⟨texts, all, rfl⟩
            obtain ⟨text, _, takes, ⟨⟩, rfl⟩ := List.forall₂_cons_left_iff.mp all
            rwa [List.intercalate_singleton]
      | cons next segments =>
          have unfolded : segmentsRegex most (segment :: next :: segments) =
              .seq (segment.regex most) (.seq (.ofText ['/']) (segmentsRegex most (next :: segments))) := rfl
          rw [unfolded, Regex.takes_seq]
          simp only [Regex.takes_seq, Regex.takes_ofText]
          constructor
          · rintro ⟨text, _, first, ⟨_, rest, rfl, others, rfl⟩, rfl⟩
            simp only [List.length_append] at short
            obtain ⟨texts, all, rfl⟩ := (ih (by omega)).mp others
            refine ⟨text :: texts, .cons ((takes_segment (by omega)).mp first) all, ?_⟩
            obtain ⟨text', texts', -, -, rfl⟩ := List.forall₂_cons_left_iff.mp all
            rw [List.intercalate_cons_cons, List.append_assoc]
          · rintro ⟨_, all, rfl⟩
            obtain ⟨text, texts, takes, others, rfl⟩ := List.forall₂_cons_left_iff.mp all
            obtain ⟨text', texts', -, -, rfl⟩ := List.forall₂_cons_left_iff.mp others
            rw [List.intercalate_cons_cons] at short ⊢
            simp only [List.length_append] at short
            refine ⟨text, _, (takes_segment (by omega)).mpr takes,
              ⟨['/'], _, rfl, (ih (by omega)).mpr ⟨_, others, rfl⟩, rfl⟩, List.append_assoc ..⟩

/-- The path of a request for a resource. -/
def Resource.url (r : Resource) (texts : List Text) : Text := r.front ++ ['/'].intercalate texts

/-- A path is accepted if it is that of a request, perhaps with a slash at the end. -/
theorem accepts_url (r : Resource) (path : Text) :
    r.accepts path = true ↔ ∃ texts, List.Forall₂ Segment.Takes r.path texts ∧
      (path = r.url texts ∨ path = r.url texts ++ ['/']) := by
  have taken : r.accepts path = true ↔ ∃ c, Regex.Denotes (r.regex path.length) path c := by
    rw [Resource.accepts, Option.isSome_iff_exists]
    exact ⟨fun ⟨c, found⟩ => ⟨c, Regex.denotes_of_fullMatch found⟩, fun ⟨_, denotes⟩ =>
      Regex.fullMatch_isSome denotes⟩
  rw [taken, Resource.regex]
  generalize bound : path.length = most
  simp only [Regex.takes_seq, Regex.takes_ofText, Regex.takes_letters]
  constructor
  · rintro ⟨_, _, rfl, ⟨inner, slash, segments, ⟨-, few, each⟩, rfl⟩, rfl⟩
    simp only [List.length_append] at bound
    obtain ⟨texts, all, rfl⟩ := (takes_segments (by omega)).mp segments
    refine ⟨texts, all, ?_⟩
    cases slash with
    | nil => exact .inl (by rw [Resource.url, List.append_nil])
    | cons c slash =>
        obtain rfl : slash = [] := List.length_eq_zero_iff.mp (by simpa using few)
        obtain rfl : c = '/' := by simpa using each
        exact .inr (List.append_assoc ..).symm
  · rintro ⟨texts, all, same⟩
    have longer : (['/'].intercalate texts).length ≤ most := by
      rcases same with rfl | rfl
      · simp only [Resource.url, List.length_append] at bound
        omega
      · simp only [Resource.url, List.length_append] at bound
        omega
    have segments := (takes_segments longer).mpr ⟨texts, all, rfl⟩
    rcases same with rfl | rfl
    · exact ⟨_, _, rfl, ⟨_, [], segments, by simp, rfl⟩, by rw [Resource.url, List.append_nil]⟩
    · exact ⟨_, _, rfl, ⟨_, ['/'], segments, by simp, rfl⟩, by rw [Resource.url, List.append_assoc]⟩

theorem plain_texts {segments : List Segment} {texts : List Text} (fits : ∀ segment ∈ segments, segment.Fits)
    (all : List.Forall₂ Segment.Takes segments texts) : ∀ text ∈ texts, Plain '/' text := by
  induction all with
  | nil => exact fun _ mem => absurd mem List.not_mem_nil
  | cons takes _ ih =>
      obtain ⟨here, others⟩ := List.forall_mem_cons.mp fits
      exact List.forall_mem_cons.mpr ⟨takes.plain here, ih others⟩

/-- The elements of the path of a request. -/
theorem split_url {r : Resource} (fits : r.Fits) {texts : List Text} {path : Text}
    (all : List.Forall₂ Segment.Takes r.path texts)
    (same : path = r.url texts ∨ path = r.url texts ++ ['/']) :
    split '/' path = [] :: ['a', 'p', 'i'] :: r.restName.toList :: texts := by
  have some : texts ≠ [] := by
    rintro rfl
    exact fits.path (List.forall₂_nil_right_iff.mp all)
  obtain ⟨exactly, trailing⟩ := split_intercalate (plain_texts fits.segments all) some
  have front (rest : Text) : split '/' (r.front ++ rest) =
      [] :: ['a', 'p', 'i'] :: r.restName.toList :: split '/' rest := by
    have shape : r.front ++ rest = [] ++ '/' :: (['a', 'p', 'i'] ++ '/' :: (r.restName.toList ++ '/' :: rest)) := by
      simp only [Resource.front, List.cons_append, List.nil_append, List.append_assoc]
    rw [shape, split_item List.not_mem_nil, split_item (by decide), split_item fits.restName.2]
  rcases same with rfl | rfl
  · rw [Resource.url, front, exactly]
  · rw [Resource.url, List.append_assoc, front, trailing]

/-- **A request is accepted for a resource if its path is one for it, and the handler is given a text for
every segment of the resource.** -/
theorem accepts_params : ∀ r ∈ resources, ∀ path, r.accepts path = true ↔
    ∃ texts, List.Forall₂ Segment.Takes r.path texts ∧ params path = some texts ∧
      (path = r.url texts ∨ path = r.url texts ++ ['/']) := by
  intro r known path
  rw [accepts_url]
  constructor
  · rintro ⟨texts, all, same⟩
    refine ⟨texts, all, ?_, same⟩
    rw [params, split_url (resources_fit r known) all same]
    exact if_pos (Nat.le_add_left 3 texts.length)
  · rintro ⟨texts, all, -, same⟩
    exact ⟨texts, all, same⟩

theorem accepts_params_queue :
    (⟨"rest-multipart", .get, [.literal "queue", .digits, .allOrDigits, .allOrDigits]⟩ : Resource).accepts
        "/api/rest-multipart/queue/12/all/3/".toList = true ↔
      ∃ texts, List.Forall₂ Segment.Takes [.literal "queue", .digits, .allOrDigits, .allOrDigits] texts ∧
        params "/api/rest-multipart/queue/12/all/3/".toList = some texts ∧
        ("/api/rest-multipart/queue/12/all/3/".toList = Resource.url ⟨"rest-multipart", .get, []⟩ texts ∨
          "/api/rest-multipart/queue/12/all/3/".toList =
            Resource.url ⟨"rest-multipart", .get, []⟩ texts ++ ['/']) :=
  accepts_params _ (by decide) _

/-! ## One handler only -/

/-- Whether a text may be that of both segments. -/
def Segment.meets : Segment → Segment → Bool
  | .literal name, .literal other => name = other
  | .literal name, .digits => name.toList.all isDigit
  | .literal name, .allOrDigits => name = "all" || name.toList.all isDigit
  | .digits, .literal name => name.toList.all isDigit
  | .allOrDigits, .literal name => name = "all" || name.toList.all isDigit
  | _, _ => true

theorem meets_allOrDigits {name : String} (takes : Segment.allOrDigits.Takes name.toList) :
    Segment.allOrDigits.meets (.literal name) = true := by
  rcases takes with all | digits
  · exact Bool.or_eq_true_iff.mpr (.inl (decide_eq_true (String.toList_inj.mp all)))
  · exact Bool.or_eq_true_iff.mpr (.inr (List.all_eq_true.mpr digits.2))

theorem meets_of_takes {a b : Segment} {t : Text} (takes : a.Takes t) (takes' : b.Takes t) :
    a.meets b = true := by
  cases a with
  | literal name =>
      obtain rfl : t = name.toList := takes
      cases b with
      | literal other => exact decide_eq_true (String.toList_inj.mp takes')
      | digits => exact List.all_eq_true.mpr takes'.2
      | allOrDigits => exact meets_allOrDigits takes'
  | digits =>
      cases b with
      | literal name => exact List.all_eq_true.mpr (takes' ▸ takes.2)
      | digits => rfl
      | allOrDigits => rfl
  | allOrDigits =>
      cases b with
      | literal name =>
          obtain rfl : t = name.toList := takes'
          exact meets_allOrDigits takes
      | digits => rfl
      | allOrDigits => rfl

def meetAll : List Segment → List Segment → Bool
  | [], [] => true
  | a :: as, b :: bs => a.meets b && meetAll as bs
  | _, _ => false

theorem meetAll_of_takes {as bs : List Segment} {texts : List Text}
    (all : List.Forall₂ Segment.Takes as texts) (all' : List.Forall₂ Segment.Takes bs texts) :
    meetAll as bs = true := by
  induction all generalizing bs with
  | nil =>
      cases all'
      rfl
  | cons takes _ ih =>
      cases all' with
      | cons takes' others => exact Bool.and_eq_true_iff.mpr ⟨meets_of_takes takes takes', ih others⟩

theorem accepts_same {r r' : Resource} (known : r ∈ resources) (known' : r' ∈ resources)
    (method : r.method = r'.method) {path : Text} (accepted : r.accepts path = true)
    (accepted' : r'.accepts path = true) : r = r' := by
  have apart : ∀ r ∈ resources, ∀ r' ∈ resources, r.method = r'.method → r.restName = r'.restName →
      meetAll r.path r'.path = true → r = r' := by decide
  obtain ⟨texts, all, same⟩ := (accepts_url r path).mp accepted
  obtain ⟨texts', all', same'⟩ := (accepts_url r' path).mp accepted'
  have elems := split_url (resources_fit r known) all same
  rw [split_url (resources_fit r' known') all' same'] at elems
  simp only [List.cons.injEq, String.toList_inj, true_and] at elems
  obtain ⟨name, rfl⟩ := elems
  exact apart r known r' known' method name.symm (meetAll_of_takes all all')

/-- **No request is for two resources.** -/
theorem accepts_unique (method : Method) (path : Text) :
    (resources.filter fun r => r.method = method && r.accepts path).length ≤ 1 := by
  have listed : resources.Nodup := by decide
  have once := listed.filter fun r => r.method = method && r.accepts path
  have taken : ∀ r ∈ resources.filter fun r => r.method = method && r.accepts path,
      r ∈ resources ∧ r.method = method ∧ r.accepts path = true := by
    simp only [List.mem_filter, Bool.and_eq_true, decide_eq_true_eq, imp_self, implies_true]
  generalize (resources.filter fun r => r.method = method && r.accepts path) = found at once taken
  match found with
  | [] => exact Nat.zero_le 1
  | [_] => exact Nat.le_refl 1
  | r :: r' :: rest =>
      obtain ⟨known, is, accepted⟩ := taken r List.mem_cons_self
      obtain ⟨known', is', accepted'⟩ := taken r' (List.mem_cons_of_mem r List.mem_cons_self)
      have same := accepts_same known known' (is.trans is'.symm) accepted accepted'
      exact absurd (same ▸ List.mem_cons_self) (List.nodup_cons.mp once).1

/-! ## Files -/

/-- `path.find("..")`. -/
def findDots : Text → Option Nat
  | [] => none
  | c :: s => if c = '.' ∧ s.head? = some '.' then some 0 else (findDots s).map (· + 1)

theorem findDots_lt {path : Text} {pos : Nat} (found : findDots path = some pos) : pos < path.length := by
  induction path generalizing pos with
  | nil => cases found
  | cons c s ih =>
      rw [findDots] at found
      split_ifs at found with dots
      · obtain rfl := Option.some.inj found
        exact Nat.succ_pos _
      · obtain ⟨pos', later, rfl⟩ := Option.map_eq_some_iff.mp found
        exact Nat.succ_lt_succ (ih later)

theorem eraseIdx_shorter {path : Text} {pos : Nat} (found : findDots path = some pos) :
    (path.eraseIdx pos).length < path.length := by
  have inside := findDots_lt found
  rw [List.length_eraseIdx_of_lt inside]
  exact Nat.sub_one_lt_of_lt inside

/-- The loop that erases one dot of two. -/
def eraseDots (path : Text) : Text :=
  match _ : findDots path with
  | none => path
  | some pos => eraseDots (path.eraseIdx pos)
termination_by path.length
decreasing_by exact eraseIdx_shorter ‹_›

/-- The file of a path. -/
def fileName (webDir path : Text) : Text :=
  let erased := eraseDots path
  webDir ++ erased ++ if erased = ['/'] then "start.html".toList else []

/-- Of the dots that stand together, only the last one. -/
def lastDots : Text → Text
  | [] => []
  | c :: s => if c = '.' ∧ s.head? = some '.' then lastDots s else c :: lastDots s

theorem head_eraseIdx {path : Text} {pos : Nat} (found : findDots path = some pos) :
    (path.eraseIdx pos).head? = path.head? := by
  cases path with
  | nil => cases found
  | cons c s =>
      rw [findDots] at found
      split_ifs at found with dots
      · obtain rfl := Option.some.inj found
        rw [List.eraseIdx_cons_zero, dots.2, dots.1, List.head?_cons]
      · obtain ⟨pos', -, rfl⟩ := Option.map_eq_some_iff.mp found
        rfl

/-- Erasing a dot does not change it. -/
theorem lastDots_eraseIdx {path : Text} {pos : Nat} (found : findDots path = some pos) :
    lastDots (path.eraseIdx pos) = lastDots path := by
  induction path generalizing pos with
  | nil => cases found
  | cons c s ih =>
      rw [findDots] at found
      split_ifs at found with dots
      · obtain rfl := Option.some.inj found
        rw [List.eraseIdx_cons_zero, lastDots, if_pos dots]
      · obtain ⟨pos', later, rfl⟩ := Option.map_eq_some_iff.mp found
        rw [List.eraseIdx_cons_succ, lastDots, lastDots, head_eraseIdx later, ih later]

theorem lastDots_of_none {path : Text} (none : findDots path = none) : lastDots path = path := by
  induction path with
  | nil => rfl
  | cons c s ih =>
      rw [findDots] at none
      split_ifs at none with dots
      rw [lastDots, if_neg dots, ih (Option.map_eq_none_iff.mp none)]

theorem eraseDots_of_none {path : Text} (none : findDots path = none) : eraseDots path = path := by
  rw [eraseDots]
  split
  · rfl
  · rename_i pos found
    rw [none] at found
    cases found

theorem eraseDots_of_some {path : Text} {pos : Nat} (found : findDots path = some pos) :
    eraseDots path = eraseDots (path.eraseIdx pos) := by
  rw [eraseDots]
  split
  · rename_i none
    rw [none] at found
    cases found
  · rename_i pos' found'
    rw [Option.some.inj (found.symm.trans found')]

theorem eraseDots_eq (path : Text) : eraseDots path = lastDots path := by
  induction path using eraseDots.induct with
  | case1 path none => rw [eraseDots_of_none none, lastDots_of_none none]
  | case2 path pos found ih => rw [eraseDots_of_some found, ih, lastDots_eraseIdx found]

theorem findDots_of_dots {path : Text} (dots : ['.', '.'] <:+: path) : findDots path ≠ none := by
  obtain ⟨before, behind, rfl⟩ := dots
  induction before with
  | nil => simp [findDots]
  | cons c before ih =>
      rw [List.cons_append, List.cons_append, findDots]
      split_ifs
      · exact Option.some_ne_none 0
      · rwa [Ne, Option.map_eq_none_iff]

/-- No two dots are left when the loop ends. -/
theorem eraseDots_clean (path : Text) : ¬['.', '.'] <:+: eraseDots path := by
  induction path using eraseDots.induct with
  | case1 path none =>
      rw [eraseDots_of_none none]
      exact fun dots => findDots_of_dots dots none
  | case2 path pos found ih =>
      rw [eraseDots_of_some found]
      exact ih

/-! ## Directories -/

/-- Where a name leads to, from a directory. -/
def enter (dir : List Text) (name : Text) : List Text :=
  if name = [] ∨ name = ['.'] then dir
  else if name = ['.', '.'] then dir.dropLast
  else dir ++ [name]

def descend (dir : List Text) (path : Text) : List Text := (split '/' path).foldl enter dir

/-- Where a path leads to: from the root if it begins with a slash, else from the directory the program
is in. -/
def walk (cwd : List Text) (path : Text) : List Text :=
  descend (if path.head? = some '/' then [] else cwd) path

theorem split_append_slash (a b : Text) : ∃ names, names ≠ [] ∧
    split '/' (a ++ '/' :: b) = names ++ split '/' b ∧
      (names = split '/' a ∨ names = split '/' a ++ [[]]) := by
  induction a with
  | nil => exact ⟨[[]], List.cons_ne_nil _ _, rfl, .inr rfl⟩
  | cons c a ih =>
      obtain ⟨names, some, same, names'⟩ := ih
      rw [List.cons_append, split, split, same]
      split_ifs with slash
      · refine ⟨[] :: names, List.cons_ne_nil _ _, rfl, ?_⟩
        rcases names' with rfl | rfl
        · exact .inl rfl
        · exact .inr rfl
      · cases names with
        | nil => exact absurd rfl some
        | cons first names =>
            refine ⟨(c :: first) :: names, List.cons_ne_nil _ _, rfl, ?_⟩
            cases elems : split '/' a with
            | nil =>
                rw [elems] at names'
                rcases names' with names' | names'
                · cases names'
                · cases names'
                  exact .inl rfl
            | cons first' elems' =>
                rw [elems] at names'
                rcases names' with names' | names'
                · cases names'
                  exact .inl rfl
                · cases names'
                  exact .inr rfl

/-- A path goes on at a slash. -/
theorem descend_append (dir : List Text) (a b : Text) :
    descend dir (a ++ '/' :: b) = descend (descend dir a) b := by
  obtain ⟨names, -, same, names'⟩ := split_append_slash a b
  rw [descend, same, List.foldl_append]
  rcases names' with rfl | rfl
  · rfl
  · rw [List.foldl_append]
    rfl

/-- A path without two dots never leads out. -/
theorem descend_inside {path : Text} (clean : ¬['.', '.'] <:+: path) (dir : List Text) :
    dir <+: descend dir path := by
  have names : ∀ name ∈ split '/' path, name ≠ ['.', '.'] := by
    rintro name mem rfl
    exact clean ((split_parts '/' path).1 _ mem)
  rw [descend]
  generalize split '/' path = elems at names
  induction elems generalizing dir with
  | nil => exact List.prefix_refl dir
  | cons name elems ih =>
      obtain ⟨here, others⟩ := List.forall_mem_cons.mp names
      have further : dir <+: enter dir name := by
        rw [enter, if_neg here]
        split_ifs
        · exact List.prefix_refl dir
        · exact List.prefix_append dir _
      exact further.trans (ih (enter dir name) others)

theorem start_clean : ¬['.', '.'] <:+: "start.html".toList := by decide

/-- A path that goes on below a directory leads from that directory. -/
theorem walk_append (cwd : List Text) (a b : Text) :
    walk cwd (a ++ '/' :: b) = descend (walk cwd (a ++ ['/'])) b := by
  have begins : (a ++ '/' :: b).head? = (a ++ ['/']).head? := by cases a <;> rfl
  have here (dir : List Text) : descend dir (a ++ ['/']) = descend dir a := descend_append dir a []
  rw [walk, walk, begins, descend_append, here]

/-- **The loop leaves one dot of those that stand together, and the file of a path that begins with a slash
is at or below `web-dir`.** -/
theorem fileName_below (webDir : Text) :
    (∀ path, eraseDots path = lastDots path ∧ ¬['.', '.'] <:+: eraseDots path) ∧
      ∀ cwd rest, walk cwd (webDir ++ ['/']) <+: walk cwd (fileName webDir ('/' :: rest)) := by
  refine ⟨fun path => ⟨eraseDots_eq path, eraseDots_clean path⟩, fun cwd rest => ?_⟩
  have erased : eraseDots ('/' :: rest) = '/' :: eraseDots rest := by
    rw [eraseDots_eq, eraseDots_eq, lastDots, if_neg (by simp)]
  rw [fileName, erased]
  split_ifs with root
  · rw [(List.cons.inj root).2, List.append_assoc, List.singleton_append, walk_append cwd webDir "start.html".toList]
    exact descend_inside start_clean _
  · rw [List.append_nil, walk_append cwd webDir (eraseDots rest)]
    exact descend_inside (eraseDots_clean rest) _

end Drunos.Rest
