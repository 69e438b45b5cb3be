import CompilerPlugin.Path
import Mathlib.Data.List.Basic

namespace CompilerPlugin.Path

def Ordinary (e : Element) : Prop :=
  e ≠ [] ∧ e ≠ here ∧ e ≠ parent

instance (e : Element) : Decidable (Ordinary e) :=
  inferInstanceAs (Decidable (e ≠ [] ∧ e ≠ here ∧ e ≠ parent))

structure IsProto (path : String) : Prop where
  slashes : '\\' ∉ path.toList
  ordinary : ∀ e ∈ path.toList.splitOn '/', Ordinary e
  extension : protoExtension.toList <:+ path.toList

/-- The first of the elements leads up, so all of them lead outside. -/
def leaves (es : List Element) : Bool :=
  es.head? = some parent

theorem push_cases (rooted : Bool) (kept : List Element) (e : Element) :
    push rooted kept e = kept ∨ (∃ top, kept = top :: push rooted kept e) ∨
      (push rooted kept e = e :: kept ∧ e ≠ [] ∧ e ≠ here ∧
        (e = parent → ∀ top ∈ kept.head?, top = parent)) := by
  by_cases skipped : e = [] ∨ e = here
  · exact .inl (by simp [push, skipped])
  obtain ⟨nonempty, notHere⟩ := not_or.1 skipped
  by_cases up : e = parent
  · subst up
    cases kept with
    | nil => cases rooted <;> simp [push, parent, here]
    | cons top below =>
      by_cases same : top = parent
      · exact .inr (.inr ⟨by simp [push, nonempty, notHere, same], nonempty, notHere, by simp [same]⟩)
      · exact .inr (.inl ⟨top, by simp [push, nonempty, notHere, same]⟩)
  · exact .inr (.inr ⟨by simp [push, nonempty, notHere, up], nonempty, notHere, fun h => absurd h up⟩)

theorem push_ordinary (rooted : Bool) (kept : List Element) {e : Element} (h : Ordinary e) :
    push rooted kept e = e :: kept := by
  obtain ⟨nonempty, notHere, notParent⟩ := h
  simp [push, nonempty, notHere, notParent]

theorem foldl_push_ordinary (rooted : Bool) {es : List Element} (h : ∀ e ∈ es, Ordinary e)
    (kept : List Element) : es.foldl (push rooted) kept = es.reverse ++ kept := by
  induction es generalizing kept with
  | nil => rfl
  | cons e es ih =>
    rw [List.foldl_cons, push_ordinary rooted kept (h e List.mem_cons_self),
      ih fun e' mem => h e' (List.mem_cons_of_mem _ mem)]
    simp

theorem resolve_ordinary (rooted : Bool) {es : List Element} (h : ∀ e ∈ es, Ordinary e) :
    resolve rooted es = es := by
  simp [resolve, foldl_push_ordinary rooted h]

/-- Elements as they are kept, the latest first: none is one that is skipped, and below a `..` there
is nothing else. -/
structure Kept (kept : List Element) : Prop where
  visible : ∀ e ∈ kept, e ≠ [] ∧ e ≠ here
  parents : kept.Pairwise fun upper lower => upper = parent → lower = parent

theorem Kept.push {kept : List Element} (h : Kept kept) (rooted : Bool) (e : Element) :
    Kept (Path.push rooted kept e) := by
  rcases push_cases rooted kept e with same | ⟨top, taken⟩ | ⟨joined, nonempty, notHere, onParent⟩
  · rwa [same]
  · rw [taken] at h
    exact ⟨fun e mem => h.visible e (List.mem_cons_of_mem _ mem), h.parents.of_cons⟩
  · rw [joined]
    refine ⟨?_, List.pairwise_cons.2 ⟨?_, h.parents⟩⟩
    · intro x mem
      rcases List.mem_cons.1 mem with rfl | mem
      · exact ⟨nonempty, notHere⟩
      · exact h.visible x mem
    · intro lower mem up
      cases kept with
      | nil => cases mem
      | cons top below =>
        have same : top = parent := onParent up top rfl
        rcases List.mem_cons.1 mem with rfl | mem
        · exact same
        · exact (List.pairwise_cons.1 h.parents).1 lower mem same

theorem mem_of_mem_push {rooted : Bool} {kept : List Element} {e x : Element}
    (mem : x ∈ push rooted kept e) : x = e ∨ x ∈ kept := by
  rcases push_cases rooted kept e with same | ⟨top, taken⟩ | ⟨joined, -⟩
  · exact .inr (same ▸ mem)
  · exact .inr (taken ▸ List.mem_cons_of_mem top mem)
  · exact List.mem_cons.1 (joined ▸ mem)

theorem kept_foldl_push (rooted : Bool) (es : List Element) {kept : List Element} (h : Kept kept) :
    Kept (es.foldl (push rooted) kept) := by
  induction es generalizing kept with
  | nil => exact h
  | cons e es ih => exact ih (h.push rooted e)

theorem mem_of_mem_foldl_push {rooted : Bool} {es kept : List Element} {x : Element}
    (mem : x ∈ es.foldl (push rooted) kept) : x ∈ es ∨ x ∈ kept := by
  induction es generalizing kept with
  | nil => exact .inr mem
  | cons e es ih =>
    rcases ih mem with later | mem
    · exact .inl (List.mem_cons_of_mem _ later)
    · rcases mem_of_mem_push mem with rfl | before
      · exact .inl List.mem_cons_self
      · exact .inr before

theorem mem_of_mem_resolve {rooted : Bool} {es : List Element} {x : Element}
    (mem : x ∈ resolve rooted es) : x ∈ es :=
  (mem_of_mem_foldl_push (List.mem_reverse.1 mem)).resolve_right List.not_mem_nil

theorem kept_reverse_resolve (rooted : Bool) (es : List Element) : Kept (resolve rooted es).reverse := by
  rw [resolve, List.reverse_reverse]
  exact kept_foldl_push rooted es ⟨by simp, .nil⟩

theorem visible_of_mem_resolve {rooted : Bool} {es : List Element} :
    ∀ e ∈ resolve rooted es, e ≠ [] ∧ e ≠ here :=
  fun e mem => (kept_reverse_resolve rooted es).visible e (List.mem_reverse.2 mem)

theorem ordinary_of_mem_resolve {rooted : Bool} {es : List Element}
    (inside : leaves (resolve rooted es) = false) {x : Element} (mem : x ∈ resolve rooted es) :
    Ordinary x := by
  obtain ⟨nonempty, notHere⟩ := visible_of_mem_resolve x mem
  refine ⟨nonempty, notHere, ?_⟩
  rintro rfl
  have ordered := List.pairwise_reverse.1 (kept_reverse_resolve rooted es).parents
  cases all : resolve rooted es with
  | nil => rw [all] at mem; cases mem
  | cons first rest =>
    rw [all] at mem ordered inside
    have notParent : first ≠ parent := by simpa [leaves] using inside
    rcases List.mem_cons.1 mem with rfl | mem
    · exact notParent rfl
    · exact notParent ((List.pairwise_cons.1 ordered).1 parent mem rfl)

theorem splitOnP_congr {α : Type} {p q : α → Bool} {xs : List α} (h : ∀ x ∈ xs, p x = q x) :
    xs.splitOnP p = xs.splitOnP q := by
  induction xs with
  | nil => simp
  | cons x xs ih =>
    rw [List.splitOnP_cons_eq_if_modifyHead, List.splitOnP_cons_eq_if_modifyHead,
      h x List.mem_cons_self, ih fun y mem => h y (List.mem_cons_of_mem _ mem)]

theorem not_of_mem_splitOnP {α : Type} {p : α → Bool} {xs e : List α} (mem : e ∈ xs.splitOnP p) :
    ∀ x ∈ e, p x = false := by
  induction xs generalizing e with
  | nil =>
    rw [List.splitOnP_nil, List.mem_singleton] at mem
    simp [mem]
  | cons y ys ih =>
    rw [List.splitOnP_cons_eq_if_modifyHead] at mem
    split at mem
    · rcases List.mem_cons.1 mem with rfl | mem
      · simp
      · exact ih mem
    · rename_i other
      cases rest : ys.splitOnP p with
      | nil => exact absurd rest (List.splitOnP_ne_nil p ys)
      | cons head tail =>
        rw [rest, List.modifyHead_cons] at mem
        rcases List.mem_cons.1 mem with rfl | mem
        · intro x inHead
          rcases List.mem_cons.1 inHead with rfl | inHead
          · simpa using other
          · exact ih (rest ▸ List.mem_cons_self) x inHead
        · exact ih (rest ▸ List.mem_cons_of_mem _ mem)

theorem whole_of_mem_resolve {rooted : Bool} {cs : List Char} :
    ∀ e ∈ resolve rooted (elements cs), ∀ c ∈ e, isSeparator c = false :=
  fun _ mem => not_of_mem_splitOnP (mem_of_mem_resolve mem)

theorem elements_eq_splitOn {cs : List Char} (h : '\\' ∉ cs) : elements cs = cs.splitOn '/' := by
  apply splitOnP_congr
  intro c mem
  have other : c ≠ '\\' := fun same => h (same ▸ mem)
  simp only [isSeparator, other, decide_false, Bool.or_false]
  rfl

theorem mem_join {es : List Element} {c : Char} (mem : c ∈ join es) : c = '/' ∨ ∃ e ∈ es, c ∈ e := by
  induction es with
  | nil => cases mem
  | cons e es ih =>
    cases es with
    | nil => exact .inr ⟨e, List.mem_cons_self, by simpa [join] using mem⟩
    | cons e' es =>
      rw [join, List.intercalate_cons_cons, List.append_assoc, List.mem_append] at mem
      rcases mem with first | rest
      · exact .inr ⟨e, List.mem_cons_self, first⟩
      · rcases List.mem_cons.1 rest with slash | rest
        · exact .inl slash
        · rcases ih rest with slash | ⟨x, later, inside⟩
          · exact .inl slash
          · exact .inr ⟨x, List.mem_cons_of_mem _ later, inside⟩

theorem splitOn_join {es : List Element} (nonempty : es ≠ [])
    (plain : ∀ e ∈ es, ∀ c ∈ e, isSeparator c = false) : (join es).splitOn '/' = es := by
  apply List.splitOn_intercalate '/' ?_ nonempty
  intro e mem inside
  have := plain e mem '/' inside
  simp [isSeparator] at this

theorem join_splitOn (cs : List Char) : join (cs.splitOn '/') = cs :=
  List.intercalate_splitOn '/'

theorem backslash_notMem_join {es : List Element}
    (plain : ∀ e ∈ es, ∀ c ∈ e, isSeparator c = false) : '\\' ∉ join es := by
  intro mem
  rcases mem_join mem with slash | ⟨e, inEs, inside⟩
  · cases slash
  · cases plain e inEs _ inside

theorem elements_join {es : List Element} (nonempty : es ≠ [])
    (plain : ∀ e ∈ es, ∀ c ∈ e, isSeparator c = false) : elements (join es) = es := by
  rw [elements_eq_splitOn (backslash_notMem_join plain), splitOn_join nonempty plain]

theorem join_ne_nil {es : List Element} (nonempty : es ≠ []) (visible : ∀ e ∈ es, e ≠ []) :
    join es ≠ [] := by
  cases es with
  | nil => exact absurd rfl nonempty
  | cons e es =>
    have first : e ≠ [] := visible e List.mem_cons_self
    cases es with
    | nil => simpa [join] using first
    | cons e' es => simp [join, List.intercalate_cons_cons]

theorem render_of_ne_nil {es : List Element} (nonempty : es ≠ []) (visible : ∀ e ∈ es, e ≠ []) :
    render false es = join es := by
  simp [render, join_ne_nil nonempty visible]

theorem join_cons (e : Element) (es : List Element) :
    join (e :: es) = e ∨ ∃ rest, join (e :: es) = e ++ '/' :: rest := by
  cases es with
  | nil => exact .inl (by simp [join])
  | cons e' es => exact .inr ⟨join (e' :: es), by simp [join, List.intercalate_cons_cons]⟩

theorem clean_of_resolve_cons {cs : List Char} {e : Element} {es : List Element}
    (relative : isRooted cs = false) (kept : resolve false (elements cs) = e :: es) :
    e ≠ [] ∧ '/' ∉ e ∧ (clean cs = e ∨ ∃ rest, clean cs = e ++ '/' :: rest) := by
  have visible : ∀ e ∈ resolve false (elements cs), e ≠ [] :=
    fun e mem => (visible_of_mem_resolve e mem).1
  have mem : e ∈ resolve false (elements cs) := kept ▸ List.mem_cons_self
  have plain : '/' ∉ e := fun slash => by cases whole_of_mem_resolve e mem '/' slash
  refine ⟨visible e mem, plain, ?_⟩
  rw [clean, relative, render_of_ne_nil (by simp [kept]) visible, kept]
  exact join_cons e es

theorem isAbsolute_clean (cs : List Char) : isAbsolute (clean cs) = isRooted cs := by
  cases rooted : isRooted cs with
  | true =>
    rw [clean, rooted]
    rfl
  | false =>
    cases kept : resolve false (elements cs) with
    | nil =>
      rw [clean, rooted, kept]
      rfl
    | cons e es =>
      obtain ⟨visible, plain, form⟩ := clean_of_resolve_cons rooted kept
      cases e with
      | nil => exact absurd rfl visible
      | cons c e =>
        have other : c ≠ '/' := by
          rintro rfl
          exact plain List.mem_cons_self
        rcases form with single | ⟨rest, more⟩
        · simp [isAbsolute, single, other]
        · simp [isAbsolute, more, other]

theorem jumps_iff {cs : List Char} : jumps cs = true ↔ cs = parent ∨ parent ++ ['/'] <+: cs := by
  simp [jumps]

theorem jumps_append {e : Element} (plain : '/' ∉ e) (rest : List Char) :
    jumps (e ++ '/' :: rest) = true ↔ e = parent := by
  rw [jumps_iff]
  -- a separator stands behind the two points, so the element has no other characters
  rcases e with _ | ⟨a, _ | ⟨b, _ | ⟨c, e⟩⟩⟩
  · simp [parent]
  · simp [parent]
  · simp [parent, eq_comm]
  · have third : '/' ≠ c := by
      rintro rfl
      simp at plain
    simp [parent, third]

theorem jumps_clean {cs : List Char} (relative : isRooted cs = false) :
    jumps (clean cs) = leaves (resolve false (elements cs)) := by
  cases kept : resolve false (elements cs) with
  | nil =>
    rw [clean, relative, kept]
    rfl
  | cons e es =>
    obtain ⟨-, plain, form⟩ := clean_of_resolve_cons relative kept
    rw [leaves, List.head?_cons, Bool.eq_iff_iff, decide_eq_true_eq, Option.some.injEq]
    rcases form with single | ⟨rest, more⟩
    · have short : ¬ parent ++ ['/'] <+: e := fun pre =>
        plain (pre.subset (List.mem_append_right _ List.mem_cons_self))
      rw [single, jumps_iff, or_iff_left short]
    · rw [more, jumps_append plain]

theorem normalize_eq (path : String) :
    normalize path =
      if path.toList = [] then .error .empty
      else if isRooted path.toList then .error (.absolute (String.ofList (clean path.toList)))
      else if leaves (resolve false (elements path.toList)) then
        .error (.jumpsContext (String.ofList (clean path.toList)))
      else .ok (String.ofList (clean path.toList)) := by
  rw [normalize]
  simp only [isAbsolute_clean, String.toList_eq_nil_iff]
  cases relative : isRooted path.toList with
  | true => rfl
  | false => rw [jumps_clean relative]

theorem normalize_eq_ok_iff {path name : String} :
    normalize path = .ok name ↔
      path.toList ≠ [] ∧ isRooted path.toList = false ∧
        leaves (resolve false (elements path.toList)) = false ∧
        name.toList = render false (resolve false (elements path.toList)) := by
  rw [normalize_eq]
  split
  · simp [*]
  split
  · simp [*]
  split
  · simp [*]
  · rename_i nonempty relative inside
    simp only [Bool.not_eq_true] at relative inside
    simp only [Except.ok.injEq, clean, relative, inside, ne_eq, nonempty, not_false_eq_true, true_and]
    constructor
    · rintro rfl
      exact String.toList_ofList
    · intro same
      rw [← same, String.ofList_toList]

theorem isRooted_of_ordinary {cs : List Char} (slashes : '\\' ∉ cs)
    (ordinary : ∀ e ∈ cs.splitOn '/', Ordinary e) : cs ≠ [] ∧ isRooted cs = false := by
  cases cs with
  | nil => exact absurd rfl (ordinary [] (by simp [List.splitOn])).1
  | cons c cs =>
    refine ⟨List.cons_ne_nil c cs, ?_⟩
    have notSlash : c ≠ '/' := by
      rintro rfl
      exact (ordinary [] (by simp [List.splitOn, List.splitOnP_cons_eq_if_modifyHead])).1 rfl
    have notBack : c ≠ '\\' := by
      rintro rfl
      exact slashes List.mem_cons_self
    simp [isSeparator, notSlash, notBack]

theorem exists_elements_of_normalize {path name : String} (h : normalize path = .ok name) :
    name = "." ∨ ∃ es, es ≠ [] ∧ name.toList = join es ∧
      ∀ e ∈ es, Ordinary e ∧ ∀ c ∈ e, isSeparator c = false := by
  obtain ⟨-, -, inside, same⟩ := normalize_eq_ok_iff.1 h
  by_cases none : resolve false (elements path.toList) = []
  · rw [none] at same
    exact .inl (String.toList_injective same)
  · rw [render_of_ne_nil none fun e mem => (visible_of_mem_resolve e mem).1] at same
    exact .inr ⟨_, none, same, fun e mem =>
      ⟨ordinary_of_mem_resolve inside mem, whole_of_mem_resolve e mem⟩⟩

theorem canonical_of_normalize {path name : String} (h : normalize path = .ok name) :
    name.toList = here ∨ ('\\' ∉ name.toList ∧ ∀ e ∈ name.toList.splitOn '/', Ordinary e) := by
  rcases exists_elements_of_normalize h with rfl | ⟨es, nonempty, same, each⟩
  · exact .inl rfl
  · have plain : ∀ e ∈ es, ∀ c ∈ e, isSeparator c = false := fun e mem => (each e mem).2
    rw [same, splitOn_join nonempty plain]
    exact .inr ⟨backslash_notMem_join plain, fun e mem => (each e mem).1⟩

theorem normalize_eq_self_iff {path : String} :
    normalize path = .ok path ↔
      path.toList = here ∨
        ('\\' ∉ path.toList ∧ ∀ e ∈ path.toList.splitOn '/', Ordinary e) := by
  constructor
  · exact canonical_of_normalize
  · rw [normalize_eq_ok_iff]
    rintro (itself | ⟨slashes, ordinary⟩)
    · rw [itself]
      decide
    · obtain ⟨nonempty, relative⟩ := isRooted_of_ordinary slashes ordinary
      rw [elements_eq_splitOn slashes, resolve_ordinary false ordinary]
      refine ⟨nonempty, relative, ?_, by simp [render, join_splitOn, nonempty]⟩
      rw [leaves, decide_eq_false_iff_not]
      intro first
      exact (ordinary parent (List.mem_of_head? first)).2.2 rfl

theorem normalize_normalize {path name : String} (h : normalize path = .ok name) :
    normalize name = .ok name :=
  normalize_eq_self_iff.2 (canonical_of_normalize h)

theorem splitOn_append {suffix : List Char} (plain : '/' ∉ suffix) (cs : List Char) :
    ∃ front last, cs.splitOn '/' = front ++ [last] ∧
      (cs ++ suffix).splitOn '/' = front ++ [last ++ suffix] := by
  induction cs with
  | nil =>
    refine ⟨[], [], List.splitOn_nil '/', List.splitOnP_eq_singleton fun c mem => ?_⟩
    have other : c ≠ '/' := fun same => plain (same ▸ mem)
    simpa using other
  | cons c cs ih =>
    obtain ⟨front, last, whole, longer⟩ := ih
    rw [List.splitOn] at whole longer
    rw [List.splitOn, List.splitOn, List.cons_append, List.splitOnP_cons_eq_if_modifyHead,
      List.splitOnP_cons_eq_if_modifyHead, whole, longer]
    split_ifs
    · exact ⟨[] :: front, last, rfl, rfl⟩
    · cases front with
      | nil => exact ⟨[], c :: last, rfl, rfl⟩
      | cons first front => exact ⟨(c :: first) :: front, last, rfl, rfl⟩

theorem IsProto.normalize_append {path extension : String} (h : IsProto path)
    (plain : ∀ c ∈ extension.toList, isSeparator c = false) (long : 2 < extension.toList.length) :
    normalize (path ++ extension) = .ok (path ++ extension) := by
  have noSlash : '/' ∉ extension.toList := fun mem => by simpa [isSeparator] using plain _ mem
  have noBack : '\\' ∉ extension.toList := fun mem => by simpa [isSeparator] using plain _ mem
  obtain ⟨front, last, whole, longer⟩ := splitOn_append noSlash path.toList
  have ordinary := h.ordinary
  rw [whole] at ordinary
  refine normalize_eq_self_iff.2 (.inr ?_)
  rw [String.toList_append, longer]
  refine ⟨fun mem => (List.mem_append.1 mem).elim h.slashes noBack, fun e mem => ?_⟩
  rcases List.mem_append.1 mem with before | atEnd
  · exact ordinary e (List.mem_append_left _ before)
  · obtain rfl := List.mem_singleton.1 atEnd
    refine ⟨?_, ?_, ?_⟩
    all_goals
      intro same
      have length := congrArg List.length same
      simp only [List.length_append, here, parent, List.length_cons, List.length_nil] at length
      omega

theorem ne_empty_of_normalize {path name : String} (h : normalize path = .ok name) : path ≠ "" := by
  rintro rfl
  cases h

theorem checkProto_eq_ok_iff_normalize {path : String} :
    checkProto path = .ok () ↔ normalize path = .ok path ∧ protoExtension.toList <:+ path.toList := by
  rw [checkProto]
  cases normalize path with
  | error e => simp [bind, Except.bind]
  | ok name =>
    by_cases same : name = path
    · subst same
      simp [bind, Except.bind, hasProtoExtension]
    · simp [bind, Except.bind, same]

theorem checkProto_eq_ok_iff {path : String} : checkProto path = .ok () ↔ IsProto path := by
  rw [checkProto_eq_ok_iff_normalize, normalize_eq_self_iff]
  constructor
  · rintro ⟨itself | ⟨slashes, ordinary⟩, extension⟩
    · rw [itself] at extension
      exact absurd extension (by decide)
    · exact ⟨slashes, ordinary, extension⟩
  · rintro ⟨slashes, ordinary, extension⟩
    exact ⟨.inr ⟨slashes, ordinary⟩, extension⟩

end CompilerPlugin.Path
