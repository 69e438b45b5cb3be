import CompilerPlugin.Proofs.Path.Walk
import Mathlib.Data.List.Infix

namespace CompilerPlugin.Path

/-- At some point these elements lead out of a directory that is `depth` levels above their start. -/
def Escapes (depth : Nat) (es : List Element) : Prop :=
  ∃ front, front <+: es ∧ depth + front.countP (Ordinary ·) < front.count parent

instance (depth : Nat) (es : List Element) : Decidable (Escapes depth es) :=
  decidable_of_iff (∃ front ∈ es.inits, depth + front.countP (Ordinary ·) < front.count parent)
    (by simp only [List.mem_inits, Escapes])

section

variable {depth : Nat} {e : Element} {es kept : List Element}

theorem not_escapes_nil (depth : Nat) : ¬ Escapes depth [] := by
  rintro ⟨front, initial, more⟩
  rw [List.prefix_nil.1 initial] at more
  exact Nat.not_lt_zero _ more

theorem escapes_cons {depth' : Nat} (moved : ∀ front,
    depth + (e :: front).countP (Ordinary ·) < (e :: front).count parent ↔
      depth' + front.countP (Ordinary ·) < front.count parent) :
    Escapes depth (e :: es) ↔ Escapes depth' es := by
  constructor
  · rintro ⟨front, initial, more⟩
    rcases List.prefix_cons_iff.1 initial with rfl | ⟨rest, rfl, shorter⟩
    · exact absurd more (Nat.not_lt_zero _)
    · exact ⟨rest, shorter, (moved rest).1 more⟩
  · rintro ⟨front, initial, more⟩
    exact ⟨e :: front, List.cons_prefix_cons.2 ⟨rfl, initial⟩, (moved front).2 more⟩

theorem escapes_cons_skipped (h : e = [] ∨ e = here) : Escapes depth (e :: es) ↔ Escapes depth es := by
  apply escapes_cons
  intro front
  have still : ¬ Ordinary e := fun ordinary => h.elim ordinary.1 ordinary.2.1
  have notUp : e ≠ parent := by rcases h with rfl | rfl <;> decide
  rw [List.countP_cons_of_neg (by simpa using still), List.count_cons_of_ne notUp]

theorem escapes_cons_ordinary (h : Ordinary e) :
    Escapes depth (e :: es) ↔ Escapes (depth + 1) es := by
  apply escapes_cons
  intro front
  rw [List.countP_cons_of_pos (by simpa using h), List.count_cons_of_ne h.2.2]
  omega

theorem escapes_zero_cons_parent (es : List Element) : Escapes 0 (parent :: es) :=
  ⟨[parent], List.cons_prefix_cons.2 ⟨rfl, List.nil_prefix⟩, by decide⟩

theorem escapes_succ_cons_parent : Escapes (depth + 1) (parent :: es) ↔ Escapes depth es := by
  apply escapes_cons
  intro front
  rw [List.countP_cons_of_neg (by decide), List.count_cons_self]
  omega

theorem parent_mem_foldl_push_iff (inside : parent ∉ kept) :
    parent ∈ es.foldl (push false) kept ↔ Escapes kept.length es := by
  -- as long as there is no way up among them, the elements kept are as many as the steps down to here
  induction es generalizing kept with
  | nil => exact iff_of_false inside (not_escapes_nil _)
  | cons e es ih =>
    rw [List.foldl_cons]
    rcases element_cases e with skipped | rfl | ordinary
    · rw [push_skipped false skipped, escapes_cons_skipped skipped, ih inside]
    · cases kept with
      | nil =>
        rw [push_parent_nil]
        exact iff_of_true (parent_mem_foldl_push List.mem_cons_self es) (escapes_zero_cons_parent es)
      | cons top below =>
        obtain ⟨down, deeper⟩ := not_or.1 (mt List.mem_cons.2 inside)
        rw [push_parent_cons false (Ne.symm down), List.length_cons, escapes_succ_cons_parent,
          ih deeper]
    · have still : parent ∉ e :: kept := mt List.mem_cons.1 (not_or.2 ⟨Ne.symm ordinary.2.2, inside⟩)
      rw [push_ordinary false kept ordinary, escapes_cons_ordinary ordinary, ih still,
        List.length_cons]

theorem leaves_iff_escapes : leaves (resolve false es) = true ↔ Escapes 0 es := by
  rw [← parent_mem_resolve_iff, resolve, List.mem_reverse]
  exact parent_mem_foldl_push_iff List.not_mem_nil

theorem parent_notMem_push_rooted (inside : parent ∉ kept) : parent ∉ push true kept e := by
  rcases push_cases true kept e with same | ⟨top, taken⟩ | ⟨joined, -, -, onParent⟩
  · rwa [same]
  · rw [taken] at inside
    exact fun mem => inside (List.mem_cons_of_mem top mem)
  · rw [joined, List.mem_cons, not_or]
    refine ⟨?_, inside⟩
    rintro rfl
    cases kept with
    | nil => cases joined
    | cons top below => exact inside (onParent rfl top rfl ▸ List.mem_cons_self)

theorem parent_notMem_foldl_push_rooted (inside : parent ∉ kept) (es : List Element) :
    parent ∉ es.foldl (push true) kept := by
  induction es generalizing kept with
  | nil => exact inside
  | cons e es ih => exact ih (parent_notMem_push_rooted inside)

end

theorem isRooted_iff {cs : List Char} :
    isRooted cs = true ↔ cs.head? = some '/' ∨ cs.head? = some '\\' := by
  cases cs with
  | nil => simp [isRooted]
  | cons c cs => simp [isSeparator]

theorem elements_slash_cons (cs : List Char) : elements ('/' :: cs) = [] :: elements cs := by
  simp [elements, List.splitOnP_cons_eq_if_modifyHead, isSeparator]

theorem clean_rooted {cs : List Char} (rooted : isRooted cs = true) :
    (clean cs).head? = some '/' ∧ parent ∉ elements (clean cs) := by
  rw [clean, rooted, render, if_pos rfl]
  refine ⟨rfl, ?_⟩
  rw [elements_slash_cons, List.mem_cons, not_or]
  refine ⟨by decide, ?_⟩
  by_cases none : resolve true (elements cs) = []
  · rw [none]
    decide
  · rw [elements_join none whole_of_mem_resolve]
    exact mt List.mem_reverse.1 (parent_notMem_foldl_push_rooted List.not_mem_nil _)

theorem head?_elements_clean {cs : List Char} (relative : isRooted cs = false)
    (outside : leaves (resolve false (elements cs)) = true) :
    (elements (clean cs)).head? = some parent := by
  have first : (resolve false (elements cs)).head? = some parent := by simpa [leaves] using outside
  have nonempty : resolve false (elements cs) ≠ [] := by
    intro none
    rw [none] at first
    cases first
  rw [clean, relative, render_of_ne_nil nonempty fun e mem => (visible_of_mem_resolve e mem).1,
    elements_join nonempty whole_of_mem_resolve, first]

section

variable {path given : String}

theorem normalize_eq_empty_iff : normalize path = .error .empty ↔ path = "" := by
  rw [normalize_eq, ← String.toList_eq_nil_iff]
  split
  · simp [*]
  split
  · simp [*]
  split <;> simp [*]

theorem normalize_eq_absolute_iff :
    normalize path = .error (.absolute given) ↔
      isRooted path.toList = true ∧ clean path.toList = given.toList := by
  rw [normalize_eq]
  split
  · rename_i none
    simp [none, isRooted]
  split
  · simp [*, ← String.toList_inj]
  split <;> simp [*]

theorem normalize_eq_jumpsContext_iff :
    normalize path = .error (.jumpsContext given) ↔
      path ≠ "" ∧ isRooted path.toList = false ∧ Escapes 0 (elements path.toList) ∧
        clean path.toList = given.toList := by
  rw [normalize_eq, ← leaves_iff_escapes, ne_eq, ← String.toList_eq_nil_iff]
  split
  · simp [*]
  split
  · simp [*]
  split <;> simp [*, ← String.toList_inj]

theorem exists_normalize_eq_ok_iff :
    (∃ name, normalize path = .ok name) ↔
      path ≠ "" ∧ isRooted path.toList = false ∧ ¬ Escapes 0 (elements path.toList) := by
  simp only [normalize_eq_ok_iff, exists_and_left, ← leaves_iff_escapes, Bool.not_eq_true, ne_eq,
    String.toList_eq_nil_iff]
  have named : ∃ name : String,
      name.toList = render false (resolve false (elements path.toList)) :=
    ⟨_, String.toList_ofList⟩
  simp only [named, and_true]

end

/-- A path is refused if it is empty, if it starts at the root, or else if at some point it has led up
more often than down; any other is accepted. A path that is said to be absolute is given from the root
with no way up in it, and one that is said to jump out of its context by its way up. -/
theorem normalize_refuses_iff (path : String) :
    (normalize path = .error .empty ↔ path = "") ∧
      ((∃ given, normalize path = .error (.absolute given)) ↔
        path.toList.head? = some '/' ∨ path.toList.head? = some '\\') ∧
      ((∃ given, normalize path = .error (.jumpsContext given)) ↔
        path ≠ "" ∧ ¬ (path.toList.head? = some '/' ∨ path.toList.head? = some '\\') ∧
          Escapes 0 (elements path.toList)) ∧
      ((∃ name, normalize path = .ok name) ↔
        path ≠ "" ∧ ¬ (path.toList.head? = some '/' ∨ path.toList.head? = some '\\') ∧
          ¬ Escapes 0 (elements path.toList)) ∧
      (∀ given, normalize path = .error (.absolute given) →
        given.toList.head? = some '/' ∧ parent ∉ elements given.toList) ∧
      ∀ given, normalize path = .error (.jumpsContext given) →
        (elements given.toList).head? = some parent := by
  have relative : ¬ (path.toList.head? = some '/' ∨ path.toList.head? = some '\\') ↔
      isRooted path.toList = false := by
    rw [← isRooted_iff, Bool.not_eq_true]
  have text (cs : List Char) : ∃ given : String, cs = given.toList :=
    ⟨_, String.toList_ofList.symm⟩
  refine ⟨normalize_eq_empty_iff, ?_, ?_, ?_, fun given refused => ?_, fun given refused => ?_⟩
  · simp only [normalize_eq_absolute_iff, exists_and_left, text, and_true, isRooted_iff]
  · simp only [normalize_eq_jumpsContext_iff, exists_and_left, text, and_true, relative]
  · rw [exists_normalize_eq_ok_iff, relative]
  · obtain ⟨rooted, same⟩ := normalize_eq_absolute_iff.1 refused
    rw [← same]
    exact clean_rooted rooted
  · obtain ⟨-, relative, escapes, same⟩ := normalize_eq_jumpsContext_iff.1 refused
    rw [← same]
    exact head?_elements_clean relative (leaves_iff_escapes.2 escapes)

example : Escapes 0 (elements "a/../../b".toList) ∧ ¬ Escapes 0 (elements "./a/b/../..".toList) := by
  decide

theorem normalize_refuses_climbing :
    normalize "\\..\\a" = .error (.absolute "/a") ∧ parent ∉ elements "/a".toList ∧
      normalize "a/../../b/c" = .error (.jumpsContext "../b/c") ∧
      Escapes 0 (elements "a/../../b/c".toList) ∧
      (elements "../b/c".toList).head? = some parent := by
  have absolute : normalize "\\..\\a" = .error (.absolute "/a") := rfl
  have jumps : normalize "a/../../b/c" = .error (.jumpsContext "../b/c") := rfl
  obtain ⟨-, -, -, -, fromRoot, -⟩ := normalize_refuses_iff "\\..\\a"
  obtain ⟨-, -, outside, -, -, upwards⟩ := normalize_refuses_iff "a/../../b/c"
  exact ⟨absolute, (fromRoot _ absolute).2, jumps, (outside.1 ⟨_, jumps⟩).2.2, upwards _ jumps⟩

end CompilerPlugin.Path
