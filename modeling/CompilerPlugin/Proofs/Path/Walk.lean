import CompilerPlugin.Proofs.Path.Canonical

namespace CompilerPlugin.Path

/-- A directory, as the names on the way from it up to the root. -/
abbrev Place := List Element

/-- Above the root there is only the root. -/
def step (place : Place) (e : Element) : Place :=
  if e = [] ∨ e = here then place
  else if e = parent then place.tail
  else e :: place

def walk (start : Place) (path : String) : Place :=
  (elements path.toList).foldl step start

theorem element_cases (e : Element) : (e = [] ∨ e = here) ∨ e = parent ∨ Ordinary e := by
  by_cases skipped : e = [] ∨ e = here
  · exact .inl skipped
  · obtain ⟨nonempty, notHere⟩ := not_or.1 skipped
    by_cases up : e = parent
    · exact .inr (.inl up)
    · exact .inr (.inr ⟨nonempty, notHere, up⟩)

section

variable {e top : Element} {kept below : List Element} {place : Place}

theorem step_skipped (h : e = [] ∨ e = here) : step place e = place :=
  if_pos h

@[simp] theorem step_parent (place : Place) : step place parent = place.tail := by
  simp [step, parent, here]

theorem step_ordinary (h : Ordinary e) : step place e = e :: place := by
  obtain ⟨nonempty, notHere, notParent⟩ := h
  simp [step, nonempty, notHere, notParent]

theorem push_skipped (rooted : Bool) (h : e = [] ∨ e = here) : push rooted kept e = kept :=
  if_pos h

@[simp] theorem push_parent_nil : push false [] parent = [parent] := rfl

theorem push_parent_cons (rooted : Bool) (h : top ≠ parent) :
    push rooted (top :: below) parent = below := by
  rw [push, if_neg (by decide), if_pos rfl]
  exact if_neg h

theorem parent_mem_push (h : parent ∈ kept) : parent ∈ push false kept e := by
  rcases element_cases e with skipped | rfl | ordinary
  · rwa [push_skipped false skipped]
  · cases kept with
    | nil => cases h
    | cons top below =>
      by_cases same : top = parent
      · simp [push, parent, here, same]
      · rw [push_parent_cons false same]
        exact (List.mem_cons.1 h).resolve_left (Ne.symm same)
  · rw [push_ordinary false kept ordinary]
    exact List.mem_cons_of_mem e h

theorem parent_mem_foldl_push (h : parent ∈ kept) (es : List Element) :
    parent ∈ es.foldl (push false) kept := by
  induction es generalizing kept with
  | nil => exact h
  | cons e es ih => exact ih (parent_mem_push h)

theorem step_append_of_push (inside : parent ∉ push false kept e) (start : Place) :
    step (kept ++ start) e = push false kept e ++ start := by
  rcases element_cases e with skipped | rfl | ordinary
  · rw [push_skipped false skipped, step_skipped skipped]
  · cases kept with
    | nil => exact absurd List.mem_cons_self inside
    | cons top below =>
      have down : top ≠ parent := by
        rintro rfl
        exact inside (parent_mem_push List.mem_cons_self)
      rw [push_parent_cons false down, step_parent, List.cons_append, List.tail_cons]
  · rw [push_ordinary false kept ordinary, step_ordinary ordinary, List.cons_append]

theorem foldl_step_append {es : List Element} (inside : parent ∉ es.foldl (push false) kept)
    (start : Place) : es.foldl step (kept ++ start) = es.foldl (push false) kept ++ start := by
  induction es generalizing kept with
  | nil => rfl
  | cons e es ih =>
    rw [List.foldl_cons] at inside ⊢
    -- a way up that is kept here would still be there in the end
    have next : parent ∉ push false kept e := fun mem => inside (parent_mem_foldl_push mem es)
    rw [step_append_of_push next, ih inside]
    rfl

end

theorem parent_mem_resolve_iff {es : List Element} :
    parent ∈ resolve false es ↔ leaves (resolve false es) = true := by
  constructor
  · intro mem
    by_contra inside
    exact (ordinary_of_mem_resolve (by simpa using inside) mem).2.2 rfl
  · intro outside
    exact List.mem_of_head? (by simpa [leaves] using outside)

theorem walk_of_inside {path : String} (inside : leaves (resolve false (elements path.toList)) = false)
    (start : Place) : walk start path = (resolve false (elements path.toList)).reverse ++ start := by
  have away : parent ∉ (elements path.toList).foldl (push false) [] := by
    intro mem
    have outside := parent_mem_resolve_iff.1 (List.mem_reverse.2 mem)
    rw [inside] at outside
    cases outside
  rw [resolve, List.reverse_reverse]
  exact foldl_step_append away start

theorem resolve_render {es : List Element} (ordinary : ∀ e ∈ es, Ordinary e)
    (plain : ∀ e ∈ es, ∀ c ∈ e, isSeparator c = false) :
    resolve false (elements (render false es)) = es := by
  by_cases none : es = []
  · subst none
    rfl
  · rw [render_of_ne_nil none fun e mem => (ordinary e mem).1, elements_join none plain,
      resolve_ordinary false ordinary]

theorem resolve_of_normalize {path name : String} (h : normalize path = .ok name) :
    resolve false (elements name.toList) = resolve false (elements path.toList) := by
  obtain ⟨-, -, inside, same⟩ := normalize_eq_ok_iff.1 h
  rw [same, resolve_render (fun _ mem => ordinary_of_mem_resolve inside mem) whole_of_mem_resolve]

/-- The canonical form of a path is that of the directory itself or has only ordinary elements, and is
its own canonical form. From everywhere it leads to the place that the path leads to; another path
leads there, from anywhere, just when it has the same canonical form. -/
theorem place_of_normalize {path name : String} (h : normalize path = .ok name) :
    (name = "." ∨ ∃ es, es ≠ [] ∧ name.toList = join es ∧
        ∀ e ∈ es, Ordinary e ∧ ∀ c ∈ e, isSeparator c = false) ∧
      normalize name = .ok name ∧
      (∀ start, walk start name = walk start path) ∧
      ∀ other name', normalize other = .ok name' →
        ∀ start, walk start path = walk start other ↔ name = name' := by
  have walked {path name : String} (h : normalize path = .ok name) (start : Place) :
      walk start path = (resolve false (elements path.toList)).reverse ++ start :=
    walk_of_inside (normalize_eq_ok_iff.1 h).2.2.1 start
  have again := normalize_normalize h
  refine ⟨exists_elements_of_normalize h, again, fun start => ?_, fun other name' h' start => ?_⟩
  · rw [walked again, walked h, resolve_of_normalize h]
  · rw [walked h, walked h', List.append_left_inj, List.reverse_inj]
    constructor
    · intro same
      obtain ⟨-, -, -, rendered⟩ := normalize_eq_ok_iff.1 h
      obtain ⟨-, -, -, rendered'⟩ := normalize_eq_ok_iff.1 h'
      rw [← same, ← rendered] at rendered'
      exact (String.toList_injective rendered').symm
    · rintro rfl
      exact (resolve_of_normalize h).symm.trans (resolve_of_normalize h')

def winding : String := "a\\b/..//./c/"

theorem place_of_normalize_winding :
    normalize winding = .ok "a/c" ∧ normalize "a/d/../b" = .ok "a/b" ∧
      walk ["home".toList] "a/c" = walk ["home".toList] winding ∧
      walk ["home".toList] winding ≠ walk ["home".toList] "a/d/../b" := by
  have made : normalize winding = .ok "a/c" := rfl
  have other : normalize "a/d/../b" = .ok "a/b" := rfl
  obtain ⟨-, -, leads, apart⟩ := place_of_normalize made
  exact ⟨made, other, leads _, fun same => absurd ((apart _ _ other _).1 same) (by decide)⟩

end CompilerPlugin.Path
