import CompilerPlugin.Response.Issue

namespace CompilerPlugin.Response

def Mode.reportIf (mode : Mode) (cause : Prop) [Decidable cause] (i : Issue) : Judged Unit :=
  if cause then mode.report i else .accept ()

namespace Judged

variable {α β : Type}

def ofExcept (x : Except Violation α) : Judged α :=
  ⟨[], x⟩

theorem ext {x y : Judged α} (warnings : x.warnings = y.warnings) (result : x.result = y.result) :
    x = y := by
  cases x
  cases y
  simp_all

theorem bind_mk_error (ws : List Issue) (v : Violation) (f : α → Judged β) :
    (⟨ws, .error v⟩ : Judged α) >>= f = ⟨ws, .error v⟩ := rfl

theorem bind_mk_ok (ws : List Issue) (a : α) (f : α → Judged β) :
    (⟨ws, .ok a⟩ : Judged α) >>= f = ⟨ws ++ (f a).warnings, (f a).result⟩ := rfl

instance : LawfulMonad Judged := by
  refine .mk' Judged ?_ (fun _ _ => rfl) ?_
  · rintro _ ⟨ws, v | a⟩
    · rfl
    · exact ext (List.append_nil ws) rfl
  · rintro _ _ _ ⟨ws, v | a⟩ f g
    · rfl
    · rw [bind_mk_ok, bind_mk_ok]
      obtain ⟨us, v | b⟩ := f a
      · rfl
      · exact ext (List.append_assoc ws us _) rfl

section

variable {x : Judged α} {f : α → Judged β}

theorem result_bind : (x >>= f).result = x.result >>= fun a => (f a).result := by
  obtain ⟨ws, v | a⟩ := x <;> rfl

theorem result_bind_eq_ok {b : β} :
    (x >>= f).result = .ok b ↔ ∃ a, x.result = .ok a ∧ (f a).result = .ok b := by
  obtain ⟨ws, v | a⟩ := x <;> simp [bind_mk_error, bind_mk_ok]

theorem result_bind_of_ok {a : α} (made : x.result = .ok a) : (x >>= f).result = (f a).result := by
  obtain ⟨ws, result⟩ := x
  cases made
  rfl

theorem result_bind_of_error {v : Violation} (failed : x.result = .error v) :
    (x >>= f).result = .error v := by
  obtain ⟨ws, result⟩ := x
  cases failed
  rfl

theorem warnings_bind_ofExcept (x : Judged α) (g : α → Except Violation β) :
    (x >>= fun a => ofExcept (g a)).warnings = x.warnings := by
  obtain ⟨ws, v | a⟩ := x
  · rfl
  · exact List.append_nil ws

def Raises (x : Judged α) (i : Issue) : Prop :=
  i ∈ x.warnings ∨ x.result = .error (.issue i)

theorem raises_bind {i : Issue} :
    (x >>= f).Raises i ↔ x.Raises i ∨ ∃ a, x.result = .ok a ∧ (f a).Raises i := by
  obtain ⟨ws, v | a⟩ := x
  · rw [bind_mk_error]
    simp [Raises]
  · rw [bind_mk_ok]
    simp [Raises, or_assoc]

theorem raises_ofExcept {x : Except Violation α} {i : Issue} :
    (ofExcept x).Raises i ↔ x = .error (.issue i) := by
  simp [Raises, ofExcept]

theorem not_raises_accept (a : α) (i : Issue) : ¬ (accept a).Raises i := by
  simp [Raises, accept]

theorem raises_report {mode : Mode} {i j : Issue} : (mode.report i).Raises j ↔ j = i := by
  cases mode <;> simp [Raises, Mode.report, eq_comm]

theorem reportIf_bind (mode : Mode) (cause : Prop) [Decidable cause] (i : Issue)
    (f : Unit → Judged α) :
    mode.reportIf cause i >>= f = if cause then mode.report i >>= f else f () := by
  rw [Mode.reportIf]
  split <;> rfl

theorem raises_reportIf {mode : Mode} {cause : Prop} [Decidable cause] {i j : Issue} :
    (mode.reportIf cause i).Raises j ↔ cause ∧ j = i := by
  rw [Mode.reportIf]
  split <;> simp [raises_report, not_raises_accept, *]

theorem result_reportIf_eq_ok {mode : Mode} {cause : Prop} [Decidable cause] {i : Issue}
    {u : Unit} : (mode.reportIf cause i).result = .ok u ↔ mode = .strict → ¬ cause := by
  rw [Mode.reportIf]
  split <;> cases mode <;> simp [Mode.report, accept, *]

end

section

variable {f : β → α → Judged β} {l : List α}

/-- Step by step through a list, a run comes to `a` and has made `b'` of what stands before it. -/
def ComesTo (f : β → α → Judged β) (b : β) (l : List α) (b' : β) (a : α) : Prop :=
  ∃ before after, l = before ++ a :: after ∧ (before.foldlM f b).result = .ok b'

theorem not_comesTo_nil {b b' : β} {a : α} : ¬ ComesTo f b [] b' a := by
  rintro ⟨before, after, split, -⟩
  exact absurd split (by simp)

theorem comesTo_cons {b b' : β} {a a' : α} :
    ComesTo f b (a :: l) b' a' ↔
      (b' = b ∧ a' = a) ∨ ∃ c, (f b a).result = .ok c ∧ ComesTo f c l b' a' := by
  constructor
  · rintro ⟨before, after, split, made⟩
    cases before with
    | nil =>
      cases split
      cases made
      exact .inl ⟨rfl, rfl⟩
    | cons head before =>
      cases split
      rw [List.foldlM_cons] at made
      obtain ⟨c, first, made⟩ := result_bind_eq_ok.1 made
      exact .inr ⟨c, first, before, after, rfl, made⟩
  · rintro (⟨rfl, rfl⟩ | ⟨c, first, before, after, rfl, made⟩)
    · exact ⟨[], l, rfl, rfl⟩
    · refine ⟨a :: before, after, rfl, ?_⟩
      rw [List.foldlM_cons]
      exact result_bind_eq_ok.2 ⟨c, first, made⟩

theorem raises_foldlM {b : β} {i : Issue} :
    (l.foldlM f b).Raises i ↔ ∃ b' a, ComesTo f b l b' a ∧ (f b' a).Raises i := by
  induction l generalizing b with
  | nil => simp [List.foldlM_nil, pure, not_raises_accept, not_comesTo_nil]
  | cons a l ih =>
    simp only [List.foldlM_cons, raises_bind, ih, comesTo_cons]
    constructor
    · rintro (here | ⟨c, first, b', a', comes, there⟩)
      · exact ⟨b, a, .inl ⟨rfl, rfl⟩, here⟩
      · exact ⟨b', a', .inr ⟨c, first, comes⟩, there⟩
    · rintro ⟨b', a', ⟨rfl, rfl⟩ | ⟨c, first, comes⟩, found⟩
      · exact .inl found
      · exact .inr ⟨c, first, b', a', comes, found⟩

end

/-- What is left of a judgement if the first issue that it lets pass stops it instead. -/
def strictly (x : Judged α) : Judged α :=
  match x.warnings with
  | [] => x
  | i :: _ => .refuse (.issue i)

theorem strictly_reportIf (cause : Prop) [Decidable cause] (i : Issue) :
    (Mode.lenient.reportIf cause i).strictly = Mode.strict.reportIf cause i := by
  rw [Mode.reportIf, Mode.reportIf]
  split <;> rfl

theorem strictly_bind (x : Judged α) (f : α → Judged β) :
    (x >>= f).strictly = x.strictly >>= fun a => (f a).strictly := by
  obtain ⟨_ | ⟨i, ws⟩, v | a⟩ := x <;> rfl

theorem strictly_foldlM {f g : β → α → Judged β} (each : ∀ b a, g b a = (f b a).strictly)
    (l : List α) (b : β) : l.foldlM g b = (l.foldlM f b).strictly := by
  induction l generalizing b with
  | nil => rfl
  | cons a l ih => simp only [List.foldlM_cons, strictly_bind, each, ih]

end Judged

end CompilerPlugin.Response
