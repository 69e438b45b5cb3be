import Mathlib.Data.List.Forall2

namespace CompilerPlugin

theorem bind_eq_ok {α β ε : Type} {x : Except ε α} {f : α → Except ε β} {b : β} :
    x >>= f = .ok b ↔ ∃ a, x = .ok a ∧ f a = .ok b := by
  cases x <;> simp [bind, Except.bind]

theorem check_bind_eq_ok {β ε : Type} {check : Except ε Unit} {rest : Except ε β} {b : β} :
    (do check; rest) = .ok b ↔ check = .ok () ∧ rest = .ok b := by
  cases check <;> simp [bind, Except.bind]

theorem mapError_eq_ok {α ε ε' : Type} {x : Except ε α} {f : ε → ε'} {a : α} :
    x.mapError f = .ok a ↔ x = .ok a := by
  cases x <;> simp [Except.mapError]

theorem mapM_eq_ok {α β ε : Type} {f : α → Except ε β} {g : α → β} {l : List α}
    (each : ∀ x ∈ l, f x = .ok (g x)) : l.mapM f = .ok (l.map g) := by
  induction l with
  | nil => rfl
  | cons x l ih =>
    rw [List.mapM_cons, each x List.mem_cons_self, ih fun y mem => each y (List.mem_cons_of_mem _ mem)]
    rfl

theorem mapM_eq_ok_iff {α β ε : Type} {f : α → Except ε β} {l : List α} {l' : List β} :
    l.mapM f = .ok l' ↔ List.Forall₂ (fun x y => f x = .ok y) l l' := by
  induction l generalizing l' with
  | nil => simp [pure, Except.pure, eq_comm]
  | cons x l ih =>
    rw [List.mapM_cons, bind_eq_ok, List.forall₂_cons_left_iff]
    constructor
    · rintro ⟨y, hy, h⟩
      obtain ⟨ys, hys, h⟩ := bind_eq_ok.1 h
      cases h
      exact ⟨y, ys, hy, ih.1 hys, rfl⟩
    · rintro ⟨y, ys, hy, each, rfl⟩
      exact ⟨y, hy, bind_eq_ok.2 ⟨ys, ih.2 each, rfl⟩⟩

theorem mapM_eq_error_iff {α β ε : Type} {f : α → Except ε β} {l : List α} {e : ε} :
    l.mapM f = .error e ↔
      ∃ front x rest, l = front ++ x :: rest ∧ (∀ y ∈ front, ∃ z, f y = .ok z) ∧ f x = .error e := by
  constructor
  · intro h
    induction l with
    | nil => cases h
    | cons x l ih =>
      rw [List.mapM_cons] at h
      cases hx : f x with
      | error e' =>
        rw [hx] at h
        cases h
        exact ⟨[], x, l, rfl, List.forall_mem_nil _, hx⟩
      | ok y =>
        rw [hx] at h
        cases tail : l.mapM f with
        | ok ys =>
          rw [tail] at h
          cases h
        | error e' =>
          rw [tail] at h
          cases h
          obtain ⟨front, x', rest, rfl, before, fault⟩ := ih tail
          exact ⟨x :: front, x', rest, rfl, List.forall_mem_cons.2 ⟨⟨y, hx⟩, before⟩, fault⟩
  · rintro ⟨front, x, rest, rfl, before, fault⟩
    induction front with
    | nil =>
      rw [List.nil_append, List.mapM_cons, fault]
      rfl
    | cons y front ih =>
      obtain ⟨⟨z, hz⟩, before⟩ := List.forall_mem_cons.1 before
      rw [List.cons_append, List.mapM_cons, hz, ih before]
      rfl

theorem forall_of_mapM_eq_ok {α β ε : Type} {f : α → Except ε β} {l : List α} {l' : List β}
    (h : l.mapM f = .ok l') : ∀ x ∈ l, ∃ y, f x = .ok y := by
  induction l generalizing l' with
  | nil => simp
  | cons x l ih =>
    rw [List.mapM_cons] at h
    obtain ⟨y, hy, h⟩ := bind_eq_ok.1 h
    obtain ⟨ys, hys, -⟩ := bind_eq_ok.1 h
    intro x' mem
    rcases List.mem_cons.1 mem with rfl | mem
    · exact ⟨y, hy⟩
    · exact ih hys x' mem

theorem exists_mapM_eq_ok {α β γ ε : Type} {R : α → γ → Prop} {f : α → Except ε β}
    (total : ∀ x y, R x y → ∃ z, f x = .ok z) {l : List α} {l' : List γ} (h : List.Forall₂ R l l') :
    ∃ zs, l.mapM f = .ok zs := by
  induction h with
  | nil => exact ⟨[], rfl⟩
  | cons head _ ih =>
    obtain ⟨z, hz⟩ := total _ _ head
    obtain ⟨zs, hzs⟩ := ih
    refine ⟨z :: zs, ?_⟩
    rw [List.mapM_cons, hz, hzs]
    rfl

section

variable {α ε : Type}

def firstError : List ε → Except ε Unit
  | [] => .ok ()
  | e :: _ => .error e

theorem firstError_eq_error_iff {es : List ε} {e : ε} : firstError es = .error e ↔ es.head? = some e := by
  cases es <;> simp [firstError]

theorem firstError_eq_ok_iff {es : List ε} : firstError es = .ok () ↔ es = [] := by
  cases es <;> simp [firstError]

theorem firstError_append (es fs : List ε) : firstError (es ++ fs) = (do firstError es; firstError fs) := by
  cases es <;> rfl

theorem firstError_map_filter (p : α → Bool) (f : α → ε) (l : List α) :
    firstError ((l.filter p).map f) = match l.find? p with
      | some a => .error (f a)
      | none => .ok () := by
  induction l with
  | nil => rfl
  | cons a l ih =>
    rw [List.filter_cons, List.find?_cons]
    cases p a with
    | true => rfl
    | false => exact ih

def inTurn (find : List α → α → List ε) (l : List α) : List ε :=
  l.zipIdx.flatMap fun (a, i) => find (l.take i) a

theorem inTurn_cons (find : List α → α → List ε) (a : α) (l : List α) :
    inTurn find (a :: l) = find [] a ++ inTurn (fun before => find (a :: before)) l := by
  rw [inTurn, List.zipIdx_cons, List.flatMap_cons, List.zipIdx_succ, List.flatMap_map]
  rfl

/-- A scan that remembers the keys it has seen, and asks only which they are, fails with the first of what
is found in turn. -/
theorem scan_eq_firstError {κ : Type} (key : α → κ) (find : List κ → α → List ε)
    {scan : List κ → List α → Except ε Unit}
    (unordered : ∀ seen seen' a, (∀ k, k ∈ seen ↔ k ∈ seen') → find seen a = find seen' a)
    (nil : ∀ seen, scan seen [] = .ok ())
    (cons : ∀ seen a rest, scan seen (a :: rest) = (do
      firstError (find seen a)
      scan (key a :: seen) rest))
    (seen : List κ) (l : List α) :
    scan seen l = firstError (inTurn (fun before a => find (seen ++ before.map key) a) l) := by
  induction l generalizing seen with
  | nil => exact nil seen
  | cons a rest ih =>
    -- the key of the first may join what was seen at either end
    have moved (before : List α) (b : α) :
        find (seen ++ (a :: before).map key) b = find (key a :: seen ++ before.map key) b :=
      unordered _ _ b fun k => by simp [or_left_comm]
    rw [cons, inTurn_cons, List.map_nil, List.append_nil, firstError_append, ih]
    simp only [moved]

end

end CompilerPlugin
