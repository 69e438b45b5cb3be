import CompilerPlugin.Message.Decode

/-!
What a step reads, said of bytes alone. A step is local when its success depends on nothing but the
bytes it uses up; every reader of the wire is put together from local steps.
-/

namespace CompilerPlugin.Wire

variable {α β σ : Type}

namespace Step

def run (s : Step α) (bytes : List UInt8) : Except ReadError (α × List UInt8) :=
  match s (.ofBytes bytes) with
  | .error e => .error e
  | .ok (a, r) => .ok (a, r.1.bytes)

theorem run_eq_ok {s : Step α} {bytes rest : List UInt8} {a : α} :
    s.run bytes = .ok (a, rest) ↔ ∃ r, s (.ofBytes bytes) = .ok (a, r) ∧ r.1 = .ofBytes rest := by
  rw [run]
  constructor
  · intro h
    split at h
    · cases h
    · rename_i r hr
      cases h
      exact ⟨r, hr, (Input.ofBytes_bytes r.1).symm⟩
  · rintro ⟨r, hr, rest_eq⟩
    simp [hr, rest_eq]

theorem run_bytes (s : Step α) (i : Input) :
    s.run i.bytes = (s i).map fun p => (p.1, p.2.1.bytes) := by
  obtain ⟨bytes, size, rfl⟩ := i
  simp only [run, Input.ofBytes]
  cases s ⟨bytes, bytes.length, rfl⟩ <;> rfl

theorem run_of_ok {s : Step α} {i : Input} {a : α} {r : Shorter i} (h : s i = .ok (a, r)) :
    s.run i.bytes = .ok (a, r.1.bytes) := by
  rw [run_bytes, h]
  rfl

theorem length_lt_of_run {s : Step α} {bytes rest : List UInt8} {a : α}
    (h : s.run bytes = .ok (a, rest)) : rest.length < bytes.length := by
  obtain ⟨r, -, hr⟩ := run_eq_ok.1 h
  have := r.2
  rw [hr] at this
  simpa using this

theorem run_map {s : Step α} {f : α → β} {bytes rest : List UInt8} {b : β} :
    (s.map f).run bytes = .ok (b, rest) ↔ ∃ a, s.run bytes = .ok (a, rest) ∧ f a = b := by
  simp only [run, map]
  cases h : s (.ofBytes bytes) with
  | error e => simp
  | ok p => constructor <;> simp_all

theorem run_refine {s : Step α} {f : α → Except Fault β} {bytes rest : List UInt8} {b : β} :
    (s.refine f).run bytes = .ok (b, rest) ↔ ∃ a, s.run bytes = .ok (a, rest) ∧ f a = .ok b := by
  simp only [run, refine]
  cases h : s (.ofBytes bytes) with
  | error e => simp
  | ok p =>
    obtain ⟨a, r⟩ := p
    cases hf : f a <;> simp [hf, and_comm, and_assoc]

theorem run_andThen {s : Step α} {f : α → Step β} {bytes rest : List UInt8} {b : β} :
    (s.andThen f).run bytes = .ok (b, rest) ↔
      ∃ a mid, s.run bytes = .ok (a, mid) ∧ (f a).run mid = .ok (b, rest) := by
  constructor
  · intro h
    obtain ⟨r, hr, rest_eq⟩ := run_eq_ok.1 h
    rw [andThen] at hr
    split at hr
    · cases hr
    · rename_i a r₁ hs
      split at hr
      · cases hr
      · rename_i hf
        cases hr
        have := run_of_ok hf
        rw [show _ = Input.ofBytes rest from rest_eq] at this
        exact ⟨a, r₁.1.bytes, run_of_ok hs, this⟩
  · rintro ⟨a, mid, hs, hf⟩
    obtain ⟨r₁, hs, rfl_mid⟩ := run_eq_ok.1 hs
    obtain ⟨⟨i, smaller⟩, hf, rest_eq⟩ := run_eq_ok.1 hf
    obtain ⟨j, smaller₁⟩ := r₁
    obtain rfl : j = .ofBytes mid := rfl_mid
    obtain rfl : i = .ofBytes rest := rest_eq
    simp [run, andThen, hs, hf]

theorem run_inField {s : Step α} {field : String} {bytes rest : List UInt8} {a : α} :
    (s.inField field).run bytes = .ok (a, rest) ↔ s.run bytes = .ok (a, rest) := by
  simp only [run, inField]
  cases h : s (.ofBytes bytes) <;> simp

theorem run_fail {f : Fault} {bytes rest : List UInt8} {a : α} :
    (fail f : Step α).run bytes ≠ .ok (a, rest) := by
  simp [run, fail]

theorem run_take {n : Nat} {positive : 0 < n} {bytes rest taken : List UInt8} :
    (take n positive).run bytes = .ok (taken, rest) ↔ bytes = taken ++ rest ∧ taken.length = n := by
  simp only [run, take, Input.size_ofBytes, Input.bytes_ofBytes]
  constructor
  · intro h
    by_cases enough : n ≤ bytes.length
    · simp only [enough, reduceDIte] at h
      cases h
      simp [enough]
    · simp [enough] at h
  · rintro ⟨rfl, rfl⟩
    simp

end Step

/-- These bytes are read as this value, whatever comes after them. -/
def Reads (s : Step α) (front : List UInt8) (a : α) : Prop :=
  ∀ rest, s.run (front ++ rest) = .ok (a, rest)

theorem Reads.length_pos {s : Step α} {front : List UInt8} {a : α} (h : Reads s front a) :
    0 < front.length := by
  simpa using Step.length_lt_of_run (h [])

theorem Reads.unique {s : Step α} {front front' rest rest' : List UInt8} {a a' : α}
    (h : Reads s front a) (h' : Reads s front' a') (same : front ++ rest = front' ++ rest') :
    front = front' ∧ a = a' ∧ rest = rest' := by
  have once := h rest
  rw [same, h' rest'] at once
  obtain ⟨rfl, rfl⟩ := Prod.mk.inj (Except.ok.inj once)
  exact ⟨List.append_cancel_right same, rfl, rfl⟩

def Step.Local (s : Step α) : Prop :=
  ∀ ⦃bytes rest a⦄, s.run bytes = .ok (a, rest) → ∃ front, bytes = front ++ rest ∧ Reads s front a

namespace Step.Local

variable {s : Step α} {f : α → Step β}

theorem reads_iff (hs : s.Local) {front : List UInt8} {a : α} :
    Reads s front a ↔ s.run front = .ok (a, []) := by
  constructor
  · intro h
    simpa using h []
  · intro h
    obtain ⟨front', rfl, hr⟩ := hs h
    simpa using hr

theorem map (hs : s.Local) {g : α → β} : (s.map g).Local := by
  intro bytes rest b h
  obtain ⟨a, ha, rfl⟩ := run_map.1 h
  obtain ⟨front, rfl, hr⟩ := hs ha
  exact ⟨front, rfl, fun rest => run_map.2 ⟨a, hr rest, rfl⟩⟩

theorem refine (hs : s.Local) {g : α → Except Fault β} : (s.refine g).Local := by
  intro bytes rest b h
  obtain ⟨a, ha, hb⟩ := run_refine.1 h
  obtain ⟨front, rfl, hr⟩ := hs ha
  exact ⟨front, rfl, fun rest => run_refine.2 ⟨a, hr rest, hb⟩⟩

theorem andThen (hs : s.Local) (hf : ∀ a, (f a).Local) : (s.andThen f).Local := by
  intro bytes rest b h
  obtain ⟨a, mid, ha, hb⟩ := run_andThen.1 h
  obtain ⟨front, rfl, hr⟩ := hs ha
  obtain ⟨front', rfl, hr'⟩ := hf a hb
  refine ⟨front ++ front', by simp, fun rest => run_andThen.2 ⟨a, front' ++ rest, ?_, hr' rest⟩⟩
  simpa using hr (front' ++ rest)

theorem inField (hs : s.Local) {field : String} : (s.inField field).Local := by
  intro bytes rest a h
  obtain ⟨front, rfl, hr⟩ := hs (run_inField.1 h)
  exact ⟨front, rfl, fun rest => run_inField.2 (hr rest)⟩

theorem fail {fault : Fault} : (Step.fail fault : Step α).Local :=
  fun _ _ _ h => absurd h run_fail

theorem take {n : Nat} {positive : 0 < n} : (Step.take n positive).Local := by
  intro bytes rest taken h
  obtain ⟨rfl, length⟩ := run_take.1 h
  exact ⟨taken, rfl, fun rest => run_take.2 ⟨rfl, length⟩⟩

end Step.Local

namespace Reads

variable {s : Step α} {f : α → Step β} {front : List UInt8}

theorem map_iff (hs : s.Local) {g : α → β} {b : β} :
    Reads (s.map g) front b ↔ ∃ a, Reads s front a ∧ g a = b := by
  simp only [hs.map.reads_iff, hs.reads_iff, Step.run_map]

theorem refine_iff (hs : s.Local) {g : α → Except Fault β} {b : β} :
    Reads (s.refine g) front b ↔ ∃ a, Reads s front a ∧ g a = .ok b := by
  simp only [hs.refine.reads_iff, hs.reads_iff, Step.run_refine]

theorem inField_iff {field : String} {a : α} : Reads (s.inField field) front a ↔ Reads s front a := by
  simp only [Reads, Step.run_inField]

theorem andThen {mid : List UInt8} {a : α} {b : β} (ha : Reads s front a) (hb : Reads (f a) mid b) :
    Reads (s.andThen f) (front ++ mid) b := by
  intro rest
  refine Step.run_andThen.2 ⟨a, mid ++ rest, ?_, hb rest⟩
  simpa using ha (mid ++ rest)

theorem exists_of_andThen (hs : s.Local) (hf : ∀ a, (f a).Local) {b : β}
    (h : Reads (s.andThen f) front b) :
    ∃ a fst snd, front = fst ++ snd ∧ Reads s fst a ∧ Reads (f a) snd b := by
  obtain ⟨a, mid, ha, hb⟩ := Step.run_andThen.1 ((hs.andThen hf).reads_iff.1 h)
  obtain ⟨fst, rfl, hr⟩ := hs ha
  exact ⟨a, fst, mid, rfl, hr, (hf a).reads_iff.2 hb⟩

theorem not_fail {fault : Fault} {a : α} : ¬ Reads (Step.fail fault) front a :=
  fun h => Step.run_fail (h [])

end Reads

inductive Loops (step : σ → Step σ) : σ → List UInt8 → σ → Prop
  | nil {s} : Loops step s [] s
  | cons {s s' s'' front more} :
      Reads (step s) front s' → Loops step s' more s'' → Loops step s (front ++ more) s''

theorem exists_loops_of_untilLeft {step : σ → Step σ} (hstep : ∀ s, (step s).Local)
    {stop bound : Nat} {s s' : σ} {i : Input} {le : i.size ≤ bound}
    {r : { r : Input // r.size ≤ bound }}
    (h : Step.untilLeft step stop bound s i le = .ok (s', r)) :
    ∃ front, i.bytes = front ++ r.1.bytes ∧ r.1.size ≤ stop ∧ Loops step s front s' := by
  induction hn : i.size using Nat.strongRecOn generalizing i s with
  | ind n ih =>
    subst hn
    rw [Step.untilLeft] at h
    split at h
    · rename_i le_stop
      cases h
      exact ⟨[], rfl, le_stop, .nil⟩
    · split at h
      · cases h
      · rename_i mid r' hs
        obtain ⟨front, bytes, hr⟩ := hstep s (Step.run_of_ok hs)
        obtain ⟨more, rest, le_stop, loops⟩ := ih r'.1.size r'.2 h rfl
        exact ⟨front ++ more, by rw [bytes, rest, List.append_assoc], le_stop, .cons hr loops⟩

theorem Loops.untilLeft {step : σ → Step σ} {s s' : σ} {front : List UInt8}
    (h : Loops step s front s') (rest : List UInt8) {i : Input} (bytes : i.bytes = front ++ rest)
    {bound : Nat} (le : i.size ≤ bound) :
    ∃ r, Step.untilLeft step rest.length bound s i le = .ok (s', r) ∧ r.1 = .ofBytes rest := by
  induction h generalizing i with
  | nil =>
    have size : i.size ≤ rest.length := by rw [← i.size_eq, bytes]; simp
    refine ⟨⟨i, le⟩, ?_, Input.ext bytes⟩
    rw [Step.untilLeft]
    rw [if_pos size]
  | @cons s mid s' front more hr _ ih =>
    have size : ¬ i.size ≤ rest.length := by
      have := hr.length_pos
      rw [← i.size_eq, bytes]
      simp only [List.length_append]
      omega
    obtain ⟨r, hs, rest_eq⟩ := Step.run_eq_ok.1 (hr (more ++ rest))
    obtain rfl : i = .ofBytes (front ++ (more ++ rest)) := Input.ext (by simp [bytes])
    rw [Step.untilLeft]
    rw [if_neg size]
    simp only [hs]
    exact ih (by rw [rest_eq, Input.bytes_ofBytes]) _

theorem readAll_eq_ok {step : σ → Step σ} (hstep : ∀ s, (step s).Local) {s s' : σ}
    {bytes : List UInt8} : readAll step s bytes = .ok s' ↔ Loops step s bytes s' := by
  rw [readAll]
  constructor
  · intro h
    split at h
    · cases h
    · rename_i r hr
      cases h
      obtain ⟨front, bytes_eq, le_stop, loops⟩ := exists_loops_of_untilLeft hstep hr
      have empty : r.1.bytes = [] := by
        rw [← List.length_eq_zero_iff, r.1.size_eq]
        exact Nat.le_zero.1 le_stop
      rw [empty, List.append_nil, Input.bytes_ofBytes] at bytes_eq
      exact bytes_eq ▸ loops
  · intro h
    obtain ⟨r, hr, -⟩ := h.untilLeft [] (i := .ofBytes bytes) (by simp) (Nat.le_refl _)
    simp only [List.length_nil, Input.size_ofBytes] at hr
    rw [hr]

end CompilerPlugin.Wire
