import CompilerPlugin.Descriptor.AddressTrie

namespace CompilerPlugin.Descriptor.AddressTrie

def insertAll (addresses : List Address) (t : AddressTrie) : AddressTrie :=
  addresses.foldl (fun t address => t.insert address) t

@[simp] theorem insertAll_nil (t : AddressTrie) : t.insertAll [] = t := rfl

@[simp] theorem insertAll_cons (address : Address) (addresses : List Address) (t : AddressTrie) :
    t.insertAll (address :: addresses) = (t.insert address).insertAll addresses := rfl

theorem insertAll_append (addresses more : List Address) (t : AddressTrie) :
    t.insertAll (addresses ++ more) = (t.insertAll addresses).insertAll more :=
  List.foldl_append

theorem ofList_eq_insertAll (addresses : List Address) : ofList addresses = empty.insertAll addresses := rfl

@[simp] theorem covers_empty (address : Address) : empty.covers address = false := by
  cases address <;> simp [empty, covers, branch?]

theorem covers_cons (marked : Bool) (branches : List (Int × AddressTrie)) (step : Int) (rest : Address) :
    (node marked branches).covers (step :: rest) =
      (marked || ((branch? step branches).getD empty).covers rest) := by
  rw [covers]
  cases branch? step branches <;> simp

theorem branch?_cons (step s : Int) (t : AddressTrie) (branches : List (Int × AddressTrie)) :
    branch? step ((s, t) :: branches) = if s = step then some t else branch? step branches := by
  by_cases same : s = step <;> simp [branch?, same]

theorem insert_empty (address : Address) : empty.insert address = single address := by
  cases address <;> simp [empty, insert, insertBranch, single]

theorem branch?_insertBranch (step other : Int) (rest : Address) (branches : List (Int × AddressTrie)) :
    branch? other (insertBranch step rest branches) =
      if step = other then some (((branch? step branches).getD empty).insert rest)
      else branch? other branches := by
  induction branches with
  | nil => simp [insertBranch, branch?, insert_empty]
  | cons branch branches ih =>
    obtain ⟨s, t⟩ := branch
    rw [insertBranch]
    by_cases same : s = step
    · subst same
      by_cases here : s = other <;> simp [branch?_cons, here]
    · by_cases here : s = other
      · subst here
        simp [branch?_cons, same, Ne.symm same]
      · simpa [branch?_cons, same, here] using ih

theorem covers_insert (address other : Address) (t : AddressTrie) :
    (t.insert address).covers other = (t.covers other || address.isPrefixOf other) := by
  induction address generalizing other t with
  | nil =>
    obtain ⟨marked, branches⟩ := t
    cases other <;> simp [insert, covers]
  | cons step rest ih =>
    obtain ⟨marked, branches⟩ := t
    cases other with
    | nil => simp [insert, covers]
    | cons step' other =>
      rw [insert, covers_cons, covers_cons, branch?_insertBranch]
      by_cases same : step = step'
      · simp [same, ih, Bool.or_assoc]
      · simp [same]

theorem covers_insertAll {addresses : List Address} {other : Address} {t : AddressTrie} :
    (t.insertAll addresses).covers other ↔
      t.covers other ∨ ∃ address ∈ addresses, address <+: other := by
  induction addresses generalizing t with
  | nil => simp
  | cons address addresses ih =>
    rw [insertAll_cons, ih, covers_insert]
    simp [or_assoc]

theorem isEmpty_insert (address : Address) (t : AddressTrie) : (t.insert address).isEmpty = false := by
  obtain ⟨marked, branches⟩ := t
  cases address with
  | nil => simp [insert, isEmpty]
  | cons step rest =>
    cases branches with
    | nil => simp [insert, insertBranch, isEmpty]
    | cons branch branches =>
      simp only [insert, insertBranch, isEmpty]
      split <;> simp

theorem isEmpty_insertAll (addresses : List Address) (t : AddressTrie) :
    (t.insertAll addresses).isEmpty = (t.isEmpty && addresses.isEmpty) := by
  induction addresses generalizing t with
  | nil => simp
  | cons address addresses ih => simp [ih, isEmpty_insert]

theorem covers_ofList_iff {addresses : List Address} {path : Address} :
    (ofList addresses).covers path ↔ ∃ address ∈ addresses, address <+: path := by
  simp [ofList_eq_insertAll, covers_insertAll]

theorem isEmpty_ofList (addresses : List Address) : (ofList addresses).isEmpty = addresses.isEmpty := by
  rw [ofList_eq_insertAll, isEmpty_insertAll]
  rfl

/-- Only which addresses came counts, neither their order nor how often. -/
theorem ofList_covers_prefixed (addresses : List Address) :
    (∀ path, (ofList addresses).covers path ↔ ∃ address ∈ addresses, address <+: path) ∧
      ((ofList addresses).isEmpty ↔ addresses = []) ∧
      ∀ others, (∀ address, address ∈ others ↔ address ∈ addresses) →
        (∀ path, (ofList others).covers path = (ofList addresses).covers path) ∧
          (ofList others).isEmpty = (ofList addresses).isEmpty := by
  refine ⟨fun path => covers_ofList_iff, ?_, fun others same => ⟨fun path => ?_, ?_⟩⟩
  · rw [isEmpty_ofList, List.isEmpty_iff]
  · rw [Bool.eq_iff_iff, covers_ofList_iff, covers_ofList_iff]
    simp only [same]
  · rw [isEmpty_ofList, isEmpty_ofList, Bool.eq_iff_iff, List.isEmpty_iff, List.isEmpty_iff]
    simp only [List.eq_nil_iff_forall_not_mem, same]

theorem ofList_covers_prefixed_nested :
    let inserted : List Address := [[4, 0, 2, 0, 8, 3], [4, 0, 2], [4, 0, 2, 0, 8], [4, 0, 2]]
    let others : List Address := [[4, 0, 2, 0, 8], [4, 0, 2, 0, 8, 3], [4, 0, 2]]
    (ofList inserted).covers [4, 0, 2, 0, 8, 5] ∧ ¬ (ofList inserted).covers [4, 0] ∧
      ¬ (ofList inserted).covers [] ∧ ¬ (ofList inserted).isEmpty ∧
      (∀ address, address ∈ others ↔ address ∈ inserted) ∧
      ∀ path, (ofList others).covers path = (ofList inserted).covers path := by
  intro inserted others
  obtain ⟨covered, empty, unordered⟩ := ofList_covers_prefixed inserted
  have same (address : Address) : address ∈ others ↔ address ∈ inserted := by
    simp only [others, inserted, List.mem_cons, List.not_mem_nil]
    grind
  refine ⟨(covered _).2 ⟨[4, 0, 2], ?_, ?_⟩, fun h => ?_, fun h => ?_, fun h => ?_, same,
    (unordered others same).1⟩
  · decide
  · decide
  · exact absurd ((covered _).1 h) (by decide)
  · exact absurd ((covered _).1 h) (by decide)
  · exact absurd (empty.1 h) (by decide)

end CompilerPlugin.Descriptor.AddressTrie
