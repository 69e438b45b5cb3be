import CompilerPlugin.Proofs.Message.Settled

namespace CompilerPlugin

open Wire Schema

namespace Schema.Field

variable {nested nested' : MessageType → Message → List UInt8 → Message → Prop} {f : Field}

theorem Holds.imp {values added : List Value} {b : Body} (h : f.Holds nested values b added)
    (more : ∀ t before p m, nested t before p m → nested' t before p m) :
    f.Holds nested' values b added := by
  cases h with
  | message type hm => exact .message type (more _ _ _ _ hm)
  | word type shape single => exact .word type shape single
  | double type => exact .double type
  | text type eq => exact .text type eq
  | bytes type => exact .bytes type
  | number type list => exact .number type list
  | numbers type list loops => exact .numbers type list loops

theorem Gathers.map {values values' : List Value} {es : List Entry} {g : Entry → Entry}
    (h : f.Gathers nested values es values')
    (same : ∀ e ∈ es, ∀ held added, f.Holds nested held e.body added →
      f.Holds nested' held (g e).body added) :
    f.Gathers nested' values (es.map g) values' := by
  induction h with
  | nil => exact .nil
  | cons head _ ih =>
    have rest := ih fun e mem => same e (List.mem_cons_of_mem _ mem)
    exact .cons (same _ List.mem_cons_self _ _ head) rest

theorem Gathers.imp {values values' : List Value} {es : List Entry}
    (h : f.Gathers nested values es values')
    (more : ∀ t before p m, nested t before p m → nested' t before p m) :
    f.Gathers nested' values es values' := by
  have := h.map (g := id) fun _ _ _ _ holds => holds.imp more
  rwa [List.map_id] at this

theorem Gathers.exists_holds {values values' : List Value} {es : List Entry}
    (h : f.Gathers nested values es values') :
    ∀ e ∈ es, ∃ held added, f.Holds nested held e.body added := by
  induction h with
  | nil => simp
  | cons head _ ih =>
    intro e mem
    rcases List.mem_cons.1 mem with rfl | mem
    · exact ⟨_, _, head⟩
    · exact ih e mem

theorem Gathers.delimited {t : MessageType} {values values' : List Value} {es : List Entry}
    (h : f.Gathers nested values es values') (type : f.type = .message t) :
    ∀ e ∈ es, ∃ p, e.body = .delimited p := by
  intro e mem
  obtain ⟨held, added, holds⟩ := h.exists_holds e mem
  obtain ⟨p, _, body, -⟩ := (holds_message_iff type).1 holds
  exact ⟨p, body⟩

end Schema.Field

namespace Message

theorem NestedReadsAs.mono {depth depth' : Nat} (le : depth ≤ depth') (bound : depth' ≤ maxDepth + 1)
    {t : MessageType} {before m : Message} {bytes : List UInt8}
    (h : NestedReadsAs depth t before bytes m) : NestedReadsAs depth' t before bytes m := by
  induction depth generalizing depth' t before m bytes with
  | zero => exact h.elim
  | succ depth ih =>
    cases depth' with
    | zero => omega
    | succ depth' =>
      have le := Nat.le_of_succ_le_succ le
      have bound := Nat.le_of_succ_le_succ bound
      obtain ⟨es, fits, eq, row⟩ := (readsAs_iff (Nat.le_trans le bound)).1 h
      refine (readsAs_iff bound).2 ⟨es, fits, eq, ?_, ?_, row.ordered⟩
      · intro e mem none
        exact (row.unknown e mem none).mono le
      · intro f mem
        obtain ⟨values, gathers, settled⟩ := row.gathered f mem
        exact ⟨values, gathers.imp fun _ _ _ _ => ih le (Nat.le_succ_of_le bound), settled⟩

theorem ReadsAs.mono {depth depth' : Nat} (le : depth ≤ depth') (bound : depth' ≤ maxDepth)
    {t : MessageType} {before m : Message} {bytes : List UInt8} (h : ReadsAs depth t before bytes m) :
    ReadsAs depth' t before bytes m := by
  have nested : NestedReadsAs (depth + 1) t before bytes m := h
  exact nested.mono (Nat.succ_le_succ le) (Nat.succ_le_succ bound)

theorem ReadsAs.append {depth : Nat} (le : depth ≤ maxDepth) {t : MessageType}
    {before mid m : Message} {bytes bytes' : List UInt8} (h : ReadsAs depth t before bytes mid)
    (h' : ReadsAs depth t mid bytes' m) : ReadsAs depth t before (bytes ++ bytes') m := by
  obtain ⟨es, fits, rfl, row⟩ := (readsAs_iff le).1 h
  obtain ⟨es', fits', rfl, row'⟩ := (readsAs_iff le).1 h'
  refine (readsAs_iff le).2 ⟨es ++ es', ?_, by simp, row.append row'⟩
  intro e mem
  rcases List.mem_append.1 mem with mem | mem
  · exact fits e mem
  · exact fits' e mem

theorem NestedReadsAs.append {depth : Nat} (le : depth ≤ maxDepth) {t : MessageType}
    {before mid m : Message} {bytes bytes' : List UInt8} (h : NestedReadsAs depth t before bytes mid)
    (h' : NestedReadsAs depth t mid bytes' m) : NestedReadsAs depth t before (bytes ++ bytes') m := by
  cases depth with
  | zero => exact h.elim
  | succ depth => exact ReadsAs.append (Nat.le_of_succ_le le) h h'

def only (keep : Nat → Bool) (m : Message) : Message :=
  m.filter fun part => keep part.1

theorem values_only (keep : Nat → Bool) (m : Message) (number : Nat) :
    (m.only keep).values number = if keep number then m.values number else [] := by
  induction m with
  | nil => simp [only]
  | cons part m ih =>
    rcases eq_or_ne part.1 number with rfl | other
    · by_cases kept : keep part.1
      · simpa [only, kept, values_cons] using ih
      · simpa [only, kept, values_cons] using ih
    · by_cases kept : keep part.1
      · simpa [only, kept, values_cons, other] using ih
      · simpa [only, kept, values_cons, other] using ih

theorem Ordered.only {t : MessageType} {m : Message} (h : m.Ordered t) (keep : Nat → Bool) :
    (m.only keep).Ordered t := by
  rw [Ordered]
  conv => lhs; rw [h]
  unfold Message.only
  rw [List.filter_flatMap]
  apply List.flatMap_congr
  intro f _
  have := values_only keep m f.number
  rw [Message.only] at this
  rw [this]
  by_cases kept : keep f.number <;> simp [parts, List.filter_map, Function.comp_def, kept]

theorem OfRow.only {depth : Nat} {t : MessageType} {m : Message} {es : List Entry}
    (h : OfRow depth t [] es m) (keep : Nat → Bool)
    (given : ∀ f ∈ t.fields, keep f.number = false → f.label ≠ .required) :
    OfRow depth t [] (es.filter fun e => keep e.key.number) (m.only keep) where
  unknown e mem := h.unknown e (List.mem_filter.1 mem).1
  gathered f mem := by
    rw [List.filter_filter, values_only]
    cases kept : keep f.number with
    | true =>
      obtain ⟨values, gathers, eq⟩ := h.gathered f mem
      refine ⟨values, ?_, eq⟩
      have same : (es.filter fun e => decide (e.key.number = f.number) && keep e.key.number) =
          es.filter (·.key.number = f.number) := by
        apply List.filter_congr
        intro e _
        by_cases number : e.key.number = f.number <;> simp [number, kept]
      rwa [same]
    | false =>
      have none : (es.filter fun e => decide (e.key.number = f.number) && keep e.key.number) = [] := by
        apply List.filter_eq_nil_iff.2
        intro e _
        by_cases number : e.key.number = f.number <;> simp [number, kept]
      rw [none]
      exact ⟨[], .nil, (Field.settle_nil (given f mem kept)).symm⟩
  ordered := h.ordered.only keep

end Message

end CompilerPlugin
