import CompilerPlugin.Proofs.Descriptor.Grouped

namespace CompilerPlugin.Descriptor

open Wire Schema

namespace Kind

variable {kind : Kind} {e : Entry}

theorem slot?_optionsTag (kind : Kind) : kind.slot? kind.optionsTag = none := by
  cases slot : kind.slot? kind.optionsTag with
  | none => rfl
  | some s =>
    obtain ⟨mem, number⟩ := slot?_eq_some slot
    exact absurd number (tag_ne_optionsTag mem)

theorem options?_of_ne (ne : e.key.number ≠ kind.optionsTag) : kind.options? e = none := by
  rw [options?, if_neg ne]

theorem child?_of_slot?_eq_none (h : kind.slot? e.key.number = none) : kind.child? e = none := by
  simp [child?, h]

theorem child?_of_owns (own : kind.owns e.key.number = true) : kind.child? e = none := by
  rw [owns, Bool.and_eq_true, Option.isNone_iff_eq_none] at own
  exact child?_of_slot?_eq_none own.2

theorem options?_of_owns (own : kind.owns e.key.number = true) : kind.options? e = none := by
  rw [owns, Bool.and_eq_true, decide_eq_true_iff] at own
  exact options?_of_ne own.1

theorem isOwn_of_owns (own : kind.owns e.key.number = true) : kind.isOwn e = true := by
  rw [isOwn, child?_of_owns own, options?_of_owns own]
  rfl

theorem filterMap_row {α : Type} {rows : List (Slot × List Node)} (nodup : (rows.map (·.1)).Nodup)
    (f : Node → α) {row : Slot × List Node} (mem : row ∈ rows) :
    (rows.flatMap fun row => row.2.map fun n => (row.1, f n)).filterMap
      (fun child => if child.1 = row.1 then some child.2 else none) = row.2.map f := by
  induction rows with
  | nil => cases mem
  | cons first rows ih =>
    obtain ⟨fresh, nodup⟩ := List.nodup_cons.1 nodup
    rw [List.flatMap_cons, List.filterMap_append, List.filterMap_map]
    rcases List.mem_cons.1 mem with rfl | mem
    · have none : (rows.flatMap fun row => row.2.map fun n => (row.1, f n)).filterMap
          (fun child => if child.1 = row.1 then some child.2 else none) = [] := by
        apply List.filterMap_eq_nil_iff.2
        intro child hc
        obtain ⟨other, ho, hc⟩ := List.mem_flatMap.1 hc
        obtain ⟨n, -, rfl⟩ := List.mem_map.1 hc
        exact if_neg fun same => fresh (List.mem_map.2 ⟨other, ho, same⟩)
      simp [none]
    · have ne : first.1 ≠ row.1 := fun same => fresh (List.mem_map.2 ⟨row, mem, same.symm⟩)
      simpa [ne, Function.comp_def] using ih nodup mem

theorem arrange_flatMap {kind : Kind} {rows : List (Slot × List Node)}
    (slots : rows.map (·.1) = kind.slots) :
    kind.arrange (rows.flatMap fun row => row.2.map fun n => (row.1, n)) = rows := by
  have nodup : (rows.map (·.1)).Nodup := slots ▸ kind.nodup_slots
  rw [arrange, ← slots, List.map_map]
  conv => rhs; rw [← List.map_id rows]
  apply List.map_congr_left
  intro row mem
  have inRow := filterMap_row nodup id mem
  rw [List.map_id] at inRow
  exact congrArg (Prod.mk row.1) inRow

end Kind

structure OwnRecord (kind : Kind) (m : Message) : Prop where
  wellFormed : Message.WellFormed maxDepth kind.recordType m
  owned : ∀ part ∈ m, kind.owns part.1 = true
  announceable : m.Announceable

def OptionsReadable : Option OptionSet → Prop
  | none => True
  | some o => o.Grouped ∧ o.encode.length < 2 ^ 64

namespace Node

structure Level (n : Node) : Prop where
  record : OwnRecord n.kind n.record
  options : OptionsReadable n.options
  slots : n.rows.map (·.1) = n.kind.slots
  kinds : ∀ row ∈ n.rows, ∀ c ∈ row.2, c.kind = row.1.kind
  short : ∀ row ∈ n.rows, ∀ c ∈ row.2, c.encode.length < 2 ^ 64

inductive Readable : Node → Prop
  | mk {n : Node} : n.Level → (∀ row ∈ n.rows, ∀ c ∈ row.2, Readable c) → Readable n

variable {n : Node} {more : List Entry}

theorem Level.slot_mem (h : n.Level) {row : Slot × List Node} (mem : row ∈ n.rows) :
    row.1 ∈ n.kind.slots := by
  rw [← h.slots]
  exact List.mem_map_of_mem mem

theorem mem_entries {e : Entry} :
    e ∈ n.entries ↔ e ∈ n.record.map Entry.ofPart ∨ e ∈ optionsEntries n.kind n.options ∨
      ∃ row ∈ n.rows, ∃ c ∈ row.2, e = childEntry (row.1, c) := by
  simp [entries, rowEntries, eq_comm]

theorem fits_tag {t : MessageType} {f : Field} (mem : f ∈ t.fields) {payload : List UInt8}
    (length : payload.length < 2 ^ 64) : (Entry.delimited f.number payload).Fits maxDepth := by
  have pos := MessageType.number_pos mem
  have bound := MessageType.number_lt mem
  have fits : (Entry.delimited f.number payload).Fits (99 + 1) :=
    Entry.fits_delimited (by omega) (by omega) length
  exact fits

theorem Level.fits (h : n.Level) : ∀ e ∈ n.entries, e.Fits maxDepth := by
  intro e mem
  rcases mem_entries.1 mem with own | option | ⟨row, hr, c, hc, rfl⟩
  · exact h.record.wellFormed.ordered.fits h.record.announceable e own
  · have options := h.options
    cases ho : n.options with
    | none =>
      rw [ho] at option
      cases option
    | some o =>
      rw [ho] at option options
      obtain rfl := List.mem_singleton.1 option
      exact fits_tag n.kind.optionsField_mem options.2
  · obtain ⟨f, hf, tag, -, -⟩ := Kind.exists_slotField (h.slot_mem hr)
    have fits := fits_tag hf (h.short row hr c hc)
    rwa [tag] at fits

theorem Level.owns_record (h : n.Level) :
    ∀ e ∈ n.record.map Entry.ofPart, n.kind.owns e.key.number = true := by
  intro e mem
  obtain ⟨part, hp, rfl⟩ := List.mem_map.1 mem
  exact h.record.owned part hp

section

variable (h : n.Level) (own : ∀ e ∈ more, n.kind.owns e.key.number = true)

include h own

theorem Level.filter_isOwn :
    (n.entries ++ more).filter n.kind.isOwn = n.record.map Entry.ofPart ++ more := by
  have record : (n.record.map Entry.ofPart).filter n.kind.isOwn = n.record.map Entry.ofPart :=
    List.filter_eq_self.2 fun e mem => Kind.isOwn_of_owns (h.owns_record e mem)
  have rest : more.filter n.kind.isOwn = more :=
    List.filter_eq_self.2 fun e mem => Kind.isOwn_of_owns (own e mem)
  have options : (optionsEntries n.kind n.options).filter n.kind.isOwn = [] := by
    cases n.options with
    | none => rfl
    | some o => simp [optionsEntries, Entry.delimited, Kind.isOwn, Kind.options?, Body.payload?]
  have rows : (rowEntries n.rows).filter n.kind.isOwn = [] := by
    apply List.filter_eq_nil_iff.2
    intro e mem
    obtain ⟨row, hr, mem⟩ := List.mem_flatMap.1 mem
    obtain ⟨c, -, rfl⟩ := List.mem_map.1 mem
    have child : n.kind.child? (childEntry (row.1, c)) = some (row.1, c.encode) :=
      Kind.child?_of_slot (h.slot_mem hr) rfl rfl
    simp [Kind.isOwn, child]
  rw [entries, List.filter_append, List.filter_append, List.filter_append, record, options, rows, rest,
    List.append_nil, List.append_nil]

theorem Level.filterMap_options? :
    (n.entries ++ more).filterMap n.kind.options? = (n.options.map (·.encode)).toList := by
  have none {es : List Entry} (owns : ∀ e ∈ es, n.kind.owns e.key.number = true) :
      es.filterMap n.kind.options? = [] :=
    List.filterMap_eq_nil_iff.2 fun e mem => Kind.options?_of_owns (owns e mem)
  have options : (optionsEntries n.kind n.options).filterMap n.kind.options? =
      (n.options.map (·.encode)).toList := by
    cases n.options with
    | none => rfl
    | some o => simp [optionsEntries, Entry.delimited, Kind.options?, Body.payload?]
  have rows : (rowEntries n.rows).filterMap n.kind.options? = [] := by
    apply List.filterMap_eq_nil_iff.2
    intro e mem
    obtain ⟨row, hr, mem⟩ := List.mem_flatMap.1 mem
    obtain ⟨c, -, rfl⟩ := List.mem_map.1 mem
    exact Kind.options?_of_ne (Kind.tag_ne_optionsTag (h.slot_mem hr))
  rw [entries, List.filterMap_append, List.filterMap_append, List.filterMap_append,
    none h.owns_record, none own, options, rows, List.nil_append, List.append_nil, List.append_nil]

theorem Level.filterMap_child? :
    (n.entries ++ more).filterMap n.kind.child? =
      n.rows.flatMap fun row => row.2.map fun c => (row.1, c.encode) := by
  have none {es : List Entry} (owns : ∀ e ∈ es, n.kind.owns e.key.number = true) :
      es.filterMap n.kind.child? = [] :=
    List.filterMap_eq_nil_iff.2 fun e mem => Kind.child?_of_owns (owns e mem)
  have options : (optionsEntries n.kind n.options).filterMap n.kind.child? = [] := by
    cases n.options with
    | none => rfl
    | some o =>
      have child : n.kind.child? (.delimited n.kind.optionsTag o.encode) = .none :=
        Kind.child?_of_slot?_eq_none n.kind.slot?_optionsTag
      simp [optionsEntries, child]
  have rows : (rowEntries n.rows).filterMap n.kind.child? =
      n.rows.flatMap fun row => row.2.map fun c => (row.1, c.encode) := by
    rw [rowEntries, List.filterMap_flatMap]
    apply List.flatMap_congr
    intro row hr
    rw [List.filterMap_map, ← List.filterMap_eq_map]
    apply List.filterMap_congr
    intro c _
    exact Kind.child?_of_slot (h.slot_mem hr) rfl rfl
  rw [entries, List.filterMap_append, List.filterMap_append, List.filterMap_append,
    none h.owns_record, none own, options, rows, List.nil_append, List.append_nil, List.nil_append]

end

theorem Level.fromRow (h : n.Level) {resolve : Resolver}
    (each : ∀ row ∈ n.rows, ∀ c ∈ row.2,
      Node.decode resolve row.1.kind c.encode = .ok (c.retag resolve))
    (fits : ∀ e ∈ more, e.Fits maxDepth) (own : ∀ e ∈ more, n.kind.owns e.key.number = true)
    {m : Message}
    (row : Message.OfRow maxDepth n.kind.recordType [] (n.record.map Entry.ofPart ++ more) m) :
    FromRow resolve n.kind (n.entries ++ more)
      (.mk n.kind m (n.retag resolve).options (n.retag resolve).rows) where
  fits e mem := (List.mem_append.1 mem).elim (h.fits e) (fits e)
  kind_eq := rfl
  record := by
    rw [h.filter_isOwn own]
    exact row
  options := by
    have options := h.options
    rw [Kind.readOptions]
    rw [h.filterMap_options? own, Node.options, retag, options_mapOptions]
    cases ho : n.options with
    | none => rfl
    | some o =>
      rw [ho] at options
      simp only [Option.map_some, Option.toList_some, List.flatten_cons, List.flatten_nil,
        List.append_nil, options.1.decode_encode]
      rfl
  children child mem := by
    rw [h.filterMap_child? own] at mem
    obtain ⟨row, hr, mem⟩ := List.mem_flatMap.1 mem
    obtain ⟨c, hc, rfl⟩ := List.mem_map.1 mem
    rw [each row hr c hc, nodeOf_eq (each row hr c hc)]
  rows := by
    have same : childrenOf (nodeOf resolve) n.kind (n.entries ++ more) =
        (n.retag resolve).rows.flatMap fun row => row.2.map fun c => (row.1, c) := by
      rw [childrenOf, h.filterMap_child? own, List.map_flatMap, retag, rows_mapOptions,
        List.flatMap_map]
      apply List.flatMap_congr
      intro row hr
      rw [List.map_map, List.map_map]
      apply List.map_congr_left
      intro c hc
      have child : nodeOf resolve (row.1, c.encode) = c.retag resolve := nodeOf_eq (each row hr c hc)
      rw [Function.comp_apply, child]
      rfl
    have slots : (n.retag resolve).rows.map (·.1) = n.kind.slots := by
      rw [retag, slots_mapOptions, h.slots]
    rw [same, Kind.arrange_flatMap slots]
    rfl

theorem Readable.decode_encode (h : n.Readable) (resolve : Resolver) :
    Node.decode resolve n.kind n.encode = .ok (n.retag resolve) := by
  induction h with
  | @mk n level _ ih =>
    have each : ∀ row ∈ n.rows, ∀ c ∈ row.2,
        Node.decode resolve row.1.kind c.encode = .ok (c.retag resolve) := by
      intro row hr c hc
      rw [← level.kinds row hr c hc]
      exact ih row hr c hc
    have record : Message.OfRow maxDepth n.kind.recordType [] (n.record.map Entry.ofPart ++ [])
        n.record := by
      rw [List.append_nil]
      exact level.record.wellFormed.ofRow (Nat.le_refl _) level.record.announceable
    have row := level.fromRow each (by simp) (by simp) record
    rw [List.append_nil] at row
    rw [encode_eq_entries, row.decode_eq_ok]
    obtain ⟨kind, record, options, rows⟩ := n
    rw [retag, mapOptions_mk]
    rfl

end Node

end CompilerPlugin.Descriptor
