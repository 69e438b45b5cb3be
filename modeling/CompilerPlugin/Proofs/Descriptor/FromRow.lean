import CompilerPlugin.Proofs.Descriptor.Agreement

namespace CompilerPlugin.Descriptor

open Wire Schema

theorem Kind.endingError?_eq_none {kind : Kind} {ending : Ending} :
    kind.endingError? ending = none ↔ ending = .complete := by
  cases ending with
  | complete => simp [endingError?]
  | badKey e => simp [endingError?]
  | badValue key e =>
    rw [endingError?]
    split <;> simp

theorem readRecord_eq_ok_iff {kind : Kind} {es : List Entry} {m : Message}
    (fits : ∀ e ∈ es, e.Fits maxDepth) :
    kind.readRecord es = .ok m ↔
      Message.OfRow maxDepth kind.recordType [] (es.filter kind.isOwn) m := by
  have fits' : ∀ e ∈ es.filter kind.isOwn, e.Fits maxDepth :=
    fun e mem => fits e (List.mem_filter.1 mem).1
  have decoded : kind.readRecord es = .ok m ↔
      Message.decode kind.recordType ((es.filter kind.isOwn).flatMap (·.raw)) = .ok m := by
    rw [Kind.readRecord]
    cases Message.decode kind.recordType ((es.filter kind.isOwn).flatMap (·.raw)) <;>
      simp [Except.mapError]
  rw [decoded, Message.decode_eq_ok, Message.readsAs_iff (Nat.le_refl _)]
  constructor
  · rintro ⟨es', fits'', bytes, row⟩
    have same := split_flatMap fits'
    rw [bytes, split_flatMap fits''] at same
    cases same
    exact row
  · intro row
    exact ⟨_, fits', rfl, row⟩

/-- A node of a kind as it is read from a row of entries: the record from those that are neither
options nor children, the options and the children from their own. -/
structure Node.FromRow (resolve : Resolver) (kind : Kind) (es : List Entry) (n : Node) : Prop where
  fits : ∀ e ∈ es, e.Fits maxDepth
  kind_eq : n.kind = kind
  record : Message.OfRow maxDepth kind.recordType [] (es.filter kind.isOwn) n.record
  options : kind.readOptions resolve es = .ok n.options
  children : ∀ child ∈ es.filterMap kind.child?,
    Node.decode resolve child.1.kind child.2 = .ok (nodeOf resolve child)
  rows : n.rows = kind.arrange (childrenOf (nodeOf resolve) kind es)

namespace Node

variable {resolve : Resolver} {kind : Kind} {bytes : List UInt8} {es : List Entry} {n : Node}

theorem FromRow.decode_eq_ok (h : FromRow resolve kind es n) :
    Node.decode resolve kind (es.flatMap (·.raw)) = .ok n := by
  obtain ⟨kind', record, options, rows⟩ := n
  obtain rfl : kind' = kind := h.kind_eq
  obtain rfl : rows = kind'.arrange (childrenOf (nodeOf resolve) kind' es) := h.rows
  exact Node.decode_eq_ok (split_flatMap h.fits) h.children h.options
    ((readRecord_eq_ok_iff h.fits).2 h.record)

theorem exists_fromRow (h : Node.decode resolve kind bytes = .ok n) :
    ∃ es, bytes = es.flatMap (·.raw) ∧ FromRow resolve kind es n := by
  rw [Node.decode_eq] at h
  obtain ⟨children, hc, h⟩ := bind_eq_ok.1 h
  split at h
  · cases h
  · rename_i complete
    obtain ⟨options, ho, h⟩ := bind_eq_ok.1 h
    obtain ⟨record, hr, h⟩ := bind_eq_ok.1 h
    cases h
    generalize splits : split bytes = row at *
    obtain ⟨es, ending⟩ := row
    obtain rfl : ending = .complete := Kind.endingError?_eq_none.1 complete
    obtain ⟨fits, rfl⟩ := split_eq_complete.1 splits
    have each : ∀ child ∈ es.filterMap kind.child?,
        Node.decode resolve child.1.kind child.2 = .ok (nodeOf resolve child) := by
      intro child mem
      obtain ⟨_, hy⟩ := forall_of_mapM_eq_ok hc child mem
      obtain ⟨n, hn, -⟩ := bind_eq_ok.1 hy
      rw [nodeOf_eq hn, hn]
    rw [mapM_eq_ok (g := fun child => (child.1, nodeOf resolve child)) fun child mem => ?_] at hc
    · cases hc
      exact ⟨es, rfl, fits, rfl, (readRecord_eq_ok_iff fits).1 hr, ho, each, rfl⟩
    · rw [each child mem]
      rfl

theorem mem_arrange {kind : Kind} {children : List (Slot × Node)} {row : Slot × List Node}
    (mem : row ∈ kind.arrange children) : ∀ n ∈ row.2, (row.1, n) ∈ children := by
  obtain ⟨slot, -, rfl⟩ := List.mem_map.1 mem
  intro n hn
  obtain ⟨⟨slot', n'⟩, hc, eq⟩ := List.mem_filterMap.1 hn
  split at eq
  · rename_i same
    cases eq
    cases same
    exact hc
  · cases eq

namespace FromRow

theorem length_lt (h : FromRow resolve kind es n) {child : Slot × List UInt8}
    (mem : child ∈ es.filterMap kind.child?) : child.2.length < (es.flatMap (·.raw)).length := by
  apply Kind.length_lt_of_child?
  rwa [split_flatMap h.fits]

theorem mem_rows (h : FromRow resolve kind es n) {row : Slot × List Node} (hr : row ∈ n.rows) {c : Node}
    (hc : c ∈ row.2) :
    ∃ child ∈ es.filterMap kind.child?, child.1 = row.1 ∧ nodeOf resolve child = c := by
  rw [h.rows] at hr
  obtain ⟨child, mem, eq⟩ := List.mem_map.1 (mem_arrange hr c hc)
  rw [Prod.mk.injEq] at eq
  exact ⟨child, mem, eq.1, eq.2⟩

theorem length_children_le (h : FromRow resolve kind es n) :
    2 * (es.filterMap kind.child?).length ≤ (es.flatMap (·.raw)).length := by
  have fits := h.fits
  clear h
  induction es with
  | nil => exact Nat.le_refl _
  | cons e es ih =>
    have rest := ih fun e mem => fits e (List.mem_cons_of_mem _ mem)
    rw [List.flatMap_cons, List.length_append]
    cases child : kind.child? e with
    | none =>
      rw [List.filterMap_cons_none child]
      omega
    | some c =>
      have size := (fits e List.mem_cons_self).length_delimited_le (Kind.child?_eq_some child).2.2
      rw [List.filterMap_cons_some child, List.length_cons]
      omega

theorem length_row_le (h : FromRow resolve kind es n) {row : Slot × List Node} (hr : row ∈ n.rows) :
    2 * row.2.length ≤ (es.flatMap (·.raw)).length := by
  have all := h.length_children_le
  rw [h.rows] at hr
  obtain ⟨slot, -, rfl⟩ := List.mem_map.1 hr
  have some_ := List.length_filterMap_le (fun child : Slot × Node => if child.1 = slot then some child.2 else none)
    (childrenOf (nodeOf resolve) kind es)
  rw [childrenOf, List.length_map] at some_
  exact Nat.le_trans (Nat.mul_le_mul_left 2 some_) all

theorem slots (h : FromRow resolve kind es n) : n.rows.map (·.1) = kind.slots := by
  rw [h.rows]
  simp [Kind.arrange, Function.comp_def]

theorem isOwn_eq (h : FromRow resolve kind es n) :
    ∀ e ∈ es, kind.isOwn e = kind.owns e.key.number := by
  intro e mem
  cases own : kind.isOwn e with
  | true =>
    -- A child or options of the wrong shape would be left to the record, which would have refused it.
    rw [← own]
    exact Descriptor.isOwn_eq h.record e (List.mem_filter.2 ⟨mem, own⟩)
  | false =>
    rw [Kind.isOwn, Bool.and_eq_false_iff] at own
    rcases own with child | options
    · obtain ⟨c, hc⟩ := Option.isSome_iff_exists.1 (by simpa using child)
      obtain ⟨slot, number, -⟩ := Kind.child?_eq_some hc
      rw [number, Kind.owns_tag slot]
    · obtain ⟨p, hp⟩ := Option.isSome_iff_exists.1 (by simpa using options)
      obtain ⟨tag, -⟩ := Kind.options?_eq_some.1 hp
      rw [tag, Kind.owns_optionsTag]

theorem filter_isOwn (h : FromRow resolve kind es n) :
    es.filter kind.isOwn = es.filter fun e => kind.owns e.key.number :=
  List.filter_congr h.isOwn_eq

theorem own (h : FromRow resolve kind es n) :
    Message.OfRow maxDepth kind.recordType [] (es.filter fun e => kind.owns e.key.number) n.record :=
  h.filter_isOwn ▸ h.record

theorem delimited (h : FromRow resolve kind es n) :
    ∀ e ∈ es, kind.owns e.key.number = false → ∃ p, e.body = .delimited p := by
  intro e mem foreign
  rw [← h.isOwn_eq e mem, Kind.isOwn, Bool.and_eq_false_iff] at foreign
  rcases foreign with child | options
  · obtain ⟨c, hc⟩ := Option.isSome_iff_exists.1 (by simpa using child)
    exact ⟨c.2, (Kind.child?_eq_some hc).2.2⟩
  · obtain ⟨p, hp⟩ := Option.isSome_iff_exists.1 (by simpa using options)
    exact ⟨p, (Kind.options?_eq_some.1 hp).2⟩

end FromRow

theorem decode_induction {P : Kind → List UInt8 → Node → Prop}
    (step : ∀ {kind es n}, FromRow resolve kind es n →
      (∀ child ∈ es.filterMap kind.child?, P child.1.kind child.2 (nodeOf resolve child)) →
      P kind (es.flatMap (·.raw)) n)
    (h : Node.decode resolve kind bytes = .ok n) : P kind bytes n := by
  induction hlen : bytes.length using Nat.strongRecOn generalizing kind bytes n with
  | ind length ih =>
    subst hlen
    obtain ⟨es, rfl, row⟩ := exists_fromRow h
    exact step row fun child mem => ih child.2.length (row.length_lt mem) (row.children child mem) rfl

end Node

theorem Tree.decode_eq_ok_iff {resolve : Resolver} {bytes : List UInt8} {t : Tree} :
    Tree.decode resolve bytes = .ok t ↔
      ∃ n, Node.decode resolve .file bytes = .ok n ∧ Tree.ofNode n = t := by
  rw [Tree.decode]
  cases Node.decode resolve .file bytes <;> simp [Except.map]

end CompilerPlugin.Descriptor
