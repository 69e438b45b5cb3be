import CompilerPlugin.Proofs.Wire.Row

/-!
The wire format as a grammar, said without a reader: which bytes are a number, a key, a value and a
row of entries. The steps read these bytes and no others, so bytes split into entries to their end
if and only if they are a row of the grammar, and then into the entries of that row.
-/

namespace CompilerPlugin.Wire

inductive Septets : List UInt8 → Nat → Prop
  | last {b : UInt8} : b.toNat < 128 → Septets [b] b.toNat
  | more {b : UInt8} {bytes : List UInt8} {high : Nat} :
      128 ≤ b.toNat → Septets bytes high → Septets (b :: bytes) (b.toNat - 128 + 128 * high)

/-- At most ten bytes, and no more than 64 bits in them. The last bytes may well be zero. -/
structure IsVarint (bytes : List UInt8) (n : Nat) : Prop where
  septets : Septets bytes n
  short : bytes.length ≤ 10
  small : n < 2 ^ 64

structure IsKey (bytes : List UInt8) (key : Key) : Prop where
  number : key.number ≠ 0
  word : IsVarint bytes (key.number * 8 + key.wireType.code)
  small : key.number * 8 + key.wireType.code < 2 ^ 32

mutual

inductive IsValue : (depth : Nat) → Key → List UInt8 → Body → Prop
  | varint {depth number bytes} {word : UInt64} :
      IsVarint bytes word.toNat → IsValue (depth + 1) ⟨number, .varint⟩ bytes (.varint word)
  | fixed64 {depth number bytes} : bytes.length = 8 →
      IsValue (depth + 1) ⟨number, .sixtyFourBit⟩ bytes (.fixed64 (.ofNat (ofLittleEndian bytes)))
  | delimited {depth number front payload} : IsVarint front payload.length →
      IsValue (depth + 1) ⟨number, .lengthDelimited⟩ (front ++ payload) (.delimited payload)
  | group {depth number bytes} :
      IsGroup depth number bytes → IsValue (depth + 1) ⟨number, .startGroup⟩ bytes .group
  | fixed32 {depth number bytes} : bytes.length = 4 →
      IsValue (depth + 1) ⟨number, .thirtyTwoBit⟩ bytes (.fixed32 (.ofNat (ofLittleEndian bytes)))

inductive IsGroup : (depth number : Nat) → List UInt8 → Prop
  | stop {depth number bytes} : IsKey bytes ⟨number, .endGroup⟩ → IsGroup depth number bytes
  | entry {depth number front mid more key body} :
      IsKey front key → IsValue depth key mid body → IsGroup depth number more →
      IsGroup depth number (front ++ (mid ++ more))

end

def Entry.Whole (e : Entry) : Prop :=
  ∃ front mid, e.raw = front ++ mid ∧ IsKey front e.key ∧ IsValue maxDepth e.key mid e.body

structure IsRow (bytes : List UInt8) (es : List Entry) : Prop where
  whole : ∀ e ∈ es, e.Whole
  bytes_eq : bytes = es.flatMap (·.raw)

def Complete (bytes : List UInt8) : Prop :=
  ∃ es, IsRow bytes es

namespace Varint

theorem septets_of_run {limit n : Nat} {bytes : List UInt8}
    (h : (stepWithin limit).run bytes = .ok (n, [])) : Septets bytes n ∧ bytes.length ≤ limit := by
  induction limit generalizing n bytes with
  | zero => exact absurd h Step.run_fail
  | succ limit ih =>
    cases bytes with
    | nil => simp [Step.run, stepWithin, Step.byte] at h
    | cons b tail =>
      rcases run_stepWithin_cons_eq_ok.1 h with ⟨last, -, rfl, rfl⟩ | ⟨more, high, hr, rfl⟩
      · exact ⟨.last last, by simp⟩
      · obtain ⟨septets, short⟩ := ih hr
        exact ⟨.more more septets, by simpa using short⟩

theorem run_of_septets {limit n : Nat} {bytes : List UInt8} (septets : Septets bytes n)
    (short : bytes.length ≤ limit + 1) (small : n < 2 * 128 ^ limit) :
    (stepWithin (limit + 1)).run bytes = .ok (n, []) := by
  induction septets generalizing limit with
  | last last =>
    refine run_stepWithin_cons_eq_ok.2 (.inl ⟨last, ?_, rfl, rfl⟩)
    rintro rfl
    rw [pow_zero] at small
    omega
  | @more b bytes high more septets ih =>
    cases limit with
    | zero =>
      cases septets <;> simp at short
    | succ limit =>
      have high_small : high < 2 * 128 ^ limit := by
        rw [pow_succ] at small
        omega
      refine run_stepWithin_cons_eq_ok.2 (.inr ⟨more, high, ?_, rfl⟩)
      exact ih (by simpa using short) high_small

end Varint

theorem reads_varint_iff_isVarint {front : List UInt8} {w : UInt64} :
    Reads readVarint front w ↔ IsVarint front w.toNat := by
  rw [readVarint, Reads.map_iff (Varint.local_stepWithin 10)]
  constructor
  · rintro ⟨n, hn, rfl⟩
    have run := (Varint.local_stepWithin 10).reads_iff.1 hn
    obtain ⟨septets, short⟩ := Varint.septets_of_run run
    -- ten bytes hold 70 bits; that the tenth has a single one says that 64 are enough
    have small : n < 2 ^ 64 := (Varint.encode_length_le_of_run run).2
    rw [UInt64.toNat_ofNat_of_lt' small]
    exact ⟨septets, short, small⟩
  · rintro ⟨septets, short, small⟩
    refine ⟨w.toNat, (Varint.local_stepWithin 10).reads_iff.2 ?_, by simp⟩
    exact Varint.run_of_septets septets short small

theorem IsVarint.exists_word {front : List UInt8} {n : Nat} (h : IsVarint front n) :
    ∃ w : UInt64, w.toNat = n ∧ Reads readVarint front w := by
  have same : (UInt64.ofNat n).toNat = n := UInt64.toNat_ofNat_of_lt' h.small
  exact ⟨.ofNat n, same, reads_varint_iff_isVarint.2 (same.symm ▸ h)⟩

theorem reads_key_iff_isKey {front : List UInt8} {key : Key} :
    Reads readKey front key ↔ IsKey front key := by
  rw [readKey, Reads.refine_iff local_readVarint]
  constructor
  · rintro ⟨w, hw, hk⟩
    obtain ⟨small, number, eq⟩ := Key.ofWord_eq_ok.1 hk
    exact ⟨number, eq ▸ reads_varint_iff_isVarint.1 hw, eq ▸ small⟩
  · rintro ⟨number, word, small⟩
    obtain ⟨w, eq, hw⟩ := word.exists_word
    exact ⟨w, hw, Key.ofWord_eq_ok.2 ⟨eq ▸ small, number, eq.symm⟩⟩

theorem reads_delimited_iff_isVarint {front payload : List UInt8} :
    Reads readDelimited front payload ↔
      ∃ len, front = len ++ payload ∧ IsVarint len payload.length := by
  rw [Reads.delimited_iff]
  constructor
  · rintro ⟨len, n, rfl, hn, length⟩
    exact ⟨len, rfl, length ▸ reads_varint_iff_isVarint.1 hn⟩
  · rintro ⟨len, rfl, length⟩
    obtain ⟨w, eq, hw⟩ := length.exists_word
    exact ⟨len, w, rfl, hw, eq⟩

theorem reads_group_iff_groupBytes {depth number : Nat} {front : List UInt8} {b : Body} :
    Reads (readGroup (readBody depth) number) front b ↔
      b = .group ∧ GroupBytes (readBody depth) number front := by
  rw [(local_readGroup (local_readBody depth) number).reads_iff, run_readGroup (local_readBody depth)]
  simp

section

variable {depth number : Nat}

theorem isGroup_of_groupBytes {bytes : List UInt8}
    (values : ∀ {key front body},
      Reads (readBody depth key) front body → IsValue depth key front body)
    (h : GroupBytes (readBody depth) number bytes) : IsGroup depth number bytes := by
  induction h with
  | stop hk => exact .stop (reads_key_iff_isKey.1 hk)
  | entry hk _ hb _ ih => exact .entry (reads_key_iff_isKey.1 hk) (values hb) ih

theorem IsValue.ne_endGroup {key : Key} {front : List UInt8} {body : Body}
    (h : IsValue depth key front body) : key.wireType ≠ .endGroup := by
  cases h <;> simp

theorem groupBytes_of_isGroup
    (values : ∀ {key front body},
      IsValue depth key front body → Reads (readBody depth key) front body) :
    ∀ {bytes}, IsGroup depth number bytes → GroupBytes (readBody depth) number bytes
  | _, .stop hk => .stop (reads_key_iff_isKey.2 hk)
  | _, .entry hk hb more =>
    .entry (reads_key_iff_isKey.2 hk) hb.ne_endGroup (values hb) (groupBytes_of_isGroup values more)

end

theorem reads_body_iff_isValue {depth : Nat} {key : Key} {front : List UInt8} {body : Body} :
    Reads (readBody depth key) front body ↔ IsValue depth key front body := by
  -- the values in a group are those of one depth less
  induction depth generalizing key front body with
  | zero =>
    constructor
    · intro h
      exact absurd h Reads.not_fail
    · intro h
      cases h
  | succ depth ih =>
    obtain ⟨number, shape⟩ := key
    rw [readBody]
    constructor
    · intro h
      cases shape with
      | varint =>
        obtain ⟨w, hw, rfl⟩ := (Reads.map_iff local_readVarint).1 h
        exact .varint (reads_varint_iff_isVarint.1 hw)
      | sixtyFourBit =>
        obtain ⟨w, hw, rfl⟩ := (Reads.map_iff local_readFixed64).1 h
        obtain ⟨length, rfl⟩ := reads_fixed64_iff.1 hw
        exact .fixed64 length
      | lengthDelimited =>
        obtain ⟨p, hp, rfl⟩ := (Reads.map_iff local_readDelimited).1 h
        obtain ⟨len, rfl, length⟩ := reads_delimited_iff_isVarint.1 hp
        exact .delimited length
      | startGroup =>
        obtain ⟨rfl, group⟩ := reads_group_iff_groupBytes.1 h
        exact .group (isGroup_of_groupBytes ih.1 group)
      | endGroup => exact absurd h Reads.not_fail
      | thirtyTwoBit =>
        obtain ⟨w, hw, rfl⟩ := (Reads.map_iff local_readFixed32).1 h
        obtain ⟨length, rfl⟩ := reads_fixed32_iff.1 hw
        exact .fixed32 length
    · intro h
      cases h with
      | varint hw =>
        exact (Reads.map_iff local_readVarint).2 ⟨_, reads_varint_iff_isVarint.2 hw, rfl⟩
      | fixed64 length =>
        exact (Reads.map_iff local_readFixed64).2 ⟨_, reads_fixed64_iff.2 ⟨length, rfl⟩, rfl⟩
      | delimited length =>
        have payload := reads_delimited_iff_isVarint.2 ⟨_, rfl, length⟩
        exact (Reads.map_iff local_readDelimited).2 ⟨_, payload, rfl⟩
      | group group => exact reads_group_iff_groupBytes.2 ⟨rfl, groupBytes_of_isGroup ih.2 group⟩
      | fixed32 length =>
        exact (Reads.map_iff local_readFixed32).2 ⟨_, reads_fixed32_iff.2 ⟨length, rfl⟩, rfl⟩

theorem Entry.fits_iff_whole {e : Entry} : e.Fits maxDepth ↔ e.Whole := by
  simp only [fits_iff, reads_key_iff_isKey, reads_body_iff_isValue, Whole]

theorem isRow_iff {bytes : List UInt8} {es : List Entry} :
    IsRow bytes es ↔ (∀ e ∈ es, e.Fits maxDepth) ∧ bytes = es.flatMap (·.raw) := by
  simp only [Entry.fits_iff_whole]
  exact ⟨fun h => ⟨h.whole, h.bytes_eq⟩, fun h => ⟨h.1, h.2⟩⟩

theorem split_eq_complete_iff {bytes : List UInt8} {es : List Entry} :
    split bytes = (es, .complete) ↔ IsRow bytes es :=
  split_eq_complete.trans isRow_iff.symm

theorem IsRow.unique {bytes : List UInt8} {es es' : List Entry} (h : IsRow bytes es)
    (h' : IsRow bytes es') : es = es' := by
  have same := split_eq_complete_iff.2 h
  rw [split_eq_complete_iff.2 h'] at same
  exact (congrArg Prod.fst same).symm

theorem complete_iff {bytes : List UInt8} : Complete bytes ↔ (split bytes).2 = .complete := by
  constructor
  · rintro ⟨es, row⟩
    rw [split_eq_complete_iff.2 row]
  · intro h
    exact ⟨(split bytes).1, split_eq_complete_iff.1 (Prod.ext rfl h)⟩

theorem IsRow.append {front back : List UInt8} {es es' : List Entry} (h : IsRow front es)
    (h' : IsRow back es') : IsRow (front ++ back) (es ++ es') where
  whole := List.forall_mem_append.2 ⟨h.whole, h'.whole⟩
  bytes_eq := by rw [h.bytes_eq, h'.bytes_eq, List.flatMap_append]

theorem IsRow.exists_rest {front back : List UInt8} {es all : List Entry} (h : IsRow front es)
    (h' : IsRow (front ++ back) all) : ∃ rest, all = es ++ rest ∧ IsRow back rest := by
  obtain ⟨whole, rfl⟩ := h
  -- an entry's own bytes tell where it ends, whatever comes after them
  induction es generalizing all with
  | nil => exact ⟨all, rfl, by simpa using h'⟩
  | cons e es ih =>
    obtain ⟨first, whole⟩ := List.forall_mem_cons.1 whole
    have reads : Reads (Entry.read maxDepth) e.raw (e.key, e.body) := Entry.fits_iff_whole.2 first
    obtain ⟨whole', bytes_eq⟩ := h'
    cases all with
    | nil =>
      have := reads.length_pos
      have := congrArg List.length bytes_eq
      simp only [List.flatMap_cons, List.flatMap_nil, List.length_append, List.length_nil] at this
      omega
    | cons e' all =>
      obtain ⟨first', others⟩ := List.forall_mem_cons.1 whole'
      have reads' : Reads (Entry.read maxDepth) e'.raw (e'.key, e'.body) :=
        Entry.fits_iff_whole.2 first'
      simp only [List.flatMap_cons, List.append_assoc] at bytes_eq
      obtain ⟨raw, said, rest⟩ := reads.unique reads' bytes_eq
      obtain ⟨key, body⟩ := Prod.mk.inj said
      obtain rfl : e = e' := by
        cases e
        cases e'
        simp_all
      obtain ⟨more, rfl, row⟩ := ih whole ⟨others, rest⟩
      exact ⟨more, rfl, row⟩

theorem Complete.nil : Complete [] :=
  ⟨[], by simp, rfl⟩

theorem Complete.append {front back : List UInt8} (h : Complete front) (h' : Complete back) :
    Complete (front ++ back) := by
  obtain ⟨es, row⟩ := h
  obtain ⟨es', row'⟩ := h'
  exact ⟨_, row.append row'⟩

theorem Complete.of_append {front back : List UInt8} (h : Complete front)
    (h' : Complete (front ++ back)) : Complete back := by
  obtain ⟨es, row⟩ := h
  obtain ⟨all, row'⟩ := h'
  obtain ⟨rest, -, row⟩ := row.exists_rest row'
  exact ⟨rest, row⟩

theorem complete_flatten {pieces : List (List UInt8)} (h : ∀ piece ∈ pieces, Complete piece) :
    Complete pieces.flatten := by
  induction pieces with
  | nil => exact .nil
  | cons piece pieces ih =>
    obtain ⟨first, rest⟩ := List.forall_mem_cons.1 h
    exact first.append (ih rest)

theorem forall_complete_iff {pieces : List (List UInt8)} :
    (∀ piece ∈ pieces, Complete piece) ↔ ∀ front, front <+: pieces → Complete front.flatten := by
  constructor
  · intro h front part
    exact complete_flatten fun piece mem => h piece (part.subset mem)
  · intro h piece mem
    obtain ⟨before, after, rfl⟩ := List.append_of_mem mem
    have upTo := h before (List.prefix_append _ _)
    have through := h (before ++ [piece]) ⟨after, by simp⟩
    rw [List.flatten_append, List.flatten_singleton] at through
    exact upTo.of_append through

end CompilerPlugin.Wire
