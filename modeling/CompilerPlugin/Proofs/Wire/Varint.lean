import CompilerPlugin.Proofs.Wire.Reads
import CompilerPlugin.Wire.Lemmas

namespace CompilerPlugin.Wire

namespace Varint

theorem run_stepWithin_cons (limit : Nat) (b : UInt8) (tail : List UInt8) :
    (stepWithin (limit + 1)).run (b :: tail) =
      if b.toNat < 128 then
        if limit = 0 ∧ 1 < b.toNat then .error { fault := .varint } else .ok (b.toNat, tail)
      else ((stepWithin limit).run tail).map fun p => (b.toNat - 128 + 128 * p.1, p.2) := by
  have drop : (Input.ofBytes (b :: tail)).drop 1 = .ofBytes tail := Input.ext rfl
  by_cases last : b.toNat < 128
  · by_cases tooLong : limit = 0 ∧ 1 < b.toNat <;>
      simp [Step.run, stepWithin, Step.byte, last, tooLong]
  · simp only [Step.run, stepWithin, Step.byte, Input.bytes_ofBytes, last, if_false, drop]
    cases stepWithin limit (.ofBytes tail) <;> rfl

theorem run_stepWithin_cons_eq_ok {limit n : Nat} {b : UInt8} {tail rest : List UInt8} :
    (stepWithin (limit + 1)).run (b :: tail) = .ok (n, rest) ↔
      (b.toNat < 128 ∧ (limit = 0 → b.toNat ≤ 1) ∧ n = b.toNat ∧ rest = tail) ∨
        (128 ≤ b.toNat ∧ ∃ high, (stepWithin limit).run tail = .ok (high, rest) ∧
          n = b.toNat - 128 + 128 * high) := by
  rw [run_stepWithin_cons]
  rcases Nat.lt_or_ge b.toNat 128 with last | more
  · simp only [last, Nat.not_le.2 last, if_true, true_and, false_and, or_false]
    split
    · rename_i tooLong
      simp [tooLong.1, Nat.not_le.2 tooLong.2]
    · rename_i fits
      have fits : limit = 0 → b.toNat ≤ 1 := by omega
      rw [Except.ok.injEq, Prod.mk.injEq, and_iff_right fits, eq_comm, @eq_comm _ rest]
  · simp only [more, Nat.not_lt.2 more, if_false, true_and, false_and, false_or]
    cases (stepWithin limit).run tail with
    | error e => simp [Except.map]
    | ok p =>
      obtain ⟨high, mid⟩ := p
      simp [Except.map, and_assoc, and_comm, eq_comm]

theorem local_stepWithin (limit : Nat) : (stepWithin limit).Local := by
  induction limit with
  | zero => exact .fail
  | succ limit ih =>
    intro bytes rest n h
    cases bytes with
    | nil => simp [Step.run, stepWithin, Step.byte] at h
    | cons b tail =>
      rcases run_stepWithin_cons_eq_ok.1 h with ⟨last, fits, rfl, rfl⟩ | ⟨more, high, hr, rfl⟩
      · exact ⟨[b], rfl, fun rest => run_stepWithin_cons_eq_ok.2 (.inl ⟨last, fits, rfl, rfl⟩)⟩
      · obtain ⟨front, rfl, hf⟩ := ih hr
        exact ⟨b :: front, rfl,
          fun rest => run_stepWithin_cons_eq_ok.2 (.inr ⟨more, high, hf rest, rfl⟩)⟩

theorem reads_encode {limit n : Nat} (h : n < 2 * 128 ^ limit) :
    Reads (stepWithin (limit + 1)) (encode n) n := by
  intro rest
  induction limit generalizing n with
  | zero =>
    have small : n < 2 := by simpa using h
    have last : (UInt8.ofNat n).toNat = n := by
      rw [UInt8.toNat_ofNat']
      omega
    rw [encode, if_pos (by omega), List.singleton_append, run_stepWithin_cons, last,
      if_pos (by omega), if_neg (by omega)]
  | succ limit ih =>
    rw [encode]
    split
    · rename_i small
      have last : (UInt8.ofNat n).toNat = n := by
        rw [UInt8.toNat_ofNat']
        omega
      rw [List.singleton_append, run_stepWithin_cons, last, if_pos small, if_neg (by omega)]
    · rename_i large
      have low : (UInt8.ofNat (n % 128 + 128)).toNat = n % 128 + 128 := by
        rw [UInt8.toNat_ofNat']
        omega
      have high : n / 128 < 2 * 128 ^ limit := by
        rw [Nat.div_lt_iff_lt_mul (by omega)]
        rw [pow_succ] at h
        omega
      rw [List.cons_append, run_stepWithin_cons, low, if_neg (by omega), ih high]
      simp only [Except.map]
      congr 2
      omega

theorem encode_length_le_of_run {limit n : Nat} {bytes rest : List UInt8}
    (h : (stepWithin limit).run bytes = .ok (n, rest)) :
    (encode n).length + rest.length ≤ bytes.length ∧ n < 2 * 128 ^ (limit - 1) := by
  induction limit generalizing n bytes with
  | zero => exact absurd h Step.run_fail
  | succ limit ih =>
    cases bytes with
    | nil => simp [Step.run, stepWithin, Step.byte] at h
    | cons b tail =>
      rw [Nat.add_sub_cancel]
      rcases run_stepWithin_cons_eq_ok.1 h with ⟨last, fits, rfl, rfl⟩ | ⟨more, high, hr, rfl⟩
      · have low : b.toNat < 2 * 128 ^ limit := by
          cases limit with
          | zero => simp only [pow_zero]; omega
          | succ limit =>
            have := Nat.one_le_pow limit 128 (by omega)
            rw [pow_succ]
            omega
        rw [encode, if_pos last]
        simp only [List.length_cons, List.length_nil]
        exact ⟨by omega, low⟩
      · obtain ⟨length, bound⟩ := ih hr
        cases limit with
        | zero => exact absurd hr Step.run_fail
        | succ limit =>
          have byte := b.toNat_lt
          refine ⟨?_, ?_⟩
          · rw [encode]
            split
            · simp only [List.length_cons, List.length_nil]
              have := Step.length_lt_of_run hr
              omega
            · rw [List.length_cons, List.length_cons,
                show (b.toNat - 128 + 128 * high) / 128 = high by omega]
              omega
          · simp only [Nat.add_sub_cancel] at bound
            rw [pow_succ]
            omega

end Varint

theorem local_readVarint : readVarint.Local :=
  (Varint.local_stepWithin 10).map

theorem reads_varint (w : UInt64) : Reads readVarint (Varint.encode w.toNat) w := by
  have bound : w.toNat < 2 * 128 ^ 9 := w.toNat_lt
  exact (Reads.map_iff (Varint.local_stepWithin 10)).2 ⟨_, Varint.reads_encode bound, by simp⟩

theorem reads_varint_ofNat {n : Nat} (h : n < 2 ^ 64) :
    Reads readVarint (Varint.encode n) (UInt64.ofNat n) := by
  have := reads_varint (UInt64.ofNat n)
  rwa [UInt64.toNat_ofNat_of_lt' h] at this

theorem length_encode_le_of_reads {front : List UInt8} {w : UInt64} (h : Reads readVarint front w) :
    (Varint.encode w.toNat).length ≤ front.length := by
  obtain ⟨n, hn, rfl⟩ := (Reads.map_iff (Varint.local_stepWithin 10)).1 h
  obtain ⟨length, bound⟩ := Varint.encode_length_le_of_run (hn [])
  have small : n < 2 ^ 64 := bound
  rw [UInt64.toNat_ofNat_of_lt' small]
  simpa using length

theorem local_readKey : readKey.Local :=
  local_readVarint.refine

theorem Key.ofWord_eq_ok {w : UInt64} {key : Key} :
    Key.ofWord w = .ok key ↔
      w.toNat < UInt32.size ∧ key.number ≠ 0 ∧ key.number * 8 + key.wireType.code = w.toNat := by
  rw [Key.ofWord]
  constructor
  · intro h
    split at h
    · cases h
    · rename_i small
      split at h
      · cases h
      · rename_i t code
        split at h
        · cases h
        · rename_i number
          cases h
          have := WireType.code_of_ofCode? code
          refine ⟨by omega, number, ?_⟩
          simp only
          omega
  · rintro ⟨small, number, eq⟩
    have code := key.wireType.code_lt
    have low : w.toNat % 8 = key.wireType.code := by omega
    have high : w.toNat / 8 = key.number := by omega
    rw [if_neg (by omega), low, high]
    simp [number]

theorem reads_key {key : Key} (pos : key.number ≠ 0) (bound : key.number < 2 ^ 29) :
    Reads readKey key.encode key := by
  have code := key.wireType.code_lt
  refine (Reads.refine_iff local_readVarint).2 ⟨_, reads_varint_ofNat (by omega), ?_⟩
  rw [Key.ofWord_eq_ok, UInt64.toNat_ofNat_of_lt' (by simp only [UInt64.size]; omega)]
  exact ⟨by simp only [UInt32.size]; omega, pos, rfl⟩

theorem Reads.key {front : List UInt8} {key : Key} (h : Reads readKey front key) :
    key.number ≠ 0 ∧ key.number < 2 ^ 29 ∧ key.encode.length ≤ front.length := by
  obtain ⟨w, hw, hk⟩ := (Reads.refine_iff local_readVarint).1 h
  obtain ⟨small, pos, eq⟩ := Key.ofWord_eq_ok.1 hk
  have length := length_encode_le_of_reads hw
  refine ⟨pos, ?_, ?_⟩
  · simp only [UInt32.size] at small
    omega
  · rw [Key.encode, eq]
    exact length

theorem local_readFixed64 : readFixed64.Local :=
  Step.Local.take.map

theorem local_readFixed32 : readFixed32.Local :=
  Step.Local.take.map

theorem reads_map_take_iff {β : Type} {n : Nat} {positive : 0 < n} {f : List UInt8 → β}
    {front : List UInt8} {b : β} :
    Reads ((Step.take n positive).map f) front b ↔ front.length = n ∧ f front = b := by
  rw [Reads.map_iff Step.Local.take]
  simp only [Step.Local.take.reads_iff, Step.run_take, List.append_nil]
  constructor
  · rintro ⟨taken, ⟨rfl, length⟩, rfl⟩
    exact ⟨length, rfl⟩
  · rintro ⟨length, rfl⟩
    exact ⟨front, ⟨rfl, length⟩, rfl⟩

theorem reads_fixed64_iff {front : List UInt8} {w : UInt64} :
    Reads readFixed64 front w ↔ front.length = 8 ∧ UInt64.ofNat (ofLittleEndian front) = w :=
  reads_map_take_iff

theorem reads_fixed32_iff {front : List UInt8} {w : UInt32} :
    Reads readFixed32 front w ↔ front.length = 4 ∧ UInt32.ofNat (ofLittleEndian front) = w :=
  reads_map_take_iff

theorem reads_fixed64 (w : UInt64) : Reads readFixed64 (toLittleEndian 8 w.toNat) w := by
  have bound : w.toNat < 256 ^ 8 := w.toNat_lt
  refine reads_fixed64_iff.2 ⟨length_toLittleEndian 8 _, ?_⟩
  rw [ofLittleEndian_toLittleEndian, Nat.mod_eq_of_lt bound, UInt64.ofNat_toNat]

theorem run_readDelimited {bytes rest p : List UInt8} :
    readDelimited.run bytes = .ok (p, rest) ↔
      ∃ n, readVarint.run bytes = .ok (n, p ++ rest) ∧ n.toNat = p.length := by
  constructor
  · intro h
    obtain ⟨r, hr, rest_eq⟩ := Step.run_eq_ok.1 h
    rw [readDelimited] at hr
    split at hr
    · cases hr
    · rename_i n r₁ hn
      split at hr
      · rename_i enough
        cases hr
        have after := congrArg Input.bytes rest_eq
        simp only [Input.bytes_drop, Input.bytes_ofBytes] at after
        refine ⟨n, ?_, ?_⟩
        · have := Step.run_of_ok hn
          rwa [← after, List.take_append_drop]
        · rw [List.length_take, r₁.1.size_eq]
          omega
      · cases hr
  · rintro ⟨n, hn, length⟩
    obtain ⟨⟨i, smaller⟩, hn, rest_eq⟩ := Step.run_eq_ok.1 hn
    obtain rfl : i = .ofBytes (p ++ rest) := rest_eq
    simp [Step.run, readDelimited, hn, length]

theorem local_readDelimited : readDelimited.Local := by
  intro bytes rest p h
  obtain ⟨n, hn, length⟩ := run_readDelimited.1 h
  obtain ⟨front, eq, hf⟩ := local_readVarint hn
  refine ⟨front ++ p, by rw [eq, List.append_assoc], ?_⟩
  intro rest
  exact run_readDelimited.2 ⟨n, by simpa using hf (p ++ rest), length⟩

theorem Reads.delimited_iff {front p : List UInt8} :
    Reads readDelimited front p ↔
      ∃ len n, front = len ++ p ∧ Reads readVarint len n ∧ n.toNat = p.length := by
  rw [local_readDelimited.reads_iff, run_readDelimited]
  simp only [List.append_nil]
  constructor
  · rintro ⟨n, hn, length⟩
    obtain ⟨len, rfl, hl⟩ := local_readVarint hn
    exact ⟨len, n, rfl, hl, length⟩
  · rintro ⟨len, n, rfl, hl, length⟩
    exact ⟨n, hl p, length⟩

theorem reads_delimited {p : List UInt8} (h : p.length < 2 ^ 64) :
    Reads readDelimited (encodeDelimited p) p :=
  Reads.delimited_iff.2 ⟨_, _, rfl, reads_varint_ofNat h, UInt64.toNat_ofNat_of_lt' h⟩

theorem length_encodeDelimited_le_of_reads {front p : List UInt8} (h : Reads readDelimited front p) :
    (encodeDelimited p).length ≤ front.length := by
  obtain ⟨len, n, rfl, hl, length⟩ := Reads.delimited_iff.1 h
  have := length_encode_le_of_reads hl
  rw [encodeDelimited, ← length]
  simp only [List.length_append]
  omega

section

variable {σ : Type} {step : σ → Step σ} {s s' : σ}

theorem run_delimited (hstep : ∀ s, (step s).Local) {bytes rest : List UInt8} :
    (delimited step s).run bytes = .ok (s', rest) ↔
      ∃ n p, readVarint.run bytes = .ok (n, p ++ rest) ∧ n.toNat = p.length ∧ Loops step s p s' := by
  constructor
  · intro h
    obtain ⟨r, hr, rest_eq⟩ := Step.run_eq_ok.1 h
    rw [delimited] at hr
    split at hr
    · cases hr
    · rename_i n r₁ hn
      split at hr
      · rename_i enough
        simp only at hr
        split at hr
        · cases hr
        · rename_i r' loop
          split at hr
          · rename_i stop
            cases hr
            obtain ⟨p, bytes_eq, -, loops⟩ := exists_loops_of_untilLeft hstep loop
            rw [show r'.1.bytes = rest from congrArg Input.bytes rest_eq] at bytes_eq
            refine ⟨n, p, ?_, ?_, loops⟩
            · have := Step.run_of_ok hn
              rwa [bytes_eq] at this
            · have left := r'.1.size_eq
              have all := r₁.1.size_eq
              rw [show r'.1.bytes = rest from congrArg Input.bytes rest_eq] at left
              rw [bytes_eq, List.length_append] at all
              omega
          · cases hr
      · cases hr
  · rintro ⟨n, p, hn, length, loops⟩
    obtain ⟨⟨i, smaller⟩, hn, i_eq⟩ := Step.run_eq_ok.1 hn
    obtain rfl : i = .ofBytes (p ++ rest) := i_eq
    obtain ⟨r, hr, rest_eq⟩ := loops.untilLeft rest (i := .ofBytes (p ++ rest)) rfl (Nat.le_refl _)
    have stop : (Input.ofBytes (p ++ rest)).size - n.toNat = rest.length := by simp [length]
    have enough : n.toNat ≤ (Input.ofBytes (p ++ rest)).size := by simp [length]
    simp only [Step.run, delimited, hn, enough, if_true, stop, hr]
    simp [rest_eq]

theorem local_delimited (hstep : ∀ s, (step s).Local) : (delimited step s).Local := by
  intro bytes rest s' h
  obtain ⟨n, p, hn, length, loops⟩ := (run_delimited hstep).1 h
  obtain ⟨front, eq, hf⟩ := local_readVarint hn
  refine ⟨front ++ p, by rw [eq, List.append_assoc], ?_⟩
  intro rest
  exact (run_delimited hstep).2 ⟨n, p, by simpa using hf (p ++ rest), length, loops⟩

theorem Reads.loop_iff (hstep : ∀ s, (step s).Local) {front : List UInt8} :
    Reads (delimited step s) front s' ↔ ∃ p, Reads readDelimited front p ∧ Loops step s p s' := by
  rw [(local_delimited hstep).reads_iff, run_delimited hstep]
  simp only [List.append_nil, Reads.delimited_iff]
  constructor
  · rintro ⟨n, p, hn, length, loops⟩
    obtain ⟨len, rfl, hl⟩ := local_readVarint hn
    exact ⟨p, ⟨len, n, rfl, hl, length⟩, loops⟩
  · rintro ⟨p, ⟨len, n, rfl, hl, length⟩, loops⟩
    exact ⟨n, p, hl p, length, loops⟩

end

end CompilerPlugin.Wire
