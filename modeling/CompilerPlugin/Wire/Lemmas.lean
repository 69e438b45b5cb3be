import Mathlib.Algebra.Group.Nat.Defs
import CompilerPlugin.Wire.Entry

namespace CompilerPlugin.Wire

theorem ofLittleEndian_toLittleEndian (width n : Nat) :
    ofLittleEndian (toLittleEndian width n) = n % 256 ^ width := by
  induction width generalizing n with
  | zero => simp [toLittleEndian, ofLittleEndian, Nat.mod_one]
  | succ width ih =>
    rw [toLittleEndian, ofLittleEndian, ih, pow_succ, Nat.mul_comm (256 ^ width) 256, Nat.mod_mul]
    have : (UInt8.ofNat (n % 256)).toNat = n % 256 := by simp
    omega

theorem Varint.encode_length_le (n limit : Nat) (h : n < 128 ^ limit) (positive : 0 < limit) :
    (encode n).length ≤ limit := by
  induction limit generalizing n with
  | zero => omega
  | succ limit ih =>
    rw [encode]
    split
    · simp
    · rename_i large
      rw [List.length_cons]
      have : n / 128 < 128 ^ limit := by
        rw [Nat.div_lt_iff_lt_mul (by omega)]
        simpa [pow_succ] using h
      cases limit with
      | zero => simp at this; omega
      | succ limit => have := ih (n / 128) this (by omega); omega

end CompilerPlugin.Wire
