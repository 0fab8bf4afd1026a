import Mathlib.Algebra.Group.Nat.Defs
import Mathlib.Data.List.Basic

namespace Lthread.Bytes

def encode : ℕ → ℕ → List UInt8
  | 0, _ => []
  | width + 1, x => UInt8.ofNat (x % 256) :: encode width (x / 256)

def decode : List UInt8 → ℕ
  | [] => 0
  | byte :: bytes => byte.toNat + 256 * decode bytes

@[simp] theorem length_encode (width x : ℕ) : (encode width x).length = width := by
  induction width generalizing x with
  | zero => rfl
  | succ width ih => rw [encode, List.length_cons, ih]

theorem decode_encode {width x : ℕ} (h : x < 256 ^ width) : decode (encode width x) = x := by
  induction width generalizing x with
  | zero =>
    rw [Nat.pow_zero, Nat.lt_one_iff] at h
    rw [h]
    rfl
  | succ width ih =>
    have hdiv : x / 256 < 256 ^ width := by
      rw [Nat.pow_succ, Nat.mul_comm] at h
      exact Nat.div_lt_of_lt_mul h
    have hbyte : (UInt8.ofNat (x % 256)).toNat = x % 256 := by
      rw [UInt8.toNat_ofNat']
      omega
    rw [encode, decode, hbyte, ih hdiv]
    omega

theorem encode_zero (width : ℕ) : encode width 0 = List.replicate width 0 := by
  induction width with
  | zero => rfl
  | succ width ih =>
    rw [encode, Nat.zero_div, ih]
    rfl

end Lthread.Bytes
