import Mathlib.Algebra.GroupWithZero.Nat
import Atlantide.Lib.PrefixCode

/-! # Length framing

A number in big-endian bytes of a fixed width, and bytes behind their own length. -/

namespace Frames

open PrefixCode

def bigEndian : Nat → Nat → List UInt8
  | 0, _ => []
  | width + 1, value => bigEndian width (value / 256) ++ [UInt8.ofNat value]

/-- The bytes behind their length. -/
def framed (width : Nat) (bytes : List UInt8) : List UInt8 := bigEndian width bytes.length ++ bytes

@[simp]
theorem length_bigEndian (width value : Nat) : (bigEndian width value).length = width := by
  induction width generalizing value with
  | zero => rfl
  | succ width ih => rw [bigEndian, List.length_append, ih, List.length_singleton]

theorem bigEndian_inj {width value other : Nat} (hvalue : value < 256 ^ width)
    (hother : other < 256 ^ width) (hsame : bigEndian width value = bigEndian width other) :
    value = other := by
  induction width generalizing value other with
  | zero =>
    rw [Nat.pow_zero, Nat.lt_one_iff] at hvalue hother
    rw [hvalue, hother]
  | succ width ih =>
    rw [Nat.pow_succ] at hvalue hother
    obtain ⟨hfront, hlast⟩ := List.append_inj' hsame rfl
    have hquotient := ih (Nat.div_lt_of_lt_mul (by omega)) (Nat.div_lt_of_lt_mul (by omega)) hfront
    have hremainder := congrArg UInt8.toNat (List.cons.inj hlast).1
    rw [UInt8.toNat_ofNat', UInt8.toNat_ofNat'] at hremainder
    omega

/-- Framed bytes are read back, whatever follows. -/
theorem reads_framed {width : Nat} {bytes : List UInt8} (hbytes : bytes.length < 256 ^ width) :
    Reads (fun bytes => bytes.length < 256 ^ width) (framed width) anything bytes := by
  intro other rest rest' hother _ _ heq
  rw [framed, framed, List.append_assoc, List.append_assoc] at heq
  obtain ⟨hhead, hafter⟩ := List.append_inj heq (by rw [length_bigEndian, length_bigEndian])
  exact List.append_inj hafter (bigEndian_inj hbytes hother hhead)

end Frames
