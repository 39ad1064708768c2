import Mathlib.Algebra.Group.Nat.Defs
import Mathlib.Data.List.Induction
import SignedManifest.Key.Signature
import SignedManifest.Proofs.Zip.RoundTrip

/-!
Signatures are accepted under the public half of the key that made them. Numbers and their bytes of one
size determine each other, so the check that signing makes of its own result is the one that verifying
makes.
-/
namespace SignedManifest

namespace Der

theorem natOfBytes_concat (bytes : List UInt8) (b : UInt8) :
    natOfBytes (bytes ++ [b]) = 256 * natOfBytes bytes + b.toNat := by
  simp [natOfBytes]

theorem bytesBefore_append (n : Nat) (bytes behind : List UInt8) :
    bytesBefore n (bytes ++ behind) = bytesBefore n bytes ++ behind := by
  fun_induction bytesBefore n bytes with
  | case1 bytes => rw [bytesBefore, if_pos rfl]
  | case2 n bytes filled ih => rw [bytesBefore, if_neg filled, ← ih, List.cons_append]

theorem bytesOfNat_zero : bytesOfNat 0 = [] := by
  rw [bytesOfNat, bytesBefore, if_pos rfl]

theorem bytesOfNat_filled {n : Nat} (filled : n ≠ 0) :
    bytesOfNat n = bytesOfNat (n / 256) ++ [UInt8.ofNat n] := by
  rw [bytesOfNat, bytesOfNat, bytesBefore, if_neg filled]
  exact bytesBefore_append (n / 256) [] [UInt8.ofNat n]

theorem natOfBytes_bytesOfNat (n : Nat) : natOfBytes (bytesOfNat n) = n := by
  induction n using Nat.strongRecOn with
  | ind n ih =>
    by_cases none : n = 0
    · rw [none, bytesOfNat_zero]
      rfl
    · rw [bytesOfNat_filled none, natOfBytes_concat, ih _ (by omega), UInt8.toNat_ofNat']
      omega

theorem natOfBytes_lt (bytes : List UInt8) : natOfBytes bytes < 256 ^ bytes.length := by
  induction bytes using List.reverseRecOn with
  | nil => simp [natOfBytes]
  | append_singleton bytes b ih =>
    have bound := b.toNat_lt
    rw [natOfBytes_concat, List.length_append, List.length_singleton, Nat.pow_succ]
    omega

theorem natOfBytes_zeros (n : Nat) (bytes : List UInt8) :
    natOfBytes (List.replicate n 0 ++ bytes) = natOfBytes bytes := by
  induction n with
  | zero => simp
  | succ n ih =>
    rw [List.replicate_succ, List.cons_append]
    exact ih

theorem length_bytesOfNat_le {n size : Nat} (fits : n < 256 ^ size) :
    (bytesOfNat n).length ≤ size := by
  induction size generalizing n with
  | zero =>
    obtain rfl : n = 0 := by simpa using fits
    simp [bytesOfNat_zero]
  | succ size ih =>
    rw [Nat.pow_succ] at fits
    by_cases none : n = 0
    · simp [none, bytesOfNat_zero]
    · have shorter := ih (n := n / 256) (by omega)
      rw [bytesOfNat_filled none]
      simpa using shorter

theorem natOfBytes_inj {xs ys : List UInt8} (size : xs.length = ys.length)
    (same : natOfBytes xs = natOfBytes ys) : xs = ys := by
  induction xs using List.reverseRecOn generalizing ys with
  | nil => exact (List.eq_nil_of_length_eq_zero size.symm).symm
  | append_singleton xs x ih =>
    obtain rfl | ⟨ys, y, rfl⟩ := List.eq_nil_or_concat' ys
    · simp at size
    rw [natOfBytes_concat, natOfBytes_concat] at same
    have bound := x.toNat_lt
    have bound' := y.toNat_lt
    obtain rfl : x = y := UInt8.toNat_inj.mp (by omega)
    rw [ih (by simpa using size) (by omega)]

end Der

namespace Rsa
open Der

variable {size n : Nat} {data given : ByteArray}

theorem bytesOfSize_length (fits : n < 256 ^ size) : (bytesOfSize size n).length = size := by
  have short := length_bytesOfNat_le fits
  simp only [bytesOfSize, List.length_append, List.length_replicate]
  omega

theorem natOfBytes_bytesOfSize (size n : Nat) : natOfBytes (bytesOfSize size n) = n := by
  rw [bytesOfSize, natOfBytes_zeros, natOfBytes_bytesOfNat]

theorem bytesOfSize_natOfBytes (bytes : List UInt8) :
    bytesOfSize bytes.length (natOfBytes bytes) = bytes :=
  natOfBytes_inj (bytesOfSize_length (natOfBytes_lt bytes)) (natOfBytes_bytesOfSize _ _)

theorem lt_byteLength (n : Nat) : n < 256 ^ byteLength n := by
  have bound := natOfBytes_lt (bytesOfNat n)
  rwa [natOfBytes_bytesOfNat] at bound

theorem powMod_lt (b e : Nat) {m : Nat} (filled : 0 < m) : powMod b e m < m := by
  rw [powMod_eq]
  exact Nat.mod_lt _ filled

theorem filledDigest?_length {bytes : List UInt8} (filled : filledDigest? size data = some bytes) :
    bytes.length = size ∧ 0 < size := by
  unfold filledDigest? at filled
  dsimp only at filled
  split at filled
  · rename_i room
    cases filled
    simp only [frameSize, List.length_append] at room
    simp only [List.length_append, List.length_replicate, List.length_cons, List.length_nil]
    omega
  · cases filled

namespace PrivateKey

/- What a key signs its public half accepts, and the signature has the size of the modulus. -/
theorem sign_verifies {k : PrivateKey} (signed : k.sign data = .ok given) :
    given.size = byteLength k.modulus ∧ k.toPublicKey.verify data given = true := by
  unfold sign at signed
  dsimp only at signed
  split at signed
  · cases signed
  rename_i filled room
  split at signed
  · rename_i undone
    cases signed
    obtain ⟨length, positive⟩ := filledDigest?_length room
    have modulus : 0 < k.modulus := by
      rw [Nat.pos_iff_ne_zero]
      intro zero
      simp [byteLength, zero, bytesOfNat_zero] at positive
    have below := powMod_lt (natOfBytes filled) k.privateExponent modulus
    have size := bytesOfSize_length (Nat.lt_trans below (lt_byteLength k.modulus))
    have restored : bytesOfSize (byteLength k.modulus) (natOfBytes filled) = filled := by
      rw [← length]
      exact bytesOfSize_natOfBytes filled
    refine ⟨size, ?_⟩
    simp only [PublicKey.verify, Zip.toList_eq, natOfBytes_bytesOfSize, undone, restored, room]
    simp [ByteArray.size, size, below]
  · cases signed

end PrivateKey

end Rsa

end SignedManifest
