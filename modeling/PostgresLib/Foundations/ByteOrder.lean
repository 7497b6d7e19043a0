import Mathlib.Data.Nat.Digits.Defs
import Mathlib.Tactic.Ring
import Mathlib.Tactic.NormNum

/-! # Bytes of fixed-width words in both byte orders

A word of `n` bytes is a bit vector of width `8 * n`. Its object representation
lists its base-256 digits from the least significant one on a little-endian host
and from the most significant one on a big-endian host; reading the bytes back
on the same host gives the word.
-/

namespace PostgresLib.Foundations

abbrev Byte := UInt8
abbrev Bytes := List Byte

inductive Endian where
  | little | big
  deriving DecidableEq

/-- The `n` lowest base-256 digits, least significant first. -/
def digitsLE : ℕ → ℕ → Bytes
  | 0, _ => []
  | n + 1, v => UInt8.ofNat (v % 256) :: digitsLE n (v / 256)

/-- The number with these base-256 digits, least significant first. -/
def ofDigitsLE : Bytes → ℕ
  | [] => 0
  | b :: bs => b.toNat + 256 * ofDigitsLE bs

@[simp] theorem digitsLE_length (n v : ℕ) : (digitsLE n v).length = n := by
  induction n generalizing v with
  | zero => rfl
  | succ n ih => simp [digitsLE, ih]

theorem ofDigitsLE_lt (bs : Bytes) : ofDigitsLE bs < 256 ^ bs.length := by
  induction bs with
  | nil => simp [ofDigitsLE]
  | cons b bs ih =>
    have hb : b.toNat < 256 := b.toNat_lt
    rw [ofDigitsLE, List.length_cons, pow_succ]
    omega

theorem ofDigitsLE_digitsLE (n v : ℕ) : ofDigitsLE (digitsLE n v) = v % 256 ^ n := by
  induction n generalizing v with
  | zero => simp [digitsLE, ofDigitsLE, Nat.mod_one]
  | succ n ih =>
    rw [digitsLE, ofDigitsLE, ih, pow_succ', Nat.mod_mul, UInt8.toNat_ofNat']
    omega

theorem digitsLE_ofDigitsLE (bs : Bytes) : digitsLE bs.length (ofDigitsLE bs) = bs := by
  induction bs with
  | nil => rfl
  | cons b bs ih =>
    have hb : b.toNat < 256 := b.toNat_lt
    have hmod : (b.toNat + 256 * ofDigitsLE bs) % 256 = b.toNat := by omega
    have hdiv : (b.toNat + 256 * ofDigitsLE bs) / 256 = ofDigitsLE bs := by omega
    rw [List.length_cons, digitsLE, ofDigitsLE, hmod, hdiv, ih, UInt8.ofNat_toNat]

variable {n : ℕ}

theorem word_lt (v : BitVec (8 * n)) : v.toNat < 256 ^ n := by
  have h := v.isLt
  rwa [pow_mul] at h

/-- The bytes of a word, most significant first. -/
def bytesBE (v : BitVec (8 * n)) : Bytes := (digitsLE n v.toNat).reverse

/-- The word with these bytes, most significant first. -/
def ofBytesBE (n : ℕ) (bs : Bytes) : BitVec (8 * n) := BitVec.ofNat (8 * n) (ofDigitsLE bs.reverse)

@[simp] theorem bytesBE_length (v : BitVec (8 * n)) : (bytesBE v).length = n := by
  simp [bytesBE]

@[simp] theorem ofBytesBE_bytesBE (v : BitVec (8 * n)) : ofBytesBE n (bytesBE v) = v := by
  apply BitVec.eq_of_toNat_eq
  rw [ofBytesBE, bytesBE, List.reverse_reverse, ofDigitsLE_digitsLE, BitVec.toNat_ofNat,
    Nat.mod_eq_of_lt (word_lt v), Nat.mod_eq_of_lt v.isLt]

/-- How a word lies in memory. -/
def objectBytes (native : Endian) (v : BitVec (8 * n)) : Bytes :=
  match native with
  | .little => digitsLE n v.toNat
  | .big => (digitsLE n v.toNat).reverse

/-- The word that lies in memory as these bytes. -/
def ofObjectBytes (native : Endian) (n : ℕ) (bs : Bytes) : BitVec (8 * n) :=
  match native with
  | .little => BitVec.ofNat (8 * n) (ofDigitsLE bs)
  | .big => BitVec.ofNat (8 * n) (ofDigitsLE bs.reverse)

/-- The word with the bytes in the opposite order. -/
def byteswap (v : BitVec (8 * n)) : BitVec (8 * n) :=
  BitVec.ofNat (8 * n) (ofDigitsLE (digitsLE n v.toNat).reverse)

/-- On a little-endian host the swapped word lies in memory most significant byte first. -/
theorem objectBytes_byteswap (v : BitVec (8 * n)) :
    objectBytes .little (byteswap v) = bytesBE v := by
  have hlt := ofDigitsLE_lt (digitsLE n v.toNat).reverse
  rw [List.length_reverse, digitsLE_length] at hlt
  have hword : (2 : ℕ) ^ (8 * n) = 256 ^ n := by rw [pow_mul]; norm_num
  have hback := digitsLE_ofDigitsLE (digitsLE n v.toNat).reverse
  rw [List.length_reverse, digitsLE_length] at hback
  rw [objectBytes, byteswap, BitVec.toNat_ofNat, hword, Nat.mod_eq_of_lt hlt, hback, bytesBE]

/-- Bytes that are reversed into an object on a little-endian host are read most significant
first. -/
theorem ofObjectBytes_reverse (bs : Bytes) : ofObjectBytes .little n bs.reverse = ofBytesBE n bs :=
  rfl

/-- The order in which a host reads bytes that were reversed into an object. -/
def Endian.arrange (native : Endian) (bs : Bytes) : Bytes :=
  match native with
  | .little => bs
  | .big => bs.reverse

@[simp] theorem Endian.arrange_little (bs : Bytes) : Endian.little.arrange bs = bs := rfl

theorem Endian.arrange_length (native : Endian) (bs : Bytes) :
    (native.arrange bs).length = bs.length := by
  cases native with
  | little => rfl
  | big => exact List.length_reverse

theorem Endian.arrange_eq_iff (native : Endian) (bs : Bytes) :
    native.arrange bs = bs ↔ native = .little ∨ bs.reverse = bs := by
  cases native with
  | little => simp
  | big => simp [arrange]

theorem ofObjectBytes_arrange (native : Endian) (bs : Bytes) :
    ofObjectBytes native n bs.reverse = ofBytesBE n (native.arrange bs) := by
  cases native with
  | little => rfl
  | big => rfl

/-- The number the bytes stand for in two's complement, most significant first. -/
def signedBE (bs : Bytes) : ℤ := (ofDigitsLE bs.reverse : ℤ).bmod (256 ^ bs.length)

theorem ofBytesBE_toInt {bs : Bytes} (hlen : bs.length = n) :
    (ofBytesBE n bs).toInt = signedBE bs := by
  rw [ofBytesBE, BitVec.toInt_ofNat', signedBE, hlen, pow_mul]
  rfl

theorem signedBE_bytesBE (v : BitVec (8 * n)) : signedBE (bytesBE v) = v.toInt := by
  rw [← ofBytesBE_toInt (bytesBE_length v), ofBytesBE_bytesBE]

/-- The signed number is the unsigned one modulo the number of words. -/
theorem signedBE_emod (bs : Bytes) :
    signedBE bs % (256 ^ bs.length : ℕ) = ofDigitsLE bs.reverse := by
  have hlt := ofDigitsLE_lt bs.reverse
  rw [List.length_reverse] at hlt
  rw [signedBE, Int.bmod_emod]
  exact Int.emod_eq_of_lt (Int.natCast_nonneg _) (by exact_mod_cast hlt)

theorem signedBE_bounds (bs : Bytes) :
    -(256 ^ bs.length : ℕ) ≤ 2 * signedBE bs ∧ 2 * signedBE bs < (256 ^ bs.length : ℕ) := by
  have hpos : 0 < 256 ^ bs.length := Nat.pow_pos (by norm_num)
  have hle := Int.le_bmod (x := ofDigitsLE bs.reverse) hpos
  have hlt := Int.bmod_lt (x := ofDigitsLE bs.reverse) hpos
  rw [signedBE]
  omega

theorem ofDigitsLE_injective {bs cs : Bytes} (hlen : bs.length = cs.length)
    (h : ofDigitsLE bs = ofDigitsLE cs) : bs = cs := by
  rw [← digitsLE_ofDigitsLE bs, ← digitsLE_ofDigitsLE cs, hlen, h]

theorem signedBE_injective {bs cs : Bytes} (hlen : bs.length = cs.length)
    (h : signedBE bs = signedBE cs) : bs = cs := by
  have hbs := signedBE_emod bs
  rw [h, hlen, signedBE_emod cs] at hbs
  apply List.reverse_inj.mp
  apply ofDigitsLE_injective
  · rw [List.length_reverse, List.length_reverse, hlen]
  · exact_mod_cast hbs.symm

theorem ofDigitsLE_append (bs cs : Bytes) :
    ofDigitsLE (bs ++ cs) = ofDigitsLE bs + 256 ^ bs.length * ofDigitsLE cs := by
  induction bs with
  | nil => simp [ofDigitsLE]
  | cons b bs ih =>
    rw [List.cons_append, ofDigitsLE, ofDigitsLE, ih, List.length_cons, pow_succ]
    ring

theorem ofDigitsLE_eq_zero (bs : Bytes) : ofDigitsLE bs = 0 ↔ ∀ b ∈ bs, b = 0 := by
  induction bs with
  | nil => simp [ofDigitsLE]
  | cons b bs ih =>
    have hb : b.toNat = 0 ↔ b = 0 := UInt8.toNat_inj (b := 0)
    rw [ofDigitsLE, Nat.add_eq_zero_iff, hb, List.forall_mem_cons, ← ih, Nat.mul_eq_zero]
    simp

/-- Reading the bytes backwards and dropping the upper half of the word gives the number only
when the bytes are a palindrome. -/
theorem reverse_eq_of_emod {bs : Bytes} {m : ℕ} (hlen : bs.length = m + m)
    (h : signedBE bs.reverse % (256 ^ m : ℕ) = signedBE bs) : bs.reverse = bs := by
  have hpos : 0 < 256 ^ m := Nat.pow_pos (by norm_num)
  have hhalf : 256 ^ bs.length = 256 ^ m * 256 ^ m := by rw [hlen, pow_add]
  have hsplit := List.take_append_drop m bs
  have hfront : (bs.take m).length = m := by rw [List.length_take, hlen]; omega
  have hback : (bs.drop m).reverse.length = m := by
    rw [List.length_reverse, List.length_drop, hlen]
    omega
  -- the lower half of the reversed number is read off the front bytes
  have hlow : signedBE bs = ofDigitsLE (bs.take m) := by
    have hemod := signedBE_emod bs.reverse
    rw [List.reverse_reverse, List.length_reverse, hhalf, ← hsplit, ofDigitsLE_append, hfront,
      hsplit] at hemod
    have hlt := ofDigitsLE_lt (bs.take m)
    rw [hfront] at hlt
    rw [← h, ← Int.emod_emod_of_dvd _ (Int.natCast_dvd_natCast.mpr ⟨256 ^ m, rfl⟩), hemod]
    push_cast
    rw [Int.add_mul_emod_self_left]
    exact Int.emod_eq_of_lt (Int.natCast_nonneg _) (by exact_mod_cast hlt)
  -- it is below the half, so that the upper bytes of the number are zero
  have hvalue : ofDigitsLE bs.reverse = ofDigitsLE (bs.take m) := by
    have hemod := signedBE_emod bs
    have hlt := ofDigitsLE_lt (bs.take m)
    have hle : 256 ^ m ≤ 256 ^ m * 256 ^ m := Nat.le_mul_of_pos_left _ hpos
    rw [hlow, hhalf, Int.emod_eq_of_lt (Int.natCast_nonneg _)
      (by rw [hfront] at hlt; exact_mod_cast lt_of_lt_of_le hlt hle)] at hemod
    exact_mod_cast hemod.symm
  have hupper : ofDigitsLE (bs.take m).reverse = 0 := by
    have hlt := ofDigitsLE_lt (bs.take m)
    rw [hfront, ← hvalue, ← hsplit, List.reverse_append, ofDigitsLE_append, hback] at hlt
    by_contra hne
    have := Nat.le_mul_of_pos_right (256 ^ m) (Nat.pos_of_ne_zero hne)
    omega
  have hzero : ofDigitsLE (bs.take m) = 0 := by
    rw [ofDigitsLE_eq_zero] at hupper ⊢
    exact fun b hb => hupper b (List.mem_reverse.mpr hb)
  rw [hzero, ofDigitsLE_eq_zero] at hvalue
  have hall : ∀ b ∈ bs, b = 0 := fun b hb => hvalue b (List.mem_reverse.mpr hb)
  rw [List.eq_replicate_of_mem hall, List.reverse_replicate]

end PostgresLib.Foundations
