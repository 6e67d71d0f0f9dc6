import Mathlib.Data.Nat.Digits.Defs
import Mathlib.Tactic

/-!
# RustEvm.Lib.BigEndian — big-endian byte strings as numbers

`ofBytes` reads a byte string as a number and `toBytes k` writes a number on exactly `k` bytes, dropping what does
not fit.  They are inverse to each other up to that cut (`ofBytes_toBytes`, `toBytes_ofBytes`), and both split
along an append (`ofBytes_append`, `toBytes_add`), which is what padding and narrowing come down to.  `FixedBytes n`
is the type of `n` bytes; it has `256 ^ n` elements, one for every smaller number (`FixedBytes.toNat_ofNat`,
`FixedBytes.ofNat_toNat`).
-/

namespace RustEvm.BigEndian

/-- The number a big-endian byte string denotes. -/
def ofBytes (bs : List UInt8) : ℕ := Nat.ofDigits 256 (bs.reverse.map UInt8.toNat)

/-- The low `k` bytes of a number, most significant first. -/
def toBytes : ℕ → ℕ → List UInt8
  | 0, _ => []
  | k + 1, n => toBytes k (n / 256) ++ [UInt8.ofNat n]

/-! ## Reading -/

@[simp] theorem ofBytes_nil : ofBytes [] = 0 := rfl

theorem ofBytes_append (as bs : List UInt8) :
    ofBytes (as ++ bs) = ofBytes as * 256 ^ bs.length + ofBytes bs := by
  unfold ofBytes
  rw [List.reverse_append, List.map_append, Nat.ofDigits_append]
  simp only [List.length_map, List.length_reverse]
  ring

@[simp] theorem ofBytes_singleton (b : UInt8) : ofBytes [b] = b.toNat := by
  simp [ofBytes]

theorem ofBytes_cons (b : UInt8) (bs : List UInt8) :
    ofBytes (b :: bs) = b.toNat * 256 ^ bs.length + ofBytes bs := by
  rw [← List.singleton_append, ofBytes_append, ofBytes_singleton]

theorem ofBytes_lt (bs : List UInt8) : ofBytes bs < 256 ^ bs.length := by
  have h := Nat.ofDigits_lt_base_pow_length (b := 256) (l := bs.reverse.map UInt8.toNat)
    (by norm_num) (fun x hx => by
      obtain ⟨b, -, rfl⟩ := List.mem_map.mp hx
      exact b.toNat_lt)
  simpa [ofBytes] using h

@[simp] theorem ofBytes_replicate_zero (k : ℕ) : ofBytes (List.replicate k 0) = 0 := by
  induction k with
  | zero => rfl
  | succ k ih => rw [List.replicate_succ, ofBytes_cons, ih]; simp

/-- Zero bytes in front do not change the number. -/
theorem ofBytes_zeros_append (k : ℕ) (bs : List UInt8) :
    ofBytes (List.replicate k 0 ++ bs) = ofBytes bs := by
  rw [ofBytes_append, ofBytes_replicate_zero, Nat.zero_mul, Nat.zero_add]

theorem ofBytes_eq_zero_iff {bs : List UInt8} : ofBytes bs = 0 ↔ bs = List.replicate bs.length 0 := by
  induction bs with
  | nil => simp
  | cons b bs ih =>
    have hp : 0 < 256 ^ bs.length := by positivity
    rw [ofBytes_cons, List.length_cons, List.replicate_succ, List.cons.injEq]
    constructor
    · intro h
      have hb : b.toNat * 256 ^ bs.length = 0 := by omega
      have hb0 : b.toNat = 0 := by
        rcases Nat.mul_eq_zero.mp hb with h | h
        · exact h
        · omega
      exact ⟨UInt8.toNat_inj.mp hb0, ih.mp (by omega)⟩
    · rintro ⟨rfl, h⟩
      simp [ih.mpr h]

/-! ## Writing -/

@[simp] theorem length_toBytes (k n : ℕ) : (toBytes k n).length = k := by
  induction k generalizing n with
  | zero => rfl
  | succ k ih => simp [toBytes, ih]

/-- Writing on `k` bytes and reading back keeps the number modulo `256 ^ k`. -/
theorem ofBytes_toBytes (k n : ℕ) : ofBytes (toBytes k n) = n % 256 ^ k := by
  induction k generalizing n with
  | zero => simp [toBytes, Nat.mod_one]
  | succ k ih =>
    rw [toBytes, ofBytes_append, ih, ofBytes_singleton, UInt8.toNat_ofNat']
    rw [List.length_singleton, pow_one, pow_succ' 256 k, Nat.mod_mul]
    omega

theorem ofBytes_toBytes_of_lt {k n : ℕ} (h : n < 256 ^ k) : ofBytes (toBytes k n) = n := by
  rw [ofBytes_toBytes, Nat.mod_eq_of_lt h]

/-- A byte string is what its number writes on as many bytes. -/
theorem toBytes_ofBytes (bs : List UInt8) : toBytes bs.length (ofBytes bs) = bs := by
  induction bs using List.reverseRecOn with
  | nil => rfl
  | append_singleton bs b ih =>
    rw [List.length_append, List.length_singleton, toBytes, ofBytes_append, ofBytes_singleton,
      List.length_singleton, pow_one]
    have hb := b.toNat_lt
    have hdiv : (ofBytes bs * 256 + b.toNat) / 256 = ofBytes bs := by omega
    have hlow : UInt8.ofNat (ofBytes bs * 256 + b.toNat) = b := by
      apply UInt8.toNat_inj.mp
      rw [UInt8.toNat_ofNat']
      omega
    rw [hdiv, ih, hlow]

/-- Byte strings of one length are told apart by their numbers. -/
theorem ofBytes_inj {as bs : List UInt8} (hlen : as.length = bs.length) (h : ofBytes as = ofBytes bs) :
    as = bs := by
  rw [← toBytes_ofBytes as, ← toBytes_ofBytes bs, hlen, h]

/-- The high bytes of a number, then its low ones. -/
theorem toBytes_add (j k n : ℕ) : toBytes (j + k) n = toBytes j (n / 256 ^ k) ++ toBytes k n := by
  induction k generalizing n with
  | zero => simp [toBytes]
  | succ k ih =>
    rw [← Nat.add_assoc, toBytes, ih, toBytes, ← List.append_assoc, Nat.div_div_eq_div_mul, pow_succ']

@[simp] theorem toBytes_zero (k : ℕ) : toBytes k 0 = List.replicate k 0 := by
  apply ofBytes_inj (by simp)
  rw [ofBytes_toBytes, ofBytes_replicate_zero, Nat.zero_mod]

/-- A number that fits on `k` bytes is padded with zero bytes on the left. -/
theorem toBytes_of_lt {j k n : ℕ} (h : n < 256 ^ k) :
    toBytes (j + k) n = List.replicate j 0 ++ toBytes k n := by
  rw [toBytes_add, Nat.div_eq_of_lt h, toBytes_zero]

/-! ## Fixed-size byte arrays -/

/-- `n` bytes. -/
abbrev FixedBytes (n : ℕ) := { bs : List UInt8 // bs.length = n }

namespace FixedBytes

variable {n : ℕ}

/-- The number the bytes denote. -/
def toNat (w : FixedBytes n) : ℕ := ofBytes w.1

/-- The bytes of a number, cut to what fits. -/
def ofNat (n k : ℕ) : FixedBytes n := ⟨toBytes n k, length_toBytes n k⟩

/-- The first `n` bytes of a slice, padded where there are fewer. -/
def copyFrom (n : ℕ) (xs : List UInt8) : FixedBytes n :=
  ⟨xs.take n ++ List.replicate (n - xs.length) 0, by simp; omega⟩

theorem copyFrom_eq {xs : List UInt8} (h : xs.length = n) : (copyFrom n xs).1 = xs := by
  subst h
  simp [copyFrom]

theorem toNat_lt (w : FixedBytes n) : w.toNat < 256 ^ n := by
  have h := ofBytes_lt w.1
  rwa [w.2] at h

theorem toNat_ofNat {k : ℕ} (h : k < 256 ^ n) : (ofNat n k).toNat = k := ofBytes_toBytes_of_lt h

@[simp] theorem ofNat_toNat (w : FixedBytes n) : ofNat n w.toNat = w := by
  obtain ⟨bs, rfl⟩ := w
  exact Subtype.ext (toBytes_ofBytes bs)

theorem toNat_inj {v w : FixedBytes n} (h : v.toNat = w.toNat) : v = w := by
  rw [← ofNat_toNat v, ← ofNat_toNat w, h]

end FixedBytes

end RustEvm.BigEndian
