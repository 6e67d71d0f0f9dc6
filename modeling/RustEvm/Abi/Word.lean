import RustEvm.Lib.BigEndian

/-!
# RustEvm.Abi.Word — the 32-byte word and `U256`

Both are big-endian byte arrays; a `U256` is only a different name for what the word is used as.
-/

namespace RustEvm.Abi

open BigEndian

/-- One ABI word. -/
abbrev Word := FixedBytes 32

/-- The 256-bit integer, stored big-endian. -/
abbrev U256 := FixedBytes 32

/-- A 20-byte account address. -/
abbrev Address := FixedBytes 20

/-- `U256::ZERO` -/
def U256.zero : U256 := ⟨List.replicate 32 0, by simp⟩

/-- `U256::from_u64`: eight bytes at the low end. -/
def U256.fromU64 (x : BitVec 64) : U256 := ⟨List.replicate 24 0 ++ toBytes 8 x.toNat, by simp⟩

theorem U256.toNat_fromU64 (x : BitVec 64) : (U256.fromU64 x).toNat = x.toNat := by
  show ofBytes (List.replicate 24 0 ++ toBytes 8 x.toNat) = _
  rw [ofBytes_zeros_append]
  exact ofBytes_toBytes_of_lt x.isLt

/-- `Address::ZERO` -/
def Address.zero : Address := ⟨List.replicate 20 0, by simp⟩

end RustEvm.Abi
