import RustEvm.Isa.Spec
import RustEvm.Lib.Distinct

/-!
# RustEvm.Isa.Table — the opcode table and its lookups

`OPCODES` lists the table row by row.  No two rows share a byte (`opcodes_byte_nodup`), so looking a row up by its
own byte finds that row (`byByte_of_mem`); a row found by mnemonic therefore decodes back to itself
(`byByte_of_byMnemonic`).  No two share a mnemonic either (`eq_of_mnemonic_eq`).
-/

namespace RustEvm.Isa

open Distinct

def op (mnemonic : String) (byte : UInt8) (stackIn stackOut : ℕ) (terminating : Bool) (category : OpCategory)
    (minFork : Fork) : OpSpec :=
  { mnemonic, byte, stackIn, stackOut, terminating, category, minFork }

/-- `PUSH1..PUSH32`: no stack inputs, push an `n`-byte immediate. -/
def pushSpec (mnemonic : String) (n : UInt8) : OpSpec :=
  op mnemonic (0x5f + n) 0 1 false .stackManip .frontier

/-- `DUP1..DUP16`: duplicate the `n`-th stack item onto the top. -/
def dupSpec (mnemonic : String) (n : UInt8) : OpSpec :=
  op mnemonic (0x7f + n) n.toNat (n.toNat + 1) false .stackManip .frontier

/-- `SWAP1..SWAP16`: swap the top with the `(n+1)`-th stack item. -/
def swapSpec (mnemonic : String) (n : UInt8) : OpSpec :=
  op mnemonic (0x8f + n) (n.toNat + 1) (n.toNat + 1) false .stackManip .frontier

/-- The EVM opcode table, one row per assigned byte. -/
def OPCODES : List OpSpec :=
  [
    -- 0x00s: stop & arithmetic
    op "STOP" 0x00 0 0 true .terminating .frontier, op "ADD" 0x01 2 1 false .arithmetic .frontier,
    op "MUL" 0x02 2 1 false .arithmetic .frontier, op "SUB" 0x03 2 1 false .arithmetic .frontier,
    op "DIV" 0x04 2 1 false .arithmetic .frontier, op "SDIV" 0x05 2 1 false .arithmetic .frontier,
    op "MOD" 0x06 2 1 false .arithmetic .frontier, op "SMOD" 0x07 2 1 false .arithmetic .frontier,
    op "ADDMOD" 0x08 3 1 false .arithmetic .frontier, op "MULMOD" 0x09 3 1 false .arithmetic .frontier,
    op "EXP" 0x0a 2 1 false .arithmetic .frontier, op "SIGNEXTEND" 0x0b 2 1 false .arithmetic .frontier,
    -- 0x10s: comparison & bitwise
    op "LT" 0x10 2 1 false .comparison .frontier, op "GT" 0x11 2 1 false .comparison .frontier,
    op "SLT" 0x12 2 1 false .comparison .frontier, op "SGT" 0x13 2 1 false .comparison .frontier,
    op "EQ" 0x14 2 1 false .comparison .frontier, op "ISZERO" 0x15 1 1 false .comparison .frontier,
    op "AND" 0x16 2 1 false .bitwise .frontier, op "OR" 0x17 2 1 false .bitwise .frontier,
    op "XOR" 0x18 2 1 false .bitwise .frontier, op "NOT" 0x19 1 1 false .bitwise .frontier,
    op "BYTE" 0x1a 2 1 false .bitwise .frontier, op "SHL" 0x1b 2 1 false .bitwise .constantinople,
    op "SHR" 0x1c 2 1 false .bitwise .constantinople, op "SAR" 0x1d 2 1 false .bitwise .constantinople,
    -- 0x20s: keccak256
    op "KECCAK256" 0x20 2 1 false .memory .frontier,
    -- 0x30s: environmental information
    op "ADDRESS" 0x30 0 1 false .context .frontier, op "BALANCE" 0x31 1 1 false .context .frontier,
    op "ORIGIN" 0x32 0 1 false .context .frontier, op "CALLER" 0x33 0 1 false .context .frontier,
    op "CALLVALUE" 0x34 0 1 false .context .frontier, op "CALLDATALOAD" 0x35 1 1 false .context .frontier,
    op "CALLDATASIZE" 0x36 0 1 false .context .frontier, op "CALLDATACOPY" 0x37 3 0 false .context .frontier,
    op "CODESIZE" 0x38 0 1 false .context .frontier, op "CODECOPY" 0x39 3 0 false .context .frontier,
    op "GASPRICE" 0x3a 0 1 false .context .frontier, op "EXTCODESIZE" 0x3b 1 1 false .context .frontier,
    op "EXTCODECOPY" 0x3c 4 0 false .context .frontier, op "RETURNDATASIZE" 0x3d 0 1 false .context .byzantium,
    op "RETURNDATACOPY" 0x3e 3 0 false .context .byzantium,
    op "EXTCODEHASH" 0x3f 1 1 false .context .constantinople,
    -- 0x40s: block information
    op "BLOCKHASH" 0x40 1 1 false .block .frontier, op "COINBASE" 0x41 0 1 false .block .frontier,
    op "TIMESTAMP" 0x42 0 1 false .block .frontier, op "NUMBER" 0x43 0 1 false .block .frontier,
    op "PREVRANDAO" 0x44 0 1 false .block .frontier, op "GASLIMIT" 0x45 0 1 false .block .frontier,
    op "CHAINID" 0x46 0 1 false .block .istanbul, op "SELFBALANCE" 0x47 0 1 false .context .istanbul,
    op "BASEFEE" 0x48 0 1 false .block .london, op "BLOBHASH" 0x49 1 1 false .block .cancun,
    op "BLOBBASEFEE" 0x4a 0 1 false .block .cancun,
    -- 0x50s: stack, memory, storage, flow
    op "POP" 0x50 1 0 false .stackManip .frontier, op "MLOAD" 0x51 1 1 false .memory .frontier,
    op "MSTORE" 0x52 2 0 false .memory .frontier, op "MSTORE8" 0x53 2 0 false .memory .frontier,
    op "SLOAD" 0x54 1 1 false .storage .frontier, op "SSTORE" 0x55 2 0 false .storage .frontier,
    op "JUMP" 0x56 1 0 false .control .frontier, op "JUMPI" 0x57 2 0 false .control .frontier,
    op "PC" 0x58 0 1 false .control .frontier, op "MSIZE" 0x59 0 1 false .memory .frontier,
    op "GAS" 0x5a 0 1 false .context .frontier, op "JUMPDEST" 0x5b 0 0 false .control .frontier,
    op "TLOAD" 0x5c 1 1 false .storage .cancun, op "TSTORE" 0x5d 2 0 false .storage .cancun,
    op "MCOPY" 0x5e 3 0 false .memory .cancun, op "PUSH0" 0x5f 0 1 false .stackManip .shanghai,
    -- 0x60s-0x7fs: PUSH1-PUSH32
    pushSpec "PUSH1" 1, pushSpec "PUSH2" 2, pushSpec "PUSH3" 3, pushSpec "PUSH4" 4, pushSpec "PUSH5" 5,
    pushSpec "PUSH6" 6, pushSpec "PUSH7" 7, pushSpec "PUSH8" 8, pushSpec "PUSH9" 9, pushSpec "PUSH10" 10,
    pushSpec "PUSH11" 11, pushSpec "PUSH12" 12, pushSpec "PUSH13" 13, pushSpec "PUSH14" 14,
    pushSpec "PUSH15" 15, pushSpec "PUSH16" 16, pushSpec "PUSH17" 17, pushSpec "PUSH18" 18,
    pushSpec "PUSH19" 19, pushSpec "PUSH20" 20, pushSpec "PUSH21" 21, pushSpec "PUSH22" 22,
    pushSpec "PUSH23" 23, pushSpec "PUSH24" 24, pushSpec "PUSH25" 25, pushSpec "PUSH26" 26,
    pushSpec "PUSH27" 27, pushSpec "PUSH28" 28, pushSpec "PUSH29" 29, pushSpec "PUSH30" 30,
    pushSpec "PUSH31" 31, pushSpec "PUSH32" 32,
    -- 0x80s: DUP1-DUP16
    dupSpec "DUP1" 1, dupSpec "DUP2" 2, dupSpec "DUP3" 3, dupSpec "DUP4" 4, dupSpec "DUP5" 5, dupSpec "DUP6" 6,
    dupSpec "DUP7" 7, dupSpec "DUP8" 8, dupSpec "DUP9" 9, dupSpec "DUP10" 10, dupSpec "DUP11" 11,
    dupSpec "DUP12" 12, dupSpec "DUP13" 13, dupSpec "DUP14" 14, dupSpec "DUP15" 15, dupSpec "DUP16" 16,
    -- 0x90s: SWAP1-SWAP16
    swapSpec "SWAP1" 1, swapSpec "SWAP2" 2, swapSpec "SWAP3" 3, swapSpec "SWAP4" 4, swapSpec "SWAP5" 5,
    swapSpec "SWAP6" 6, swapSpec "SWAP7" 7, swapSpec "SWAP8" 8, swapSpec "SWAP9" 9, swapSpec "SWAP10" 10,
    swapSpec "SWAP11" 11, swapSpec "SWAP12" 12, swapSpec "SWAP13" 13, swapSpec "SWAP14" 14,
    swapSpec "SWAP15" 15, swapSpec "SWAP16" 16,
    -- 0xa0s: logging
    op "LOG0" 0xa0 2 0 false .log .frontier, op "LOG1" 0xa1 3 0 false .log .frontier,
    op "LOG2" 0xa2 4 0 false .log .frontier, op "LOG3" 0xa3 5 0 false .log .frontier,
    op "LOG4" 0xa4 6 0 false .log .frontier,
    -- 0xf0s: system operations
    op "CREATE" 0xf0 3 1 false .call .frontier, op "CALL" 0xf1 7 1 false .call .frontier,
    op "CALLCODE" 0xf2 7 1 false .call .frontier, op "RETURN" 0xf3 2 0 true .terminating .frontier,
    op "DELEGATECALL" 0xf4 6 1 false .call .homestead, op "CREATE2" 0xf5 4 1 false .call .constantinople,
    op "STATICCALL" 0xfa 6 1 false .call .byzantium, op "REVERT" 0xfd 2 0 true .terminating .byzantium,
    op "INVALID" 0xfe 0 0 true .terminating .frontier, op "SELFDESTRUCT" 0xff 1 0 true .terminating .frontier]

/-- Linear scan by mnemonic. -/
def byMnemonic (name : String) : Option OpSpec := OPCODES.find? (fun spec => spec.mnemonic == name)

/-- Linear scan by byte. -/
def byByte (b : UInt8) : Option OpSpec := OPCODES.find? (fun spec => spec.byte == b)

/-! ## Lookups -/

/-- The rows stand in increasing order of their bytes. -/
theorem opcodes_byte_chain : (OPCODES.map OpSpec.byte).IsChain (· < ·) := by decide +kernel

theorem opcodes_byte_nodup : (OPCODES.map OpSpec.byte).Nodup :=
  (List.isChain_iff_pairwise.mp opcodes_byte_chain).imp UInt8.ne_of_lt

theorem byByte_mem {b : UInt8} {spec : OpSpec} (h : byByte b = some spec) : spec ∈ OPCODES :=
  List.mem_of_find?_eq_some h

theorem byte_of_byByte {b : UInt8} {spec : OpSpec} (h : byByte b = some spec) : spec.byte = b := by
  simpa using List.find?_some h

theorem byMnemonic_mem {name : String} {spec : OpSpec} (h : byMnemonic name = some spec) : spec ∈ OPCODES :=
  List.mem_of_find?_eq_some h

theorem mnemonic_of_byMnemonic {name : String} {spec : OpSpec} (h : byMnemonic name = some spec) :
    spec.mnemonic = name := by
  simpa using List.find?_some h

/-- A row is found by its own byte. -/
theorem byByte_of_mem {spec : OpSpec} (h : spec ∈ OPCODES) : byByte spec.byte = some spec :=
  find?_of_mem opcodes_byte_nodup h

/-- A row found by mnemonic decodes back to itself. -/
theorem byByte_of_byMnemonic {name : String} {spec : OpSpec} (h : byMnemonic name = some spec) :
    byByte spec.byte = some spec :=
  byByte_of_mem (byMnemonic_mem h)

/-! ## Mnemonics -/

/-- The number that a mnemonic spells, reduced as far as it still tells the rows apart. -/
def spelled (mnemonic : String) : ℕ := mnemonic.toList.foldl (fun n c => 256 * n + c.toNat) 0 % 1299

/-- Mnemonics are letters and digits and all different. -/
theorem opcodes_mnemonics :
    ((OPCODES.all fun spec => spec.mnemonic.toList.all Char.isAlphanum) &&
      unmarked 0 (OPCODES.map fun spec => spelled spec.mnemonic)) = true := by decide +kernel

theorem mnemonic_isAlphanum {spec : OpSpec} (h : spec ∈ OPCODES) : spec.mnemonic.toList.all Char.isAlphanum = true :=
  List.all_eq_true.mp (Bool.and_eq_true_iff.mp opcodes_mnemonics).1 spec h

theorem opcodes_mnemonic_nodup : (OPCODES.map OpSpec.mnemonic).Nodup := by
  have hspelled : ((OPCODES.map OpSpec.mnemonic).map spelled).Nodup := by
    rw [List.map_map]
    exact (nodup_of_unmarked (Bool.and_eq_true_iff.mp opcodes_mnemonics).2).1
  exact hspelled.of_map

/-- A row is found by its own mnemonic. -/
theorem byMnemonic_of_mem {spec : OpSpec} (h : spec ∈ OPCODES) : byMnemonic spec.mnemonic = some spec :=
  find?_of_mem opcodes_mnemonic_nodup h

/-- No two rows share a mnemonic. -/
theorem eq_of_mnemonic_eq {spec spec' : OpSpec} (h : spec ∈ OPCODES) (h' : spec' ∈ OPCODES)
    (heq : spec.mnemonic = spec'.mnemonic) : spec = spec' :=
  List.inj_on_of_nodup_map opcodes_mnemonic_nodup h h' heq

/-! ## The families -/

theorem opcodes_push : ∀ n < 32, OPCODES[70 + n]? =
    some (pushSpec ("PUSH" ++ toString (n + 1)) (UInt8.ofNat (n + 1))) := by decide +kernel

theorem byByte_push {n : ℕ} (h1 : 1 ≤ n) (h32 : n ≤ 32) :
    byByte (0x5f + UInt8.ofNat n) = some (pushSpec ("PUSH" ++ toString n) (UInt8.ofNat n)) := by
  obtain ⟨m, rfl⟩ := Nat.exists_eq_add_of_le' h1
  exact byByte_of_mem (List.mem_of_getElem? (opcodes_push m (by omega)))

theorem byByte_push0 : byByte 0x5f = some (op "PUSH0" 0x5f 0 1 false .stackManip .shanghai) := by decide +kernel

/-- The family of a `PUSH` row is its immediate width. -/
theorem opForm_push {n : ℕ} (h1 : 1 ≤ n) (h32 : n ≤ 32) (mnemonic : String) :
    opForm (pushSpec mnemonic (UInt8.ofNat n)) = .push (UInt8.ofNat n) := by
  have h : ∀ n < 33, 1 ≤ n → (0x5f + UInt8.ofNat n : UInt8) ≠ 0x5f ∧
      ((0x60 : UInt8) ≤ 0x5f + UInt8.ofNat n ∧ 0x5f + UInt8.ofNat n ≤ (0x7f : UInt8)) ∧
      0x5f + UInt8.ofNat n - 0x5f = UInt8.ofNat n := by decide +kernel
  obtain ⟨h0, hr, hs⟩ := h n (by omega) h1
  simp only [opForm, pushSpec, op, h0, hr, hs, if_false, if_true, and_self]

/-- Bytes from `DUP1` on carry no immediate. -/
theorem opForm_ne_push {spec : OpSpec} (h : 0x80 ≤ spec.byte) (n : UInt8) : opForm spec ≠ .push n := by
  have h0 : spec.byte ≠ 0x5f := by
    intro heq
    rw [heq] at h
    exact absurd h (by decide)
  have h1 : ¬ spec.byte ≤ 0x7f := by
    intro hle
    exact absurd (UInt8.le_trans h hle) (by decide)
  simp only [opForm, h0, h1, and_false, if_false]
  split
  · simp
  · split <;> simp

theorem byte_dupSpec_ge {n : UInt8} (h : 1 ≤ n ∧ n ≤ 16) {mnemonic : String} :
    0x80 ≤ (dupSpec mnemonic n).byte := by
  have h1 : 1 ≤ n.toNat := h.1
  have h2 : n.toNat ≤ 16 := h.2
  change (0x80 : UInt8) ≤ 0x7f + n
  rw [UInt8.le_iff_toNat_le, UInt8.toNat_add]
  simp only [UInt8.reduceToNat]
  omega

theorem byte_swapSpec_ge {n : UInt8} (h : 1 ≤ n ∧ n ≤ 16) {mnemonic : String} :
    0x80 ≤ (swapSpec mnemonic n).byte := by
  have h1 : 1 ≤ n.toNat := h.1
  have h2 : n.toNat ≤ 16 := h.2
  change (0x80 : UInt8) ≤ 0x8f + n
  rw [UInt8.le_iff_toNat_le, UInt8.toNat_add]
  simp only [UInt8.reduceToNat]
  omega

theorem opcodes_dup : ∀ n < 16, OPCODES[102 + n]? =
    some (dupSpec ("DUP" ++ toString (n + 1)) (UInt8.ofNat (n + 1))) := by decide +kernel

theorem byByte_dup {n : ℕ} (h1 : 1 ≤ n) (h16 : n ≤ 16) :
    byByte (0x7f + UInt8.ofNat n) = some (dupSpec ("DUP" ++ toString n) (UInt8.ofNat n)) := by
  obtain ⟨m, rfl⟩ := Nat.exists_eq_add_of_le' h1
  exact byByte_of_mem (List.mem_of_getElem? (opcodes_dup m (by omega)))

theorem opcodes_swap : ∀ n < 16, OPCODES[118 + n]? =
    some (swapSpec ("SWAP" ++ toString (n + 1)) (UInt8.ofNat (n + 1))) := by decide +kernel

theorem byByte_swap {n : ℕ} (h1 : 1 ≤ n) (h16 : n ≤ 16) :
    byByte (0x8f + UInt8.ofNat n) = some (swapSpec ("SWAP" ++ toString n) (UInt8.ofNat n)) := by
  obtain ⟨m, rfl⟩ := Nat.exists_eq_add_of_le' h1
  exact byByte_of_mem (List.mem_of_getElem? (opcodes_swap m (by omega)))

theorem byByte_invalid : byByte 0xfe = some (op "INVALID" 0xfe 0 0 true .terminating .frontier) := by decide +kernel

theorem byByte_jumpdest : byByte 0x5b = some (op "JUMPDEST" 0x5b 0 0 false .control .frontier) := by decide +kernel

end RustEvm.Isa
