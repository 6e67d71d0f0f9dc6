import RustEvm.Macros.Signature
import RustEvm.Abi.RoundTrip
import RustEvm.Abi.Names

/-!
# RustEvm.Macros.Agreement — the signature of a method against the decoder of its arguments

`codecTy?` reads a written type as a type of the codec, and `AbiTy.solidityName` is its canonical name.  The signature a
method is hashed under lists the canonical names, so that what a caller encodes for it is decoded to the caller's
values, exactly for the methods without a `Vec<u8>` or a `String` among their parameters (`abi_agreement_iff`).
-/

namespace RustEvm.Macros

open Abi

/-! ## Types by name -/

/-- `u8` -/
def isU8 : Ty → Bool
  | .path segments =>
    match segments.getLast? with
    | some (.mk ident .none) => ident == "u8"
    | _ => false
  | _ => false

/-- The codec type that goes by a name. -/
def codecIdent? : String → Option AbiTy
  | "u8" => some (.uint .w8)
  | "u16" => some (.uint .w16)
  | "u32" => some (.uint .w32)
  | "u64" => some (.uint .w64)
  | "u128" => some (.uint .w128)
  | "i8" => some (.int .w8)
  | "i16" => some (.int .w16)
  | "i32" => some (.int .w32)
  | "i64" => some (.int .w64)
  | "i128" => some (.int .w128)
  | "bool" => some .bool
  | "U256" => some .u256
  | "Address" => some .address
  | "String" => some .string
  | _ => none

/-- The codec type a parameter is written with: a name, `Vec<u8>` or `[u8; 32]`. -/
def codecTy? : Ty → Option AbiTy
  | .path segments =>
    match segments.getLast? with
    | some (.mk ident .none) => codecIdent? ident
    | some (.mk "Vec" (.angleBracketed [.type elem])) => if isU8 elem then some .bytes else none
    | _ => none
  | .array elem "32" => if isU8 elem then some .bytes32 else none
  | _ => none

/-- The name the table has for a type: the two dynamic types fall through to `bytes32`. -/
def listedName (t : AbiTy) : String := if t = .bytes ∨ t = .string then "bytes32" else t.solidityName

theorem solidityTypeName_of_codecIdent {ident : String} {t : AbiTy} (h : codecIdent? ident = some t) :
    solidityTypeName ident = listedName t := by
  unfold codecIdent? at h
  split at h <;> first
    | (obtain rfl := Option.some.inj h; rfl)
    | exact absurd h (by simp)

/-- What the signature has for a type of the codec. -/
theorem rustTyToSolidity_of_codecTy {ty : Ty} {t : AbiTy} (h : codecTy? ty = some t) :
    rustTyToSolidity ty = listedName t := by
  unfold codecTy? at h
  split at h
  · next segments =>
    split at h
    · next ident hlast =>
      rw [rustTyToSolidity, hlast]
      exact solidityTypeName_of_codecIdent h
    · next elem hlast =>
      split at h
      · obtain rfl := Option.some.inj h
        rw [rustTyToSolidity, hlast]
        rfl
      · exact absurd h (by simp)
    · exact absurd h (by simp)
  · split at h
    · obtain rfl := Option.some.inj h
      rfl
    · exact absurd h (by simp)
  · exact absurd h (by simp)

theorem map_rustTyToSolidity {tys : List Ty} {ts : List AbiTy} (h : tys.map codecTy? = ts.map some) :
    tys.map rustTyToSolidity = ts.map listedName := by
  induction tys generalizing ts with
  | nil =>
    obtain rfl : ts = [] := by simpa using h.symm
    rfl
  | cons ty tys ih =>
    cases ts with
    | nil => exact absurd h (by simp)
    | cons t ts =>
      obtain ⟨hhead, htail⟩ := List.cons.inj h
      rw [List.map_cons, List.map_cons, rustTyToSolidity_of_codecTy hhead, ih htail]

theorem isTypeName_solidityName (t : AbiTy) : IsTypeName t.solidityName := by
  rcases t with n | n | _ | _ | _ | _ | _ | _
  · cases n <;> decide
  · cases n <;> decide
  all_goals decide

theorem isTypeName_listedName (t : AbiTy) : IsTypeName (listedName t) := by
  unfold listedName
  by_cases h : t = .bytes ∨ t = .string
  · rw [if_pos h]
    decide
  · rw [if_neg h]
    exact isTypeName_solidityName t

/-- The table has the canonical name of every type but the dynamic ones. -/
theorem listedName_eq_iff (t : AbiTy) : listedName t = t.solidityName ↔ t ≠ .bytes ∧ t ≠ .string := by
  unfold listedName
  by_cases h : t = .bytes ∨ t = .string
  · rw [if_pos h]
    rcases h with rfl | rfl <;> decide
  · rw [if_neg h]
    exact iff_of_true rfl (not_or.mp h)

/-! ## Agreement -/

/-- The signature lists the canonical types of the parameters, and what a caller encodes for the types it lists is
decoded to the caller's values. -/
structure Agreement (host : Host) (u : Usize) (method : ImplItemFn) (ts : List AbiTy) : Prop where
  names : ethSignature host method =
    .ok (signatureText (camelCase host method.ident) (ts.map AbiTy.solidityName))
  decodes : ∀ (args : List Arg) (calldata : List UInt8),
    ethSignature host method =
      .ok (signatureText (camelCase host method.ident) (args.map fun a => a.1.solidityName)) →
    IsEncoding (args.map Arg.value) calldata → calldata.length < u.card →
    decodeArgs u ts calldata = .ok args

/-- The encoding of values of the parameter types is decoded to them. -/
theorem decodeArgs_of_isEncoding {u : Usize} {args : List Arg} {calldata : List UInt8}
    (h : IsEncoding (args.map Arg.value) calldata) (hlen : calldata.length < u.card) :
    decodeArgs u (args.map Sigma.fst) calldata = .ok args := by
  have hsize : (encodeArgs u args).length < u.card := by
    have hout := h.length_eq
    rw [List.length_map, List.length_flatMap, ← length_tails_args, ← length_encodeArgs u] at hout
    rwa [← hout]
  have heq : calldata = encodeArgs u args := h.unique (isEncoding_encodeArgs hsize)
  have hdecode := decodeArgsFrom_encodeArgs [] [] args hsize
  rw [List.append_nil] at hdecode
  rw [heq]
  exact hdecode

/-- **The signature and the decoder agree on a method exactly when none of its parameters is a `Vec<u8>` or a
`String`.** -/
theorem abi_agreement_iff (host : Host) (u : Usize) (method : ImplItemFn) (ts : List AbiTy)
    (hsel : selectorOverride method = .ok none)
    (hts : (method.inputs.filterMap FnArg.abiTy?).map codecTy? = ts.map some) :
    Agreement host u method ts ↔ ∀ t ∈ ts, t ≠ .bytes ∧ t ≠ .string := by
  have hsig : ethSignature host method =
      .ok (signatureText (camelCase host method.ident) (ts.map listedName)) := by
    rw [ethSignature, hsel, ← map_rustTyToSolidity hts]
    rfl
  have hlisted : ∀ s ∈ ts.map listedName, IsTypeName s := by
    intro s hs
    obtain ⟨t, -, rfl⟩ := List.mem_map.mp hs
    exact isTypeName_listedName t
  have hcanonical : ∀ {ts' : List AbiTy}, ∀ s ∈ ts'.map AbiTy.solidityName, IsTypeName s := by
    intro ts' s hs
    obtain ⟨t, -, rfl⟩ := List.mem_map.mp hs
    exact isTypeName_solidityName t
  constructor
  · intro h t ht
    have hnames := signatureText_inj hlisted hcanonical (Except.ok.inj (hsig.symm.trans h.names))
    exact (listedName_eq_iff t).mp (List.map_inj_left.mp hnames t ht)
  · intro hstatic
    have hnames : ts.map listedName = ts.map AbiTy.solidityName :=
      List.map_congr_left fun t ht => (listedName_eq_iff t).mpr (hstatic t ht)
    refine ⟨by rw [hsig, hnames], fun args calldata hcaller henc hlen => ?_⟩
    have hmap : (args.map fun a => a.1.solidityName) = (args.map Sigma.fst).map AbiTy.solidityName := by
      rw [List.map_map]
      rfl
    rw [hsig, hnames, hmap] at hcaller
    have htypes := signatureText_inj hcanonical hcanonical (Except.ok.inj hcaller)
    rw [List.map_injective_iff.mpr AbiTy.solidityName_injective htypes]
    exact decodeArgs_of_isEncoding henc hlen

/-- ASCII case mapping, and a constant in place of the hash. -/
def asciiHost : Host where
  selector := fun _ => .ofNat 4 0
  toUppercase := fun c => [c.toUpper]

/-- `pub fn transfer_from(to: Address, amount: U256)` -/
def transferFrom : ImplItemFn where
  vis := .pub
  attrs := []
  ident := "transfer_from"
  inputs := [.typed (.path [.mk "Address" .none]), .typed (.path [.mk "U256" .none])]
  output := none

theorem abi_agreement_iff_transferFrom : Agreement asciiHost .u64 transferFrom [.address, .u256] :=
  (abi_agreement_iff asciiHost .u64 transferFrom [.address, .u256] rfl rfl).mpr (by decide)

/-- `pub fn set_name(name: String)` -/
def setName : ImplItemFn where
  vis := .pub
  attrs := []
  ident := "set_name"
  inputs := [.typed (.path [.mk "String" .none])]
  output := none

/-- A method with a string is hashed as `setName(bytes32)`. -/
theorem abi_agreement_fails :
    ethSignature asciiHost setName = .ok "setName(bytes32)" ∧ codecTy? (.path [.mk "String" .none]) = some .string ∧
      ¬ Agreement asciiHost .u64 setName [.string] := by
  have htext : signatureText (camelCase asciiHost "set_name") ["bytes32"] = "setName(bytes32)" := by decide +kernel
  have hsig : ethSignature asciiHost setName = .ok "setName(bytes32)" := congrArg Except.ok htext
  refine ⟨hsig, rfl, fun h => ?_⟩
  have hnames := Except.ok.inj (hsig.symm.trans h.names)
  exact absurd hnames (by decide +kernel)

end RustEvm.Macros
