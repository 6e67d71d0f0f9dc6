import RustEvm.Abi.Codec

/-!
# RustEvm.Abi.Names — canonical type names and signatures

The Solidity name of each type of the codec, and the text of a signature.  A name tells its type
(`AbiTy.solidityName_injective`), and a signature the names in it (`signatureText_inj`).
-/

namespace RustEvm.Abi

/-- The width of an integer in bits, as its name has it. -/
def IntWidth.bits : IntWidth → String
  | w8 => "8"
  | w16 => "16"
  | w32 => "32"
  | w64 => "64"
  | w128 => "128"

namespace AbiTy

/-- The canonical Solidity type. -/
def solidityName : AbiTy → String
  | uint n => "uint" ++ n.bits
  | int n => "int" ++ n.bits
  | bool => "bool"
  | bytes32 => "bytes32"
  | u256 => "uint256"
  | address => "address"
  | bytes => "bytes"
  | string => "string"

/-- The type behind a canonical name. -/
def ofSolidityName : String → Option AbiTy
  | "uint8" => some (uint .w8)
  | "uint16" => some (uint .w16)
  | "uint32" => some (uint .w32)
  | "uint64" => some (uint .w64)
  | "uint128" => some (uint .w128)
  | "int8" => some (int .w8)
  | "int16" => some (int .w16)
  | "int32" => some (int .w32)
  | "int64" => some (int .w64)
  | "int128" => some (int .w128)
  | "bool" => some bool
  | "bytes32" => some bytes32
  | "uint256" => some u256
  | "address" => some address
  | "bytes" => some bytes
  | "string" => some string
  | _ => none

theorem ofSolidityName_solidityName (t : AbiTy) : ofSolidityName t.solidityName = some t := by
  rcases t with n | n | _ | _ | _ | _ | _ | _
  · cases n <;> rfl
  · cases n <;> rfl
  all_goals rfl

/-- No two types share a name. -/
theorem solidityName_injective : Function.Injective solidityName := by
  intro s t h
  have hs := ofSolidityName_solidityName s
  rw [h, ofSolidityName_solidityName] at hs
  exact (Option.some.inj hs).symm

end AbiTy

/-! ## Signatures -/

/-- The text of a signature. -/
def signatureText (name : String) (types : List String) : String :=
  let params := String.intercalate "," types
  s!"{name}({params})"

/-- What a type name looks like. -/
def IsTypeName (s : String) : Prop := s.toList ≠ [] ∧ ',' ∉ s.toList

instance (s : String) : Decidable (IsTypeName s) := inferInstanceAs (Decidable (_ ∧ _))

theorem splitOn_intercalate_names {xs : List String} (hx : ∀ s ∈ xs, IsTypeName s) (hne : xs ≠ []) :
    (String.intercalate "," xs).toList.splitOn ',' = xs.map String.toList := by
  have hcomma : ∀ l ∈ xs.map String.toList, ',' ∉ l := by
    intro l hl
    obtain ⟨s, hs, rfl⟩ := List.mem_map.mp hl
    exact (hx s hs).2
  rw [String.toList_intercalate]
  exact List.splitOn_intercalate ',' hcomma (by simpa using hne)

/-- Only the empty list of names gives an empty text. -/
theorem eq_nil_of_intercalate {xs : List String} (hx : ∀ s ∈ xs, IsTypeName s) (h : String.intercalate "," xs = "") :
    xs = [] := by
  by_contra hne
  have hsplit := splitOn_intercalate_names hx hne
  rw [h] at hsplit
  have hmem : [] ∈ xs.map String.toList := by
    rw [← hsplit]
    simp
  obtain ⟨s, hs, hnil⟩ := List.mem_map.mp hmem
  exact (hx s hs).1 hnil

theorem intercalate_inj {xs ys : List String} (hx : ∀ s ∈ xs, IsTypeName s) (hy : ∀ s ∈ ys, IsTypeName s)
    (h : String.intercalate "," xs = String.intercalate "," ys) : xs = ys := by
  by_cases hxs : xs = []
  · rw [hxs, String.intercalate_nil] at h
    rw [hxs, eq_nil_of_intercalate hy h.symm]
  · by_cases hys : ys = []
    · rw [hys, String.intercalate_nil] at h
      exact absurd (eq_nil_of_intercalate hx h) hxs
    · have hmap : xs.map String.toList = ys.map String.toList := by
        rw [← splitOn_intercalate_names hx hxs, h, splitOn_intercalate_names hy hys]
      exact List.map_injective_iff.mpr (fun _ _ => String.ext) hmap

/-- A signature tells the names in it. -/
theorem signatureText_inj {name : String} {xs ys : List String} (hx : ∀ s ∈ xs, IsTypeName s)
    (hy : ∀ s ∈ ys, IsTypeName s) (h : signatureText name xs = signatureText name ys) : xs = ys := by
  refine intercalate_inj hx hy (String.ext ?_)
  have htext : ∀ zs,
      (signatureText name zs).toList = name.toList ++ '(' :: ((String.intercalate "," zs).toList ++ [')']) := by
    intro zs
    have hstr : ∀ s : String, toString s = s := fun _ => rfl
    simp [signatureText, hstr]
  have hlist := congrArg String.toList h
  rw [htext, htext] at hlist
  exact List.append_cancel_right (List.cons.inj (List.append_cancel_left hlist)).2

end RustEvm.Abi
