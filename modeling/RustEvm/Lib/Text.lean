import Mathlib.Tactic

/-!
# RustEvm.Lib.Text — text that can be read back

A field without its separator ends where the separator first stands (`field_inj`), so lines that are ended one by one
are told apart by the whole text (`lines_injective`).  `hexChars` writes a number in hexadecimal, padded with zeros to a
width; `readHex` reads it back whatever the width was (`readHex_hexChars`).
-/

namespace RustEvm.Text

/-! ## Fields and lines -/

section Fields

variable {α β : Type*} {sep : α}

/-- The text is empty or begins with the separator. -/
def AtBreak (sep : α) (t : List α) : Prop := ∀ c ∈ t.head?, c = sep

theorem atBreak_nil : AtBreak sep [] := by simp [AtBreak]

theorem atBreak_cons (t : List α) : AtBreak sep (sep :: t) := by simp [AtBreak]

/-- A text that goes on with something else than the separator has not come to a break. -/
theorem not_atBreak {c : α} {t : List α} (h : c ≠ sep) : ¬ AtBreak sep (c :: t) := fun hb => h (hb c rfl)

/-- **A field ends where its separator first stands.** -/
theorem field_inj {a b s t : List α} (ha : sep ∉ a) (hb : sep ∉ b) (hs : AtBreak sep s) (ht : AtBreak sep t)
    (h : a ++ s = b ++ t) : a = b ∧ s = t := by
  induction a generalizing b with
  | nil =>
    cases b with
    | nil => exact ⟨rfl, h⟩
    | cons c b =>
      rw [List.nil_append, List.cons_append] at h
      rw [h] at hs
      exact absurd hs (not_atBreak (List.ne_of_not_mem_cons hb).symm)
  | cons c a ih =>
    cases b with
    | nil =>
      rw [List.nil_append, List.cons_append] at h
      rw [← h] at ht
      exact absurd ht (not_atBreak (List.ne_of_not_mem_cons ha).symm)
    | cons d b =>
      rw [List.cons_append, List.cons_append, List.cons.injEq] at h
      obtain ⟨hab, hst⟩ := ih (List.not_mem_of_not_mem_cons ha) (List.not_mem_of_not_mem_cons hb) h.2
      exact ⟨by rw [h.1, hab], hst⟩

/-- **The lines of a text** are determined by it. -/
theorem lines_injective {l l' : List (List α)} (hl : ∀ a ∈ l, sep ∉ a) (hl' : ∀ a ∈ l', sep ∉ a)
    (h : l.flatMap (· ++ [sep]) = l'.flatMap (· ++ [sep])) : l = l' := by
  induction l generalizing l' with
  | nil =>
    cases l' with
    | nil => rfl
    | cons b l' => simp at h
  | cons a l ih =>
    cases l' with
    | nil => simp at h
    | cons b l' =>
      rw [List.flatMap_cons, List.flatMap_cons, List.append_assoc, List.append_assoc, List.singleton_append,
        List.singleton_append] at h
      obtain ⟨hab, hrest⟩ := field_inj (hl a List.mem_cons_self) (hl' b List.mem_cons_self)
        (atBreak_cons _) (atBreak_cons _) h
      rw [hab, ih (fun c hc => hl c (List.mem_cons_of_mem _ hc)) (fun c hc => hl' c (List.mem_cons_of_mem _ hc))
        (List.cons.inj hrest).2]

/-- Pieces of one length are told apart by their concatenation. -/
theorem flatMap_injective {f : β → List α} {k : ℕ} (hk : 0 < k) (hlen : ∀ b, (f b).length = k)
    (hf : Function.Injective f) : Function.Injective (List.flatMap f) := by
  intro l
  induction l with
  | nil =>
    intro l' h
    cases l' with
    | nil => rfl
    | cons b l' =>
      have hb := hlen b
      have hnil : f b = [] := (List.append_eq_nil_iff.mp h.symm).1
      rw [hnil, List.length_nil] at hb
      omega
  | cons a l ih =>
    intro l' h
    cases l' with
    | nil =>
      have ha := hlen a
      have hnil : f a = [] := (List.append_eq_nil_iff.mp h).1
      rw [hnil, List.length_nil] at ha
      omega
    | cons b l' =>
      rw [List.flatMap_cons, List.flatMap_cons] at h
      obtain ⟨hab, hrest⟩ := List.append_inj h (by rw [hlen, hlen])
      rw [hf hab, ih hrest]

end Fields

/-! ## Hexadecimal -/

/-- The digits of a number, padded with zeros to a width. -/
def hexChars (width n : ℕ) : List Char := (Nat.toDigits 16 n).leftpad width '0'

/-- The value of a digit. -/
def hexVal (c : Char) : ℕ := if c.toNat < 58 then c.toNat - 48 else c.toNat - 87

/-- The number that digits denote. -/
def readHex (cs : List Char) : ℕ := cs.foldl (fun n c => 16 * n + hexVal c) 0

theorem hexVal_digitChar {d : ℕ} (h : d < 16) : hexVal d.digitChar = d := by
  have hall : ∀ d < 16, hexVal (Nat.digitChar d) = d := by decide
  exact hall d h

theorem readHex_concat (cs : List Char) (c : Char) : readHex (cs ++ [c]) = 16 * readHex cs + hexVal c := by
  rw [readHex, List.foldl_append]
  rfl

theorem readHex_toDigits (n : ℕ) : readHex (Nat.toDigits 16 n) = n := by
  induction n using Nat.strong_induction_on with
  | _ n ih =>
    rcases Nat.lt_or_ge n 16 with hlt | hge
    · rw [Nat.toDigits_of_lt_base hlt, ← List.nil_append [n.digitChar], readHex_concat, hexVal_digitChar hlt]
      exact Nat.zero_add n
    · rw [Nat.toDigits_of_base_le (by norm_num) hge, readHex_concat, ih _ (by omega),
        hexVal_digitChar (Nat.mod_lt _ (by norm_num)), Nat.div_add_mod]

theorem readHex_zeros_append (k : ℕ) (cs : List Char) : readHex (List.replicate k '0' ++ cs) = readHex cs := by
  induction k with
  | zero => rfl
  | succ k ih => exact ih

/-- **A padded number is read back.** -/
theorem readHex_hexChars (width n : ℕ) : readHex (hexChars width n) = n := by
  rw [hexChars, List.leftpad, readHex_zeros_append, readHex_toDigits]

theorem hexChars_injective (width : ℕ) : Function.Injective (hexChars width) :=
  Function.LeftInverse.injective (readHex_hexChars width)

theorem length_hexChars {width n : ℕ} (hw : 0 < width) (h : n < 16 ^ width) : (hexChars width n).length = width := by
  rw [hexChars, List.length_leftpad]
  exact Nat.max_eq_left ((Nat.length_toDigits_le_iff (by norm_num) hw).mpr h)

theorem mem_toDigits {n : ℕ} {c : Char} (h : c ∈ Nat.toDigits 16 n) : ∃ d < 16, c = Nat.digitChar d := by
  induction n using Nat.strong_induction_on with
  | _ n ih =>
    rcases Nat.lt_or_ge n 16 with hlt | hge
    · rw [Nat.toDigits_of_lt_base hlt, List.mem_singleton] at h
      exact ⟨n, hlt, h⟩
    · rw [Nat.toDigits_of_base_le (by norm_num) hge, List.mem_append, List.mem_singleton] at h
      rcases h with hmem | hlast
      · exact ih _ (by omega) hmem
      · exact ⟨_, Nat.mod_lt _ (by norm_num), hlast⟩

/-- A padded number consists of digits. -/
theorem isAlphanum_of_mem_hexChars {width n : ℕ} {c : Char} (h : c ∈ hexChars width n) : c.isAlphanum = true := by
  have hdigit : ∀ d < 16, (Nat.digitChar d).isAlphanum = true := by decide
  rw [hexChars, List.leftpad, List.mem_append] at h
  rcases h with hzero | hmem
  · rw [List.eq_of_mem_replicate hzero]
    decide
  · obtain ⟨d, hd, rfl⟩ := mem_toDigits hmem
    exact hdigit d hd

/-- A character that is no letter and no digit is not among letters and digits. -/
theorem not_mem_of_isAlphanum {c : Char} {l : List Char} (hc : c.isAlphanum = false)
    (hl : ∀ d ∈ l, d.isAlphanum = true) : c ∉ l := by
  intro hmem
  rw [hl c hmem] at hc
  exact absurd hc (by simp)

theorem not_mem_hexChars {c : Char} (hc : c.isAlphanum = false) (width n : ℕ) : c ∉ hexChars width n :=
  not_mem_of_isAlphanum hc fun _ => isAlphanum_of_mem_hexChars

/-- The digits of a byte string, two for each byte. -/
def hexBytes (bytes : List UInt8) : List Char := bytes.flatMap fun b => hexChars 2 b.toNat

theorem hexBytes_injective : Function.Injective hexBytes := by
  refine flatMap_injective (k := 2) (by norm_num) (fun b => length_hexChars (by norm_num) b.toNat_lt) ?_
  exact (hexChars_injective 2).comp fun _ _ => UInt8.toNat_inj.mp

theorem not_mem_hexBytes {c : Char} (hc : c.isAlphanum = false) (bytes : List UInt8) : c ∉ hexBytes bytes := by
  intro h
  obtain ⟨b, -, hb⟩ := List.mem_flatMap.mp h
  exact not_mem_hexChars hc 2 b.toNat hb

end RustEvm.Text
