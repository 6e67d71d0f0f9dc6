import RustEvm.Macros.Signature
import RustEvm.Lib.Words

/-!
# RustEvm.Macros.CamelCase — the names a Solidity caller writes

`camelCase` depends on the words of an identifier only (`camelCase_congr`), so underscores can be added wherever there
are some or the identifier ends, and a name without an underscore is its own camel case (`camelCase_of_clean`).  Of an
ASCII identifier it keeps letters and digits, and the first of them stays the first; so the name can be written by a
Solidity caller exactly when the identifier does not begin with underscores and a digit (`writable_iff`).
-/

namespace RustEvm.Macros

open Words

/-- `char::to_uppercase`: ASCII is mapped here, everything beyond by the table of the standard library. -/
def toUppercase (table : Char → List Char) (c : Char) : List Char :=
  if c.toNat < 128 then [c.toUpper] else table c

/-- A host with this `char::to_uppercase`. -/
def stdHost (selector : String → Selector) (table : Char → List Char) : Host :=
  { selector, toUppercase := toUppercase table }

/-! ## Identifiers -/

/-- A character that an identifier starts with, then characters that it goes on with. -/
def isIdentifier (start next : Char → Bool) (s : String) : Bool :=
  match s.toList with
  | [] => false
  | c :: cs => start c && cs.all next

/-- An ASCII identifier of Rust that is not raw. -/
def isRustIdent : String → Bool :=
  isIdentifier (fun c => c.isAlpha || c == '_') (fun c => c.isAlphanum || c == '_')

def isSolidityIdent : String → Bool :=
  isIdentifier (fun c => c.isAlpha || c == '$' || c == '_') (fun c => c.isAlphanum || c == '$' || c == '_')

/-- An identifier that is more than underscores. -/
structure Ident where
  text : String
  lexical : isRustIdent text = true
  visible : ∃ c ∈ text.toList, c ≠ '_'

/-- The name of a method as a Solidity caller writes it, whatever underscores were spent on the method's. -/
structure Writable (host : Host) (ident : String) : Prop where
  legal : isSolidityIdent (camelCase host ident) = true
  clean : '_' ∉ (camelCase host ident).toList
  fixed : camelCase host (camelCase host ident) = camelCase host ident
  leading : ∀ n, camelCase host (.ofList (List.replicate n '_' ++ ident.toList)) = camelCase host ident
  trailing : ∀ n, camelCase host (.ofList (ident.toList ++ List.replicate n '_')) = camelCase host ident
  repeated : ∀ pre post n, ident.toList = pre ++ '_' :: post →
    camelCase host (.ofList (pre ++ '_' :: (List.replicate n '_' ++ post))) = camelCase host ident

/-! ## Words -/

section Words

variable (host : Host)

/-- The words, all but the first capitalized. -/
def joinWords : List (List Char) → List Char
  | [] => []
  | first :: rest => first ++ rest.flatMap (capitalize host)

theorem toList_camelCase (ident : String) :
    (camelCase host ident).toList = joinWords host (words '_' ident.toList) := by
  unfold camelCase words
  split
  · next h => rw [h]; rfl
  · next first rest h => rw [h, String.toList_ofList]; rfl

/-- **Only the words count.** -/
theorem camelCase_congr {s t : String} (h : words '_' s.toList = words '_' t.toList) :
    camelCase host s = camelCase host t := by
  apply String.toList_injective
  rw [toList_camelCase, toList_camelCase, h]

/-- A name without an underscore is its own camel case. -/
theorem camelCase_of_clean {s : String} (h : '_' ∉ s.toList) : camelCase host s = s := by
  apply String.toList_injective
  rw [toList_camelCase]
  cases hs : s.toList with
  | nil => rw [words_nil]; rfl
  | cons c cs =>
    rw [words_of_not_mem (hs ▸ h) (List.cons_ne_nil c cs)]
    exact List.append_nil _

theorem camelCase_leading (n : ℕ) (ident : String) :
    camelCase host (.ofList (List.replicate n '_' ++ ident.toList)) = camelCase host ident := by
  apply camelCase_congr
  rw [String.toList_ofList, words_replicate_append]

theorem camelCase_trailing (n : ℕ) (ident : String) :
    camelCase host (.ofList (ident.toList ++ List.replicate n '_')) = camelCase host ident := by
  apply camelCase_congr
  rw [String.toList_ofList, words_append_replicate]

theorem camelCase_repeated {ident : String} {pre post : List Char} (n : ℕ) (h : ident.toList = pre ++ '_' :: post) :
    camelCase host (.ofList (pre ++ '_' :: (List.replicate n '_' ++ post))) = camelCase host ident := by
  apply camelCase_congr
  rw [String.toList_ofList, words_repeated, h]

/-- **The name begins** with the first character of the identifier that is no underscore. -/
theorem head?_camelCase (ident : String) :
    (camelCase host ident).toList.head? = ident.toList.find? (· != '_') := by
  rw [toList_camelCase, ← List.head?_filter, ← flatten_words]
  cases hw : words '_' ident.toList with
  | nil => rfl
  | cons w ws =>
    have hne : w ≠ [] := ne_nil_of_mem_words (l := ident.toList) (by rw [hw]; exact List.mem_cons_self)
    rw [joinWords, List.flatten_cons, List.head?_append_of_ne_nil _ hne, List.head?_append_of_ne_nil _ hne]

end Words

/-! ## Characters -/

theorem lt_of_isAlphanum {c : Char} (h : c.isAlphanum = true) : c.toNat < 128 := by
  have hbound : ∀ last : Char, last.toNat < 128 → c.val ≤ last.val → c.toNat < 128 := fun _ hlast hle =>
    (UInt32.le_iff_toNat_le.mp hle).trans_lt hlast
  rcases Bool.or_eq_true_iff.mp h with halpha | hdigit
  · rcases Bool.or_eq_true_iff.mp halpha with hupper | hlower
    · exact hbound 'Z' (by decide) (of_decide_eq_true (p := _ ∧ _) hupper).2
    · exact hbound 'z' (by decide) (of_decide_eq_true (Bool.and_eq_true_iff.mp hlower).2)
  · exact hbound '9' (by decide) (of_decide_eq_true (Bool.and_eq_true_iff.mp hdigit).2)

/-- What holds of the ASCII characters one by one holds of letters and digits. -/
theorem of_isAlphanum {p : Char → Prop} (hall : ∀ n < 128, p (Char.ofNat n)) {c : Char} (h : c.isAlphanum = true) :
    p c := by
  have hc := hall c.toNat (lt_of_isAlphanum h)
  rwa [Char.ofNat_toNat] at hc

theorem isAlphanum_toUpper {c : Char} (h : c.isAlphanum = true) : c.toUpper.isAlphanum = true :=
  of_isAlphanum (p := fun c => c.isAlphanum = true → c.toUpper.isAlphanum = true) (by decide +kernel) h h

/-- A letter is no digit. -/
theorem isAlpha_iff {c : Char} (h : c.isAlphanum = true) : c.isAlpha = true ↔ c.isDigit = false :=
  of_isAlphanum (p := fun c => c.isAlphanum = true → (c.isAlpha = true ↔ c.isDigit = false)) (by decide +kernel) h h

section Std

variable {selector : String → Selector} {table : Char → List Char}

/-- A capitalized word of letters and digits consists of letters and digits. -/
theorem isAlphanum_of_mem_capitalize {w : List Char} (h : ∀ c ∈ w, c.isAlphanum = true) :
    ∀ c ∈ capitalize (stdHost selector table) w, c.isAlphanum = true := by
  cases w with
  | nil => simp [capitalize]
  | cons first cs =>
    have hfirst := h first List.mem_cons_self
    have hupper : toUppercase table first = [first.toUpper] := if_pos (lt_of_isAlphanum hfirst)
    show ∀ c ∈ toUppercase table first ++ cs, c.isAlphanum = true
    rw [hupper, List.singleton_append, List.forall_mem_cons]
    exact ⟨isAlphanum_toUpper hfirst, fun c hc => h c (List.mem_cons_of_mem _ hc)⟩

theorem isAlphanum_of_mem_joinWords {ws : List (List Char)} (h : ∀ w ∈ ws, ∀ c ∈ w, c.isAlphanum = true) :
    ∀ c ∈ joinWords (stdHost selector table) ws, c.isAlphanum = true := by
  cases ws with
  | nil => simp [joinWords]
  | cons first rest =>
    intro c hc
    rcases List.mem_append.mp hc with hmem | hmem
    · exact h first List.mem_cons_self c hmem
    · obtain ⟨w, hw, hcw⟩ := List.mem_flatMap.mp hmem
      exact isAlphanum_of_mem_capitalize (h w (List.mem_cons_of_mem _ hw)) c hcw

theorem isAlphanum_of_mem_ident {s : String} (h : isRustIdent s = true) {c : Char} (hc : c ∈ s.toList) (hne : c ≠ '_') :
    c.isAlphanum = true := by
  unfold isRustIdent isIdentifier at h
  cases hs : s.toList with
  | nil => simp [hs] at hc
  | cons d cs =>
    rw [hs] at h hc
    obtain ⟨hd, hcs⟩ := Bool.and_eq_true_iff.mp h
    rcases List.mem_cons.mp hc with rfl | hmem
    · have halpha : c.isAlpha = true := by simpa [hne] using hd
      exact Bool.or_eq_true_iff.mpr (.inl halpha)
    · simpa [hne] using List.all_eq_true.mp hcs c hmem

/-- **The name of an ASCII identifier** consists of letters and digits. -/
theorem isAlphanum_of_mem_camelCase {s : String} (h : isRustIdent s = true) :
    ∀ c ∈ (camelCase (stdHost selector table) s).toList, c.isAlphanum = true := by
  rw [toList_camelCase]
  refine isAlphanum_of_mem_joinWords fun w hw c hc => ?_
  obtain ⟨hmem, hne⟩ := mem_of_mem_words hw hc
  exact isAlphanum_of_mem_ident h hmem hne

theorem underscore_not_mem {s : String} (h : isRustIdent s = true) :
    '_' ∉ (camelCase (stdHost selector table) s).toList := fun hmem =>
  absurd (isAlphanum_of_mem_camelCase h _ hmem) (by decide)

/-- A name of letters and digits is legal when it begins with a letter. -/
theorem isSolidityIdent_iff {s : String} {c : Char} (h : ∀ d ∈ s.toList, d.isAlphanum = true)
    (hc : s.toList.head? = some c) : isSolidityIdent s = true ↔ c.isDigit = false := by
  obtain ⟨cs, hs⟩ : ∃ cs, s.toList = c :: cs := List.head?_eq_some_iff.mp hc
  have halnum : c.isAlphanum = true := h c (by rw [hs]; exact List.mem_cons_self)
  have hspecial : (c == '$') = false ∧ (c == '_') = false := by
    constructor
    · exact beq_eq_false_iff_ne.mpr fun heq => absurd (heq ▸ halnum) (by decide)
    · exact beq_eq_false_iff_ne.mpr fun heq => absurd (heq ▸ halnum) (by decide)
  have hrest : (cs.all fun d => d.isAlphanum || d == '$' || d == '_') = true := by
    refine List.all_eq_true.mpr fun d hd => ?_
    rw [h d (by rw [hs]; exact List.mem_cons_of_mem _ hd), Bool.true_or, Bool.true_or]
  rw [isSolidityIdent, isIdentifier, hs, ← isAlpha_iff halnum]
  simp only [hspecial, Bool.or_false, hrest, Bool.and_true]

end Std

/-! ## Writable names -/

section Writable

variable (selector : String → Selector) (table : Char → List Char)

/-- **The name of a method can be written by a Solidity caller** exactly when the first character of the method's name
that is no underscore is not a digit either. -/
theorem writable_iff (ident : Ident) :
    Writable (stdHost selector table) ident.text ↔
      ∀ c ∈ ident.text.toList.find? (· != '_'), c.isDigit = false := by
  have halnum : ∀ c ∈ (camelCase (stdHost selector table) ident.text).toList, c.isAlphanum = true :=
    isAlphanum_of_mem_camelCase ident.lexical
  have hclean : '_' ∉ (camelCase (stdHost selector table) ident.text).toList := underscore_not_mem ident.lexical
  obtain ⟨c, hc⟩ : ∃ c, ident.text.toList.find? (· != '_') = some c := by
    obtain ⟨d, hd, hne⟩ := ident.visible
    exact Option.isSome_iff_exists.mp (List.find?_isSome.mpr ⟨d, hd, by simpa using hne⟩)
  have hlegal := isSolidityIdent_iff halnum ((head?_camelCase _ _).trans hc)
  rw [hc]
  constructor
  · rintro hw d hd
    rw [← Option.some.inj hd]
    exact hlegal.mp hw.legal
  · intro hdigit
    exact {
      legal := hlegal.mpr (hdigit c rfl)
      clean := hclean
      fixed := camelCase_of_clean _ hclean
      leading := fun n => camelCase_leading _ n _
      trailing := fun n => camelCase_trailing _ n _
      repeated := fun _ _ n h => camelCase_repeated _ n h }

end Writable

/-- `_2fa` -/
def secondFactor : Ident := ⟨"_2fa", by decide +kernel, '2', by decide +kernel, by decide⟩

/-- **A digit behind underscores** comes first in the name: `_2fa` is hashed as `2fa`. -/
theorem digit_leads_the_name :
    camelCase (stdHost (fun _ => .ofNat 4 0) fun c => [c]) secondFactor.text = "2fa" ∧
      ¬ Writable (stdHost (fun _ => .ofNat 4 0) fun c => [c]) secondFactor.text := by
  have hname : camelCase (stdHost (fun _ => .ofNat 4 0) fun c => [c]) "_2fa" = "2fa" := by decide +kernel
  refine ⟨hname, fun h => ?_⟩
  have hlegal := h.legal
  rw [show secondFactor.text = "_2fa" from rfl, hname] at hlegal
  exact absurd hlegal (by decide +kernel)

end RustEvm.Macros
