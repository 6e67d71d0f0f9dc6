import RustEvm.Asm.Assembler
import RustEvm.Asm.Disasm

/-!
# RustEvm.Asm.Program — what a call sequence assembles to

`Item` is one line of the program a call sequence writes: an instruction, a label definition or a label reference.
`Asm.step_eq` says once what a call does to an error-free assembler: it raises its `objection`, or emits the item it
stands for, or draws a label.  From it, an error-free run holds in `code`, `labels` and `fixups` what its program
prescribes (`represents_run`), and `finish` is the two-pass assembler of that program (`finish_eq`): addresses
first, then every reference filled with the address of its label.
-/

namespace RustEvm.Codegen

open Isa BigEndian Backpatch Frames

/-! ## Items -/

/-- One line of an assembly program. -/
inductive Item
  | instr (byte : UInt8) (imm : List UInt8)
  | dest (label : Label)
  | ref (label : Label)
  deriving DecidableEq

namespace Item

/-- The bytes of an item, the address of a reference left open. -/
def piece : Item → Piece UInt8 Label
  | .instr byte imm => ⟨byte :: imm, none⟩
  | .dest _ => ⟨[0x5b], none⟩
  | .ref label => ⟨[0x61], some label⟩

/-- The bytes of an item as instruction frame, given the address of every label. -/
def frame (addr : Label → ℕ) : Item → Frame UInt8
  | .instr byte imm => ⟨byte, imm⟩
  | .dest _ => ⟨0x5b, []⟩
  | .ref label => ⟨0x61, toBytes 2 (addr label)⟩

/-- The label an item placed at `p` defines. -/
def place (p : ℕ) : Item → List (Label × ℕ)
  | .dest label => [(label, p)]
  | _ => []

theorem filled_piece (addr : Label → ℕ) (it : Item) :
    it.piece.filled (fun l => toBytes 2 (addr l)) = (it.frame addr).toList := by
  cases it <;> rfl

theorem length_frame (addr : Label → ℕ) (it : Item) :
    (it.frame addr).toList.length = (it.piece.draft 2 0).length := by
  cases it <;> simp [frame, piece, Piece.draft]

end Item

/-- The labels a program defines, with their addresses, the program starting at `p`. -/
def places : ℕ → List Item → List (Label × ℕ)
  | _, [] => []
  | p, it :: its => it.place p ++ places (p + (it.piece.draft 2 0).length) its

theorem places_append (p : ℕ) (its its' : List Item) :
    places p (its ++ its') = places p its ++ places (p + (draft 2 0 (its.map Item.piece)).length) its' := by
  induction its generalizing p with
  | nil => simp [places, draft]
  | cons it its ih => simp [places, draft, ih, Nat.add_assoc]

/-! ## What a call does -/

/-- The item a call stands for. -/
def Call.item (fork : Fork) : Call → Option Item
  | .op mnemonic => (byMnemonic mnemonic).map fun spec => .instr spec.byte []
  | .push value =>
    if value.width = 0 then
      if fork < .shanghai then some (.instr 0x60 [0]) else some (.instr 0x5f [])
    else some (.instr (0x5f + UInt8.ofNat value.width) (value.be.1.drop (32 - value.width)))
  | .dup n => some (.instr (0x7f + n) [])
  | .swap n => some (.instr (0x8f + n) [])
  | .label => none
  | .bind l => some (.dest l)
  | .pushLabel l => some (.ref l)

/-- The error a call raises itself on an assembler without one. -/
def Asm.objection (a : Asm) : Call → Option AsmError
  | .op mnemonic =>
    match byMnemonic mnemonic with
    | none => some (.unknownMnemonic mnemonic)
    | some spec =>
      match opForm spec with
      | .simple => if a.fork < spec.minFork then some (.opcodeTooNew spec.mnemonic spec.minFork a.fork) else none
      | .push _ => some (.useHelperInstead spec.mnemonic "push")
      | .dup _ => some (.useHelperInstead spec.mnemonic "dup")
      | .swap _ => some (.useHelperInstead spec.mnemonic "swap")
  | .dup n => if 1 ≤ n ∧ n ≤ 16 then none else some (.badStackDepth "dup" n)
  | .swap n => if 1 ≤ n ∧ n ≤ 16 then none else some (.badStackDepth "swap" n)
  | .bind label => if (a.labels.lookup label).isSome then some (.labelAlreadyBound label) else none
  | .push _ => none
  | .label => none
  | .pushLabel _ => none

/-- Append an item: its bytes, the label it defines, the reference it leaves open. -/
def Asm.emit (a : Asm) (it : Item) : Asm :=
  { a with
    code := a.code ++ it.piece.draft 2 0
    labels := a.labels ++ it.place a.code.length
    fixups := a.fixups ++ (holes 2 0 a.code.length [it.piece]).map fun h => ⟨h.1, h.2⟩ }

namespace Immediate

theorem width_le (imm : Immediate) : imm.width ≤ 32 := by
  unfold width
  cases imm.be.1.findIdx? (fun b => b != 0) with
  | none => exact Nat.zero_le _
  | some first => exact Nat.sub_le _ _

theorem length_drop_width (imm : Immediate) : (imm.be.1.drop (32 - imm.width)).length = imm.width := by
  have h := imm.width_le
  rw [List.length_drop, imm.be.2]
  omega

/-- The bytes in front of the significant ones are zero. -/
theorem take_width (imm : Immediate) : imm.be.1.take (32 - imm.width) = List.replicate (32 - imm.width) 0 := by
  refine List.eq_replicate_iff.mpr ⟨by rw [List.length_take, imm.be.2]; omega, fun b hb => ?_⟩
  cases hf : imm.be.1.findIdx? (fun b => b != 0) with
  | none =>
    have h := List.findIdx?_eq_none_iff.mp hf b (List.mem_of_mem_take hb)
    simpa using h
  | some first =>
    obtain ⟨hlt, -, hmin⟩ := List.findIdx?_eq_some_iff_getElem.mp hf
    have hw : imm.width = 32 - first := by simp [width, hf]
    have hlen : imm.be.1.length = 32 := imm.be.2
    obtain ⟨j, hj, rfl⟩ := List.mem_iff_getElem.mp hb
    rw [List.length_take] at hj
    rw [List.getElem_take]
    simpa using hmin j (by omega)

/-- The significant bytes denote the whole number. -/
theorem ofBytes_drop_width (imm : Immediate) : ofBytes (imm.be.1.drop (32 - imm.width)) = imm.value := by
  have h : imm.be.1 = List.replicate (32 - imm.width) 0 ++ imm.be.1.drop (32 - imm.width) := by
    rw [← imm.take_width, List.take_append_drop]
  rw [value, FixedBytes.toNat]
  conv_rhs => rw [h, ofBytes_zeros_append]

/-- Width zero is the number zero. -/
theorem value_of_width_eq_zero {imm : Immediate} (h : imm.width = 0) : imm.value = 0 := by
  rw [← imm.ofBytes_drop_width, h, Nat.sub_zero, List.drop_eq_nil_of_le (by rw [imm.be.2]), ofBytes_nil]

end Immediate

namespace Asm

variable {a : Asm}

@[simp] theorem emit_instr (a : Asm) (byte : UInt8) (imm : List UInt8) :
    a.emit (.instr byte imm) = { a with code := a.code ++ byte :: imm } := by
  simp [emit, Item.piece, Item.place, Piece.draft, holes]

theorem emit_dest (a : Asm) (l : Label) :
    a.emit (.dest l) = { a with code := a.code ++ [0x5b], labels := a.labels ++ [(l, a.code.length)] } := by
  simp [emit, Item.piece, Item.place, Piece.draft, holes]

theorem emit_ref (a : Asm) (l : Label) :
    a.emit (.ref l) =
      { a with code := a.code ++ [0x61, 0, 0], fixups := a.fixups ++ [⟨l, a.code.length + 1⟩] } := by
  simp [emit, Item.piece, Item.place, Piece.draft, holes, List.replicate]

theorem emitByte_of_le {minFork : Fork} (h : minFork ≤ a.fork) (byte : UInt8) (mnemonic : String) :
    a.emitByte byte mnemonic minFork = { a with code := a.code ++ [byte] } :=
  if_neg (Fork.not_lt.mpr h)

/-- `PUSH1` to `PUSH32` exist on every fork. -/
theorem pushBytes_eq (h : a.error = none) (bytes : List UInt8) (h1 : 1 ≤ bytes.length) (h32 : bytes.length ≤ 32) :
    a.pushBytes bytes = { a with code := a.code ++ (0x5f + UInt8.ofNat bytes.length) :: bytes } := by
  obtain ⟨spec, hrow, hbyte, hfork⟩ : ∃ spec, byByte (0x5f + UInt8.ofNat bytes.length) = some spec ∧
      spec.byte = 0x5f + UInt8.ofNat bytes.length ∧ spec.minFork ≤ a.fork :=
    ⟨_, byByte_push h1 h32, rfl, Fork.frontier_le _⟩
  simp [pushBytes, hrow, emitByte_of_le hfork, hbyte, h]

theorem emitFamilyByte_dup {n : UInt8} (h : 1 ≤ n ∧ n ≤ 16) :
    a.emitFamilyByte (0x7f + n) = { a with code := a.code ++ [0x7f + n] } := by
  have hrow := byByte_dup (n := n.toNat) h.1 h.2
  rw [UInt8.ofNat_toNat] at hrow
  rw [emitFamilyByte, hrow]
  exact emitByte_of_le (Fork.frontier_le _) _ _

theorem emitFamilyByte_swap {n : UInt8} (h : 1 ≤ n ∧ n ≤ 16) :
    a.emitFamilyByte (0x8f + n) = { a with code := a.code ++ [0x8f + n] } := by
  have hrow := byByte_swap (n := n.toNat) h.1 h.2
  rw [UInt8.ofNat_toNat] at hrow
  rw [emitFamilyByte, hrow]
  exact emitByte_of_le (Fork.frontier_le _) _ _

/-- **One call** on an error-free assembler raises its objection, emits its item, or draws a label. -/
theorem step_eq (h : a.error = none) (c : Call) :
    a.step c = match a.objection c, c.item a.fork with
      | some e, _ => a.fail e
      | none, some it => a.emit it
      | none, none => { a with nextLabel := a.nextLabel + 1 } := by
  cases c with
  | op mnemonic =>
    simp only [step, op, objection, Call.item, h, Option.isSome_none]
    cases hrow : byMnemonic mnemonic with
    | none => simp
    | some spec =>
      cases hform : opForm spec with
      | simple =>
        by_cases hf : a.fork < spec.minFork
        · simp [hform, hf, emitByte]
        · simp [hform, hf, emitByte]
      | push n => simp [hform]
      | dup n => simp [hform]
      | swap n => simp [hform]
  | push value =>
    simp only [step, push, objection, Call.item, h, Option.isSome_none]
    by_cases hw : value.width = 0
    · by_cases hf : a.fork < .shanghai
      · -- `PUSH1 0x00`
        simp [hw, hf, pushBytes_eq h [0]]
      · simp [hw, hf, emitByte]
    · have hlen := value.length_drop_width
      have hle := value.width_le
      have heq := pushBytes_eq h (value.be.1.drop (32 - value.width)) (by omega) (by omega)
      rw [hlen] at heq
      simp [hw, heq]
  | dup n =>
    by_cases hn : 1 ≤ n ∧ n ≤ 16
    · simp [step, dup, objection, Call.item, h, hn, emitFamilyByte_dup hn]
    · simp [step, dup, objection, Call.item, h, hn]
  | swap n =>
    by_cases hn : 1 ≤ n ∧ n ≤ 16
    · simp [step, swap, objection, Call.item, h, hn, emitFamilyByte_swap hn]
    · simp [step, swap, objection, Call.item, h, hn]
  | label => rfl
  | bind l =>
    by_cases hl : (a.labels.lookup l).isSome
    · simp [step, bind, objection, Call.item, h, hl]
    · simp [step, bind, objection, Call.item, h, hl, emitByte_of_le (Fork.frontier_le _), emit_dest]
  | pushLabel l =>
    simp [step, pushLabel, objection, Call.item, h, emit_ref]

/-- Errors are sticky: once there is one, a call changes nothing but the label counter. -/
theorem step_of_error {e : AsmError} (h : a.error = some e) (c : Call) :
    ∃ n, a.step c = { a with nextLabel := n } := by
  cases c with
  | label => exact ⟨_, rfl⟩
  | _ =>
    refine ⟨a.nextLabel, ?_⟩
    change _ = a
    simp [step, op, push, dup, swap, bind, pushLabel, h]

@[simp] theorem fork_step (a : Asm) (c : Call) : (a.step c).fork = a.fork := by
  cases he : a.error with
  | some e =>
    obtain ⟨n, hn⟩ := step_of_error he c
    rw [hn]
  | none =>
    rw [step_eq he c]
    split <;> rfl

/-- A call that leaves no error met none and raised none. -/
theorem step_ok {c : Call} (h : (a.step c).error = none) : a.error = none ∧ a.objection c = none := by
  cases he : a.error with
  | some e =>
    obtain ⟨n, hn⟩ := step_of_error he c
    rw [hn] at h
    exact absurd (he.symm.trans h) (by simp)
  | none =>
    refine ⟨rfl, ?_⟩
    cases ho : a.objection c with
    | none => rfl
    | some e =>
      rw [step_eq he c, ho] at h
      simp [fail] at h

/-- An accepted call emits its item, or draws a label. -/
theorem step_of_ok {c : Call} (h : (a.step c).error = none) :
    a.step c = match c.item a.fork with
      | some it => a.emit it
      | none => { a with nextLabel := a.nextLabel + 1 } := by
  obtain ⟨he, ho⟩ := step_ok h
  rw [step_eq he c, ho]
  cases c.item a.fork <;> rfl

end Asm

/-! ## Runs -/

/-- The program a call sequence writes. -/
def program (fork : Fork) (calls : List Call) : List Item := calls.filterMap (Call.item fork)

theorem program_concat (fork : Fork) (calls : List Call) (c : Call) :
    program fork (calls ++ [c]) = program fork calls ++ (c.item fork).toList := by
  simp [program, List.filterMap_cons]
  cases c.item fork <;> rfl

@[simp] theorem fork_run (fork : Fork) (calls : List Call) : (run fork calls).fork = fork := by
  induction calls using List.reverseRecOn with
  | nil => rfl
  | append_singleton calls c ih => rw [run_concat, Asm.fork_step, ih]

/-- A run without an error had none before its last calls either. -/
theorem error_of_run_append {fork : Fork} {calls : List Call} (calls' : List Call)
    (h : (run fork (calls ++ calls')).error = none) : (run fork calls).error = none := by
  induction calls' using List.reverseRecOn with
  | nil => simpa using h
  | append_singleton calls' c ih =>
    rw [← List.append_assoc, run_concat] at h
    exact ih (Asm.step_ok h).1

/-- The state holds what its program prescribes: the bytes with every reference left open, where each label was
defined, and where each reference stands. -/
structure Represents (a : Asm) (its : List Item) : Prop where
  code : a.code = draft 2 0 (its.map Item.piece)
  labels : a.labels = places 0 its
  fixups : a.fixups = (holes 2 0 0 (its.map Item.piece)).map fun h => ⟨h.1, h.2⟩

theorem Represents.emit {a : Asm} {its : List Item} (h : Represents a its) (it : Item) :
    Represents (a.emit it) (its ++ [it]) where
  code := by simp [Asm.emit, h.code, draft]
  labels := by simp [Asm.emit, h.labels, h.code, places_append, places]
  fixups := by simp [Asm.emit, h.fixups, h.code, holes_append]

/-- **An error-free run** holds what its program prescribes. -/
theorem represents_run {fork : Fork} {calls : List Call} (h : (run fork calls).error = none) :
    Represents (run fork calls) (program fork calls) := by
  induction calls using List.reverseRecOn with
  | nil => exact ⟨rfl, rfl, rfl⟩
  | append_singleton calls c ih =>
    have hrep := ih (error_of_run_append _ h)
    rw [run_concat] at h ⊢
    rw [program_concat, Asm.step_of_ok h, fork_run]
    cases c.item fork with
    | some it => exact hrep.emit it
    | none => exact ⟨by simpa using hrep.code, by simpa using hrep.labels, by simpa using hrep.fixups⟩

/-! ## Finishing -/

/-- The address a map from labels to addresses gives a label, zero for one it does not have. -/
def addrOf (labels : List (Label × ℕ)) (l : Label) : ℕ := (labels.lookup l).getD 0

/-- The labels a program refers to, in order. -/
def refs (its : List Item) : List Label := (its.map Item.piece).filterMap Piece.hole

theorem patchFixups_eq (labels : List (Label × ℕ)) (code : List UInt8) (hs : List (Label × ℕ)) :
    Asm.patchFixups labels code (hs.map fun h => ⟨h.1, h.2⟩) =
      (patchAll (fun l => (labels.lookup l).map (toBytes 2)) code hs).mapError AsmError.unboundLabel := by
  induction hs generalizing code with
  | nil => rfl
  | cons h hs ih =>
    rw [List.map_cons, Asm.patchFixups, patchAll]
    cases labels.lookup h.1 with
    | none => rfl
    | some target => exact ih _

/-- **Two passes**: `finish` puts the address of its label into every reference of the program, unless some address
could not be named or some label has none. -/
theorem finish_eq {a : Asm} {its : List Item} (he : a.error = none) (h : Represents a its) :
    a.finish =
      if MAX_LABEL_OFFSET < a.code.length ∧ a.fixups ≠ [] then .error (.codeTooLargeToAddress a.code.length)
      else match (refs its).find? fun l => (a.labels.lookup l).isNone with
        | some l => .error (.unboundLabel l)
        | none => .ok ((its.map (Item.frame (addrOf a.labels))).flatMap Frame.toList) := by
  have hwidth : ∀ l ys, (a.labels.lookup l).map (toBytes 2) = some ys → ys.length = 2 := by
    intro l ys hys
    obtain ⟨t, -, rfl⟩ := Option.map_eq_some_iff.mp hys
    exact length_toBytes 2 t
  rw [Asm.finish, he]
  simp only
  split
  · rfl
  · rw [h.fixups, patchFixups_eq, h.code, patchAll_draft hwidth]
    have hrefs : (its.map Item.piece).filterMap Piece.hole = refs its := rfl
    simp only [Option.isNone_map, hrefs]
    cases hf : (refs its).find? fun l => (a.labels.lookup l).isNone with
    | some l => rfl
    | none =>
      have hbound : ∀ l ∈ refs its,
          ((a.labels.lookup l).map (toBytes 2)).getD [] = toBytes 2 (addrOf a.labels l) := by
        intro l hl
        have hs := List.find?_eq_none.mp hf l hl
        cases hl : a.labels.lookup l with
        | none => simp [hl] at hs
        | some t => simp [addrOf, hl]
      simp only [Except.mapError, Except.ok.injEq]
      rw [filled_congr hbound, filled, List.flatMap_map, List.flatMap_map]
      exact List.flatMap_congr fun it _ => Item.filled_piece _ it

/-- What a successful `finish` says. -/
theorem finish_ok {fork : Fork} {calls : List Call} {code : List UInt8} (h : (run fork calls).finish = .ok code) :
    (run fork calls).error = none ∧
      ((run fork calls).fixups = [] ∨ (run fork calls).code.length ≤ MAX_LABEL_OFFSET) ∧
      (∀ l ∈ refs (program fork calls), ((run fork calls).labels.lookup l).isSome) ∧
      code = ((program fork calls).map (Item.frame (addrOf (run fork calls).labels))).flatMap Frame.toList := by
  have he : (run fork calls).error = none := by
    cases he : (run fork calls).error with
    | none => rfl
    | some e => simp [Asm.finish, he] at h
  rw [finish_eq he (represents_run he)] at h
  split at h
  · exact absurd h (by simp)
  · rename_i hsmall
    split at h
    · exact absurd h (by simp)
    · rename_i hfind
      refine ⟨he, ?_, fun l hl => ?_, (Except.ok.inj h).symm⟩
      · by_cases hf : (run fork calls).fixups = []
        · exact .inl hf
        · exact .inr (by by_contra hlt; exact hsmall ⟨by omega, hf⟩)
      · simpa [Option.isSome_iff_ne_none] using List.find?_eq_none.mp hfind l hl

end RustEvm.Codegen
