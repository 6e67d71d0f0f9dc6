import RustEvm.Asm.RoundTrip
import RustEvm.Lib.Log

/-!
# RustEvm.Asm.Labels — every label reference is a legal jump

The label map and the pending fixups are read back to the calls that made them (`labels_from_bind`,
`fixups_from_pushLabel`), and a call is found again in the finished code as an instruction (`frame_of_call`).  So a
reference holds the offset of the one `bind` of its label, the decoder finds a `JUMPDEST` there, and `finish` writes
nowhere else (`label_references_legal`).
-/

namespace RustEvm.Codegen

open Isa BigEndian Backpatch Frames

variable {fork : Fork}

/-! ## From the state back to the calls -/

/-- Only `bind` and `pushLabel` are about a label. -/
theorem item_cases {c : Call} {it : Item} (h : c.item fork = some it) :
    (∃ byte imm, it = .instr byte imm) ∨ (∃ l, c = .bind l ∧ it = .dest l) ∨ ∃ l, c = .pushLabel l ∧ it = .ref l := by
  cases c with
  | op mnemonic =>
    obtain ⟨spec, -, rfl⟩ := Option.map_eq_some_iff.mp h
    exact .inl ⟨_, _, rfl⟩
  | push value =>
    simp only [Call.item] at h
    split_ifs at h <;> exact .inl ⟨_, _, (Option.some.inj h).symm⟩
  | dup n | swap n => exact .inl ⟨_, _, (Option.some.inj h).symm⟩
  | label => exact absurd h (by simp [Call.item])
  | bind l => exact .inr (.inl ⟨l, rfl, (Option.some.inj h).symm⟩)
  | pushLabel l => exact .inr (.inr ⟨l, rfl, (Option.some.inj h).symm⟩)

theorem item_dest {c : Call} {l : Label} (h : c.item fork = some (.dest l)) : c = .bind l := by
  rcases item_cases h with ⟨byte, imm, hit⟩ | ⟨l', rfl, hit⟩ | ⟨l', rfl, hit⟩
  · cases hit
  · rw [Item.dest.inj hit]
  · cases hit

theorem item_ref {c : Call} {l : Label} (h : c.item fork = some (.ref l)) : c = .pushLabel l := by
  rcases item_cases h with ⟨byte, imm, hit⟩ | ⟨l', rfl, hit⟩ | ⟨l', rfl, hit⟩
  · cases hit
  · cases hit
  · rw [Item.ref.inj hit]

/-- An accepted call adds a label exactly when it is its `bind`. -/
theorem mem_labels_step {a : Asm} {c : Call} (h : (a.step c).error = none) (l : Label) (p : ℕ) :
    (l, p) ∈ (a.step c).labels ↔ (l, p) ∈ a.labels ∨ (c = .bind l ∧ p = a.offset) := by
  rw [Asm.step_of_ok h]
  cases hi : c.item a.fork with
  | none =>
    have hc : c ≠ .bind l := by
      rintro rfl
      simp [Call.item] at hi
    simp [hc]
  | some it =>
    cases it with
    | dest l' =>
      obtain rfl := item_dest hi
      simp [Asm.emit_dest, Asm.offset, eq_comm]
    | _ =>
      have hc : c ≠ .bind l := by
        rintro rfl
        simp [Call.item] at hi
      simp [Asm.emit_ref, hc]

/-- An accepted call leaves a reference open exactly when it is a `pushLabel`. -/
theorem mem_fixups_step {a : Asm} {c : Call} (h : (a.step c).error = none) (l : Label) (p : ℕ) :
    ⟨l, p⟩ ∈ (a.step c).fixups ↔ ⟨l, p⟩ ∈ a.fixups ∨ (c = .pushLabel l ∧ p = a.offset + 1) := by
  rw [Asm.step_of_ok h]
  cases hi : c.item a.fork with
  | none =>
    have hc : c ≠ .pushLabel l := by
      rintro rfl
      simp [Call.item] at hi
    simp [hc]
  | some it =>
    cases it with
    | ref l' =>
      obtain rfl := item_ref hi
      simp [Asm.emit_ref, Asm.offset, eq_comm]
    | _ =>
      have hc : c ≠ .pushLabel l := by
        rintro rfl
        simp [Call.item] at hi
      simp [Asm.emit_dest, hc]

/-- A bound label was bound by a call, where `offset` stood before it; and conversely. -/
theorem labels_from_bind {calls : List Call} (h : (run fork calls).error = none) (l : Label) (p : ℕ) :
    (l, p) ∈ (run fork calls).labels ↔
      ∃ pre post, calls = pre ++ .bind l :: post ∧ p = (run fork pre).offset := by
  induction calls using List.reverseRecOn with
  | nil => simp [Asm.new]
  | append_singleton calls c ih =>
    have he := error_of_run_append _ h
    rw [run_concat] at h
    rw [run_concat, mem_labels_step h, ih he, Log.exists_concat_iff]

/-- An open reference was left by a `pushLabel`, behind the opcode byte; and conversely. -/
theorem fixups_from_pushLabel {calls : List Call} (h : (run fork calls).error = none) (l : Label) (p : ℕ) :
    ⟨l, p⟩ ∈ (run fork calls).fixups ↔
      ∃ pre post, calls = pre ++ .pushLabel l :: post ∧ p = (run fork pre).offset + 1 := by
  induction calls using List.reverseRecOn with
  | nil => simp [Asm.new]
  | append_singleton calls c ih =>
    have he := error_of_run_append _ h
    rw [run_concat] at h
    rw [run_concat, mem_fixups_step h, ih he, Log.exists_concat_iff]

/-- In a run without an error a label is bound once. -/
theorem bind_once {pre post : List Call} {l : Label} (h : (run fork (pre ++ .bind l :: post)).error = none) :
    Call.bind l ∉ pre ∧ Call.bind l ∉ post := by
  -- a second `bind` would find the label in the map
  have key : ∀ {calls : List Call}, (run fork (calls ++ [.bind l])).error = none → Call.bind l ∉ calls := by
    intro calls hrun hmem
    obtain ⟨pre, post, rfl⟩ := List.append_of_mem hmem
    have hl := (labels_from_bind (error_of_run_append _ hrun) l _).mpr ⟨pre, post, rfl, rfl⟩
    rw [run_concat] at hrun
    have ho := (Asm.step_ok hrun).2
    simp only [Asm.objection, ite_eq_right_iff, reduceCtorEq, imp_false, List.lookup_isSome_iff] at ho
    exact ho ⟨_, hl, beq_self_eq_true l⟩
  refine ⟨key (error_of_run_append post (by simpa using h)), fun hmem => ?_⟩
  obtain ⟨mid, rest, rfl⟩ := List.append_of_mem hmem
  have hpre : (run fork ((pre ++ .bind l :: mid) ++ [.bind l])).error = none :=
    error_of_run_append rest (by simpa using h)
  exact key hpre (by simp)

/-! ## From a call to its instruction -/

theorem mem_emitted {pre post : List Call} {c : Call} {a : Asm} (hc : c.emits = true) :
    ((pre.foldl Asm.step a).offset, c) ∈ emitted a (pre ++ c :: post) := by
  induction pre generalizing a with
  | nil => simp [emitted, hc]
  | cons d pre ih =>
    have h := ih (a := a.step d)
    simp only [List.cons_append, List.foldl_cons, emitted]
    split
    · exact List.mem_cons_of_mem _ h
    · exact h

theorem exists_right_of_mem {α β : Type*} {R : α → β → Prop} {l : List α} {l' : List β}
    (h : List.Forall₂ R l l') {x : α} (hx : x ∈ l) : ∃ y ∈ l', R x y := by
  obtain ⟨y, hy, hr⟩ := exists_left_of_mem h.flip hx
  exact ⟨y, hy, hr⟩

/-- An emitting call is found in the finished code: its item stands where `offset` stood, as one instruction that no
other one reaches into. -/
theorem frame_of_call {pre post : List Call} {c : Call} {code : List UInt8}
    (h : (run fork (pre ++ c :: post)).finish = .ok code) (hc : c.emits = true) :
    ∃ it rest i, c.item fork = some it ∧
      code.drop (run fork pre).offset =
        (it.frame (addrOf (run fork (pre ++ c :: post)).labels)).toList ++ rest ∧
      i ∈ disassemble code ∧ i.pc = (run fork pre).offset ∧ c.DecodesTo i ∧
      ∀ j ∈ disassemble code, ¬ (j.pc < i.pc ∧ i.pc < j.pc + j.size) := by
  obtain ⟨fs, hcode, hdis, hleft⟩ := finish_frames h
  obtain ⟨⟨q, f⟩, hf, hl⟩ := exists_right_of_mem hleft (mem_emitted hc)
  obtain ⟨it, hit, rfl⟩ := hl.frame
  obtain rfl : q = (run fork pre).offset := hl.start
  obtain ⟨rest, hrest⟩ := located_drop hf
  rw [Nat.sub_zero, ← hcode] at hrest
  refine ⟨it, rest, .ofFrame _, hit, hrest, ?_, rfl, hl.decodes, ?_⟩
  · rw [hdis]
    exact List.mem_map_of_mem hf
  · rintro j hj ⟨hlt, hreach⟩
    rw [hdis] at hj
    obtain ⟨g, hg, rfl⟩ := List.mem_map.mp hj
    have hle := located_disjoint hg hf hlt
    rw [Instruction.ofFrame_size] at hreach
    simp only [Instruction.ofFrame_pc] at hreach
    omega

theorem mem_jumpdests {code : List UInt8} {i : Instruction} (hi : i ∈ disassemble code)
    (hm : i.mnemonic = "JUMPDEST") : i.pc ∈ jumpdests code :=
  List.mem_map_of_mem (List.mem_filter.mpr ⟨hi, by simp [hm]⟩)

/-! ## References -/

/-- The two bytes at `site` are an address at which a jump may land. -/
structure ReferenceReaches (code : List UInt8) (site target : ℕ) : Prop where
  /-- The bytes are the whole of the target, none of its bits cut off. -/
  bytes : ∃ hi lo, code[site]? = some hi ∧ code[site + 1]? = some lo ∧ hi.toNat * 256 + lo.toNat = target
  jumpdest : code[target]? = some 0x5b
  legal : target ∈ jumpdests code
  boundary : ∀ i ∈ disassemble code, ¬ (i.pc < target ∧ target < i.pc + i.size)

/-- An address below `2 ^ 16` is its two bytes. -/
theorem toBytes_two {n : ℕ} (h : n < 65536) :
    ∃ hi lo, toBytes 2 n = [hi, lo] ∧ hi.toNat * 256 + lo.toNat = n := by
  refine ⟨UInt8.ofNat (n / 256), UInt8.ofNat n, rfl, ?_⟩
  rw [UInt8.toNat_ofNat', UInt8.toNat_ofNat']
  omega

/-- A referenced label is bound, below the highest address a `PUSH2` can name. -/
theorem addrOf_of_finish {calls pre post : List Call} {l : Label} {code : List UInt8}
    (h : (run fork calls).finish = .ok code) (hcalls : calls = pre ++ .pushLabel l :: post) :
    ∃ before after, calls = before ++ .bind l :: after ∧
      addrOf (run fork calls).labels l = (run fork before).offset := by
  obtain ⟨he, -, hbound, -⟩ := finish_ok h
  have href : l ∈ refs (program fork calls) := by
    rw [hcalls]
    simp [refs, program, Call.item, Item.piece]
  obtain ⟨t, ht⟩ := Option.isSome_iff_exists.mp (hbound l href)
  obtain ⟨l₁, l₂, heq, -⟩ := List.lookup_eq_some_iff.mp ht
  have hmem : (l, t) ∈ (run fork calls).labels := by rw [heq]; simp
  obtain ⟨before, after, hsplit, hoff⟩ := (labels_from_bind he l t).mp hmem
  exact ⟨before, after, hsplit, by rw [addrOf, ht, Option.getD_some, hoff]⟩

theorem length_of_finish {calls : List Call} {code : List UInt8} (h : (run fork calls).finish = .ok code) :
    code.length = (run fork calls).code.length := by
  obtain ⟨he, -, -, hcode⟩ := finish_ok h
  rw [hcode, (represents_run he).code, draft]
  simp only [List.length_flatMap, List.map_map]
  exact congrArg List.sum (List.map_congr_left fun it _ => it.length_frame _)

theorem getElem?_of_drop {α : Type*} {xs ys rest : List α} {p i : ℕ} (h : xs.drop p = ys ++ rest)
    (hi : i < ys.length) : xs[p + i]? = ys[i]? := by
  rw [← List.getElem?_drop, h, List.getElem?_append_left hi]

/-- **A reference is a legal jump** to the one place where its label is bound. -/
theorem pushLabel_reaches {calls pre post : List Call} {l : Label} {code : List UInt8}
    (h : (run fork calls).finish = .ok code) (hcalls : calls = pre ++ .pushLabel l :: post) :
    ∃ before after, calls = before ++ .bind l :: after ∧ Call.bind l ∉ before ∧ Call.bind l ∉ after ∧
      ReferenceReaches code ((run fork pre).offset + 1) (run fork before).offset := by
  obtain ⟨he, hsmall, -, -⟩ := finish_ok h
  obtain ⟨before, after, hbind, haddr⟩ := addrOf_of_finish h hcalls
  obtain ⟨hpre, hpost⟩ := bind_once (hbind ▸ he)
  obtain ⟨it, rest, i, hit, hdrop, hi, hpc, hdec, hbound⟩ := frame_of_call (hbind ▸ h) rfl
  obtain rfl : Item.dest l = it := by simpa [Call.item] using hit
  obtain ⟨it', rest', -, hit', hdrop', -, -, -, -⟩ := frame_of_call (hcalls ▸ h) rfl
  obtain rfl : Item.ref l = it' := by simpa [Call.item] using hit'
  rw [← hcalls, Item.frame, haddr] at hdrop'
  have hdest : code[(run fork before).offset]? = some 0x5b := getElem?_of_drop (i := 0) hdrop (by simp)
  -- the fixups are not empty, so the target is below the end of a short code
  have hlt : (run fork before).offset < 65536 := by
    have hlen := length_of_finish h
    have hin := (List.getElem?_eq_some_iff.mp hdest).1
    have hfix := (fixups_from_pushLabel he l _).mpr ⟨pre, post, hcalls, rfl⟩
    rcases hsmall with hnil | hle
    · rw [hnil] at hfix
      exact absurd hfix (by simp)
    · unfold MAX_LABEL_OFFSET at hle
      omega
  refine ⟨before, after, hbind, hpre, hpost, ?_, hdest, ?_, ?_⟩
  · obtain ⟨hi, lo, hbytes, hval⟩ := toBytes_two hlt
    rw [hbytes] at hdrop'
    exact ⟨hi, lo, getElem?_of_drop (i := 1) hdrop' (by simp), getElem?_of_drop (i := 2) hdrop' (by simp), hval⟩
  · rw [← hpc]
    exact mem_jumpdests hi hdec
  · rw [← hpc]
    exact hbound

/-- `finish` writes nowhere but into the placeholder pairs of the references. -/
theorem finish_getElem? {calls : List Call} {code : List UInt8} (h : (run fork calls).finish = .ok code) {j : ℕ}
    (hj : ∀ pre l post, calls = pre ++ .pushLabel l :: post →
      j ≠ (run fork pre).offset + 1 ∧ j ≠ (run fork pre).offset + 2) :
    code[j]? = (run fork calls).code[j]? := by
  obtain ⟨he, -, -, hcode⟩ := finish_ok h
  have hrep := represents_run he
  have hfilled : code = filled (fun l => toBytes 2 (addrOf (run fork calls).labels l))
      ((program fork calls).map Item.piece) := by
    rw [hcode, filled, List.flatMap_map, List.flatMap_map]
    exact List.flatMap_congr fun it _ => (Item.filled_piece _ it).symm
  rw [hfilled, hrep.code]
  refine getElem?_filled_of_not_hole (fun l => length_toBytes 2 _) _ 0 j fun l q hq hin => ?_
  have hfix : ⟨l, q⟩ ∈ (run fork calls).fixups := by
    rw [hrep.fixups]
    exact List.mem_map_of_mem hq
  obtain ⟨pre, post, hcalls, rfl⟩ := (fixups_from_pushLabel he l q).mp hfix
  have hne := hj pre l post hcalls
  omega

/-- **Every label reference is a legal jump**, and `finish` changes nothing but the references. -/
theorem label_references_legal {calls : List Call} {code : List UInt8} (h : (run fork calls).finish = .ok code) :
    (∀ pre l post, calls = pre ++ .pushLabel l :: post →
      ∃ before after, calls = before ++ .bind l :: after ∧ Call.bind l ∉ before ∧ Call.bind l ∉ after ∧
        ReferenceReaches code ((run fork pre).offset + 1) (run fork before).offset) ∧
    code.length = (run fork calls).code.length ∧
    ∀ j, (∀ pre l post, calls = pre ++ .pushLabel l :: post →
        j ≠ (run fork pre).offset + 1 ∧ j ≠ (run fork pre).offset + 2) →
      code[j]? = (run fork calls).code[j]? :=
  ⟨fun _ _ _ hcalls => pushLabel_reaches h hcalls, length_of_finish h, fun _ hj => finish_getElem? h hj⟩

theorem label_references_legal_jump :
    ∃ before after, [.pushLabel ⟨0⟩, .op "JUMP", .bind ⟨0⟩] = before ++ .bind ⟨0⟩ :: after ∧
      Call.bind ⟨0⟩ ∉ before ∧ Call.bind ⟨0⟩ ∉ after ∧
      ReferenceReaches [0x61, 0, 4, 0x56, 0x5b] 1 (run .cancun before).offset :=
  (label_references_legal (by decide +kernel)).1 [] ⟨0⟩ [.op "JUMP", .bind ⟨0⟩] rfl

end RustEvm.Codegen
