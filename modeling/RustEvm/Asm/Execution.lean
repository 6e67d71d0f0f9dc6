import RustEvm.Asm.Labels
import RustEvm.Asm.Push
import RustEvm.Evm.Control

/-!
# RustEvm.Asm.Execution — assembled code runs as it was written

A call sequence has a meaning of its own: `Call.flow` is what a call was written for, a number pushed, an opcode run, a
label named, and `At.advance` runs the calls one after the other; a jump goes to a call.  The finished bytes, run by the
machine of a frame from offset zero, take the same steps (`Assembles.lockstep`): the program counter stands at the start
of the item that is next, no instruction is missing on the fork, and the immediates are the numbers.
-/

namespace RustEvm.Codegen

open Isa BigEndian Backpatch Frames Evm Stepping

/-! ## The meaning of a program -/

/-- Bytes an item takes. -/
def Item.size : Item → ℕ
  | .instr _ imm => 1 + imm.length
  | .dest _ => 1
  | .ref _ => 3

/-- A place a jump can go to: a bound label, or `JUMPDEST` as an opcode. -/
def Item.isDest : Item → Bool
  | .instr byte _ => byte == 0x5b
  | .dest _ => true
  | .ref _ => false

/-- Where an item starts. -/
def startOf (its : List Item) (j : ℕ) : ℕ := ((its.take j).map Item.size).sum

/-- Where a label is bound. -/
def labelAddr (its : List Item) (l : Label) : ℕ := startOf its (its.idxOf (.dest l))

/-- The item a jump goes to. -/
def targetAt (its : List Item) (dest : ℕ) : Option ℕ :=
  (List.range its.length).find? fun j => startOf its j == dest && its[j]?.any Item.isDest

/-- A call that wrote something, and the item it wrote. -/
structure Line where
  call : Call
  item : Item

def items (w : List Line) : List Item := w.map Line.item

/-- What a call sequence has written, call by call. -/
def written (fork : Fork) (calls : List Call) : List Line := calls.filterMap fun c => (c.item fork).map (Line.mk c)

theorem items_written (fork : Fork) (calls : List Call) : items (written fork calls) = program fork calls := by
  rw [items, written, program, List.map_filterMap]
  exact List.filterMap_congr fun c _ => by cases c.item fork <;> rfl

/-- **What a call was written for.**  `addr` has the addresses of the labels, and `pc` is where the call's item
starts. -/
def Call.flow (keccak : List UInt8 → Word) (ext : External) (addr : Label → ℕ) (pc : ℕ) (stack : List Word)
    (s : State) : Call → Flow
  | op mnemonic =>
    match byMnemonic mnemonic with
    | some spec => (opcodeOf spec.byte).flow keccak ext spec.byte pc [] stack s
    | none => .halt .exceptional s
  | push value => .proceed (BitVec.ofNat 256 value.value :: stack) s
  | dup n =>
    match stack[n.toNat - 1]? with
    | some w => .proceed (w :: stack) s
    | none => .halt .exceptional s
  | swap n =>
    match stack[0]?, stack[n.toNat]? with
    | some top, some w => .proceed ((stack.set 0 w).set n.toNat top) s
    | _, _ => .halt .exceptional s
  | pushLabel l => .proceed (BitVec.ofNat 256 (addr l) :: stack) s
  -- a label is only a place to go to
  | bind _ | label => .next stack s

/-- A call sequence in execution: the line that is next, the stack and the state. -/
structure At where
  item : ℕ
  stack : List Word
  state : State

/-- One line of a program. -/
def At.advance (keccak : List UInt8 → Word) (ext : External) (w : List Line) (m : At) : At ⊕ Halt × State :=
  match w[m.item]? with
  | none => .inr (.stopped, m.state)
  | some line =>
    match line.call.flow keccak ext (labelAddr (items w)) (startOf (items w) m.item) m.stack m.state with
    | .next stack s => .inl ⟨m.item + 1, stack, s⟩
    | .jump dest stack s =>
      match targetAt (items w) dest.toNat with
      | some j => .inl ⟨j, stack, s⟩
      | none => .inr (.exceptional, s)
    | .halt how s => .inr (how, s)

/-! ## Layout -/

variable {its : List Item} {it : Item} {j : ℕ} (addr : Label → ℕ)

theorem Item.length_toList (it : Item) : (it.frame addr).toList.length = it.size := by
  cases it <;> simp [Item.frame, Item.size, Nat.add_comm]

theorem Item.length_draft (it : Item) : (it.piece.draft 2 0).length = it.size := by
  rw [← Item.length_frame (fun _ => 0), Item.length_toList]

theorem Item.isDest_iff (it : Item) : it.isDest = true ↔ (it.frame addr).head = 0x5b := by
  cases it <;> simp [Item.isDest, Item.frame]

theorem startOf_succ (h : its[j]? = some it) : startOf its (j + 1) = startOf its j + it.size := by
  rw [startOf, startOf, List.take_add_one, h]
  simp

theorem length_take_frames (its : List Item) (j : ℕ) :
    (((its.map (Item.frame addr)).take j).flatMap Frame.toList).length = startOf its j := by
  rw [← List.map_take, List.flatMap_map, List.length_flatMap, startOf]
  exact congrArg List.sum (List.map_congr_left fun it _ => it.length_toList addr)

theorem located_item (h : its[j]? = some it) :
    (startOf its j, it.frame addr) ∈ located 0 (its.map (Item.frame addr)) := by
  have hget := located_getElem? 0 (its.map (Item.frame addr)) j
  rw [List.getElem?_map, h, Option.map_some, Option.map_some, Nat.zero_add, length_take_frames] at hget
  exact List.mem_of_getElem? hget

theorem item_of_located {q : ℕ} {f : Frame UInt8} (h : (q, f) ∈ located 0 (its.map (Item.frame addr))) :
    ∃ j it, its[j]? = some it ∧ q = startOf its j ∧ f = it.frame addr := by
  obtain ⟨j, hj⟩ := List.mem_iff_getElem?.mp h
  rw [located_getElem?, List.getElem?_map, Nat.zero_add, length_take_frames] at hj
  cases hit : its[j]? with
  | none => simp [hit] at hj
  | some it =>
    rw [hit, Option.map_some, Option.map_some, Option.some.injEq, Prod.mk.injEq] at hj
    exact ⟨j, it, hit, hj.1.symm, hj.2.symm⟩

/-! ## Labels -/

/-- The label table of a program holds where each label is first bound. -/
theorem lookup_places (p : ℕ) (its : List Item) (l : Label) :
    (places p its).lookup l = if .dest l ∈ its then some (p + labelAddr its l) else none := by
  induction its generalizing p with
  | nil => rfl
  | cons it its ih =>
    by_cases hit : it = .dest l
    · subst hit
      simp [places, Item.place, labelAddr, startOf]
    · have hplace : (places p (it :: its)).lookup l = (places (p + it.size) its).lookup l := by
        rw [places, Item.length_draft]
        cases it with
        | dest k =>
          have hk : l ≠ k := fun heq => hit (heq ▸ rfl)
          have hk' : (l == k) = false := by simpa using hk
          simp [Item.place, List.lookup_cons, hk']
        | _ => rfl
      rw [hplace, ih]
      by_cases hmem : Item.dest l ∈ its
      · have haddr : labelAddr (it :: its) l = it.size + labelAddr its l := by
          rw [labelAddr, List.idxOf_cons_ne _ hit, startOf, List.take_succ_cons, List.map_cons, List.sum_cons]
          rfl
        rw [if_pos hmem, if_pos (List.mem_cons_of_mem _ hmem), haddr, Nat.add_assoc]
      · rw [if_neg hmem, if_neg (by simp [hmem, Ne.symm hit])]

/-! ## The bytes of a program -/

/-- The code is the frames of the items, every one of them complete and available on the fork. -/
structure Assembles (fork : Fork) (its : List Item) (code : List UInt8) : Prop where
  code_eq : code = (its.map (Item.frame (labelAddr its))).flatMap Frame.toList
  legal : ∀ it ∈ its, Legal fork (it.frame (labelAddr its))

/-- **What `finish` returns.** -/
theorem assembles_finish {fork : Fork} {calls : List Call} {code : List UInt8}
    (h : (run fork calls).finish = .ok code) : Assembles fork (program fork calls) code := by
  obtain ⟨he, -, hbound, hcode⟩ := finish_ok h
  have haddr : ∀ l ∈ refs (program fork calls),
      addrOf (run fork calls).labels l = labelAddr (program fork calls) l := by
    intro l hl
    have hsome := hbound l hl
    rw [(represents_run he).labels, lookup_places] at hsome
    rw [addrOf, (represents_run he).labels, lookup_places]
    split_ifs at hsome ⊢
    · exact Nat.zero_add _
    · exact absurd hsome (by simp)
  have hframe : ∀ it ∈ program fork calls,
      it.frame (addrOf (run fork calls).labels) = it.frame (labelAddr (program fork calls)) := by
    intro it hit
    cases it with
    | ref l =>
      have hl : l ∈ refs (program fork calls) := List.mem_filterMap.mpr ⟨_, List.mem_map_of_mem hit, rfl⟩
      rw [Item.frame, haddr l hl]
      rfl
    | _ => rfl
  refine ⟨by rw [hcode, List.map_congr_left hframe], fun it hit => ?_⟩
  obtain ⟨q, hq⟩ := mem_located (p := 0) (List.mem_map_of_mem (f := Item.frame (addrOf (run fork calls).labels)) hit)
  obtain ⟨call, -, hcall⟩ := exists_left_of_mem (emitted_located _ (a := Asm.new fork) he) hq
  rw [← hframe it hit]
  exact hcall.legal

namespace Assembles

variable {fork : Fork} {code : List UInt8}

theorem split_eq (h : Assembles fork its code) :
    split immediateWidthOf code = its.map (Item.frame (labelAddr its)) := by
  rw [h.code_eq]
  refine split_flatMap _ fun f hf => ?_
  obtain ⟨it, hit, rfl⟩ := List.mem_map.mp hf
  exact (h.legal it hit).complete

/-- What stands where an item starts. -/
theorem read (h : Assembles fork its code) (hit : its[j]? = some it) :
    code[startOf its j]? = some (it.frame (labelAddr its)).head ∧
      slice code (startOf its j + 1) (stride (it.frame (labelAddr its)).head - 1) =
        (it.frame (labelAddr its)).payload ∧
      startOf its j + stride (it.frame (labelAddr its)).head = startOf its (j + 1) := by
  have hcomplete : (it.frame (labelAddr its)).payload.length = immediateWidthOf (it.frame (labelAddr its)).head :=
    (h.legal it (List.mem_of_getElem? hit)).complete
  obtain ⟨rest, hrest⟩ := located_drop (located_item (labelAddr its) hit)
  rw [← h.code_eq, Nat.sub_zero] at hrest
  refine ⟨?_, ?_, ?_⟩
  · rw [← Nat.add_zero (startOf its j), ← List.getElem?_drop, hrest]
    rfl
  · rw [stride_eq, Nat.add_sub_cancel_left, ← hcomplete]
    refine Running.slice_of_drop (l := rest) ?_
    rw [← List.drop_drop, hrest]
    rfl
  · rw [startOf_succ hit, stride_eq, ← hcomplete, Nat.add_comm 1, ← Frame.length_toList, Item.length_toList]

/-- Behind the last item the code ends. -/
theorem read_none (h : Assembles fork its code) (hj : its[j]? = none) : code[startOf its j]? = none := by
  have hlen : code.length = startOf its j := by
    rw [h.code_eq, ← length_take_frames (labelAddr its), List.take_of_length_le]
    rw [List.length_map]
    exact List.getElem?_eq_none_iff.mp hj
  exact List.getElem?_eq_none hlen.le

theorem validJump_iff (h : Assembles fork its code) (dest : ℕ) :
    ValidJump code dest ↔ ∃ j it, its[j]? = some it ∧ startOf its j = dest ∧ it.isDest = true := by
  rw [ValidJump, walks_iff, visits_iff, h.split_eq]
  constructor
  · rintro ⟨f, hf, hhead⟩
    obtain ⟨j, it, hit, rfl, rfl⟩ := item_of_located _ hf
    exact ⟨j, it, hit, rfl, (it.isDest_iff _).mpr hhead⟩
  · rintro ⟨j, it, hit, rfl, hdest⟩
    exact ⟨_, located_item _ hit, (it.isDest_iff _).mp hdest⟩

end Assembles

theorem targetAt_eq_some {dest : ℕ} (h : targetAt its dest = some j) :
    startOf its j = dest ∧ ∃ it, its[j]? = some it ∧ it.isDest = true := by
  have hp := List.find?_some h
  rw [Bool.and_eq_true, beq_iff_eq, Option.any_eq_true] at hp
  obtain ⟨hstart, it, hit, hdest⟩ := hp
  exact ⟨hstart, it, hit, hdest⟩

theorem targetAt_eq_none {dest : ℕ} (h : targetAt its dest = none) {it : Item} (hit : its[j]? = some it)
    (hstart : startOf its j = dest) : it.isDest = false := by
  have hlt : j < its.length := (List.getElem?_eq_some_iff.mp hit).1
  have hnot := List.find?_eq_none.mp h j (List.mem_range.mpr hlt)
  simpa [hstart, hit] using hnot

/-! ## Bytes and calls -/

/-- The bytes of a line do what its call was written for. -/
def Line.Means (addr : Label → ℕ) (line : Line) : Prop :=
  ∀ keccak ext pc stack s, (opcodeOf (line.item.frame addr).head).flow keccak ext (line.item.frame addr).head pc
    (line.item.frame addr).payload stack s = line.call.flow keccak ext addr pc stack s

theorem opcodeOf_push {b : UInt8} (h : 0x5f ≤ b.toNat ∧ b.toNat ≤ 0x7f) : opcodeOf b = .push := by
  rw [opcodeOf, controlOf, if_pos h]

theorem opcodeOf_dup {n : UInt8} (h : 1 ≤ n ∧ n ≤ 16) : opcodeOf (0x7f + n) = .dup n.toNat := by
  have h1 : 1 ≤ n.toNat := UInt8.le_iff_toNat_le.mp h.1
  have h16 : n.toNat ≤ 16 := UInt8.le_iff_toNat_le.mp h.2
  have hn : (0x7f + n).toNat = 0x7f + n.toNat := by
    have hlt : 0x7f + n.toNat < 2 ^ 8 := by omega
    rw [UInt8.toNat_add]
    exact Nat.mod_eq_of_lt hlt
  rw [opcodeOf, controlOf, hn, if_neg (by omega), if_pos (by omega), Nat.add_sub_cancel_left]

theorem opcodeOf_swap {n : UInt8} (h : 1 ≤ n ∧ n ≤ 16) : opcodeOf (0x8f + n) = .swap n.toNat := by
  have h1 : 1 ≤ n.toNat := UInt8.le_iff_toNat_le.mp h.1
  have h16 : n.toNat ≤ 16 := UInt8.le_iff_toNat_le.mp h.2
  have hn : (0x8f + n).toNat = 0x8f + n.toNat := by
    have hlt : 0x8f + n.toNat < 2 ^ 8 := by omega
    rw [UInt8.toNat_add]
    exact Nat.mod_eq_of_lt hlt
  rw [opcodeOf, controlOf, hn, if_neg (by omega), if_neg (by omega), if_pos (by omega), Nat.add_sub_cancel_left]

/-- **An accepted call writes bytes that do what it was written for**, a reference if its address fits two bytes. -/
theorem means_of_item {a : Asm} {c : Call} (hc : a.objection c = none) {it : Item} (hitem : c.item a.fork = some it)
    (haddr : ∀ l, c = .pushLabel l → addr l < 65536) : (Line.mk c it).Means addr := by
  intro keccak ext pc stack s
  cases c with
  | op mnemonic =>
    obtain ⟨spec, hrow, rfl⟩ := Option.map_eq_some_iff.mp hitem
    simp only [Item.frame, Call.flow, hrow]
  | push value =>
    obtain rfl := Option.some.inj ((item_push a.fork value).symm.trans hitem)
    obtain ⟨hhead, hle, hvalue, -⟩ := pushFrame_spec a.fork value
    have ho : opcodeOf (pushFrame a.fork value).head = .push := opcodeOf_push (by omega)
    simp only [Item.frame, ho, Opcode.flow, hvalue, Call.flow]
  | dup n =>
    obtain rfl := Option.some.inj hitem
    have hn : 1 ≤ n ∧ n ≤ 16 := by
      by_contra hn
      simp [Asm.objection, hn] at hc
    exact congrArg (Opcode.flow keccak ext (0x7f + n) pc [] stack s) (opcodeOf_dup hn)
  | swap n =>
    obtain rfl := Option.some.inj hitem
    have hn : 1 ≤ n ∧ n ≤ 16 := by
      by_contra hn
      simp [Asm.objection, hn] at hc
    exact congrArg (Opcode.flow keccak ext (0x8f + n) pc [] stack s) (opcodeOf_swap hn)
  | label => cases hitem
  | bind l =>
    obtain rfl := Option.some.inj hitem
    rfl
  | pushLabel l =>
    obtain rfl := Option.some.inj hitem
    have ho : opcodeOf 0x61 = .push := rfl
    have hbytes : ofBytes (toBytes 2 (addr l)) = addr l :=
      ofBytes_toBytes_of_lt ((haddr l rfl).trans_eq (by norm_num))
    simp only [Item.frame, ho, Opcode.flow, hbytes, Call.flow]

/-! ## Lockstep -/

/-- The frame whose program counter stands at the start of the item that is next. -/
def At.locate (its : List Item) (p : At) : Running := ⟨startOf its p.item, p.stack, p.state⟩

/-- The frame runs the code, at the item that is next. -/
def Follows (its : List Item) (code : List UInt8) (m : Running) (p : At) : Prop :=
  m = p.locate its ∧ p.state.context.code = code

/-- **The bytes and the program take the same steps.** -/
theorem Assembles.lockstep {fork : Fork} {w : List Line} {code : List UInt8} (h : Assembles fork (items w) code)
    (hmeans : ∀ line ∈ w, line.Means (labelAddr (items w))) (keccak : List UInt8 → Word) (ext : External) :
    Lockstep (Follows (items w) code) (Running.advance keccak ext fork) (At.advance keccak ext w) := by
  rintro _ ⟨j, stack, s⟩ ⟨rfl, hcode⟩
  unfold Running.advance At.advance At.locate
  dsimp only at hcode ⊢
  rw [hcode]
  cases hline : w[j]? with
  | none =>
    have hit : (items w)[j]? = none := by rw [items, List.getElem?_map, hline, Option.map_none]
    rw [h.read_none hit]
    exact .inr rfl
  | some line =>
    have hit : (items w)[j]? = some line.item := by rw [items, List.getElem?_map, hline, Option.map_some]
    obtain ⟨hhead, himm, hnext⟩ := h.read hit
    obtain ⟨spec, hrow, hfork⟩ := (h.legal line.item (List.mem_of_getElem? hit)).row
    have hflow := hmeans line (List.mem_of_getElem? hline) keccak ext (startOf (items w) j) stack s
    have hkeep := Opcode.code_flow keccak ext (line.item.frame (labelAddr (items w))).head (startOf (items w) j)
      (line.item.frame (labelAddr (items w))).payload stack s
      (opcodeOf (line.item.frame (labelAddr (items w))).head)
    simp only [hhead, himm, Running.available_of_row hrow hfork, if_true]
    rw [hflow] at hkeep ⊢
    generalize line.call.flow keccak ext (labelAddr (items w)) (startOf (items w) j) stack s = flow at hkeep ⊢
    rw [hcode] at hkeep
    cases flow with
    | next stack₁ s₁ => exact .inl ⟨congrArg (Running.mk · stack₁ s₁) hnext, hkeep⟩
    | halt how s₁ => exact .inr rfl
    | jump dest stack₁ s₁ =>
      have hvalid := h.validJump_iff dest.toNat
      rw [← show s₁.context.code = code from hkeep] at hvalid
      dsimp only [Running.follow]
      cases ht : targetAt (items w) dest.toNat with
      | some k =>
        obtain ⟨hstart, it', hit', hdest⟩ := targetAt_eq_some ht
        rw [if_pos (hvalid.mpr ⟨k, it', hit', hstart, hdest⟩)]
        exact .inl ⟨congrArg (Running.mk · stack₁ s₁) hstart.symm, hkeep⟩
      | none =>
        rw [if_neg]
        · exact .inr rfl
        · intro hv
          obtain ⟨k, it', hit', hstart, hdest⟩ := hvalid.mp hv
          exact absurd (targetAt_eq_none ht hit' hstart) (by simp [hdest])

/-! ## The result -/

/-- Bytes and calls run alike, and a label that is pushed and jumped to leads to where it is bound. -/
structure RunsAsWritten (fork : Fork) (w : List Line) (code : List UInt8) : Prop where
  runs : ∀ keccak ext stack, ∀ s : State, s.context.code = code → ∀ n,
    runFor (Running.advance keccak ext fork) n ⟨0, stack, s⟩ =
      (runFor (At.advance keccak ext w) n ⟨0, stack, s⟩).map (At.locate (items w)) id
  jumps : ∀ keccak ext stack s i l, stack.length < 1024 → w[i]?.map Line.call = some (.pushLabel l) →
    w[i + 1]?.map Line.call = some (.op "JUMP") →
    ∃ j, w[j]?.map Line.call = some (.bind l) ∧ runFor (At.advance keccak ext w) 2 ⟨i, stack, s⟩ = .inl ⟨j, stack, s⟩

theorem startOf_lt {i j : ℕ} (hij : i < j) (hi : i < its.length) : startOf its i < startOf its j := by
  induction j with
  | zero => omega
  | succ j ih =>
    have hle : startOf its j ≤ startOf its (j + 1) := by
      cases hit : its[j]? with
      | none =>
        have hlen := List.getElem?_eq_none_iff.mp hit
        rw [startOf, startOf, List.take_of_length_le hlen, List.take_of_length_le (by omega)]
      | some it => rw [startOf_succ hit]; omega
    rcases Nat.lt_succ_iff_lt_or_eq.mp hij with hlt | rfl
    · exact (ih hlt).trans_le hle
    · have hsize : 0 < (its[i]).size := by cases its[i] <;> simp [Item.size]
      rw [startOf_succ (List.getElem?_eq_getElem hi)]
      omega

/-- A jump to the start of a jump destination goes there. -/
theorem targetAt_startOf (hit : its[j]? = some it) (hdest : it.isDest = true) :
    targetAt its (startOf its j) = some j := by
  cases ht : targetAt its (startOf its j) with
  | none => exact absurd (targetAt_eq_none ht hit rfl) (by simp [hdest])
  | some k =>
    obtain ⟨hstart, it', hit', -⟩ := targetAt_eq_some ht
    have hj := (List.getElem?_eq_some_iff.mp hit).1
    have hk := (List.getElem?_eq_some_iff.mp hit').1
    rcases Nat.lt_trichotomy k j with hlt | rfl | hlt
    · exact absurd hstart (startOf_lt hlt hk).ne
    · rfl
    · exact absurd hstart (startOf_lt hlt hj).ne'

/-- A label that is referred to is bound, at an address that two bytes hold. -/
theorem labelAddr_of_finish {fork : Fork} {calls : List Call} {code : List UInt8}
    (h : (run fork calls).finish = .ok code) {l : Label} (hl : .ref l ∈ program fork calls) :
    .dest l ∈ program fork calls ∧ labelAddr (program fork calls) l < 65536 := by
  obtain ⟨he, hsmall, hbound, -⟩ := finish_ok h
  have hsome := hbound l (List.mem_filterMap.mpr ⟨_, List.mem_map_of_mem hl, rfl⟩)
  rw [(represents_run he).labels, lookup_places] at hsome
  have hmem : .dest l ∈ program fork calls := by
    by_contra hnot
    rw [if_neg hnot] at hsome
    exact absurd hsome (by simp)
  refine ⟨hmem, ?_⟩
  obtain ⟨c, hc, hitem⟩ := List.mem_filterMap.mp hl
  obtain rfl := item_ref hitem
  obtain ⟨pre, post, hcalls⟩ := List.append_of_mem hc
  have hfix := (fixups_from_pushLabel he l _).mpr ⟨pre, post, hcalls, rfl⟩
  have hget : (program fork calls)[(program fork calls).idxOf (.dest l)]? = some (.dest l) :=
    List.getElem?_idxOf hmem
  have hin := (List.getElem?_eq_some_iff.mp ((assembles_finish h).read hget).1).1
  have hlen := length_of_finish h
  unfold labelAddr
  rcases hsmall with hnil | hle
  · rw [hnil] at hfix
    exact absurd hfix (by simp)
  · unfold MAX_LABEL_OFFSET at hle
    omega

theorem objection_of_run {fork : Fork} {calls : List Call} (he : (run fork calls).error = none) {c : Call}
    (hc : c ∈ calls) : ∃ a : Asm, a.fork = fork ∧ a.objection c = none := by
  obtain ⟨pre, post, rfl⟩ := List.append_of_mem hc
  have hpre : (run fork (pre ++ [c])).error = none :=
    error_of_run_append post (by rwa [List.append_assoc, List.singleton_append])
  rw [run_concat] at hpre
  exact ⟨run fork pre, fork_run fork pre, (Asm.step_ok hpre).2⟩

theorem mem_written {fork : Fork} {calls : List Call} {line : Line} (h : line ∈ written fork calls) :
    line.call ∈ calls ∧ line.call.item fork = some line.item := by
  obtain ⟨c, hc, hline⟩ := List.mem_filterMap.mp h
  obtain ⟨it, hit, rfl⟩ := Option.map_eq_some_iff.mp hline
  exact ⟨hc, hit⟩

/-- Finished bytes do what their calls were written for. -/
theorem means_of_finish {fork : Fork} {calls : List Call} {code : List UInt8} (h : (run fork calls).finish = .ok code) :
    ∀ line ∈ written fork calls, line.Means (labelAddr (items (written fork calls))) := by
  rintro ⟨c, it⟩ hline
  obtain ⟨hc, hitem⟩ := mem_written hline
  obtain ⟨a, rfl, hobj⟩ := objection_of_run (finish_ok h).1 hc
  refine means_of_item _ hobj hitem fun l hl => ?_
  subst hl
  obtain rfl := Option.some.inj hitem
  rw [items_written]
  exact (labelAddr_of_finish h (List.mem_filterMap.mpr ⟨_, hc, rfl⟩)).2

/-- **Assembled code runs as it was written.** -/
theorem finish_runs_as_written {fork : Fork} {calls : List Call} {code : List UInt8}
    (h : (run fork calls).finish = .ok code) : RunsAsWritten fork (written fork calls) code where
  runs keccak ext stack s hcode n := by
    have hassembles : Assembles fork (items (written fork calls)) code := items_written fork calls ▸ assembles_finish h
    rcases liftRel_cases ((hassembles.lockstep (means_of_finish h) keccak ext).run (s := ⟨0, stack, s⟩)
      (t := ⟨0, stack, s⟩) ⟨rfl, hcode⟩ n) with ⟨m, p, hm, hp, hrel⟩ | ⟨o, hm, hp⟩
    · rw [hm, hp, hrel.1]
      rfl
    · rw [hm, hp]
      rfl
  jumps keccak ext stack s i l hstack hi hnext := by
    obtain ⟨⟨c, it⟩, hline, rfl⟩ := Option.map_eq_some_iff.mp hi
    obtain ⟨⟨c', it'⟩, hline', hop⟩ := Option.map_eq_some_iff.mp hnext
    obtain ⟨hc, -⟩ := mem_written (List.mem_of_getElem? hline)
    obtain ⟨hmem, haddr⟩ := labelAddr_of_finish h (List.mem_filterMap.mpr ⟨_, hc, rfl⟩)
    rw [← items_written] at hmem haddr
    have hget := List.getElem?_idxOf hmem
    have htarget := targetAt_startOf hget rfl
    obtain ⟨⟨bind, -⟩, hat, rfl⟩ := Option.map_eq_some_iff.mp (List.getElem?_map.symm.trans hget)
    obtain rfl := item_dest (mem_written (List.mem_of_getElem? hat)).2
    refine ⟨_, by rw [hat]; rfl, ?_⟩
    have hword : (BitVec.ofNat 256 (labelAddr (items (written fork calls)) l)).toNat =
        labelAddr (items (written fork calls)) l := by
      rw [BitVec.toNat_ofNat, Nat.mod_eq_of_lt (haddr.trans (by norm_num))]
    have hpush : At.advance keccak ext (written fork calls) ⟨i, stack, s⟩ =
        .inl ⟨i + 1, BitVec.ofNat 256 (labelAddr (items (written fork calls)) l) :: stack, s⟩ := by
      unfold At.advance
      dsimp only
      rw [hline]
      dsimp only [Call.flow]
      rw [Flow.proceed, if_pos (by simpa using hstack)]
    have hjump : At.advance keccak ext (written fork calls)
        ⟨i + 1, BitVec.ofNat 256 (labelAddr (items (written fork calls)) l) :: stack, s⟩ =
        .inl ⟨(items (written fork calls)).idxOf (.dest l), stack, s⟩ := by
      have hrow : byMnemonic "JUMP" = some (op "JUMP" 0x56 1 0 false .control .frontier) := by decide +kernel
      have ho : opcodeOf 0x56 = .jump := rfl
      unfold At.advance
      dsimp only
      rw [hline', show c' = .op "JUMP" from hop]
      dsimp only [Call.flow]
      rw [hrow]
      dsimp only [op]
      rw [ho, Opcode.flow]
      dsimp only
      rw [hword, labelAddr, htarget]
    rw [runFor_of_step hpush, runFor_of_step hjump, runFor_zero]

theorem finish_runs_as_written_jump :
    RunsAsWritten .cancun (written .cancun [.pushLabel ⟨0⟩, .op "JUMP", .bind ⟨0⟩]) [0x61, 0, 4, 0x56, 0x5b] :=
  finish_runs_as_written (by decide +kernel)

end RustEvm.Codegen
