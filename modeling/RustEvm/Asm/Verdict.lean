import RustEvm.Asm.Labels

/-!
# RustEvm.Asm.Verdict — what `finish` accepts

Whether a call is illegal in itself is said from the calls alone (`Call.illegal`), and so is the length of the code
they assemble (`assembledLength`).  `Judged` is the verdict `finish` owes: the first illegal call, then code too long
to address, then the first unbound reference, then acceptance.  It is the verdict `finish` gives, but for code that
ends exactly at the highest address (`judged_iff`).
-/

namespace RustEvm.Codegen

open Isa BigEndian Backpatch Frames

/-! ## Legal calls -/

/-- The error of a call illegal in itself, given the calls before it. -/
def Call.illegal (fork : Fork) (before : List Call) : Call → Option AsmError
  | .op mnemonic =>
    match byMnemonic mnemonic with
    | none => some (.unknownMnemonic mnemonic)
    | some spec =>
      match opForm spec with
      | .simple => if fork < spec.minFork then some (.opcodeTooNew spec.mnemonic spec.minFork fork) else none
      | .push _ => some (.useHelperInstead spec.mnemonic "push")
      | .dup _ => some (.useHelperInstead spec.mnemonic "dup")
      | .swap _ => some (.useHelperInstead spec.mnemonic "swap")
  | .dup n => if 1 ≤ n ∧ n ≤ 16 then none else some (.badStackDepth "dup" n)
  | .swap n => if 1 ≤ n ∧ n ≤ 16 then none else some (.badStackDepth "swap" n)
  | .bind l => if .bind l ∈ before then some (.labelAlreadyBound l) else none
  | .push _ | .label | .pushLabel _ => none

/-- No call is illegal in itself. -/
def AllLegal (fork : Fork) (calls : List Call) : Prop :=
  ∀ pre c post, calls = pre ++ c :: post → c.illegal fork pre = none

/-- The bytes a legal call assembles to. -/
def Call.size (fork : Fork) : Call → ℕ
  | .op _ | .dup _ | .swap _ | .bind _ => 1
  | .push value => if value.width = 0 then (if fork < .shanghai then 2 else 1) else 1 + value.width
  | .label => 0
  | .pushLabel _ => 3

def assembledLength (fork : Fork) (calls : List Call) : ℕ := (calls.map (Call.size fork)).sum

variable {fork : Fork} {calls : List Call}

theorem allLegal_nil : AllLegal fork [] := fun pre c post h => absurd h (by simp)

theorem allLegal_concat {c : Call} :
    AllLegal fork (calls ++ [c]) ↔ AllLegal fork calls ∧ c.illegal fork calls = none :=
  Log.forall_concat_iff (P := fun before (c : Call) => c.illegal fork before = none)

/-- What the assembler objects to is what is illegal. -/
theorem objection_run (h : (run fork calls).error = none) (c : Call) :
    (run fork calls).objection c = c.illegal fork calls := by
  cases c with
  | bind l =>
    have hbound : ((run fork calls).labels.lookup l).isSome ↔ .bind l ∈ calls := by
      rw [List.lookup_isSome_iff]
      constructor
      · rintro ⟨⟨l', p⟩, hmem, heq⟩
        obtain rfl : l = l' := by simpa using heq
        obtain ⟨pre, post, rfl, -⟩ := (labels_from_bind h l p).mp hmem
        simp
      · intro hmem
        obtain ⟨pre, post, rfl⟩ := List.append_of_mem hmem
        exact ⟨(l, _), (labels_from_bind h l _).mpr ⟨pre, post, rfl, rfl⟩, beq_self_eq_true l⟩
    simp only [Asm.objection, Call.illegal, hbound]
  | op mnemonic =>
    cases hrow : byMnemonic mnemonic with
    | none => simp only [Asm.objection, Call.illegal, hrow]
    | some spec => cases hform : opForm spec <;> simp only [Asm.objection, Call.illegal, hrow, hform, fork_run]
  | _ => rfl

/-- **No error** is exactly no illegal call. -/
theorem error_run_eq_none_iff : (run fork calls).error = none ↔ AllLegal fork calls := by
  induction calls using List.reverseRecOn with
  | nil => exact ⟨fun _ => allLegal_nil, fun _ => rfl⟩
  | append_singleton calls c ih =>
    rw [allLegal_concat, ← ih, run_concat]
    constructor
    · intro h
      obtain ⟨he, ho⟩ := Asm.step_ok h
      exact ⟨he, objection_run he c ▸ ho⟩
    · rintro ⟨he, hc⟩
      rw [Asm.step_eq he, objection_run he, hc]
      cases Call.item (run fork calls).fork c <;> exact he

/-- **The first illegal call** leaves its error, and nothing is assembled from it on. -/
theorem run_of_illegal {pre post : List Call} {c : Call} {e : AsmError} (hpre : AllLegal fork pre)
    (hc : c.illegal fork pre = some e) :
    (run fork (pre ++ c :: post)).error = some e ∧ (run fork (pre ++ c :: post)).code = (run fork pre).code := by
  have he := error_run_eq_none_iff.mpr hpre
  induction post using List.reverseRecOn with
  | nil =>
    rw [run_concat, Asm.step_eq he, objection_run he, hc]
    exact ⟨by simp [Asm.fail, he], rfl⟩
  | append_singleton post d ih =>
    rw [← List.cons_append, ← List.append_assoc, run_concat]
    obtain ⟨n, hn⟩ := Asm.step_of_error ih.1 d
    rw [hn]
    exact ih

/-! ## Lengths and references -/

/-- A legal call appends the bytes of its size. -/
theorem length_step {a : Asm} {c : Call} (h : (a.step c).error = none) :
    (a.step c).code.length = a.code.length + c.size a.fork := by
  obtain ⟨he, ho⟩ := Asm.step_ok h
  rw [Asm.step_of_ok h]
  cases c with
  | op mnemonic =>
    cases hrow : byMnemonic mnemonic with
    | none => simp [Asm.objection, hrow] at ho
    | some spec => simp [Call.item, Call.size, hrow]
  | push value =>
    have hlen := value.length_drop_width
    by_cases hw : value.width = 0
    · by_cases hf : a.fork < .shanghai <;> simp [Call.item, Call.size, hw, hf]
    · simp [Call.item, Call.size, hw, hlen, Nat.add_comm]
  | label => rfl
  | bind l => simp [Call.item, Call.size, Asm.emit_dest]
  | pushLabel l => simp [Call.item, Call.size, Asm.emit_ref]
  | _ => simp [Call.item, Call.size]

theorem length_run (h : AllLegal fork calls) : (run fork calls).code.length = assembledLength fork calls := by
  induction calls using List.reverseRecOn with
  | nil => rfl
  | append_singleton calls c ih =>
    have he := error_run_eq_none_iff.mpr h
    rw [run_concat] at he ⊢
    rw [length_step he, ih (allLegal_concat.mp h).1, fork_run]
    simp [assembledLength]

/-- The label a call refers to. -/
def Call.target : Call → Option Label
  | .pushLabel l => some l
  | _ => none

theorem refs_program (fork : Fork) (calls : List Call) : refs (program fork calls) = calls.filterMap Call.target := by
  rw [refs, program, List.filterMap_map, List.filterMap_filterMap]
  refine List.filterMap_congr fun c _ => ?_
  cases c with
  | op mnemonic =>
    rw [Call.item]
    cases byMnemonic mnemonic <;> rfl
  | push value =>
    rw [Call.item]
    split_ifs <;> rfl
  | _ => rfl

theorem isNone_lookup_iff (h : AllLegal fork calls) (l : Label) :
    ((run fork calls).labels.lookup l).isNone ↔ .bind l ∉ calls := by
  have hobj := objection_run (error_run_eq_none_iff.mpr h) (.bind l)
  simp only [Asm.objection, Call.illegal] at hobj
  cases hl : (run fork calls).labels.lookup l <;> by_cases hb : .bind l ∈ calls <;> simp_all

theorem fixups_ne_nil_iff (h : AllLegal fork calls) : (run fork calls).fixups ≠ [] ↔ ∃ l, .pushLabel l ∈ calls := by
  have he := error_run_eq_none_iff.mpr h
  constructor
  · intro hne
    obtain ⟨⟨l, p⟩, hmem⟩ := List.exists_mem_of_ne_nil _ hne
    obtain ⟨pre, post, rfl, -⟩ := (fixups_from_pushLabel he l p).mp hmem
    exact ⟨l, by simp⟩
  · rintro ⟨l, hl⟩
    obtain ⟨pre, post, rfl⟩ := List.append_of_mem hl
    exact List.ne_nil_of_mem ((fixups_from_pushLabel he l _).mpr ⟨pre, post, rfl, rfl⟩)

/-! ## The verdict -/

/-- A label is referenced, and the code has an offset that no `PUSH2` can name. -/
def TooLarge (fork : Fork) (calls : List Call) : Prop :=
  (∃ l, .pushLabel l ∈ calls) ∧ ∃ i, 65535 < i ∧ i < assembledLength fork calls

/-- **The verdict `finish` owes**: the first illegal call, with nothing assembled from it on; else code too large to
address; else the first unbound reference; else acceptance. -/
structure Judged (fork : Fork) (calls : List Call) (result : Except AsmError (List UInt8)) : Prop where
  illegal : ∀ pre c post e, calls = pre ++ c :: post → AllLegal fork pre → c.illegal fork pre = some e →
    result = .error e ∧ (run fork calls).code = (run fork pre).code
  large : AllLegal fork calls → TooLarge fork calls →
    result = .error (.codeTooLargeToAddress (assembledLength fork calls))
  unbound : AllLegal fork calls → ¬ TooLarge fork calls → ∀ pre l post, calls = pre ++ .pushLabel l :: post →
    .bind l ∉ calls → (∀ l', .pushLabel l' ∈ pre → .bind l' ∈ calls) → result = .error (.unboundLabel l)
  accepted : AllLegal fork calls → ¬ TooLarge fork calls → (∀ l, .pushLabel l ∈ calls → .bind l ∈ calls) →
    ∃ code, result = .ok code

theorem finish_of_error {a : Asm} {e : AsmError} (h : a.error = some e) : a.finish = .error e := by
  rw [Asm.finish, h]

/-- Code of more than 65535 bytes with a reference is refused. -/
theorem finish_large (h : AllLegal fork calls) (hlen : 65535 < assembledLength fork calls)
    (href : ∃ l, .pushLabel l ∈ calls) :
    (run fork calls).finish = .error (.codeTooLargeToAddress (assembledLength fork calls)) := by
  have he := error_run_eq_none_iff.mpr h
  rw [finish_eq he (represents_run he), length_run h]
  exact if_pos ⟨hlen, (fixups_ne_nil_iff h).mpr href⟩

/-- Otherwise the first reference without a `bind` decides. -/
theorem finish_small (h : AllLegal fork calls)
    (hsmall : ¬ (65535 < assembledLength fork calls ∧ ∃ l, .pushLabel l ∈ calls)) :
    (∀ pre l post, calls = pre ++ .pushLabel l :: post → .bind l ∉ calls →
      (∀ l', .pushLabel l' ∈ pre → .bind l' ∈ calls) → (run fork calls).finish = .error (.unboundLabel l)) ∧
    ((∀ l, .pushLabel l ∈ calls → .bind l ∈ calls) → ∃ code, (run fork calls).finish = .ok code) := by
  have he := error_run_eq_none_iff.mpr h
  have hbound : ∀ cs : List Call, (∀ l, .pushLabel l ∈ cs → .bind l ∈ calls) →
      (cs.filterMap Call.target).find? (fun l => ((run fork calls).labels.lookup l).isNone) = none := by
    intro cs hcs
    refine List.find?_eq_none.mpr fun l hl => ?_
    obtain ⟨c, hc, htarget⟩ := List.mem_filterMap.mp hl
    cases c with
    | pushLabel l' =>
      obtain rfl := Option.some.inj htarget
      rw [isNone_lookup_iff h]
      exact not_not_intro (hcs l' hc)
    | _ => exact absurd htarget (by simp [Call.target])
  rw [finish_eq he (represents_run he), length_run h, refs_program,
    if_neg fun hlarge => hsmall ⟨hlarge.1, (fixups_ne_nil_iff h).mp hlarge.2⟩]
  refine ⟨fun pre l post heq hl hpre => ?_, fun hall => ?_⟩
  · have hfind : (calls.filterMap Call.target).find? (fun l => ((run fork calls).labels.lookup l).isNone) = some l := by
      rw [heq, List.filterMap_append, List.find?_append, ← heq, hbound pre hpre, Option.none_or]
      exact List.find?_cons_of_pos ((isNone_lookup_iff h l).mpr hl)
    rw [hfind]
  · rw [hbound calls hall]
    exact ⟨_, rfl⟩

/-- There is a first reference without a `bind`, if there is one. -/
theorem exists_first_unbound (h : ¬ ∀ l, .pushLabel l ∈ calls → .bind l ∈ calls) :
    ∃ pre l post, calls = pre ++ .pushLabel l :: post ∧ .bind l ∉ calls ∧
      ∀ l', .pushLabel l' ∈ pre → .bind l' ∈ calls := by
  let p : Call → Bool := fun c => (c.target.map fun l => decide (.bind l ∉ calls)).getD false
  have hp : ∀ l, p (.pushLabel l) = true ↔ .bind l ∉ calls := by simp [p, Call.target]
  push Not at h
  obtain ⟨l, hl, hbind⟩ := h
  obtain ⟨c, hc⟩ := Option.isSome_iff_exists.mp (List.find?_isSome.mpr ⟨_, hl, (hp l).mpr hbind⟩)
  obtain ⟨hpc, pre, post, heq, hpre⟩ := List.find?_eq_some_iff_append.mp hc
  cases c with
  | pushLabel l =>
    refine ⟨pre, l, post, heq, (hp l).mp hpc, fun l' hl' => ?_⟩
    by_contra hb
    simpa [(hp l').mpr hb] using hpre _ hl'
  | _ => exact absurd hpc (by simp [p, Call.target])

/-- **`finish` gives the verdict it owes** unless the calls are legal, refer to a label and assemble to exactly 65536
bytes. -/
theorem judged_iff (fork : Fork) (calls : List Call) :
    Judged fork calls (run fork calls).finish ↔
      ¬ (AllLegal fork calls ∧ (∃ l, .pushLabel l ∈ calls) ∧ assembledLength fork calls = 65536) := by
  constructor
  · rintro hj ⟨hlegal, href, hlen⟩
    have hlarge := finish_large hlegal (by omega) href
    have hnot : ¬ TooLarge fork calls := by
      rintro ⟨-, i, hi, hi'⟩
      omega
    by_cases hall : ∀ l, .pushLabel l ∈ calls → .bind l ∈ calls
    · obtain ⟨code, hcode⟩ := hj.accepted hlegal hnot hall
      rw [hlarge] at hcode
      exact absurd hcode (by simp)
    · obtain ⟨pre, l, post, heq, hl, hpre⟩ := exists_first_unbound hall
      have hunbound := hj.unbound hlegal hnot pre l post heq hl hpre
      rw [hlarge] at hunbound
      exact absurd hunbound (by simp)
  · intro hne
    have hsmall : AllLegal fork calls → ¬ TooLarge fork calls →
        ¬ (65535 < assembledLength fork calls ∧ ∃ l, .pushLabel l ∈ calls) := by
      rintro hlegal hnot ⟨hlen, href⟩
      by_cases heq : assembledLength fork calls = 65536
      · exact hne ⟨hlegal, href, heq⟩
      · exact hnot ⟨href, 65536, by omega, by omega⟩
    refine ⟨fun pre c post e heq hpre hc => ?_, fun hlegal hlarge => ?_, fun hlegal hnot => ?_, fun hlegal hnot => ?_⟩
    · rw [heq]
      obtain ⟨herr, hcode⟩ := run_of_illegal hpre hc
      exact ⟨finish_of_error herr, hcode⟩
    · obtain ⟨href, i, hi, hi'⟩ := hlarge
      exact finish_large hlegal (by omega) href
    · exact (finish_small hlegal (hsmall hlegal hnot)).1
    · exact (finish_small hlegal (hsmall hlegal hnot)).2

/-! ## Code of exactly 65536 bytes -/

/-- A jump over `n` times `STOP`. -/
def stopCalls (n : ℕ) : List Call := [.pushLabel ⟨0⟩, .bind ⟨0⟩] ++ List.replicate n (.op "STOP")

theorem allLegal_stopCalls (n : ℕ) : AllLegal .cancun (stopCalls n) := by
  induction n with
  | zero =>
    have href : AllLegal .cancun [.pushLabel ⟨0⟩] := allLegal_concat.mpr ⟨allLegal_nil, rfl⟩
    exact allLegal_concat.mpr ⟨href, by decide⟩
  | succ n ih =>
    rw [stopCalls, List.replicate_succ', ← List.append_assoc]
    refine allLegal_concat.mpr ⟨ih, ?_⟩
    show Call.illegal .cancun [] (.op "STOP") = none
    decide +kernel

theorem assembledLength_stopCalls (n : ℕ) : assembledLength .cancun (stopCalls n) = n + 4 := by
  simp [assembledLength, stopCalls, Call.size]
  omega

theorem bind_mem_stopCalls {n : ℕ} {l : Label} (h : .pushLabel l ∈ stopCalls n) : .bind l ∈ stopCalls n := by
  have hl : l = ⟨0⟩ := by simpa [stopCalls] using h
  simp [stopCalls, hl]

/-- **The boundary is refused**: every offset can be named, and `finish` says the code is too large. -/
theorem judged_fails : ¬ Judged .cancun (stopCalls 65532) (run .cancun (stopCalls 65532)).finish := by
  intro hj
  have hlegal := allLegal_stopCalls 65532
  have hlen := assembledLength_stopCalls 65532
  have hlarge := finish_large hlegal (by omega) ⟨⟨0⟩, List.mem_cons_self⟩
  obtain ⟨code, hcode⟩ := hj.accepted hlegal (by rintro ⟨-, i, hi, hi'⟩; omega) fun l hl => bind_mem_stopCalls hl
  rw [hlarge] at hcode
  exact absurd hcode (by simp)

end RustEvm.Codegen
