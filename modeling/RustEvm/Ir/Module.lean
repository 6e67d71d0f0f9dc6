import RustEvm.Ir.Builder
import RustEvm.Lib.Log

/-!
# RustEvm.Ir.Module — declarations, definitions and the entry of a module

The three vectors of a module are indexed by the handles that `declare` returns; indexing past their end is a panic,
`none` here.  A `Session` is a fresh module after a sequence of calls, with the replies to them.

While no more functions are declared than a handle can number, the vectors agree (`Module.Consistent`), later calls
only add to them (`Module.Extends`), and `verify` finds the first function without a body (`verify_iff`).
-/

namespace RustEvm.Ir

open Isa Log

/-- Construct from a position, cut to 32 bits. -/
def Func.new (index : ℕ) : Func := ⟨UInt32.ofNat index⟩
def Func.index (f : Func) : ℕ := f.id.toNat

theorem Func.index_new {n : ℕ} (h : n < 2 ^ 32) : (Func.new n).index = n := UInt32.toNat_ofNat_of_lt' h

/-- A whole program. -/
structure Module where
  fork : Fork
  names : List String
  sigs : List Signature
  /-- `none` for a function that has been declared but not defined. -/
  funcs : List (Option Function)
  entry : Option Func
  deriving DecidableEq

namespace Module

def new (fork : Fork) : Module := { fork, names := [], sigs := [], funcs := [], entry := none }

/-- Reserve a handle and a signature. -/
def declare (m : Module) (name : String) (sig : Signature) : Func × Module :=
  (Func.new m.names.length,
    { m with names := m.names ++ [name], sigs := m.sigs ++ [sig], funcs := m.funcs ++ [none] })

/-- Attach a body to a declaration. -/
def define (m : Module) (func : Func) (body : Function) : Option (Except IrError Unit × Module) := do
  let sig ← m.sigs[func.index]?
  if body.sig ≠ sig then
    let name ← m.names[func.index]?
    return (.error (.signatureMismatch func name), m)
  let slot ← m.funcs[func.index]?
  if slot.isSome then
    let name ← m.names[func.index]?
    return (.error (.alreadyDefined func name), m)
  return (.ok (), { m with funcs := m.funcs.set func.index (some body) })

def setEntry (m : Module) (func : Func) : Module := { m with entry := some func }

def signature (m : Module) (func : Func) : Option Signature := m.sigs[func.index]?

def name (m : Module) (func : Func) : Option String := m.names[func.index]?

/-- The body, or `none` inside if only declared. -/
def get (m : Module) (func : Func) : Option (Option Function) := m.funcs[func.index]?

/-- Every declared function, in declaration order: the method `funcs`. -/
def declared (m : Module) : List Func := (List.range m.names.length).map Func.new

/-- The loop of `verify`, and what comes after it. -/
def verifyFrom (m : Module) : List Func → Option (Except IrError Unit)
  | [] => if m.entry.isNone then some (.error .noEntry) else some (.ok ())
  | func :: funcs => do
    let body ← m.get func
    if body.isNone then
      let name ← m.names[func.index]?
      return .error (.undefined func name)
    m.verifyFrom funcs

/-- Whether every declaration has a body and an entry point is set. -/
def verify (m : Module) : Option (Except IrError Unit) := m.verifyFrom m.declared

end Module

/-! ## Calls -/

/-- A call on a module. -/
inductive ModuleCall
  | declare (name : String) (sig : Signature)
  | define (func : Func) (body : Function)
  | setEntry (func : Func)
  deriving DecidableEq

/-- What a call returns. -/
inductive ModuleReply
  | handle (func : Func)
  | result (r : Except IrError Unit)
  | unit

/-- The handle a call is made with. -/
def ModuleCall.handle? : ModuleCall → Option Func
  | declare _ _ => none
  | define func _ => some func
  | setEntry func => some func

/-- The function a call makes the entry. -/
def ModuleCall.entry? : ModuleCall → Option Func
  | setEntry func => some func
  | _ => none

def Module.step (m : Module) : ModuleCall → Option (ModuleReply × Module)
  | .declare name sig => some (.handle (m.declare name sig).1, (m.declare name sig).2)
  | .define func body => (m.define func body).map fun r => (.result r.1, r.2)
  | .setEntry func => some (.unit, m.setEntry func)

/-- A module with the replies to the calls made on it. -/
structure Session where
  replies : List ModuleReply
  program : Module

def Session.step (s : Session) (c : ModuleCall) : Option Session :=
  (s.program.step c).map fun r => ⟨s.replies ++ [r.1], r.2⟩

/-- A fresh module after a sequence of calls. -/
def Session.run (fork : Fork) (calls : List ModuleCall) : Option Session :=
  calls.foldlM Session.step ⟨[], Module.new fork⟩

/-- Every handle a call is made with was returned by an earlier call. -/
def HandlesReturned (fork : Fork) (calls : List ModuleCall) : Prop :=
  ∀ pre c post, calls = pre ++ c :: post → ∀ func ∈ c.handle?,
    ∀ s, Session.run fork pre = some s → ModuleReply.handle func ∈ s.replies

/-- How many functions are declared. -/
def declares (calls : List ModuleCall) : ℕ := calls.countP fun c => c.handle?.isNone

/-! ## One call -/

namespace Module

/-- The vectors agree, and every body has the signature declared for it. -/
structure Consistent (m : Module) : Prop where
  sigs : m.sigs.length = m.names.length
  funcs : m.funcs.length = m.names.length
  typed : ∀ (i : ℕ) body, m.funcs[i]? = some (some body) → m.sigs[i]? = some body.sig

/-- Names, signatures and bodies that are there stay. -/
structure Extends (m m' : Module) : Prop where
  names : m.names <+: m'.names
  sigs : m.sigs <+: m'.sigs
  bodies : ∀ (i : ℕ) body, m.funcs[i]? = some (some body) → m'.funcs[i]? = some (some body)

variable {m m' : Module}

theorem Extends.refl (m : Module) : m.Extends m := ⟨List.prefix_rfl, List.prefix_rfl, fun _ _ h => h⟩

theorem Extends.trans {m₁ m₂ m₃ : Module} (h : m₁.Extends m₂) (h' : m₂.Extends m₃) : m₁.Extends m₃ :=
  ⟨h.names.trans h'.names, h.sigs.trans h'.sigs, fun i body hi => h'.bodies i body (h.bodies i body hi)⟩

/-- What `define` reports and leaves: a wrong signature, a body that is there, or the body attached. -/
inductive Defined (m : Module) (func : Func) (body : Function) : Except IrError Unit → Module → Prop
  | mismatch {name : String} (hname : m.name func = some name) (hsig : m.signature func ≠ some body.sig) :
    Defined m func body (.error (.signatureMismatch func name)) m
  | again {name : String} {old : Function} (hname : m.name func = some name) (hsig : m.signature func = some body.sig)
      (hslot : m.get func = some (some old)) : Defined m func body (.error (.alreadyDefined func name)) m
  | attached {m' : Module} (hsig : m.signature func = some body.sig) (hslot : m.get func = some none)
      (heq : m' = { m with funcs := m.funcs.set func.index (some body) }) : Defined m func body (.ok ()) m'

/-- **What `define` does.** -/
theorem define_cases {func : Func} {body : Function} {r : Except IrError Unit}
    (h : m.define func body = some (r, m')) : m.Defined func body r m' := by
  unfold define at h
  rw [Option.bind_eq_bind, Option.bind_eq_some_iff] at h
  obtain ⟨sig, hsig, h⟩ := h
  by_cases hne : body.sig ≠ sig
  · rw [if_pos hne] at h
    obtain ⟨name, hname, h⟩ := Option.bind_eq_some_iff.mp h
    obtain ⟨rfl, rfl⟩ := Prod.mk.inj (Option.some.inj h)
    exact .mismatch hname fun heq => hne (Option.some.inj (heq.symm.trans hsig))
  · rw [if_neg hne] at h
    obtain rfl := not_not.mp hne
    obtain ⟨slot, hslot, h⟩ := Option.bind_eq_some_iff.mp h
    by_cases hsome : slot.isSome = true
    · rw [if_pos hsome] at h
      obtain ⟨name, hname, h⟩ := Option.bind_eq_some_iff.mp h
      obtain ⟨rfl, rfl⟩ := Prod.mk.inj (Option.some.inj h)
      obtain ⟨old, rfl⟩ := Option.isSome_iff_exists.mp hsome
      exact .again hname hsig hslot
    · rw [if_neg hsome] at h
      obtain ⟨rfl, rfl⟩ := Prod.mk.inj (Option.some.inj h)
      obtain rfl : slot = none := Option.not_isSome_iff_eq_none.mp hsome
      exact .attached hsig hslot rfl

/-- With a handle of the module `define` does not panic. -/
theorem define_isSome {func : Func} (hm : m.Consistent) (h : func.index < m.names.length) (body : Function) :
    (m.define func body).isSome = true := by
  obtain ⟨sig, hsig⟩ : ∃ sig, m.sigs[func.index]? = some sig :=
    ⟨_, List.getElem?_eq_getElem (by rw [hm.sigs]; exact h)⟩
  obtain ⟨slot, hslot⟩ : ∃ slot, m.funcs[func.index]? = some slot :=
    ⟨_, List.getElem?_eq_getElem (by rw [hm.funcs]; exact h)⟩
  unfold define
  rw [hsig, hslot, List.getElem?_eq_getElem h]
  simp only [Option.bind_eq_bind, Option.bind_some]
  by_cases hne : body.sig ≠ sig
  · rw [if_pos hne]
    rfl
  · rw [if_neg hne]
    split_ifs <;> rfl

theorem Consistent.new (fork : Fork) : (Module.new fork).Consistent :=
  ⟨rfl, rfl, fun i body h => by simp [Module.new] at h⟩

/-- A declared function has no body yet. -/
theorem getElem?_declared {funcs : List (Option Function)} {i : ℕ} {body : Function}
    (h : (funcs ++ [none])[i]? = some (some body)) : funcs[i]? = some (some body) := by
  rcases Nat.lt_trichotomy i funcs.length with hlt | rfl | hgt
  · rwa [List.getElem?_append_left hlt] at h
  · rw [List.getElem?_concat_length] at h
    exact absurd h (by simp)
  · rw [List.getElem?_eq_none (by rw [List.length_append, List.length_singleton]; omega)] at h
    exact absurd h (by simp)

/-- `declare` adds a name and a signature at the end. -/
theorem declare_keeps (hm : m.Consistent) (name : String) (sig : Signature) :
    (m.declare name sig).2.Consistent ∧ m.Extends (m.declare name sig).2 := by
  refine ⟨⟨?_, ?_, ?_⟩, ⟨List.prefix_append _ _, List.prefix_append _ _, ?_⟩⟩
  · simp [Module.declare, hm.sigs]
  · simp [Module.declare, hm.funcs]
  · intro i body hi
    have hold := getElem?_declared hi
    have hsig := hm.typed i body hold
    show (m.sigs ++ [sig])[i]? = _
    rwa [List.getElem?_append_left (List.getElem?_eq_some_iff.mp hsig).1]
  · intro i body hi
    show (m.funcs ++ [none])[i]? = _
    rwa [List.getElem?_append_left (List.getElem?_eq_some_iff.mp hi).1]

/-- `define` fills an empty slot with a body of the declared signature. -/
theorem attach_keeps (hm : m.Consistent) {func : Func} {body : Function} (hsig : m.sigs[func.index]? = some body.sig)
    (hslot : m.funcs[func.index]? = some none) :
    Consistent { m with funcs := m.funcs.set func.index (some body) } ∧
      m.Extends { m with funcs := m.funcs.set func.index (some body) } := by
  refine ⟨⟨hm.sigs, by rw [List.length_set]; exact hm.funcs, ?_⟩, ⟨List.prefix_rfl, List.prefix_rfl, ?_⟩⟩
  · intro i b hi
    change (m.funcs.set func.index (some body))[i]? = _ at hi
    by_cases hne : func.index = i
    · subst hne
      rw [List.getElem?_set_self (List.getElem?_eq_some_iff.mp hslot).1] at hi
      obtain rfl := Option.some.inj (Option.some.inj hi)
      exact hsig
    · rw [List.getElem?_set_ne hne] at hi
      exact hm.typed i b hi
  · intro i b hi
    have hne : func.index ≠ i := by
      rintro rfl
      rw [hslot] at hi
      exact absurd hi (by simp)
    show (m.funcs.set func.index (some body))[i]? = _
    rwa [List.getElem?_set_ne hne]

/-- **One call keeps the vectors in agreement** and what is in them in its place. -/
theorem step_keeps {c : ModuleCall} {r : ModuleReply} (hm : m.Consistent) (h : m.step c = some (r, m')) :
    m'.Consistent ∧ m.Extends m' := by
  cases c with
  | declare name sig =>
    obtain ⟨-, rfl⟩ := Prod.mk.inj (Option.some.inj h)
    exact declare_keeps hm name sig
  | define func body =>
    obtain ⟨⟨r', m''⟩, hdef, heq⟩ := Option.map_eq_some_iff.mp h
    obtain ⟨-, rfl⟩ := Prod.mk.inj heq
    cases define_cases hdef with
    | mismatch => exact ⟨hm, .refl _⟩
    | again => exact ⟨hm, .refl _⟩
    | attached hsig hslot heq => exact heq ▸ attach_keeps hm hsig hslot
  | setEntry func =>
    obtain ⟨-, rfl⟩ := Prod.mk.inj (Option.some.inj h)
    exact ⟨⟨hm.sigs, hm.funcs, hm.typed⟩, ⟨List.prefix_rfl, List.prefix_rfl, fun _ _ hi => hi⟩⟩

/-- **A `define` that returns an error changes nothing.** -/
theorem step_error {func : Func} {body : Function} {e : IrError}
    (h : m.step (.define func body) = some (.result (.error e), m')) : m' = m := by
  obtain ⟨⟨r', m''⟩, hdef, heq⟩ := Option.map_eq_some_iff.mp h
  obtain ⟨hr, rfl⟩ := Prod.mk.inj heq
  obtain rfl := ModuleReply.result.inj hr
  cases define_cases hdef with
  | mismatch => rfl
  | again => rfl

/-! ## Verification -/

/-- Every declared function has a body. -/
def AllDefined (m : Module) : Prop := ∀ slot ∈ m.funcs, slot.isSome = true

/-- What `verify` owes a module. -/
structure Verified (m : Module) (v : Option (Except IrError Unit)) : Prop where
  ok : v = some (.ok ()) ↔ m.AllDefined ∧ m.entry.isSome = true
  /-- The first function in declaration order that has no body. -/
  undefined : ∀ i name, IsLeast { i | m.funcs[i]? = some none } i → m.names[i]? = some name →
    v = some (.error (.undefined (Func.new i) name))
  noEntry : m.AllDefined → m.entry = none → v = some (.error .noEntry)

theorem verifyFrom_defined (fs fs' : List Func) (h : ∀ func ∈ fs, ∃ body, m.get func = some (some body)) :
    m.verifyFrom (fs ++ fs') = m.verifyFrom fs' := by
  induction fs with
  | nil => rfl
  | cons func fs ih =>
    obtain ⟨body, hbody⟩ := h func List.mem_cons_self
    rw [List.cons_append, verifyFrom, hbody]
    exact ih fun g hg => h g (List.mem_cons_of_mem _ hg)

theorem verifyFrom_undefined {func : Func} {name : String} (fs : List Func) (h : m.get func = some none)
    (hname : m.names[func.index]? = some name) :
    m.verifyFrom (func :: fs) = some (.error (.undefined func name)) := by
  rw [verifyFrom, h, hname]
  rfl

/-- Functions by their numbers. -/
theorem get_new (hsize : m.names.length ≤ 2 ^ 32) {i : ℕ} (hi : i < m.names.length) :
    m.get (Func.new i) = m.funcs[i]? := by
  rw [get, Func.index_new (by omega)]

/-- The first function without a body is reported. -/
theorem verify_undefined (hm : m.Consistent) (hsize : m.names.length ≤ 2 ^ 32) {i : ℕ} {name : String}
    (hleast : IsLeast { i | m.funcs[i]? = some none } i) (hname : m.names[i]? = some name) :
    m.verify = some (.error (.undefined (Func.new i) name)) := by
  have hi : i < m.names.length := (List.getElem?_eq_some_iff.mp hname).1
  obtain ⟨n, hn⟩ := Nat.exists_eq_add_of_lt hi
  have hsplit : m.declared =
      (List.range' 0 i).map Func.new ++ Func.new i :: (List.range' (i + 1) n).map Func.new := by
    rw [declared, List.range_eq_range', hn, show i + n + 1 = i + (n + 1) by omega, ← List.range'_append_1,
      Nat.zero_add, List.range'_succ, List.map_append, List.map_cons]
  rw [verify, hsplit, verifyFrom_defined]
  · refine verifyFrom_undefined _ ?_ ?_
    · rw [get_new hsize hi]
      exact hleast.1
    · rwa [Func.index_new (by omega)]
  · intro func hfunc
    obtain ⟨j, hj, rfl⟩ := List.mem_map.mp hfunc
    have hji : j < i := by
      have h := (List.mem_range'_1.mp hj).2
      omega
    have hlt : j < m.funcs.length := by
      rw [hm.funcs]
      omega
    rw [get_new hsize (by omega), List.getElem?_eq_getElem hlt]
    cases hbody : m.funcs[j] with
    | none => exact absurd (hleast.2 (List.getElem?_eq_some_iff.mpr ⟨hlt, hbody⟩)) (Nat.not_le.mpr hji)
    | some body => exact ⟨body, rfl⟩

/-- With all bodies there only the entry is left to look at. -/
theorem verify_allDefined (hm : m.Consistent) (hsize : m.names.length ≤ 2 ^ 32) (hall : m.AllDefined) :
    m.verify = m.verifyFrom [] := by
  rw [verify, ← List.append_nil m.declared]
  refine verifyFrom_defined _ _ fun func hfunc => ?_
  obtain ⟨i, hi, rfl⟩ := List.mem_map.mp hfunc
  have hlt := List.mem_range.mp hi
  have hslot := List.getElem?_eq_getElem (l := m.funcs) (i := i) (by rw [hm.funcs]; exact hlt)
  obtain ⟨body, hbody⟩ := Option.isSome_iff_exists.mp (hall _ (List.mem_of_getElem? hslot))
  exact ⟨body, by rw [get_new hsize hlt, hslot, hbody]⟩

/-- Some function is the first without a body, unless all have one. -/
theorem exists_first_undefined (hm : m.Consistent) (h : ¬ m.AllDefined) :
    ∃ (i : ℕ) (name : String), IsLeast { i | m.funcs[i]? = some none } i ∧ m.names[i]? = some name := by
  have hex : ∃ i : ℕ, m.funcs[i]? = some none := by
    unfold AllDefined at h
    push Not at h
    obtain ⟨slot, hmem, hslot⟩ := h
    obtain rfl := Option.not_isSome_iff_eq_none.mp hslot
    exact List.mem_iff_getElem?.mp hmem
  have hlt : Nat.find hex < m.names.length := by
    rw [← hm.funcs]
    exact (List.getElem?_eq_some_iff.mp (Nat.find_spec hex)).1
  exact ⟨_, _, ⟨Nat.find_spec hex, fun j hj => Nat.find_min' hex hj⟩, List.getElem?_eq_getElem hlt⟩

/-- **`verify` is exact.** -/
theorem verified (hm : m.Consistent) (hsize : m.names.length ≤ 2 ^ 32) : m.Verified m.verify := by
  have hnoEntry : m.AllDefined → m.entry = none → m.verify = some (.error .noEntry) := by
    intro hall hentry
    rw [verify_allDefined hm hsize hall, verifyFrom, hentry]
    rfl
  refine ⟨⟨fun hok => ?_, ?_⟩, fun i name hleast hname => verify_undefined hm hsize hleast hname, hnoEntry⟩
  · have hall : m.AllDefined := by
      by_contra hnot
      obtain ⟨i, name, hleast, hname⟩ := exists_first_undefined hm hnot
      exact absurd (hok.symm.trans (verify_undefined hm hsize hleast hname)) (by simp)
    refine ⟨hall, ?_⟩
    by_contra hentry
    have herr := hnoEntry hall (Option.not_isSome_iff_eq_none.mp hentry)
    exact absurd (hok.symm.trans herr) (by simp)
  · rintro ⟨hall, hentry⟩
    obtain ⟨func, hfunc⟩ := Option.isSome_iff_exists.mp hentry
    rw [verify_allDefined hm hsize hall, verifyFrom, hfunc]
    rfl

end Module

/-! ## A session -/

theorem Session.run_concat (fork : Fork) (calls : List ModuleCall) (c : ModuleCall) :
    Session.run fork (calls ++ [c]) = (Session.run fork calls).bind fun s => s.step c :=
  foldlM_concat Session.step _ calls c

theorem declares_concat (calls : List ModuleCall) (c : ModuleCall) :
    declares (calls ++ [c]) = declares calls + if c.handle?.isNone then 1 else 0 := by
  rw [declares, declares, List.countP_append, List.countP_singleton]

theorem handlesReturned_concat_iff {fork : Fork} {calls : List ModuleCall} {c : ModuleCall} :
    HandlesReturned fork (calls ++ [c]) ↔ HandlesReturned fork calls ∧
      ∀ func ∈ c.handle?, ∀ s, Session.run fork calls = some s → ModuleReply.handle func ∈ s.replies :=
  forall_concat_iff (P := fun pre (c : ModuleCall) => ∀ func ∈ c.handle?,
    ∀ s, Session.run fork pre = some s → ModuleReply.handle func ∈ s.replies)

/-- What the vectors and the replies owe the calls. -/
structure Session.Follows (s : Session) (calls : List ModuleCall) : Prop where
  consistent : s.program.Consistent
  length : s.program.names.length = declares calls
  replies : s.replies.length = calls.length
  /-- A handle is the number of its declaration, under which its name and its signature stand. -/
  handles : ∀ pre name sig post, calls = pre ++ .declare name sig :: post →
    s.replies[pre.length]? = some (.handle (Func.new (declares pre))) ∧
      s.program.names[declares pre]? = some name ∧ s.program.sigs[declares pre]? = some sig
  inside : ∀ func, ModuleReply.handle func ∈ s.replies → func.index < s.program.names.length
  entry : s.program.entry = (calls.filterMap ModuleCall.entry?).getLast?

theorem prefix_getElem? {α : Type*} {l l' : List α} (h : l <+: l') {i : ℕ} {a : α} (ha : l[i]? = some a) :
    l'[i]? = some a := by
  obtain ⟨t, rfl⟩ := h
  rwa [List.getElem?_append_left (List.getElem?_eq_some_iff.mp ha).1]

/-- With a handle of the session a call does not panic. -/
theorem Session.Follows.step_isSome {s : Session} {calls : List ModuleCall} (h : s.Follows calls) {c : ModuleCall}
    (hc : ∀ func ∈ c.handle?, ModuleReply.handle func ∈ s.replies) : ∃ s', s.step c = some s' := by
  have hstep : (s.program.step c).isSome = true := by
    cases c with
    | declare name sig => rfl
    | define func body =>
      show ((s.program.define func body).map _).isSome = true
      rw [Option.isSome_map]
      exact Module.define_isSome h.consistent (h.inside func (hc func rfl)) body
    | setEntry func => rfl
  obtain ⟨r, hr⟩ := Option.isSome_iff_exists.mp hstep
  exact ⟨⟨s.replies ++ [r.1], r.2⟩, by rw [Session.step, hr]; rfl⟩

/-- Only `declare` touches the names, and only `set_entry` the entry. -/
theorem Module.step_names {m m' : Module} {c : ModuleCall} {r : ModuleReply} (h : m.step c = some (r, m')) :
    m'.names.length = m.names.length + (if c.handle?.isNone then 1 else 0) ∧
      m'.entry = (c.entry?.or m.entry) ∧
      ∀ func, r = .handle func → c.handle? = none ∧ func = Func.new m.names.length := by
  cases c with
  | declare name sig =>
    obtain ⟨rfl, rfl⟩ := Prod.mk.inj (Option.some.inj h)
    refine ⟨List.length_append, rfl, fun func hfunc => ⟨rfl, ?_⟩⟩
    exact (ModuleReply.handle.inj hfunc).symm
  | define func body =>
    obtain ⟨⟨r', m''⟩, hdef, heq⟩ := Option.map_eq_some_iff.mp h
    obtain ⟨rfl, rfl⟩ := Prod.mk.inj heq
    refine ⟨?_, ?_, fun func hfunc => absurd hfunc (by simp)⟩
    · cases define_cases hdef with
      | mismatch | again => rfl
      | attached _ _ heq => rw [heq]; rfl
    · cases define_cases hdef with
      | mismatch | again => rfl
      | attached _ _ heq => rw [heq]; rfl
  | setEntry func =>
    obtain ⟨rfl, rfl⟩ := Prod.mk.inj (Option.some.inj h)
    exact ⟨rfl, rfl, fun func hfunc => absurd hfunc (by simp)⟩

/-- **A call keeps the session in step with its calls.** -/
theorem Session.Follows.concat {s s' : Session} {calls : List ModuleCall} {c : ModuleCall} (h : s.Follows calls)
    (hsize : declares (calls ++ [c]) ≤ 2 ^ 32) (hstep : s.step c = some s') : s'.Follows (calls ++ [c]) := by
  obtain ⟨⟨r, m'⟩, hr, rfl⟩ := Option.map_eq_some_iff.mp hstep
  obtain ⟨hcons, hext⟩ := Module.step_keeps h.consistent hr
  obtain ⟨hnames, hentry, hhandle⟩ := Module.step_names hr
  have hlength : m'.names.length = declares (calls ++ [c]) := by rw [hnames, h.length, declares_concat]
  refine ⟨hcons, hlength, ?_, ?_, ?_, ?_⟩
  · rw [List.length_append, List.length_append, h.replies]
    rfl
  · intro pre name sig post heq
    rcases concat_eq_append_cons_iff.mp heq with ⟨post', -, hcalls⟩ | ⟨-, rfl, rfl⟩
    · obtain ⟨hreply, hname, hsig⟩ := h.handles pre name sig post' hcalls
      exact ⟨prefix_getElem? (List.prefix_append _ _) hreply, prefix_getElem? hext.names hname,
        prefix_getElem? hext.sigs hsig⟩
    · obtain ⟨rfl, rfl⟩ := Prod.mk.inj (Option.some.inj hr)
      refine ⟨?_, ?_, ?_⟩
      · rw [← h.replies, ← h.length]
        exact List.getElem?_concat_length
      · rw [← h.length]
        exact List.getElem?_concat_length
      · rw [← h.length, ← h.consistent.sigs]
        exact List.getElem?_concat_length
  · intro func hfunc
    rcases List.mem_append.mp hfunc with hold | hnew
    · exact (h.inside func hold).trans_le hext.names.length_le
    · obtain ⟨hnone, rfl⟩ := hhandle func (List.mem_singleton.mp hnew).symm
      rw [hnone] at hnames
      have hlen : m'.names.length = s.program.names.length + 1 := hnames
      show (Func.new s.program.names.length).index < m'.names.length
      rw [Func.index_new (by omega)]
      omega
  · rw [hentry, h.entry, List.filterMap_append]
    cases hc : c.entry? with
    | none => simp [hc]
    | some func => simp [hc]

theorem Session.follows_run {fork : Fork} {calls : List ModuleCall} (h : HandlesReturned fork calls)
    (hsize : declares calls ≤ 2 ^ 32) : ∃ s, Session.run fork calls = some s ∧ s.Follows calls := by
  induction calls using List.reverseRecOn with
  | nil =>
    refine ⟨_, rfl, .new fork, rfl, rfl, ?_, ?_, rfl⟩
    · intro pre name sig post heq
      exact absurd heq (by simp)
    · intro func hfunc
      exact absurd hfunc (by simp)
  | append_singleton calls c ih =>
    obtain ⟨hcalls, hc⟩ := handlesReturned_concat_iff.mp h
    have hle : declares calls ≤ 2 ^ 32 := by
      rw [declares_concat] at hsize
      omega
    obtain ⟨s, hs, hfollows⟩ := ih hcalls hle
    obtain ⟨s', hs'⟩ := hfollows.step_isSome fun func hfunc => hc func hfunc s hs
    exact ⟨s', by rw [run_concat, hs, Option.bind_some, hs'], hfollows.concat hsize hs'⟩

/-- Later calls leave names, signatures and bodies in their place. -/
theorem Session.run_extends {fork : Fork} {pre post : List ModuleCall} {s s' : Session}
    (h : HandlesReturned fork (pre ++ post)) (hsize : declares (pre ++ post) ≤ 2 ^ 32)
    (hs : Session.run fork pre = some s) (hs' : Session.run fork (pre ++ post) = some s') :
    s.program.Extends s'.program := by
  induction post using List.reverseRecOn generalizing s' with
  | nil =>
    rw [List.append_nil, hs] at hs'
    rw [Option.some.inj hs']
    exact .refl _
  | append_singleton post c ih =>
    rw [← List.append_assoc] at h hsize hs'
    have hcalls := (handlesReturned_concat_iff.mp h).1
    have hle : declares (pre ++ post) ≤ 2 ^ 32 := by
      rw [declares_concat] at hsize
      omega
    obtain ⟨s₁, hs₁, hfollows⟩ := follows_run hcalls hle
    rw [run_concat, hs₁, Option.bind_some] at hs'
    obtain ⟨⟨r, m'⟩, hr, rfl⟩ := Option.map_eq_some_iff.mp hs'
    exact (ih hcalls hle hs₁).trans (Module.step_keeps hfollows.consistent hr).2

theorem HandlesReturned.of_append {fork : Fork} {pre post : List ModuleCall} (h : HandlesReturned fork (pre ++ post)) :
    HandlesReturned fork pre := by
  intro pre' c post' heq
  exact h pre' c (post' ++ post) (by rw [heq, List.append_assoc, List.cons_append])

/-- A `define` in the middle of a session is defined. -/
theorem Session.defines_of_run {fork : Fork} {pre post : List ModuleCall} {func : Func} {body : Function} {s₀ : Session}
    (h : HandlesReturned fork (pre ++ .define func body :: post))
    (hsize : declares (pre ++ .define func body :: post) ≤ 2 ^ 32) (hs₀ : Session.run fork pre = some s₀) :
    ∃ r m, s₀.program.step (.define func body) = some (.result r, m) ∧ s₀.program.Defined func body r m := by
  have hle : declares pre ≤ 2 ^ 32 := by
    rw [declares, List.countP_append] at hsize
    exact (Nat.le_add_right _ _).trans hsize
  obtain ⟨s, hs, hfollows⟩ := follows_run h.of_append hle
  obtain rfl := Option.some.inj (hs₀.symm.trans hs)
  have hreturned : ModuleReply.handle func ∈ s₀.replies := h pre _ post rfl func rfl s₀ hs₀
  obtain ⟨⟨r, m⟩, hdef⟩ := Option.isSome_iff_exists.mp
    (Module.define_isSome hfollows.consistent (hfollows.inside func hreturned) body)
  exact ⟨r, m, by rw [Module.step, hdef]; rfl, Module.define_cases hdef⟩

/-! ## The result -/

/-- A module after the calls is in agreement with them. -/
structure Session.Agrees (fork : Fork) (calls : List ModuleCall) (s : Session) : Prop where
  /-- A handle keeps the name and the signature it was declared with. -/
  handles : ∀ pre name sig post, calls = pre ++ .declare name sig :: post →
    ∃ func, s.replies[pre.length]? = some (.handle func) ∧ s.program.name func = some name ∧
      s.program.signature func = some sig
  /-- A body is not replaced. -/
  bodies : ∀ pre post s₀, calls = pre ++ post → Session.run fork pre = some s₀ →
    ∀ func body, s₀.program.get func = some (some body) → s.program.get func = some (some body)
  /-- Its signature is the one declared. -/
  typed : ∀ func body, s.program.get func = some (some body) → s.program.signature func = some body.sig
  /-- A `define` attaches its body, unless another signature was declared or there is a body already. -/
  defines : ∀ pre func body post s₀, calls = pre ++ .define func body :: post → Session.run fork pre = some s₀ →
    ∃ r m, s₀.program.step (.define func body) = some (.result r, m) ∧ s₀.program.Defined func body r m
  /-- A failing `define` changes nothing. -/
  failing : ∀ pre func body post s₀ e m, calls = pre ++ .define func body :: post → Session.run fork pre = some s₀ →
    s₀.program.step (.define func body) = some (.result (.error e), m) → m = s₀.program
  entry : s.program.entry = (calls.filterMap ModuleCall.entry?).getLast?
  declared : s.program.funcs.length = declares calls
  verified : s.program.Verified s.program.verify

/-- **Declarations and definitions stay in agreement**, whatever is called in whatever order, as long as a handle can
number every declaration. -/
theorem module_agreement (fork : Fork) (calls : List ModuleCall) (h : HandlesReturned fork calls)
    (hsize : declares calls ≤ 2 ^ 32) : ∃ s, Session.run fork calls = some s ∧ s.Agrees fork calls := by
  obtain ⟨s, hs, hfollows⟩ := Session.follows_run h hsize
  have hlen := hfollows.length
  refine ⟨s, hs, ?_, ?_, ?_, ?_, ?_, hfollows.entry, ?_, ?_⟩
  · intro pre name sig post heq
    obtain ⟨hreply, hname, hsig⟩ := hfollows.handles pre name sig post heq
    have hlt := (List.getElem?_eq_some_iff.mp hname).1
    have hindex : (Func.new (declares pre)).index = declares pre := Func.index_new (by omega)
    refine ⟨_, hreply, ?_, ?_⟩
    · rw [Module.name, hindex, hname]
    · rw [Module.signature, hindex, hsig]
  · rintro pre post s₀ rfl hs₀ func body hbody
    exact (Session.run_extends h hsize hs₀ hs).bodies _ _ hbody
  · exact fun func body hbody => hfollows.consistent.typed _ _ hbody
  · rintro pre func body post s₀ rfl hs₀
    exact Session.defines_of_run h hsize hs₀
  · exact fun pre func body post s₀ e m _ _ hstep => Module.step_error hstep
  · rw [hfollows.consistent.funcs, hlen]
  · exact Module.verified hfollows.consistent (hlen.trans_le hsize)

theorem handlesReturned_nil (fork : Fork) : HandlesReturned fork [] := fun pre c post heq => absurd heq (by simp)

theorem HandlesReturned.concat {fork : Fork} {calls : List ModuleCall} {c : ModuleCall} {s : Session}
    (h : HandlesReturned fork calls) (hs : Session.run fork calls = some s)
    (hc : ∀ func ∈ c.handle?, ModuleReply.handle func ∈ s.replies) : HandlesReturned fork (calls ++ [c]) := by
  refine handlesReturned_concat_iff.mpr ⟨h, fun func hfunc s' hs' => ?_⟩
  rw [← Option.some.inj (hs.symm.trans hs')]
  exact hc func hfunc

/-- Two functions, the second defined first and then again. -/
def twoFunctions : List ModuleCall :=
  [.declare "f" ⟨[], []⟩, .declare "g" ⟨[], []⟩, .define ⟨1⟩ (.new "g" ⟨[], []⟩), .define ⟨1⟩ (.new "g" ⟨[], []⟩),
    .setEntry ⟨0⟩]

theorem handlesReturned_twoFunctions : HandlesReturned .cancun twoFunctions := by
  have h₁ := (handlesReturned_nil .cancun).concat (c := .declare "f" ⟨[], []⟩) rfl (by simp [ModuleCall.handle?])
  have h₂ := h₁.concat (c := .declare "g" ⟨[], []⟩) rfl (by simp [ModuleCall.handle?])
  have hg : ∀ func ∈ (ModuleCall.define ⟨1⟩ (.new "g" ⟨[], []⟩)).handle?,
      ModuleReply.handle func ∈ [ModuleReply.handle (Func.new 0), .handle (Func.new 1)] := by
    rintro func hfunc
    rw [← Option.some.inj hfunc]
    exact List.mem_cons_of_mem _ List.mem_cons_self
  have h₃ := h₂.concat (c := .define ⟨1⟩ (.new "g" ⟨[], []⟩)) rfl hg
  have h₄ := h₃.concat (c := .define ⟨1⟩ (.new "g" ⟨[], []⟩)) rfl fun func hfunc =>
    List.mem_append_left _ (hg func hfunc)
  refine h₄.concat (c := .setEntry ⟨0⟩) rfl fun func hfunc => ?_
  rw [← Option.some.inj hfunc]
  exact List.mem_cons_self

theorem module_agreement_two :
    ∃ s, Session.run .cancun twoFunctions = some s ∧ s.Agrees .cancun twoFunctions :=
  module_agreement .cancun twoFunctions handlesReturned_twoFunctions (by decide)

/-- The session after `n` declarations of one name. -/
theorem run_replicate (fork : Fork) (name : String) (sig : Signature) (n : ℕ) :
    ∃ s, Session.run fork (List.replicate n (.declare name sig)) = some s ∧
      s.program.names = List.replicate n name ∧ s.replies.length = n := by
  induction n with
  | zero => exact ⟨_, rfl, rfl, rfl⟩
  | succ n ih =>
    obtain ⟨s, hs, hnames, hreplies⟩ := ih
    refine ⟨_, by rw [List.replicate_succ', Session.run_concat, hs]; rfl, ?_, ?_⟩
    · show s.program.names ++ [name] = _
      rw [hnames, List.replicate_succ']
    · show (s.replies ++ [_]).length = n + 1
      rw [List.length_append, hreplies]
      rfl

/-- When the handles wrap, the last function goes by the name of the first. -/
theorem not_agrees_of_wrap {n : ℕ} (hpos : 0 < n) (hwrap : Func.new n = Func.new 0) :
    ¬ ∃ s, Session.run .cancun (List.replicate n (.declare "f" ⟨[], []⟩) ++ [.declare "g" ⟨[], []⟩]) = some s ∧
      s.Agrees .cancun (List.replicate n (.declare "f" ⟨[], []⟩) ++ [.declare "g" ⟨[], []⟩]) := by
  rintro ⟨s, hs, hagrees⟩
  obtain ⟨s₀, hs₀, hnames, hreplies⟩ := run_replicate .cancun "f" ⟨[], []⟩ n
  obtain ⟨func, hfunc, hname, -⟩ := hagrees.handles _ "g" ⟨[], []⟩ [] rfl
  rw [Session.run_concat, hs₀, Option.bind_some] at hs
  obtain rfl := Option.some.inj hs
  change (s₀.replies ++ [ModuleReply.handle (Func.new s₀.program.names.length)])[_]? = _ at hfunc
  change (s₀.program.names ++ ["g"])[func.index]? = _ at hname
  rw [List.length_replicate, ← hreplies, List.getElem?_concat_length, hnames, List.length_replicate, hwrap] at hfunc
  rw [← ModuleReply.handle.inj (Option.some.inj hfunc), hnames, show (Func.new 0).index = 0 from rfl,
    List.getElem?_append_left (by rwa [List.length_replicate]), List.getElem?_replicate, if_pos hpos] at hname
  exact absurd (Option.some.inj hname) (by decide)

theorem handlesReturned_of_no_handle {fork : Fork} {calls : List ModuleCall} (h : ∀ c ∈ calls, c.handle? = none) :
    HandlesReturned fork calls := by
  rintro pre c post rfl func hfunc
  rw [h c (by simp)] at hfunc
  exact absurd hfunc (by simp)

/-- **One declaration more than handles**: 2 ^ 32 functions `f`, then a function `g`. -/
theorem module_agreement_fails :
    ¬ ∀ (fork : Fork) (calls : List ModuleCall), HandlesReturned fork calls →
      ∃ s, Session.run fork calls = some s ∧ s.Agrees fork calls := by
  intro h
  have hreturned : ∀ n : ℕ, HandlesReturned .cancun
      (List.replicate n (.declare "f" ⟨[], []⟩) ++ [.declare "g" ⟨[], []⟩]) := by
    intro n
    refine handlesReturned_of_no_handle fun c hc => ?_
    rcases List.mem_append.mp hc with hf | hg
    · rw [List.eq_of_mem_replicate hf]
      rfl
    · rw [List.mem_singleton.mp hg]
      rfl
  exact not_agrees_of_wrap (Nat.two_pow_pos 32) rfl (h .cancun _ (hreturned (2 ^ 32)))

end RustEvm.Ir
