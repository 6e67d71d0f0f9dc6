import RustEvm.Lib.Session
import RustEvm.Macros.Runtime
import RustEvm.Storage.Transaction

/-!
# RustEvm.Storage.Body — the bodies of methods

A `Body` is what a method does after its arguments are decoded: it asks for accesses through the accessors, for guards
and for the lock, and returns or panics.  The machine and the variables answer alike (`asks_alike`), and so do two
machines with the same words (`asks_same`).  What goes through the handles a body is given depends on them; through
none that is mutable nothing is written (`keeps_words`).
-/

namespace RustEvm.Storage

open BigEndian Abi Evm Macros Session Rollback

namespace Contract

variable (c : Contract)

/-- What a body can ask for. -/
inductive Ask
  | get (p : c.Var)
  | getMut (p : c.Var)
  | set (p : c.Var) (v : p.valueTy.Val)
  | acquire (k : c.Token)
  | drop (k : c.Token)

variable {c}

abbrev Ask.Answer : c.Ask → Type
  | .get p => p.valueTy.Val
  | .getMut p => p.valueTy.Val
  | .set _ _ => Unit
  | .acquire _ => Unit
  | .drop _ => Unit

variable (c)

/-- A body, with what it returns. -/
abbrev Body := Prog c.Ask Ask.Answer (Option Arg)

/-- The answers on the machine. -/
def surroundings (keccak : List UInt8 → U256) : Surroundings (Ask.Answer (c := c)) Machine
  | .get p, m => some ((getter keccak p).run m)
  | .getMut p, m => some ((getterMut keccak p).run m)
  | .set p v, m => some ((setter keccak p v).run m)
  | .acquire k, m => ((c.handler keccak).acquire k m).map ((), ·)
  | .drop k, m => some ((), (c.handler keccak).release k m)

/-- The answers of the variables. -/
def varsSurroundings : Surroundings (Ask.Answer (c := c)) c.Vars
  | .get p, s => some (p.valueTy.dec (s.word p), s)
  | .getMut p, s => some (p.valueTy.dec (s.word p), s)
  | .set p v, s => some ((), c.varsHandler.act (.set p v) s)
  | .acquire k, s => (c.varsHandler.acquire k s).map ((), ·)
  | .drop k, s => some ((), c.varsHandler.release k s)

variable {c}

/-- The accesses to some paths, with all guards and the lock. -/
def Ask.within (ps : List c.Var) : Set c.Ask :=
  {i | match i with
    | .get p => p ∈ ps
    | .getMut p => p ∈ ps
    | .set p _ => p ∈ ps
    | .acquire _ => True
    | .drop _ => True}

end Contract

/-! ## Alike -/

section

variable {c : Contract} {keccak : List UInt8 → U256} {ps : List c.Var}

theorem alike_of_rel {σ τ : Type} {S : σ → τ → Prop} {x : Option σ} {y : Option τ} (h : Option.Rel S x y) :
    Prog.Alike S (x.map (((), ·) : σ → Unit × σ)) (y.map ((), ·)) := by
  cases h with
  | some hxy => exact .some ⟨rfl, hxy⟩
  | none => exact .none

/-- **The machine answers what the variables answer.** -/
theorem asks_alike (h : Apart keccak ps) (i : c.Ask) (hi : i ∈ Contract.Ask.within ps) (m : Machine) (s : c.Vars)
    (hm : Holds keccak ps m s) : Prog.Alike (Holds keccak ps) (c.surroundings keccak i m) (c.varsSurroundings i s) := by
  have hsim := simulates h
  cases i with
  | get p => exact .some ⟨hm.shows.getter p hi, hsim.act (.get p) hi m s hm⟩
  | getMut p => exact .some ⟨hm.shows.getterMut p hi, hsim.act (.getMut p) hi m s hm⟩
  | set p v => exact .some ⟨rfl, hsim.act (.set p v) hi m s hm⟩
  | acquire k => exact alike_of_rel (hsim.acquire k m s hm)
  | drop k => exact .some ⟨rfl, hsim.release k m s hm⟩

/-- Machines that differ in memory only. -/
def SameWords (m m' : Machine) : Prop := words m = words m'

/-- What reads the words reads the same. -/
theorem Reads.alike {α : Type} {x : EvmM α} {f : (HandleKind × U256 → U256) → α} (hx : Reads x f) {m m' : Machine}
    (h : SameWords m m') : Prog.Alike SameWords (some (x.run m)) (some (x.run m')) := by
  obtain ⟨hval, hwords⟩ := hx m
  obtain ⟨hval', hwords'⟩ := hx m'
  exact .some ⟨by rw [hval, hval', h], by rw [SameWords, hwords, hwords', h]⟩

theorem words_release (k : c.Token) (m : Machine) : words ((c.handler keccak).release k m) =
    Function.update (words m) (.transient, tokenSlot k) (ValueTy.bool.enc false) := by
  cases k with
  | lock => exact words_writeToTransient false lockSlot m
  | guard p => exact words_writeToTransient false p.slot m

variable (keccak) in
/-- What is acquired is written to its slot, which for the lock must read false. -/
theorem acquire_cases (k : c.Token) (m : Machine) :
    k = .lock ∧ lockedIn m = true ∧ (c.handler keccak).acquire k m = none ∨
      ¬ (k = .lock ∧ lockedIn m = true) ∧ ∃ m', (c.handler keccak).acquire k m = some m' ∧
        words m' = Function.update (words m) (.transient, tokenSlot k) (ValueTy.bool.enc true) := by
  cases k with
  | lock =>
    have hif : (c.handler keccak).acquire .lock m = if (acquire.run m).1 then some (acquire.run m).2 else none := rfl
    cases hlocked : lockedIn m with
    | true =>
      refine .inl ⟨rfl, rfl, ?_⟩
      rw [hif, acquire_locked hlocked]
      rfl
    | false =>
      refine .inr ⟨by simp, (acquire.run m).2, ?_, words_acquire hlocked⟩
      rw [hif, (acquire_free hlocked).1]
      rfl
  | guard p => exact .inr ⟨by simp, _, rfl, words_writeToTransient true p.slot m⟩

variable (keccak) in
/-- **Machines with the same words answer alike.** -/
theorem asks_same (i : c.Ask) (m m' : Machine) (h : SameWords m m') :
    Prog.Alike SameWords (c.surroundings keccak i m) (c.surroundings keccak i m') := by
  cases i with
  | get p => exact (getter_reads p).alike h
  | getMut p => exact (getterMut_reads p).alike h
  | set p v => exact .some ⟨rfl, by rw [SameWords, setter_writes, setter_writes, h]⟩
  | acquire k =>
    refine alike_of_rel ?_
    have hlocked : lockedIn m = lockedIn m' := by rw [lockedIn_eq, lockedIn_eq, h]
    rcases acquire_cases keccak k m with ⟨hk, hm, hnone⟩ | ⟨hk, m₁, hsome, hwords⟩ <;>
      rcases acquire_cases keccak k m' with ⟨hk', hm', hnone'⟩ | ⟨hk', m₂, hsome', hwords'⟩
    · rw [hnone, hnone']
      exact .none
    · exact absurd ⟨hk, hlocked ▸ hm⟩ hk'
    · exact absurd ⟨hk', hlocked ▸ hm'⟩ hk
    · rw [hsome, hsome']
      exact .some (by rw [SameWords, hwords, hwords', h])
  | drop k => exact .some ⟨rfl, by rw [SameWords, words_release, words_release, h]⟩

/-! ## Handles -/

/-- The handles among what a function is passed: of which kind, and whether mutably. -/
def handed {V : Type} (passed : List (Passed V)) : List (HandleKind × Bool) :=
  passed.filterMap fun
    | .handle kind isMut _ => some (kind, isMut)
    | .arg _ => none

/-- What is asked for through some handles: a read through one of its space, a write through a mutable one.  A lock or a
guard is acquired through a mutable one (`WriteCap` for the lock), and what is dropped was acquired so.  That is more
than the source demands: nothing keeps a function from dropping a `ReentrancyLock` that it writes down. -/
def Contract.Ask.through (handles : List (HandleKind × Bool)) : Set c.Ask :=
  {i | match i with
    | .get p => ∃ isMut, (p.1, isMut) ∈ handles
    | .getMut p => (p.1, true) ∈ handles
    | .set p _ => (p.1, true) ∈ handles
    | .acquire .lock => ∃ kind, (kind, true) ∈ handles
    | .drop .lock => ∃ kind, (kind, true) ∈ handles
    | .acquire (.guard _) => (.transient, true) ∈ handles
    | .drop (.guard _) => (.transient, true) ∈ handles}

/-- **Through handles that are not mutable nothing is written.** -/
theorem keeps_words {handles : List (HandleKind × Bool)} (hview : ∀ h ∈ handles, h.2 = false) (i : c.Ask)
    (hi : i ∈ Contract.Ask.through handles) (m : Machine) (x) (hx : c.surroundings keccak i m = some x) :
    words x.2 = words m := by
  have hnone : ∀ kind, (kind, true) ∉ handles := fun kind hmem => Bool.noConfusion (hview _ hmem)
  cases i with
  | get p =>
    obtain rfl := Option.some.inj hx
    exact (getter_reads p m).2
  | getMut p => exact absurd hi (hnone _)
  | set p v => exact absurd hi (hnone _)
  | acquire k =>
    cases k with
    | lock => exact absurd hi.choose_spec (hnone _)
    | guard p => exact absurd hi (hnone _)
  | drop k =>
    cases k with
    | lock => exact absurd hi.choose_spec (hnone _)
    | guard p => exact absurd hi (hnone _)

end

end RustEvm.Storage
