import RustEvm.Lib.Fallible
import RustEvm.Storage.Value

/-!
# RustEvm.Storage.Lock — the reentrancy lock

`acquire` and `dropLock` are the two functions of `ReentrancyLock`.  Around them stands a transaction: calls of the
contract that nest, each with the lock values it owns, and everything safe code can do with such a value.  The type is
a public unit struct, so that includes writing the value down without acquiring it (`Op.construct`).

`MutualExclusion` is what a state owes its callers.  It holds along a run if and only if no constructed value is
dropped while an acquired one is live (`mutual_exclusion_iff`).
-/

namespace RustEvm.Storage

open BigEndian Abi Evm Fallible

/-! ## The lock -/

/-- `keccak256("std_evm.reentrancy_lock")` -/
def lockSlot : U256 := .ofNat 32 0x30d335fe9363e130344aba988f030a187d71dff2f1cbda9b4d15586facd932da

/-- `ReentrancyLock::acquire`: whether it returns a lock; `false` is the panic. -/
def acquire : EvmM Bool := do
  if ← readFromTransient .bool lockSlot then
    return false
  writeToTransient .bool true lockSlot
  return true

/-- `Drop::drop` -/
def dropLock : EvmM Unit := writeToTransient .bool false lockSlot

/-- Whether the slot of the lock reads true. -/
def lockedIn (m : Machine) : Bool := ((readFromTransient .bool lockSlot).run m).1

theorem acquire_locked {m : Machine} (h : lockedIn m = true) : acquire.run m = (false, m) := by
  have hread : (readFromTransient .bool lockSlot).run m = (true, m) := Prod.ext h rfl
  rw [acquire, StateT.run_bind, hread]
  rfl

theorem acquire_free {m : Machine} (h : lockedIn m = false) :
    (acquire.run m).1 = true ∧ lockedIn (acquire.run m).2 = true := by
  have hread : (readFromTransient .bool lockSlot).run m = (false, m) := Prod.ext h rfl
  rw [acquire, StateT.run_bind, hread]
  refine ⟨rfl, ?_⟩
  show (Function.update m.transient lockSlot (U256.fromU64 1) lockSlot != U256.zero) = true
  rw [Function.update_self]
  decide

theorem lockedIn_dropLock (m : Machine) : lockedIn (dropLock.run m).2 = false := by
  show (Function.update m.transient lockSlot U256.zero lockSlot != U256.zero) = false
  rw [Function.update_self]
  decide

/-! ## Transactions -/

/-- Where a value of the type comes from. -/
inductive Origin
  | acquired
  | constructed
  deriving DecidableEq

/-- A call of the contract: the values it owns, and what a revert goes back to. -/
structure Frame where
  owned : List Origin
  savedMachine : Machine
  savedLeaked : List Origin

/-- A transaction; the innermost call is first. -/
structure State where
  machine : Machine
  frames : List Frame
  /-- values that no call owns any more and nothing will drop -/
  leaked : List Origin
  /-- the innermost call has panicked -/
  aborting : Bool

/-- The start of a transaction: transient storage is empty. -/
def start (m : Machine) : State := ⟨{ m with transient := fun _ => U256.zero }, [], [], false⟩

inductive Op
  /-- the expression `ReentrancyLock` -/
  | construct
  | acquire
  /-- the value number `i` of the innermost call goes out of scope -/
  | drop (i : ℕ)
  /-- `mem::forget` -/
  | forget (i : ℕ)
  /-- the contract is called, from outside or again from within -/
  | call
  /-- the innermost call ends; what it still owns is never dropped -/
  | ret
  /-- the innermost call reverts; nothing is dropped, its writes are undone -/
  | revert
  deriving DecidableEq

/-- Why an operation is not possible. -/
inductive Stuck
  | noCall
  | panicked
  | noValue
  deriving DecidableEq

/-- An operation of the innermost call. -/
def stepIn (st : State) (f : Frame) (rest : List Frame) : Op → Except Stuck State
  | .construct => .ok { st with frames := { f with owned := f.owned ++ [.constructed] } :: rest }
  | .acquire =>
    match acquire.run st.machine with
    | (true, m) => .ok { st with machine := m, frames := { f with owned := f.owned ++ [.acquired] } :: rest }
    | (false, m) => .ok { st with machine := m, aborting := true }
  | .drop i =>
    match f.owned[i]? with
    | none => .error .noValue
    | some _ => .ok { st with machine := (dropLock.run st.machine).2,
                              frames := { f with owned := f.owned.eraseIdx i } :: rest }
  | .forget i =>
    match f.owned[i]? with
    | none => .error .noValue
    | some v => .ok { st with frames := { f with owned := f.owned.eraseIdx i } :: rest, leaked := v :: st.leaked }
  | .call => .ok { st with frames := ⟨[], st.machine, st.leaked⟩ :: f :: rest }
  | .ret => .ok { st with frames := rest, leaked := f.owned ++ st.leaked }
  | .revert => .ok ⟨f.savedMachine, rest, f.savedLeaked, false⟩

/-- One operation; after a panic only the revert is possible. -/
def step (st : State) (op : Op) : Except Stuck State :=
  match st.frames with
  | [] => if op = .call then .ok { st with frames := [⟨[], st.machine, st.leaked⟩] } else .error .noCall
  | f :: rest => if st.aborting ∧ op ≠ .revert then .error .panicked else stepIn st f rest op

def run (m : Machine) (ops : List Op) : Except Stuck State := ops.foldlM step (start m)

/-! ## Mutual exclusion -/

/-- The number of locks returned by `acquire` that have not been dropped. -/
def liveLocks (leaked : List Origin) (frames : List Frame) : ℕ :=
  leaked.count .acquired + (frames.map fun f => f.owned.count .acquired).sum

def State.live (st : State) : ℕ := liveLocks st.leaked st.frames

/-- **What the lock promises in a state.** -/
structure MutualExclusion (st : State) : Prop where
  locked : 0 < st.live → lockedIn st.machine = true
  aborts : 0 < st.live → (acquire.run st.machine).1 = false ∧
    (acquire.run st.machine).2.transient = st.machine.transient
  single : st.live ≤ 1
  free : st.live = 0 → (acquire.run st.machine).1 = true

/-- An operation drops a value that was never acquired, while a lock is live. -/
def DropsForged (st : State) (op : Op) : Prop :=
  0 < st.live ∧ ∃ i, op = .drop i ∧ (st.frames.head?.bind fun f => f.owned[i]?) = some .constructed

/-- At most one lock is live, and the slot tells whether one is. -/
def Agrees (m : Machine) (leaked : List Origin) (frames : List Frame) : Prop :=
  liveLocks leaked frames ≤ 1 ∧ (lockedIn m = true ↔ 0 < liveLocks leaked frames)

/-- So it is now, and at every point a revert may go back to. -/
def Consistent (m : Machine) (leaked : List Origin) : List Frame → Prop
  | [] => Agrees m leaked []
  | f :: rest => Agrees m leaked (f :: rest) ∧ Consistent f.savedMachine f.savedLeaked rest

theorem Consistent.agrees {m : Machine} {leaked : List Origin} {frames : List Frame}
    (h : Consistent m leaked frames) : Agrees m leaked frames := by
  cases frames with
  | nil => exact h
  | cons f rest => exact h.1

theorem Agrees.mutualExclusion {st : State} (h : Agrees st.machine st.leaked st.frames) : MutualExclusion st := by
  obtain ⟨hle, hlocked⟩ := h
  refine ⟨hlocked.mpr, fun hlive => ?_, hle, fun hfree => ?_⟩
  · rw [acquire_locked (hlocked.mpr hlive)]
    exact ⟨rfl, rfl⟩
  · have hunlocked : lockedIn st.machine = false := by
      rw [← Bool.not_eq_true, hlocked]
      exact Nat.not_lt.mpr hfree.le
    exact (acquire_free hunlocked).1

/-! ## Steps -/

@[simp] theorem liveLocks_cons (leaked : List Origin) (f : Frame) (rest : List Frame) :
    liveLocks leaked (f :: rest) = f.owned.count .acquired + liveLocks leaked rest := by
  simp only [liveLocks, List.map_cons, List.sum_cons]
  omega

@[simp] theorem liveLocks_append (vs leaked : List Origin) (frames : List Frame) :
    liveLocks (vs ++ leaked) frames = vs.count .acquired + liveLocks leaked frames := by
  simp only [liveLocks, List.count_append]
  omega

/-- A value of the frame on top and the others. -/
theorem liveLocks_eraseIdx {f : Frame} {i : ℕ} {v : Origin} (h : f.owned[i]? = some v) (leaked : List Origin)
    (rest : List Frame) :
    liveLocks leaked (f :: rest) =
      [v].count .acquired + liveLocks leaked ({ f with owned := f.owned.eraseIdx i } :: rest) := by
  obtain ⟨hi, rfl⟩ := List.getElem?_eq_some_iff.mp h
  rw [liveLocks_cons, liveLocks_cons, ← (List.getElem_cons_eraseIdx_perm hi).count_eq, ← List.singleton_append,
    List.count_append, Nat.add_assoc]

/-- Only what is live now can have changed. -/
theorem Consistent.of_agrees {m m' : Machine} {leaked leaked' : List Origin} {frames : List Frame}
    (h : Consistent m leaked frames) (hnow : Agrees m' leaked' frames) : Consistent m' leaked' frames := by
  cases frames with
  | nil => exact hnow
  | cons f rest => exact ⟨hnow, h.2⟩

/-- A lock is returned only while none is live. -/
theorem Agrees.after_acquire {m : Machine} {leaked : List Origin} {f : Frame} {rest : List Frame}
    (h : Agrees m leaked (f :: rest)) (hm : lockedIn m = false) :
    Agrees (acquire.run m).2 leaked ({ f with owned := f.owned ++ [.acquired] } :: rest) := by
  have hnone : ¬ 0 < liveLocks leaked (f :: rest) := by
    rw [← h.2, hm]
    decide
  refine ⟨?_, ?_⟩
  · rw [liveLocks_cons] at hnone ⊢
    rw [List.count_append, List.count_singleton_self]
    omega
  · simp [(acquire_free hm).2]

/-- After a drop no lock is live: the value was the one, or a constructed one while there was none. -/
theorem Agrees.after_drop {st : State} {f : Frame} {rest : List Frame} {i : ℕ} {v : Origin}
    (h : Agrees st.machine st.leaked (f :: rest)) (hframes : st.frames = f :: rest) (hv : f.owned[i]? = some v)
    (hop : ¬ DropsForged st (.drop i)) :
    Agrees (dropLock.run st.machine).2 st.leaked ({ f with owned := f.owned.eraseIdx i } :: rest) := by
  have hlive : st.live = liveLocks st.leaked (f :: rest) := by rw [State.live, hframes]
  have hle := h.1
  rw [liveLocks_eraseIdx hv] at hle hlive
  have hzero : liveLocks st.leaked ({ f with owned := f.owned.eraseIdx i } :: rest) = 0 := by
    cases v with
    | acquired =>
      rw [List.count_singleton_self] at hle
      omega
    | constructed =>
      have hnot : ¬ 0 < st.live := fun h => hop ⟨h, i, rfl, by rw [hframes]; exact hv⟩
      omega
  refine ⟨hzero.le.trans (by norm_num), ?_⟩
  rw [hzero, lockedIn_dropLock]
  decide

/-- An operation that drops no constructed value at a bad time keeps the states consistent. -/
theorem stepIn_consistent {st st' : State} {f : Frame} {rest : List Frame} {op : Op}
    (hframes : st.frames = f :: rest) (hst : Consistent st.machine st.leaked (f :: rest))
    (hstep : stepIn st f rest op = .ok st') (hop : ¬ DropsForged st op) :
    Consistent st'.machine st'.leaked st'.frames := by
  obtain ⟨hnow, hsaved⟩ := hst
  cases op with
  | construct =>
    cases hstep
    refine ⟨?_, hsaved⟩
    simpa [Agrees] using hnow
  | acquire =>
    cases hm : lockedIn st.machine with
    | true =>
      simp only [stepIn, acquire_locked hm] at hstep
      cases hstep
      exact hframes ▸ ⟨hnow, hsaved⟩
    | false =>
      simp only [stepIn] at hstep
      rw [← Prod.mk.eta (p := acquire.run st.machine), (acquire_free hm).1] at hstep
      cases hstep
      exact ⟨hnow.after_acquire hm, hsaved⟩
  | drop i =>
    cases hv : f.owned[i]? with
    | none =>
      simp only [stepIn, hv] at hstep
      cases hstep
    | some v =>
      simp only [stepIn, hv] at hstep
      cases hstep
      exact ⟨hnow.after_drop hframes hv hop, hsaved⟩
  | forget i =>
    cases hv : f.owned[i]? with
    | none =>
      simp only [stepIn, hv] at hstep
      cases hstep
    | some v =>
      simp only [stepIn, hv] at hstep
      cases hstep
      have hsame : liveLocks (v :: st.leaked) ({ f with owned := f.owned.eraseIdx i } :: rest) =
          liveLocks st.leaked (f :: rest) := by
        rw [← List.singleton_append, liveLocks_append, liveLocks_eraseIdx hv]
      refine ⟨?_, hsaved⟩
      rw [Agrees, hsame]
      exact hnow
  | call =>
    cases hstep
    refine ⟨?_, hnow, hsaved⟩
    simpa [Agrees] using hnow
  | ret =>
    cases hstep
    apply hsaved.of_agrees
    rw [Agrees, liveLocks_append, ← liveLocks_cons]
    exact hnow
  | revert =>
    cases hstep
    exact hsaved

theorem step_consistent {st st' : State} {op : Op} (hst : Consistent st.machine st.leaked st.frames)
    (hstep : step st op = .ok st') (hop : ¬ DropsForged st op) :
    Consistent st'.machine st'.leaked st'.frames := by
  rw [step] at hstep
  split at hstep
  · rename_i hframes
    rw [hframes] at hst
    split at hstep
    · cases hstep
      refine ⟨?_, hst⟩
      have hnow : Agrees st.machine st.leaked [] := hst
      simpa [Agrees] using hnow
    · cases hstep
  · rename_i f rest hframes
    rw [hframes] at hst
    split at hstep
    · cases hstep
    · exact stepIn_consistent hframes hst hstep hop

/-- Dropping a constructed value while a lock is live unlocks it. -/
theorem not_mutualExclusion_of_dropsForged {st st' : State} {op : Op} (hstep : step st op = .ok st')
    (hop : DropsForged st op) : ¬ MutualExclusion st' := by
  obtain ⟨hlive, i, rfl, hv⟩ := hop
  rw [step] at hstep
  split at hstep
  · cases hstep
  rename_i f rest hframes
  rw [hframes] at hv
  have hv : f.owned[i]? = some .constructed := hv
  split at hstep
  · cases hstep
  simp only [stepIn, hv] at hstep
  cases hstep
  have hsame : liveLocks st.leaked ({ f with owned := f.owned.eraseIdx i } :: rest) = st.live := by
    rw [State.live, hframes, liveLocks_eraseIdx hv]
    exact (Nat.zero_add _).symm
  intro hexcl
  have hlocked := hexcl.locked (hlive.trans_eq hsame.symm)
  rw [lockedIn_dropLock] at hlocked
  cases hlocked

/-! ## Runs -/

/-- Along `ops`, no possible step drops a constructed value while a lock is live. -/
def NoForgedDrop (m : Machine) (ops : List Op) : Prop :=
  ∀ pre op st st', pre ++ [op] <+: ops → run m pre = .ok st → step st op = .ok st' → ¬ DropsForged st op

theorem start_consistent (m : Machine) : Consistent (start m).machine (start m).leaked (start m).frames := by
  have hfree : lockedIn (start m).machine = false := by
    show (U256.zero != U256.zero) = false
    decide
  show Agrees _ [] []
  rw [Agrees, hfree]
  decide

theorem run_concat {m : Machine} {pre : List Op} {op : Op} {st st' : State} (hrun : run m pre = .ok st)
    (hstep : step st op = .ok st') : run m (pre ++ [op]) = .ok st' := by
  rw [run, List.foldlM_append, ← run, hrun]
  show ([op].foldlM step st : Except Stuck State) = _
  rw [List.foldlM_cons, hstep]
  rfl

/-- A run without such a drop only reaches consistent states. -/
theorem run_consistent {m : Machine} {ops : List Op} {st : State} (hrun : run m ops = .ok st)
    (hops : NoForgedDrop m ops) : Consistent st.machine st.leaked st.frames := by
  have hinv : ∀ seen s a s',
      (run m seen = .ok s ∧ (NoForgedDrop m seen → Consistent s.machine s.leaked s.frames)) →
      step s a = .ok s' →
      (run m (seen ++ [a]) = .ok s' ∧
        (NoForgedDrop m (seen ++ [a]) → Consistent s'.machine s'.leaked s'.frames)) := by
    rintro seen s a s' ⟨hseen, hcons⟩ hstep
    refine ⟨run_concat hseen hstep, fun hno => ?_⟩
    have hprefix : NoForgedDrop m seen := fun pre op t t' hpre =>
      hno pre op t t' (hpre.trans (List.prefix_append _ _))
    exact step_consistent (hcons hprefix) hstep (hno seen a s s' (List.prefix_refl _) hseen hstep)
  have hend := foldlM_invariant
    (P := fun seen s => run m seen = .ok s ∧ (NoForgedDrop m seen → Consistent s.machine s.leaked s.frames))
    hinv (⟨rfl, fun _ => start_consistent m⟩ : run m [] = .ok (start m) ∧ _) hrun
  exact hend.2 hops

/-- **The lock gives mutual exclusion in every state of a run if and only if no step of the run drops a constructed
value while an acquired one is live.** -/
theorem mutual_exclusion_iff (m : Machine) (ops : List Op) :
    (∀ pre st, pre <+: ops → run m pre = .ok st → MutualExclusion st) ↔ NoForgedDrop m ops := by
  constructor
  · intro hexcl pre op st st' hpre hrun hstep hforged
    exact not_mutualExclusion_of_dropsForged hstep hforged (hexcl _ _ hpre (run_concat hrun hstep))
  · intro hno pre st hpre hrun
    have hprefix : NoForgedDrop m pre := fun pre' op t t' hpre' => hno pre' op t t' (hpre'.trans hpre)
    exact (run_consistent hrun hprefix).agrees.mutualExclusion

/-- A constructed value that is dropped lets `acquire` return a second lock. -/
theorem forged_drop_unlocks :
    ∃ st, run ⟨fun _ => 0, fun _ => U256.zero, fun _ => U256.zero⟩
        [.call, .acquire, .construct, .drop 1, .acquire] = .ok st ∧ st.live = 2 ∧ ¬ MutualExclusion st := by
  refine ⟨_, rfl, by decide +kernel, fun hexcl => ?_⟩
  exact absurd hexcl.single (by decide +kernel)

end RustEvm.Storage
