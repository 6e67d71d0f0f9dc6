import RustEvm.Lib.Rollback
import RustEvm.Storage.Independence
import RustEvm.Storage.Lock

/-!
# RustEvm.Storage.Transaction — variables, guards and the lock in one transaction

In a transaction the calls of a contract use the accessors of both layouts, the guards of transient flags and the
reentrancy lock, call the contract again, and revert.  A guard, like the lock, clears what it set when it is dropped.
Every guard here comes from an accessor and every lock from `acquire`; the source also lets one write down a
`ReentrancyLock` (see `RustEvm.Storage.Lock`) or make a guard for any slot, and what comes of that is left out.

`transaction_refines` says what all of it comes to: variables that are independent of each other and of the lock, and
that a revert puts back.  `guards_tell_iff` is about guards: a flag tells whether a guard on it is live, until one is
dropped while another one is.
-/

namespace RustEvm.Storage

open BigEndian Abi Evm Macros HashChain Variables Rollback Contract

/-! ## Guards -/

/-- `TransientGuard::acquire` -/
def acquireGuard (slot : U256) : EvmM Unit := writeToTransient .bool true slot

/-- `Drop::drop` of a guard. -/
def dropGuard (slot : U256) : EvmM Unit := writeToTransient .bool false slot

namespace Contract

variable (c : Contract)

/-- A plain `bool` field of the transient layout: its accessors include a guard. -/
structure Flag where
  var : c.Var
  transient : var.1 = .transient
  plain : var.accessor.shape = .value .bool
  deriving DecidableEq

variable {c}

/-- `U256::from_u64(slot)`, what the guard accessor passes. -/
def Flag.slot (p : c.Flag) : U256 := U256.fromU64 p.var.accessor.slot

variable (c)

/-- What a call can own. -/
inductive Token
  | lock
  | guard (p : c.Flag)
  deriving DecidableEq

/-- The calls of a contract on the machine. -/
def handler (keccak : List UInt8 → U256) : Handler Machine c.Call c.Token where
  act call m := ((call.run keccak).run m).2
  acquire
    | .lock, m => if (acquire.run m).1 then some (acquire.run m).2 else none
    | .guard p, m => some ((acquireGuard p.slot).run m).2
  release
    | .lock, m => (dropLock.run m).2
    | .guard p, m => ((dropGuard p.slot).run m).2

/-- The variables of a contract, each with a word of its own, and whether the lock is held. -/
structure Vars where
  word : c.Var → U256
  locked : Bool

/-- What the calls mean. -/
def varsHandler : Handler c.Vars c.Call c.Token where
  act
    | .set p v, s => { s with word := Function.update s.word p (p.valueTy.enc v) }
    | .get _, s | .getMut _, s => s
  acquire
    | .lock, s => if s.locked then none else some { s with locked := true }
    | .guard p, s => some { s with word := Function.update s.word p.var (ValueTy.bool.enc true) }
  release
    | .lock, s => { s with locked := false }
    | .guard p, s => { s with word := Function.update s.word p.var (ValueTy.bool.enc false) }

end Contract

/-! ## Slots apart -/

section

variable {c : Contract} {keccak : List UInt8 → U256} {ps : List c.Var}

/-- No two of the strings hashed for the paths collide, and none is hashed to a slot of a field or to that of the
lock. -/
structure Apart (keccak : List UInt8 → U256) (ps : List c.Var) : Prop extends CollisionFree keccak ps where
  lock : ∀ a ∈ hashed keccak ps, keccak a ≠ lockSlot

/-- Nothing is hashed for a plain field. -/
theorem Contract.Flag.hashedPairs_eq (p : c.Flag) : hashedPairs keccak p.var = [] := by
  obtain ⟨⟨s, i, keys⟩, hspace, hshape⟩ := p
  have key : ∀ (shape : Shape) (keys : shape.Keys) (root : U256), shape = .value .bool →
      steps (mapSlot keccak) root (shape.keyWords keys) = [] := by
    rintro shape keys root rfl
    rfl
  exact key _ keys _ hshape

/-- The number of its field is the slot of a flag. -/
theorem Contract.Flag.addr_eq (p : c.Flag) : (placement keccak c).addr p.var = (.transient, p.slot) := by
  obtain ⟨⟨s, i, keys⟩, hspace, hshape⟩ := p
  have key : ∀ (shape : Shape) (keys : shape.Keys) (slot : BitVec 64), shape = .value .bool →
      slotOf keccak slot shape keys = U256.fromU64 slot := by
    rintro shape keys slot rfl
    rfl
  exact Prod.ext hspace (key _ keys _ hshape)

theorem hashed_subset {p : c.Var} (hp : p ∈ ps ∨ hashedPairs keccak p = []) :
    hashed keccak (p :: ps) ⊆ hashed keccak ps := by
  intro a ha
  obtain ⟨x, hx, rfl⟩ := List.mem_map.mp ha
  rw [List.flatMap_cons] at hx
  rcases List.mem_append.mp hx with hnew | hold
  · rcases hp with hmem | hnil
    · exact List.mem_map_of_mem (List.mem_flatMap.mpr ⟨p, hmem, hnew⟩)
    · rw [hnil] at hnew
      cases hnew
  · exact List.mem_map_of_mem hold

/-- Flags may join the paths. -/
theorem Apart.cons (h : Apart keccak ps) {p : c.Var} (hp : p ∈ ps ∨ hashedPairs keccak p = []) :
    Apart keccak (p :: ps) where
  injective a ha b hb := h.injective a (hashed_subset hp ha) b (hashed_subset hp hb)
  high a ha := h.high a (hashed_subset hp ha)
  lock a ha := h.lock a (hashed_subset hp ha)

/-- **Different paths and flags have different addresses.** -/
theorem Apart.addr_inj (h : Apart keccak ps) {p q : c.Var} (hp : p ∈ ps ∨ hashedPairs keccak p = [])
    (hq : q ∈ ps ∨ hashedPairs keccak q = []) (heq : (placement keccak c).addr p = (placement keccak c).addr q) :
    p = q := by
  obtain ⟨hspace, hslot⟩ := Prod.mk.inj heq
  have hboth := (h.cons hq).cons (p := p) (hp.imp (List.mem_cons_of_mem _) id)
  exact slotOf_inj hboth.toCollisionFree List.mem_cons_self (List.mem_cons_of_mem _ List.mem_cons_self) hspace hslot

/-- The lock lies beyond the slots of the fields. -/
theorem fromU64_ne_lockSlot (n : BitVec 64) : U256.fromU64 n ≠ lockSlot := by
  intro heq
  have hnum := congrArg FixedBytes.toNat heq
  rw [U256.toNat_fromU64] at hnum
  have hlt := n.isLt
  have hlock : 2 ^ 64 ≤ lockSlot.toNat := by decide +kernel
  omega

/-- **No path leads to the lock.** -/
theorem Apart.addr_ne_lock (h : Apart keccak ps) {p : c.Var} (hp : p ∈ ps ∨ hashedPairs keccak p = []) :
    (placement keccak c).addr p ≠ (.transient, lockSlot) := by
  intro heq
  have hslot : chain (mapSlot keccak) (U256.fromU64 p.accessor.slot) (p.accessor.shape.keyWords p.2.2) = lockSlot :=
    (Prod.mk.inj heq).2
  rcases (p.accessor.shape.keyWords p.2.2).eq_nil_or_concat' with hnil | ⟨ks, k, hks⟩
  · rw [hnil] at hslot
    exact fromU64_ne_lockSlot _ hslot
  · rw [hks, chain_concat] at hslot
    have hpair : (k, chain (mapSlot keccak) (U256.fromU64 p.accessor.slot) ks) ∈ hashedPairs keccak p := by
      rw [hashedPairs, hks, steps_concat]
      exact List.mem_append_right _ List.mem_cons_self
    refine (h.cons hp).lock _ ?_ hslot
    exact List.mem_map_of_mem (List.mem_flatMap.mpr ⟨p, List.mem_cons_self, hpair⟩)

/-! ## What the calls mean -/

variable (keccak ps) in
/-- The words at the paths are those of the variables, and the lock is held or not. -/
def Holds (m : Machine) (s : c.Vars) : Prop :=
  (∀ p ∈ ps, words m ((placement keccak c).addr p) = s.word p) ∧ lockedIn m = s.locked

theorem lockedIn_eq (m : Machine) : lockedIn m = ValueTy.bool.dec (words m (.transient, lockSlot)) := rfl

theorem words_writeToTransient (b : Bool) (slot : U256) (m : Machine) :
    words ((writeToTransient .bool b slot).run m).2 =
      Function.update (words m) (.transient, slot) (ValueTy.bool.enc b) :=
  writeVia_writes .transient .bool b slot m

/-- A free lock is taken by a write to its slot. -/
theorem words_acquire {m : Machine} (h : lockedIn m = false) :
    words (acquire.run m).2 = Function.update (words m) (.transient, lockSlot) (ValueTy.bool.enc true) := by
  have hread : (readFromTransient .bool lockSlot).run m = (false, m) := Prod.ext h rfl
  rw [acquire, StateT.run_bind, hread]
  exact words_writeToTransient true lockSlot m

/-- What leaves the words leaves the variables. -/
theorem Holds.read {m m' : Machine} {s : c.Vars} (hm : Holds keccak ps m s) (hwords : words m' = words m) :
    Holds keccak ps m' s := by
  refine ⟨fun q hq => ?_, ?_⟩
  · rw [hwords]
    exact hm.1 q hq
  · rw [lockedIn_eq, hwords]
    exact hm.2

/-- A write to a path or a flag is a write to its variable. -/
theorem Holds.write (h : Apart keccak ps) {m m' : Machine} {s : c.Vars} (hm : Holds keccak ps m s) {p : c.Var}
    (hp : p ∈ ps ∨ hashedPairs keccak p = []) {w : U256}
    (hwords : words m' = Function.update (words m) ((placement keccak c).addr p) w) :
    Holds keccak ps m' { s with word := Function.update s.word p w } := by
  refine ⟨fun q hq => ?_, ?_⟩
  · rw [hwords]
    show _ = Function.update s.word p w q
    by_cases hqp : q = p
    · subst hqp
      rw [Function.update_self, Function.update_self]
    · rw [Function.update_of_ne hqp, Function.update_of_ne fun heq => hqp (h.addr_inj (.inl hq) hp heq)]
      exact hm.1 q hq
  · rw [lockedIn_eq, hwords, Function.update_of_ne (h.addr_ne_lock hp).symm]
    exact hm.2

/-- A write to the lock is none to a variable. -/
theorem Holds.lock (h : Apart keccak ps) {m m' : Machine} {s : c.Vars} (hm : Holds keccak ps m s) {b : Bool}
    (hwords : words m' = Function.update (words m) (.transient, lockSlot) (ValueTy.bool.enc b)) :
    Holds keccak ps m' { s with locked := b } := by
  refine ⟨fun q hq => ?_, ?_⟩
  · rw [hwords, Function.update_of_ne (h.addr_ne_lock (.inl hq))]
    exact hm.1 q hq
  · rw [lockedIn_eq, hwords, Function.update_self]
    exact ValueTy.dec_enc .bool b

/-- **The calls do to the words what they do to the variables.** -/
theorem simulates (h : Apart keccak ps) :
    Simulates (Holds keccak ps) {call | call.var ∈ ps} (c.handler keccak) c.varsHandler where
  act call hcall m s hm := by
    cases call with
    | get p => exact hm.read (getter_reads p m).2
    | getMut p => exact hm.read (getterMut_reads p m).2
    | set p v => exact hm.write h (.inl hcall) (setter_writes p v m)
  acquire k m s hm := by
    cases k with
    | lock =>
      show Option.Rel _ (if (acquire.run m).1 then some (acquire.run m).2 else none)
        (if s.locked then none else some { s with locked := true })
      rw [← hm.2]
      cases hlocked : lockedIn m with
      | true =>
        rw [acquire_locked hlocked]
        exact .none
      | false =>
        rw [(acquire_free hlocked).1]
        exact .some (hm.lock h (words_acquire hlocked))
    | guard p =>
      refine .some (hm.write h (.inr p.hashedPairs_eq) ?_)
      rw [p.addr_eq]
      exact words_writeToTransient true p.slot m
  release k m s hm := by
    cases k with
    | lock => exact hm.lock h (words_writeToTransient false lockSlot m)
    | guard p =>
      refine hm.write h (.inr p.hashedPairs_eq) ?_
      rw [p.addr_eq]
      exact words_writeToTransient false p.slot m

/-! ## A transaction -/

/-- The start of a transaction: transient storage is empty. -/
def fresh (m : Machine) : Machine := { m with transient := fun _ => U256.zero }

/-- The variables as they are in a machine. -/
def varsOf (keccak : List UInt8 → U256) (m : Machine) : c.Vars :=
  ⟨fun p => words m ((placement keccak c).addr p), lockedIn m⟩

/-- What the contract sees of a machine is what the variables are: every getter, and whether the lock can be taken. -/
structure Shows (keccak : List UInt8 → U256) (ps : List c.Var) (m : Machine) (s : c.Vars) : Prop where
  getter : ∀ p ∈ ps, ((getter keccak p).run m).1 = p.valueTy.dec (s.word p)
  getterMut : ∀ p ∈ ps, ((getterMut keccak p).run m).1 = p.valueTy.dec (s.word p)
  lock : (acquire.run m).1 = !s.locked

theorem Holds.shows {m : Machine} {s : c.Vars} (hm : Holds keccak ps m s) : Shows keccak ps m s where
  getter p hp := (getter_reads p m).1.trans (congrArg p.valueTy.dec (hm.1 p hp))
  getterMut p hp := (getterMut_reads p m).1.trans (congrArg p.valueTy.dec (hm.1 p hp))
  lock := by
    rw [← hm.2]
    cases hlocked : lockedIn m with
    | true => rw [acquire_locked hlocked]; rfl
    | false => exact (acquire_free hlocked).1

/-- **A transaction is what it is on independent variables.**  Whatever calls, accesses, guards, locks, returns and
reverts make it up, it is possible there just when it is here, the same things are owned, and every getter and the lock
show what the variables are, in its state and in those a revert may go back to. -/
theorem transaction_refines (h : Apart keccak ps) {ops : List (Rollback.Op c.Call c.Token)}
    (hops : ∀ call, .act call ∈ ops → call.var ∈ ps) (m : Machine) :
    Option.Rel (Tx.Related (Shows keccak ps)) ((c.handler keccak).run (.start (fresh m)) ops)
      (c.varsHandler.run (.start (varsOf keccak (fresh m))) ops) := by
  have hrun : Option.Rel (Tx.Related (Holds keccak ps)) ((c.handler keccak).run (.start (fresh m)) ops)
      (c.varsHandler.run (.start (varsOf keccak (fresh m))) ops) :=
    run_related (simulates h) hops ⟨⟨fun p _ => rfl, rfl⟩, .nil, rfl, rfl⟩
  generalize (c.handler keccak).run (.start (fresh m)) ops = x at hrun ⊢
  generalize c.varsHandler.run (.start (varsOf keccak (fresh m))) ops = y at hrun ⊢
  cases hrun with
  | some hrel => exact .some (hrel.imp fun _ _ => Holds.shows)
  | none => exact .none

/-! ## Flags -/

/-- What the flag of a thing reads. -/
def flag : c.Token → Machine → Bool
  | .lock, m => lockedIn m
  | .guard p, m => ((readFromTransient .bool p.slot).run m).1

/-- The slot of a thing. -/
def tokenSlot : c.Token → U256
  | .lock => lockSlot
  | .guard p => p.slot

theorem flag_eq (k : c.Token) (m : Machine) : flag k m = ValueTy.bool.dec (words m (.transient, tokenSlot k)) := by
  cases k <;> rfl

/-- Different things have different slots. -/
theorem tokenSlot_inj {j k : c.Token} (h : tokenSlot j = tokenSlot k) : j = k := by
  cases j with
  | lock =>
    cases k with
    | lock => rfl
    | guard q => exact absurd h.symm (fromU64_ne_lockSlot _)
  | guard p =>
    cases k with
    | lock => exact absurd h (fromU64_ne_lockSlot _)
    | guard q =>
      have hnone : Apart (fun _ => U256.zero) ([] : List c.Var) := ⟨⟨nofun, nofun⟩, nofun⟩
      have hvar : p.var = q.var := hnone.addr_inj (.inr p.hashedPairs_eq) (.inr q.hashedPairs_eq) (by
        rw [p.addr_eq, q.addr_eq]
        exact congrArg (Prod.mk _) h)
      obtain ⟨p, _, _⟩ := p
      obtain rfl : p = q.var := hvar
      rfl

/-- A write to the slot of a thing sets its flag and no other. -/
theorem flag_of_words {k : c.Token} {b : Bool} {m m' : Machine}
    (h : words m' = Function.update (words m) (.transient, tokenSlot k) (ValueTy.bool.enc b)) :
    flag k m' = b ∧ ∀ j, j ≠ k → flag j m' = flag j m := by
  refine ⟨?_, fun j hj => ?_⟩
  · rw [flag_eq, h, Function.update_self]
    exact ValueTy.dec_enc .bool b
  · rw [flag_eq, flag_eq, h, Function.update_of_ne]
    exact fun heq => hj (tokenSlot_inj (Prod.mk.inj heq).2)

/-- The accesses that leave the flags of some things alone. -/
def Leaves (ps : List c.Var) (K : Set c.Token) : Set c.Call :=
  {call | call.var ∈ ps ∧ ∀ p v, call = .set p v → ∀ q, .guard q ∈ K → p ≠ q.var}

theorem flagged (h : Apart keccak ps) (K : Set c.Token) : Flagged flag (Leaves ps K) K (c.handler keccak) where
  act call hcall k hk m := by
    obtain ⟨hvar, hset⟩ := hcall
    rw [flag_eq, flag_eq]
    refine congrArg _ ?_
    cases call with
    | get p => exact congrFun (getter_reads p m).2 _
    | getMut p => exact congrFun (getterMut_reads p m).2 _
    | set p v =>
      refine (congrFun (setter_writes p v m) _).trans (Function.update_of_ne ?_ _ _)
      cases k with
      | lock => exact (h.addr_ne_lock (.inl hvar)).symm
      | guard q =>
        intro heq
        have haddr : (placement keccak c).addr p = (placement keccak c).addr q.var := by
          rw [q.addr_eq]
          exact heq.symm
        exact hset p v rfl q hk (h.addr_inj (.inl hvar) (.inr q.hashedPairs_eq) haddr)
  acquire k m m' hacquire := by
    cases k with
    | lock =>
      have hacquire : (if (acquire.run m).1 then some (acquire.run m).2 else none) = some m' := hacquire
      cases hlocked : lockedIn m with
      | true =>
        rw [acquire_locked hlocked] at hacquire
        cases hacquire
      | false =>
        rw [(acquire_free hlocked).1] at hacquire
        obtain rfl := Option.some.inj hacquire
        obtain ⟨hup, hothers⟩ := flag_of_words (k := .lock) (words_acquire hlocked)
        exact ⟨hup, fun j _ => hothers j⟩
    | guard p =>
      obtain rfl := Option.some.inj hacquire
      obtain ⟨hup, hothers⟩ := flag_of_words (k := .guard p) (words_writeToTransient true p.slot m)
      exact ⟨hup, fun j _ => hothers j⟩
  release k m := by
    cases k with
    | lock =>
      obtain ⟨hdown, hothers⟩ := flag_of_words (c := c) (k := .lock) (words_writeToTransient false lockSlot m)
      exact ⟨hdown, fun j _ => hothers j⟩
    | guard p =>
      obtain ⟨hdown, hothers⟩ := flag_of_words (k := .guard p) (words_writeToTransient false p.slot m)
      exact ⟨hdown, fun j _ => hothers j⟩

/-- The lock can only be taken while it is free, a guard at any time. -/
theorem exclusive_iff (k : c.Token) : Exclusive flag (c.handler keccak) k ↔ k = .lock := by
  constructor
  · intro hexclusive
    cases k with
    | lock => rfl
    | guard p =>
      obtain ⟨hup, -⟩ := flag_of_words (k := .guard p) (words_writeToTransient true p.slot (freshMachine fun _ => 0))
      have hnone := hexclusive _ hup
      cases hnone
  · rintro rfl m hm
    have hlocked : lockedIn m = true := hm
    show (if (acquire.run m).1 then some (acquire.run m).2 else none) = none
    rw [acquire_locked hlocked]
    rfl

/-- **A flag tells whether a guard on it is live, and the lock whether it is held, in every state of a transaction, if
and only if no guard is dropped while another one on its flag is live.** -/
theorem guards_tell_iff (h : Apart keccak ps) {ops : List (Rollback.Op c.Call c.Token)}
    (hops : ∀ call, .act call ∈ ops → call.var ∈ ps)
    (hset : ∀ p v, .act (.set p v) ∈ ops → ∀ q, .acquire (.guard q) ∈ ops → p ≠ q.var) (m : Machine) :
    (∀ pre post t, ops = pre ++ post → (c.handler keccak).run (.start (fresh m)) pre = some t →
      ∀ k, .acquire k ∈ ops → (flag k t.state = true ↔ 0 < t.live k) ∧ (k = .lock → t.live k ≤ 1)) ↔
    ∀ pre op post t, ops = pre ++ op :: post → (c.handler keccak).run (.start (fresh m)) pre = some t →
      ∀ q, .acquire (.guard q) ∈ ops → ¬ t.DropsShared op (.guard q) := by
  have hdown : ∀ k : c.Token, flag k (fresh m) = false := by
    intro k
    rw [flag_eq]
    exact ValueTy.dec_zero .bool
  have hleaves : ∀ call, .act call ∈ ops → call ∈ Leaves ps {k | Rollback.Op.acquire k ∈ ops} := by
    rintro call hcall
    refine ⟨hops call hcall, ?_⟩
    rintro p v rfl
    exact hset p v hcall
  have hiff := run_tells_iff (flagged h {k | Rollback.Op.acquire k ∈ ops}) (fun k _ => hdown k) hleaves
  constructor
  · intro htells pre op post t hops' ht q hq
    refine hiff.mp (fun pre post t hops' ht k hk => ?_) pre op post t hops' ht (.guard q) hq ?_
    · obtain ⟨hflag, hone⟩ := htells pre post t hops' ht k hk
      exact ⟨hflag, fun hexclusive => hone ((exclusive_iff k).mp hexclusive)⟩
    · intro hexclusive
      cases (exclusive_iff (.guard q)).mp hexclusive
  · intro hclean
    have htells := hiff.mpr fun pre op post t hops' ht j hj hne => by
      cases j with
      | lock => exact absurd ((exclusive_iff .lock).mpr rfl) hne
      | guard q => exact hclean pre op post t hops' ht q hj
    intro pre post t hops' ht k hk
    obtain ⟨hflag, hone⟩ := htells pre post t hops' ht k hk
    exact ⟨hflag, fun hlock => hone ((exclusive_iff k).mpr hlock)⟩

end

/-! ## A withdrawal -/

def withdrawing : vault.Flag := ⟨⟨.transient, ⟨0, by decide⟩, ()⟩, rfl, rfl⟩

/-- A guarded call sets a balance; the call within takes the lock and reverts. -/
def withdrawal : List (Rollback.Op vault.Call vault.Token) :=
  [.call, .acquire (.guard withdrawing), .act (.set (balances alice) (U256.fromU64 5)), .call, .acquire .lock,
    .act (.set (balances alice) U256.zero), .revert, .act (.get (balances alice)), .drop 0, .ret]

theorem balances_apart : Apart vaultKeccak [balances alice] where
  injective := by decide +kernel
  high := by
    intro a ha s
    revert a
    cases s <;> decide +kernel
  lock := by decide +kernel

theorem withdrawal_acts : ∀ call, .act call ∈ withdrawal → call.var ∈ [balances alice] := by
  intro call hcall
  simp only [withdrawal, List.mem_cons, List.not_mem_nil, or_false, reduceCtorEq, false_or, Op.act.injEq] at hcall
  rcases hcall with rfl | rfl | rfl <;> exact List.mem_singleton.mpr rfl

/-- No flag is set but by its guard. -/
theorem withdrawal_sets : ∀ p v, .act (.set p v) ∈ withdrawal → ∀ q, .acquire (.guard q) ∈ withdrawal → p ≠ q.var := by
  intro p v hset q _
  have hp : p = balances alice := List.mem_singleton.mp (withdrawal_acts _ hset)
  rintro rfl
  have hspace := q.transient
  rw [hp] at hspace
  cases hspace

theorem transaction_refines_withdrawal :
    Option.Rel (Tx.Related (Shows vaultKeccak [balances alice]))
      ((vault.handler vaultKeccak).run (.start (fresh (freshMachine fun _ => 0))) withdrawal)
      (vault.varsHandler.run (.start (varsOf vaultKeccak (fresh (freshMachine fun _ => 0)))) withdrawal) :=
  transaction_refines balances_apart withdrawal_acts (freshMachine fun _ => 0)

theorem guards_tell_iff_withdrawal :
    (∀ pre post t, withdrawal = pre ++ post →
      (vault.handler vaultKeccak).run (.start (fresh (freshMachine fun _ => 0))) pre = some t →
        ∀ k, .acquire k ∈ withdrawal → (flag k t.state = true ↔ 0 < t.live k) ∧ (k = .lock → t.live k ≤ 1)) ↔
    ∀ pre op post t, withdrawal = pre ++ op :: post →
      (vault.handler vaultKeccak).run (.start (fresh (freshMachine fun _ => 0))) pre = some t →
        ∀ q, .acquire (.guard q) ∈ withdrawal → ¬ t.DropsShared op (.guard q) :=
  guards_tell_iff balances_apart withdrawal_acts withdrawal_sets (freshMachine fun _ => 0)

end RustEvm.Storage
