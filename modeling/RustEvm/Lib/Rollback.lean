import Mathlib.Tactic

/-!
# RustEvm.Lib.Rollback — nested calls that own things and can be undone

The calls of a transaction share a state (`Handler`).  They nest; a call acts on the state, acquires things, which it
owns until it drops or forgets them, and returns, or reverts to the state it was entered in.

* Handlers that simulate each other run alike (`run_related`).
* A handler can keep a flag for each thing.  `run_tells_iff` is the exact condition under which the flags tell, in every
  state of a run, what is owned: a thing is not dropped while another of its kind is owned, which those that can only be
  acquired when they are free never are.
-/

namespace RustEvm.Rollback

variable {σ τ α κ : Type*}

/-! ## Transactions -/

/-- What calls do to the state they share. -/
structure Handler (σ α κ : Type*) where
  act : α → σ → σ
  /-- `none` is a panic -/
  acquire : κ → σ → Option σ
  release : κ → σ → σ

/-- A call: what it owns, and what a revert goes back to. -/
structure Frame (σ κ : Type*) where
  owned : List κ
  saved : σ
  savedLeaked : List κ

/-- A transaction; the innermost call is first. -/
structure Tx (σ κ : Type*) where
  state : σ
  frames : List (Frame σ κ)
  /-- what no call owns any more and nothing will drop -/
  leaked : List κ
  /-- the innermost call has panicked -/
  aborting : Bool

/-- No call is running. -/
def Tx.start (s : σ) : Tx σ κ := ⟨s, [], [], false⟩

inductive Op (α κ : Type*)
  | act (a : α)
  | acquire (k : κ)
  /-- number `i` of what the innermost call owns goes out of scope -/
  | drop (i : ℕ)
  | forget (i : ℕ)
  | call
  /-- the innermost call ends; what it still owns is never dropped -/
  | ret
  /-- the innermost call is undone; nothing is dropped -/
  | revert

def Op.isRevert : Op α κ → Bool
  | revert => true
  | _ => false

namespace Handler

variable (H : Handler σ α κ)

/-- An operation of the innermost call; `none` where it is not possible. -/
def stepIn (t : Tx σ κ) (f : Frame σ κ) (rest : List (Frame σ κ)) : Op α κ → Option (Tx σ κ)
  | .act a => some { t with state := H.act a t.state }
  | .acquire k =>
    match H.acquire k t.state with
    | some s => some { t with state := s, frames := { f with owned := f.owned ++ [k] } :: rest }
    | none => some { t with aborting := true }
  | .drop i => (f.owned[i]?).map fun k =>
    { t with state := H.release k t.state, frames := { f with owned := f.owned.eraseIdx i } :: rest }
  | .forget i => (f.owned[i]?).map fun k =>
    { t with frames := { f with owned := f.owned.eraseIdx i } :: rest, leaked := k :: t.leaked }
  | .call => some { t with frames := ⟨[], t.state, t.leaked⟩ :: f :: rest }
  | .ret => some { t with frames := rest, leaked := f.owned ++ t.leaked }
  | .revert => some ⟨f.saved, rest, f.savedLeaked, false⟩

/-- One operation; after a panic only the revert is possible. -/
def step (t : Tx σ κ) (op : Op α κ) : Option (Tx σ κ) :=
  match t.frames with
  | [] =>
    match op with
    | .call => some { t with frames := [⟨[], t.state, t.leaked⟩] }
    | _ => none
  | f :: rest => if t.aborting && !op.isRevert then none else H.stepIn t f rest op

def run (t : Tx σ κ) (ops : List (Op α κ)) : Option (Tx σ κ) := ops.foldlM H.step t

theorem run_concat (t : Tx σ κ) (ops : List (Op α κ)) (op : Op α κ) :
    H.run t (ops ++ [op]) = (H.run t ops).bind fun t' => H.step t' op := by
  simp [run, List.foldlM_append]

end Handler

/-! ## Simulation -/

/-- Two transactions with the same calls and things, in related states. -/
structure Tx.Related (R : σ → τ → Prop) (t : Tx σ κ) (u : Tx τ κ) : Prop where
  state : R t.state u.state
  frames : List.Forall₂ (fun f g => f.owned = g.owned ∧ R f.saved g.saved ∧ f.savedLeaked = g.savedLeaked)
    t.frames u.frames
  leaked : t.leaked = u.leaked
  aborting : t.aborting = u.aborting

theorem Tx.Related.imp {R S : σ → τ → Prop} (hRS : ∀ s u, R s u → S s u) {t : Tx σ κ} {u : Tx τ κ}
    (h : t.Related R u) : t.Related S u :=
  ⟨hRS _ _ h.state, h.frames.imp fun _ _ hf => ⟨hf.1, hRS _ _ hf.2.1, hf.2.2⟩, h.leaked, h.aborting⟩

/-- Related states stay related, for the actions in `A`. -/
structure Simulates (R : σ → τ → Prop) (A : Set α) (H : Handler σ α κ) (G : Handler τ α κ) : Prop where
  act : ∀ a ∈ A, ∀ s u, R s u → R (H.act a s) (G.act a u)
  acquire : ∀ k s u, R s u → Option.Rel R (H.acquire k s) (G.acquire k u)
  release : ∀ k s u, R s u → R (H.release k s) (G.release k u)

section

variable {R : σ → τ → Prop} {A : Set α} {H : Handler σ α κ} {G : Handler τ α κ} {t : Tx σ κ} {u : Tx τ κ}

theorem stepIn_related (hsim : Simulates R A H G) {op : Op α κ} (hop : ∀ a, op = .act a → a ∈ A)
    {f : Frame σ κ} {g : Frame τ κ} {rest : List (Frame σ κ)} {rest' : List (Frame τ κ)} (hrel : t.Related R u)
    (ht : t.frames = f :: rest) (hu : u.frames = g :: rest') :
    Option.Rel (Tx.Related R) (H.stepIn t f rest op) (G.stepIn u g rest' op) := by
  obtain ⟨hstate, hframes, hleaked, haborting⟩ := hrel
  rw [ht, hu] at hframes
  obtain ⟨⟨howned, hsaved, hsavedLeaked⟩, hrest⟩ := List.forall₂_cons.mp hframes
  cases op with
  | act a => exact .some ⟨hsim.act a (hop a rfl) _ _ hstate, ht ▸ hu ▸ hframes, hleaked, haborting⟩
  | acquire k =>
    have hacquire := hsim.acquire k _ _ hstate
    simp only [Handler.stepIn]
    generalize H.acquire k t.state = x at hacquire ⊢
    generalize G.acquire k u.state = y at hacquire ⊢
    cases hacquire with
    | some h => exact .some ⟨h, .cons ⟨by rw [howned], hsaved, hsavedLeaked⟩ hrest, hleaked, haborting⟩
    | none => exact .some ⟨hstate, ht ▸ hu ▸ hframes, hleaked, rfl⟩
  | drop i =>
    simp only [Handler.stepIn, howned]
    cases g.owned[i]? with
    | none => exact .none
    | some k =>
      exact .some ⟨hsim.release k _ _ hstate, .cons ⟨rfl, hsaved, hsavedLeaked⟩ hrest, hleaked, haborting⟩
  | forget i =>
    simp only [Handler.stepIn, howned]
    cases g.owned[i]? with
    | none => exact .none
    | some k =>
      exact .some ⟨hstate, .cons ⟨rfl, hsaved, hsavedLeaked⟩ hrest, congrArg (List.cons k) hleaked, haborting⟩
  | call => exact .some ⟨hstate, .cons ⟨rfl, hstate, hleaked⟩ hframes, hleaked, haborting⟩
  | ret => exact .some ⟨hstate, hrest, congrArg₂ _ howned hleaked, haborting⟩
  | revert => exact .some ⟨hsaved, hrest, hsavedLeaked, rfl⟩

theorem step_related (hsim : Simulates R A H G) {op : Op α κ} (hop : ∀ a, op = .act a → a ∈ A)
    (hrel : t.Related R u) : Option.Rel (Tx.Related R) (H.step t op) (G.step u op) := by
  have hframes := hrel.frames
  unfold Handler.step
  cases ht : t.frames with
  | nil =>
    rw [ht, List.forall₂_nil_left_iff] at hframes
    rw [hframes]
    cases op with
    | call => exact .some ⟨hrel.state, .cons ⟨rfl, hrel.state, hrel.leaked⟩ .nil, hrel.leaked, hrel.aborting⟩
    | _ => exact .none
  | cons f rest =>
    cases hu : u.frames with
    | nil =>
      rw [ht, hu] at hframes
      cases hframes
    | cons g rest' =>
      simp only [hrel.aborting]
      split_ifs
      · exact .none
      · exact stepIn_related hsim hop hrel ht hu

/-- **Handlers that simulate each other run alike.** -/
theorem run_related (hsim : Simulates R A H G) {ops : List (Op α κ)} (hops : ∀ a, .act a ∈ ops → a ∈ A)
    (hrel : t.Related R u) : Option.Rel (Tx.Related R) (H.run t ops) (G.run u ops) := by
  induction ops generalizing t u with
  | nil => exact .some hrel
  | cons op ops ih =>
    have hstep := step_related hsim (fun a ha => hops a (ha ▸ List.mem_cons_self)) hrel
    show Option.Rel _ ((H.step t op).bind fun t' => H.run t' ops) ((G.step u op).bind fun u' => G.run u' ops)
    generalize H.step t op = x at hstep ⊢
    generalize G.step u op = y at hstep ⊢
    cases hstep with
    | some h => exact ih (fun a ha => hops a (List.mem_cons_of_mem _ ha)) h
    | none => exact .none

end

/-! ## Flags -/

section

variable [DecidableEq κ] {flag : κ → σ → Bool} {A : Set α} {K : Set κ} {H : Handler σ α κ} {t t' : Tx σ κ} {k : κ}

/-- How many things of a kind have been acquired and not dropped. -/
def liveIn (leaked : List κ) (frames : List (Frame σ κ)) (k : κ) : ℕ :=
  leaked.count k + (frames.map fun f => f.owned.count k).sum

def Tx.live (t : Tx σ κ) (k : κ) : ℕ := liveIn t.leaked t.frames k

/-- Acquiring raises the flag of a thing, releasing lowers it, and nothing else touches those in `K`. -/
structure Flagged (flag : κ → σ → Bool) (A : Set α) (K : Set κ) (H : Handler σ α κ) : Prop where
  act : ∀ a ∈ A, ∀ k ∈ K, ∀ s, flag k (H.act a s) = flag k s
  acquire : ∀ k s s', H.acquire k s = some s' → flag k s' = true ∧ ∀ j ∈ K, j ≠ k → flag j s' = flag j s
  release : ∀ k s, flag k (H.release k s) = false ∧ ∀ j ∈ K, j ≠ k → flag j (H.release k s) = flag j s

/-- What can only be acquired while its flag is down. -/
def Exclusive (flag : κ → σ → Bool) (H : Handler σ α κ) (k : κ) : Prop := ∀ s, flag k s = true → H.acquire k s = none

/-- The flag of `k` is up if and only if a `k` is live, and an exclusive one is live once at most. -/
def TellsOf (flag : κ → σ → Bool) (H : Handler σ α κ) (s : σ) (leaked : List κ) (frames : List (Frame σ κ)) (k : κ) :
    Prop :=
  (flag k s = true ↔ 0 < liveIn leaked frames k) ∧ (Exclusive flag H k → liveIn leaked frames k ≤ 1)

/-- **The flags tell what is owned.** -/
def Tx.Tells (flag : κ → σ → Bool) (K : Set κ) (H : Handler σ α κ) (t : Tx σ κ) : Prop :=
  ∀ k ∈ K, TellsOf flag H t.state t.leaked t.frames k

/-- An operation drops a `k` while another one is live. -/
def Tx.DropsShared (t : Tx σ κ) (op : Op α κ) (k : κ) : Prop :=
  t.aborting = false ∧ 1 < t.live k ∧ ∃ i, op = .drop i ∧ (t.frames.head?.bind fun f => f.owned[i]?) = some k

/-- So it is now, and at every point a revert may go back to. -/
def TellsBack (flag : κ → σ → Bool) (H : Handler σ α κ) (k : κ) (s : σ) (leaked : List κ) :
    List (Frame σ κ) → Prop
  | [] => TellsOf flag H s leaked ([] : List (Frame σ κ)) k
  | f :: rest => TellsOf flag H s leaked (f :: rest) k ∧ TellsBack flag H k f.saved f.savedLeaked rest

@[simp] theorem liveIn_cons (leaked : List κ) (f : Frame σ κ) (rest : List (Frame σ κ)) (k : κ) :
    liveIn leaked (f :: rest) k = f.owned.count k + liveIn leaked rest k := by
  simp only [liveIn, List.map_cons, List.sum_cons]
  omega

@[simp] theorem liveIn_append (ks leaked : List κ) (frames : List (Frame σ κ)) (k : κ) :
    liveIn (ks ++ leaked) frames k = ks.count k + liveIn leaked frames k := by
  simp only [liveIn, List.count_append]
  omega

/-- One thing of the innermost call, and the others. -/
theorem liveIn_eraseIdx {f : Frame σ κ} {i : ℕ} {j : κ} (h : f.owned[i]? = some j) (leaked : List κ)
    (rest : List (Frame σ κ)) (k : κ) :
    liveIn leaked (f :: rest) k =
      [j].count k + liveIn leaked ({ f with owned := f.owned.eraseIdx i } :: rest) k := by
  obtain ⟨hi, rfl⟩ := List.getElem?_eq_some_iff.mp h
  rw [liveIn_cons, liveIn_cons, ← (List.getElem_cons_eraseIdx_perm hi).count_eq, ← List.singleton_append,
    List.count_append, Nat.add_assoc]

theorem TellsBack.now {s : σ} {leaked : List κ} {frames : List (Frame σ κ)} (h : TellsBack flag H k s leaked frames) :
    TellsOf flag H s leaked frames k := by
  cases frames with
  | nil => exact h
  | cons f rest => exact h.1

/-- Only what is live now can have changed. -/
theorem TellsBack.of_now {s s' : σ} {leaked leaked' : List κ} {frames : List (Frame σ κ)}
    (h : TellsBack flag H k s leaked frames) (hnow : TellsOf flag H s' leaked' frames k) :
    TellsBack flag H k s' leaked' frames := by
  cases frames with
  | nil => exact hnow
  | cons f rest => exact ⟨hnow, h.2⟩

theorem TellsOf.after_acquire (hH : Flagged flag A K H) (hk : k ∈ K) {s s' : σ} {leaked : List κ} {f : Frame σ κ}
    {rest : List (Frame σ κ)} {j : κ} (h : TellsOf flag H s leaked (f :: rest) k) (hj : H.acquire j s = some s') :
    TellsOf flag H s' leaked ({ f with owned := f.owned ++ [j] } :: rest) k := by
  obtain ⟨hup, hothers⟩ := hH.acquire j s s' hj
  have hlive : liveIn leaked ({ f with owned := f.owned ++ [j] } :: rest) k =
      [j].count k + liveIn leaked (f :: rest) k := by
    rw [liveIn_cons, liveIn_cons, List.count_append]
    omega
  rw [TellsOf, hlive]
  by_cases hjk : k = j
  · subst hjk
    rw [List.count_singleton_self]
    refine ⟨⟨fun _ => by omega, fun _ => hup⟩, fun hexclusive => ?_⟩
    have hdown : ¬ 0 < liveIn leaked (f :: rest) k := by
      rw [← h.1]
      intro hflag
      rw [hexclusive s hflag] at hj
      cases hj
    omega
  · rw [hothers k hk hjk, List.count_singleton, if_neg (by simpa using Ne.symm hjk), Nat.zero_add]
    exact h

theorem TellsOf.after_drop (hH : Flagged flag A K H) (hk : k ∈ K) {s : σ} {leaked : List κ} {f : Frame σ κ}
    {rest : List (Frame σ κ)} {i : ℕ} {j : κ} (h : TellsOf flag H s leaked (f :: rest) k)
    (hj : f.owned[i]? = some j) (hone : j = k → liveIn leaked (f :: rest) k ≤ 1) :
    TellsOf flag H (H.release j s) leaked ({ f with owned := f.owned.eraseIdx i } :: rest) k := by
  obtain ⟨hdown, hothers⟩ := hH.release j s
  have hlive := liveIn_eraseIdx hj leaked rest k
  rw [TellsOf]
  by_cases hjk : k = j
  · subst hjk
    have hle := hone rfl
    rw [hlive, List.count_singleton_self] at hle
    have hzero : liveIn leaked ({ f with owned := f.owned.eraseIdx i } :: rest) k = 0 := by omega
    rw [hzero, hdown]
    exact ⟨by simp, fun _ => Nat.zero_le 1⟩
  · rw [List.count_singleton, if_neg (by simpa using Ne.symm hjk), Nat.zero_add] at hlive
    rw [hothers k hk hjk, ← hlive]
    exact h

/-- An operation that drops no shared thing keeps the flags right. -/
theorem stepIn_tellsBack (hH : Flagged flag A K H) (hk : k ∈ K) {op : Op α κ} (hact : ∀ a, op = .act a → a ∈ A)
    {f : Frame σ κ} {rest : List (Frame σ κ)} (hframes : t.frames = f :: rest) (hab : t.aborting = false ∨ op.isRevert)
    (ht : TellsBack flag H k t.state t.leaked (f :: rest)) (hstep : H.stepIn t f rest op = some t')
    (hop : ¬ Exclusive flag H k → ¬ t.DropsShared op k) :
    TellsBack flag H k t'.state t'.leaked t'.frames := by
  obtain ⟨hnow, hsaved⟩ := ht
  cases op with
  | act a =>
    obtain rfl := Option.some.inj hstep
    have hsame := hH.act a (hact a rfl) k hk t.state
    show TellsBack flag H k (H.act a t.state) t.leaked t.frames
    rw [hframes]
    refine ⟨?_, hsaved⟩
    rw [TellsOf, hsame]
    exact hnow
  | acquire j =>
    simp only [Handler.stepIn] at hstep
    cases hj : H.acquire j t.state with
    | none =>
      rw [hj] at hstep
      obtain rfl := Option.some.inj hstep
      exact hframes ▸ ⟨hnow, hsaved⟩
    | some s =>
      rw [hj] at hstep
      obtain rfl := Option.some.inj hstep
      exact ⟨hnow.after_acquire hH hk hj, hsaved⟩
  | drop i =>
    obtain ⟨j, hj, rfl⟩ := Option.map_eq_some_iff.mp hstep
    refine ⟨hnow.after_drop hH hk hj ?_, hsaved⟩
    rintro rfl
    by_contra hshared
    have hlive : t.live j = liveIn t.leaked (f :: rest) j := by rw [Tx.live, hframes]
    refine hop (fun hexclusive => hshared (hnow.2 hexclusive)) ⟨hab.resolve_right (by simp [Op.isRevert]), ?_, i, rfl, ?_⟩
    · omega
    · rw [hframes]
      exact hj
  | forget i =>
    obtain ⟨j, hj, rfl⟩ := Option.map_eq_some_iff.mp hstep
    refine ⟨?_, hsaved⟩
    have hsame : liveIn (j :: t.leaked) ({ f with owned := f.owned.eraseIdx i } :: rest) k =
        liveIn t.leaked (f :: rest) k := by
      rw [← List.singleton_append, liveIn_append, liveIn_eraseIdx hj]
    rw [TellsOf, hsame]
    exact hnow
  | call =>
    obtain rfl := Option.some.inj hstep
    refine ⟨?_, hnow, hsaved⟩
    simpa [TellsOf] using hnow
  | ret =>
    obtain rfl := Option.some.inj hstep
    apply hsaved.of_now
    rw [TellsOf, liveIn_append, ← liveIn_cons]
    exact hnow
  | revert =>
    obtain rfl := Option.some.inj hstep
    exact hsaved

theorem step_tellsBack (hH : Flagged flag A K H) (hk : k ∈ K) {op : Op α κ} (hact : ∀ a, op = .act a → a ∈ A)
    (ht : TellsBack flag H k t.state t.leaked t.frames) (hstep : H.step t op = some t')
    (hop : ¬ Exclusive flag H k → ¬ t.DropsShared op k) :
    TellsBack flag H k t'.state t'.leaked t'.frames := by
  unfold Handler.step at hstep
  cases hframes : t.frames with
  | nil =>
    rw [hframes] at ht
    simp only [hframes] at hstep
    cases op with
    | call =>
      obtain rfl := Option.some.inj hstep
      have hnow : TellsOf flag H t.state t.leaked [] k := ht
      exact ⟨by simpa [TellsOf] using hnow, ht⟩
    | _ => cases hstep
  | cons f rest =>
    rw [hframes] at ht
    simp only [hframes] at hstep
    split_ifs at hstep with hab
    refine stepIn_tellsBack hH hk hact hframes ?_ ht hstep hop
    cases h : t.aborting
    · exact .inl rfl
    · exact .inr (by simpa [h] using hab)

/-- After a shared thing is dropped its flag is down while another one is live. -/
theorem not_tells_of_dropsShared (hH : Flagged flag A K H) {op : Op α κ} (hop : t.DropsShared op k) :
    ∃ t', H.step t op = some t' ∧ ¬ TellsOf flag H t'.state t'.leaked t'.frames k := by
  obtain ⟨hab, hlive, i, rfl, hj⟩ := hop
  cases hframes : t.frames with
  | nil => simp [hframes] at hj
  | cons f rest =>
    have hj : f.owned[i]? = some k := by simpa [hframes] using hj
    refine ⟨{ t with state := H.release k t.state, frames := { f with owned := f.owned.eraseIdx i } :: rest }, ?_, ?_⟩
    · simp [Handler.step, hframes, hab, Handler.stepIn, hj]
    · rw [Tx.live, hframes, liveIn_eraseIdx hj, List.count_singleton_self] at hlive
      intro htells
      have hup := htells.1.mpr (by simp only; omega)
      rw [(hH.release k t.state).1] at hup
      cases hup

/-- **The flags tell what is owned, in every state of a run, if and only if nothing shared is dropped.** -/
theorem run_tells_iff (hH : Flagged flag A K H) {s : σ} (hs : ∀ k ∈ K, flag k s = false) {ops : List (Op α κ)}
    (hops : ∀ a, .act a ∈ ops → a ∈ A) :
    (∀ pre post t, ops = pre ++ post → H.run (.start s) pre = some t → t.Tells flag K H) ↔
      ∀ pre op post t, ops = pre ++ op :: post → H.run (.start s) pre = some t →
        ∀ k ∈ K, ¬ Exclusive flag H k → ¬ t.DropsShared op k := by
  constructor
  · rintro htells pre op post t rfl ht k hk - hshared
    obtain ⟨t', hstep, hnot⟩ := not_tells_of_dropsShared hH hshared
    have hrun : H.run (.start s) (pre ++ [op]) = some t' := by rw [Handler.run_concat, ht, Option.bind_some, hstep]
    exact hnot (htells (pre ++ [op]) post t' (by simp) hrun k hk)
  · intro hclean
    -- every point a revert may go back to tells, too
    have hback : ∀ pre post t, ops = pre ++ post → H.run (.start s) pre = some t →
        ∀ k ∈ K, TellsBack flag H k t.state t.leaked t.frames := by
      intro pre
      induction pre using List.reverseRecOn with
      | nil =>
        rintro post t - ht k hk
        obtain rfl := Option.some.inj ht
        show TellsOf flag H s [] [] k
        simp [TellsOf, liveIn, hs k hk]
      | append_singleton pre op ih =>
        rintro post t' hops' ht' k hk
        rw [List.append_assoc] at hops'
        rw [Handler.run_concat] at ht'
        obtain ⟨t, ht, hstep⟩ := Option.bind_eq_some_iff.mp ht'
        refine step_tellsBack hH hk (fun a ha => hops a ?_) (ih _ t hops' ht k hk) hstep
          fun hne => hclean pre op post t hops' ht k hk hne
        rw [hops', ← ha]
        simp
    exact fun pre post t hops' ht k hk => (hback pre post t hops' ht k hk).now

end

end RustEvm.Rollback
