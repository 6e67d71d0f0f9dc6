import Mathlib.Tactic

/-!
# RustEvm.Lib.Session — programs that ask their surroundings, and sessions of requests

A `Prog` asks its surroundings one thing after another, each by the answers to those before it.  Surroundings that
simulate each other run it alike, as far as they simulate each other in what it asks (`Prog.run_related`).

A session serves requests in order, each in the state the last one left; a request that fails leaves no trace.
`serve_related` carries a simulation of requests over to sessions, and `serve_filter` leaves requests out that change
nothing one cares about.
-/

namespace RustEvm.Session

/-! ## Programs -/

variable {ι : Type*} {α : ι → Type*} {ρ σ τ ω : Type*}

inductive Prog (ι : Type*) (α : ι → Type*) (ρ : Type*)
  | done (r : ρ)
  | abort
  | ask (i : ι) (next : α i → Prog ι α ρ)

/-- The answer to everything one can ask, and the state after it; `none` is a panic. -/
abbrev Surroundings (α : ι → Type*) (σ : Type*) := (i : ι) → σ → Option (α i × σ)

namespace Prog

def run (h : Surroundings α σ) : Prog ι α ρ → σ → Option (ρ × σ)
  | done r, s => some (r, s)
  | abort, _ => none
  | ask i next, s => (h i s).bind fun x => (next x.1).run h x.2

/-- In this run all that is asked is in `P`. -/
def Asks (h : Surroundings α σ) (P : Set ι) : Prog ι α ρ → σ → Prop
  | done _, _ => True
  | abort, _ => True
  | ask i next, s => i ∈ P ∧ ∀ x ∈ h i s, (next x.1).Asks h P x.2

/-- Whatever the answers are, all that is asked is in `P`. -/
def Only (P : Set ι) : Prog ι α ρ → Prop
  | done _ => True
  | abort => True
  | ask i next => i ∈ P ∧ ∀ a, (next a).Only P

/-- Whatever the answers are, a result is in `P`. -/
def Returns (P : Set ρ) : Prog ι α ρ → Prop
  | done r => r ∈ P
  | abort => True
  | ask _ next => ∀ a, (next a).Returns P

/-- The answers of related states are the same, and the states after them are related. -/
def Alike {β : Type*} (S : σ → τ → Prop) : Option (β × σ) → Option (β × τ) → Prop :=
  Option.Rel fun x y => x.1 = y.1 ∧ S x.2 y.2

theorem Alike.map_fst {β : Type*} {S : σ → τ → Prop} {x : Option (β × σ)} {y : Option (β × τ)} (h : Alike S x y) :
    x.map Prod.fst = y.map Prod.fst := by
  cases h with
  | some hxy => exact congrArg some hxy.1
  | none => rfl

/-- **Surroundings that simulate each other run a program alike.** -/
theorem run_related {S : σ → τ → Prop} {P : Set ι} {h : Surroundings α σ} {k : Surroundings α τ}
    (hsim : ∀ i ∈ P, ∀ s t, S s t → Alike S (h i s) (k i t)) {p : Prog ι α ρ} {s : σ} {t : τ} (hp : p.Asks k P t)
    (hst : S s t) : Alike S (p.run h s) (p.run k t) := by
  induction p generalizing s t with
  | done r => exact .some ⟨rfl, hst⟩
  | abort => exact .none
  | ask i next ih =>
    obtain ⟨hi, hnext⟩ := hp
    have hanswer := hsim i hi s t hst
    rw [run, run]
    generalize h i s = x at hanswer ⊢
    generalize hy : k i t = y at hanswer ⊢
    cases hanswer with
    | none => exact .none
    | @some x y hxy =>
      obtain ⟨hfst, hsnd⟩ := hxy
      rw [Option.bind_some, Option.bind_some, hfst]
      exact ih y.1 (hnext y hy) hsnd

theorem asks_univ (h : Surroundings α σ) (p : Prog ι α ρ) (s : σ) : p.Asks h Set.univ s := by
  induction p generalizing s with
  | done r => trivial
  | abort => trivial
  | ask i next ih => exact ⟨Set.mem_univ i, fun x _ => ih x.1 x.2⟩

theorem Returns.of_run {P : Set ρ} {p : Prog ι α ρ} (hp : p.Returns P) {h : Surroundings α σ} {s : σ} {x : ρ × σ}
    (hrun : p.run h s = some x) : x.1 ∈ P := by
  induction p generalizing s with
  | done r =>
    obtain rfl := Option.some.inj hrun
    exact hp
  | abort => cases hrun
  | ask i next ih =>
    obtain ⟨y, -, hrun⟩ := Option.bind_eq_some_iff.mp hrun
    exact ih y.1 (hp y.1) hrun

/-- What no answer changes, no run does. -/
theorem Only.keeps {P : Set ι} {p : Prog ι α ρ} (hp : p.Only P) {h : Surroundings α σ} {view : σ → ω}
    (hkeep : ∀ i ∈ P, ∀ s x, h i s = some x → view x.2 = view s) {s : σ} {x : ρ × σ} (hrun : p.run h s = some x) :
    view x.2 = view s := by
  induction p generalizing s with
  | done r =>
    obtain rfl := Option.some.inj hrun
    rfl
  | abort => cases hrun
  | ask i next ih =>
    obtain ⟨y, hy, hrun⟩ := Option.bind_eq_some_iff.mp hrun
    exact (ih y.1 (hp.2 y.1) hrun).trans (hkeep i hp.1 s y hy)

end Prog

/-! ## Sessions -/

section

variable {κ β : Type*} (step : κ → σ → Option (β × σ))

/-- The state after a request. -/
def after (q : κ) (s : σ) : σ := ((step q s).map Prod.snd).getD s

/-- The answers to the requests, `none` to those that fail, and the state at the end. -/
def serve : List κ → σ → List (Option β) × σ
  | [], s => ([], s)
  | q :: qs, s => ((step q s).map Prod.fst :: (serve qs (after step q s)).1, (serve qs (after step q s)).2)

/-- Every request meets a state it is fit for. -/
def Along (P : κ → σ → Prop) : List κ → σ → Prop
  | [], _ => True
  | q :: qs, s => P q s ∧ Along P qs (after step q s)

variable {step}

theorem Prog.Alike.after {S : σ → τ → Prop} {step' : κ → τ → Option (β × τ)} {q q' : κ} {s : σ} {t : τ}
    (h : Prog.Alike S (step q s) (step' q' t)) (hst : S s t) :
    (step q s).map Prod.fst = (step' q' t).map Prod.fst ∧ S (after step q s) (Session.after step' q' t) := by
  refine ⟨h.map_fst, ?_⟩
  rw [Session.after, Session.after]
  generalize step q s = x at h ⊢
  generalize step' q' t = y at h ⊢
  cases h with
  | none => exact hst
  | some hxy => exact hxy.2

/-- **Requests that are served alike make sessions that are served alike.** -/
theorem serve_related {S : σ → τ → Prop} {P : κ → τ → Prop} {step' : κ → τ → Option (β × τ)}
    (hsim : ∀ q s t, P q t → S s t → Prog.Alike S (step q s) (step' q t)) {qs : List κ} {s : σ} {t : τ}
    (hqs : Along step' P qs t) (hst : S s t) :
    (serve step qs s).1 = (serve step' qs t).1 ∧ S (serve step qs s).2 (serve step' qs t).2 := by
  induction qs generalizing s t with
  | nil => exact ⟨rfl, hst⟩
  | cons q qs ih =>
    obtain ⟨hq, hqs⟩ := hqs
    obtain ⟨hanswer, hafter⟩ := (hsim q s t hq hst).after hst
    obtain ⟨hanswers, hend⟩ := ih hqs hafter
    exact ⟨by rw [serve, serve, hanswer, hanswers], hend⟩

/-- **Requests that change nothing can be left out of a session**: the others are answered alike. -/
theorem serve_filter {S : σ → σ → Prop} {keep : κ → Bool} (hsim : ∀ q s t, S s t → Prog.Alike S (step q s) (step q t))
    (hquiet : ∀ q s t, keep q = false → S s t → S (after step q s) t) {qs : List κ} {s t : σ} (hst : S s t) :
    ((qs.zip (serve step qs s).1).filter fun x => keep x.1) =
        (qs.filter keep).zip (serve step (qs.filter keep) t).1 ∧
      S (serve step qs s).2 (serve step (qs.filter keep) t).2 := by
  induction qs generalizing s t with
  | nil => exact ⟨rfl, hst⟩
  | cons q qs ih =>
    cases hq : keep q with
    | true =>
      obtain ⟨hanswer, hafter⟩ := (hsim q s t hst).after hst
      obtain ⟨hanswers, hend⟩ := ih hafter
      rw [List.filter_cons_of_pos hq]
      refine ⟨?_, hend⟩
      rw [serve, serve, List.zip_cons_cons, List.zip_cons_cons, List.filter_cons, if_pos hq, hanswer, hanswers]
    | false =>
      obtain ⟨hanswers, hend⟩ := ih (hquiet q s t hq hst)
      have hneg : ¬ keep q = true := by simp [hq]
      rw [List.filter_cons_of_neg hneg]
      refine ⟨?_, hend⟩
      rw [serve, List.zip_cons_cons, List.filter_cons, if_neg hneg, hanswers]

end

end RustEvm.Session
