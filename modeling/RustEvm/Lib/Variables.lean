import Mathlib.Tactic

/-!
# RustEvm.Lib.Variables — typed variables kept in the cells of a map

A `Placement` puts variables `p : P` of types `V p` into a map from addresses to words: it gives each its address, and
an encoding with its inverse.  A variable is independent of a write whose address is another (`get_put_ne`).  After
any list of writes it holds the value last written to it, provided that no other variable among those written shares
its address (`get_puts`).
-/

namespace RustEvm.Variables

variable {P A W : Type*} {V : P → Type*}

/-- Where each variable is kept and how its values are written. -/
structure Placement (P A W : Type*) (V : P → Type*) where
  addr : P → A
  enc : (p : P) → V p → W
  dec : (p : P) → W → V p
  dec_enc : ∀ p v, dec p (enc p v) = v

/-- A write to a variable. -/
abbrev Write (V : P → Type*) := (p : P) × V p

/-- The value last written to a variable. -/
def lastWrite [DecidableEq P] (p : P) : List (Write V) → Option (V p)
  | [] => none
  | w :: ws => (lastWrite p ws).or (if h : w.1 = p then some (h ▸ w.2) else none)

namespace Placement

variable (place : Placement P A W V)

def get (m : A → W) (p : P) : V p := place.dec p (m (place.addr p))

variable [DecidableEq A]

def put (m : A → W) (w : Write V) : A → W := Function.update m (place.addr w.1) (place.enc w.1 w.2)

/-- Writes, the first one first. -/
def puts (m : A → W) (ws : List (Write V)) : A → W := ws.foldl place.put m

@[simp] theorem get_put_self (m : A → W) (p : P) (v : V p) : place.get (place.put m ⟨p, v⟩) p = v := by
  rw [get, put, Function.update_self, place.dec_enc]

theorem get_put_ne (m : A → W) {w : Write V} {p : P} (h : place.addr w.1 ≠ place.addr p) :
    place.get (place.put m w) p = place.get m p := by
  rw [get, put, Function.update_of_ne h.symm, get]

variable [DecidableEq P]

/-- **A variable holds the value last written to it**, or what it held before. -/
theorem get_puts {p : P} (ws : List (Write V)) (m : A → W)
    (hsep : ∀ w ∈ ws, place.addr w.1 = place.addr p → w.1 = p) :
    place.get (place.puts m ws) p = (lastWrite p ws).getD (place.get m p) := by
  induction ws generalizing m with
  | nil => rfl
  | cons w ws ih =>
    have hrest := ih (place.put m w) fun w' hw' => hsep w' (List.mem_cons_of_mem _ hw')
    have hfirst : place.get (place.put m w) p =
        (if h : w.1 = p then some (h ▸ w.2) else none : Option (V p)).getD (place.get m p) := by
      by_cases h : w.1 = p
      · obtain ⟨q, v⟩ := w
        obtain rfl : q = p := h
        simp
      · rw [dif_neg h, place.get_put_ne m fun ha => h (hsep w List.mem_cons_self ha)]
        rfl
    show place.get (place.puts (place.put m w) ws) p = _
    rw [hrest, hfirst, lastWrite]
    cases lastWrite p ws <;> rfl

end Placement

end RustEvm.Variables
