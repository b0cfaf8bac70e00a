import Hypertok.Machine.Loop

/-!
Programs that may panic: on an index out of range, on an integer that overflows, or where
they expect a value that is not there. Otherwise they fail with an error, or return.

* `Run`: the programs, as a monad.
* `Run.Returns`: a program does not panic, and what it returns has a property.
* `Returns.bind`, `Returns.iterate`, `Returns.foldlM`: the rules for sequences and loops, and
  `Returns.foldlM_forall` for checks one by one.
* `Iter`: a relation, `n` times; the meaning of a loop that runs `n` times.
-/

namespace Machine

variable {ε α β σ : Type}

/-- A program that panics (`none`), fails, or returns. -/
def Run (ε α : Type) : Type := Option (Except ε α)

namespace Run

/-- The program that panics. -/
def stuck : Run ε α := none

/-- `return Err(e)`. -/
def fail (e : ε) : Run ε α := some (.error e)

/-- `Ok(a)`. -/
def ok (a : α) : Run ε α := some (.ok a)

/-- A sequence of two programs. -/
def andThen : Run ε α → (α → Run ε β) → Run ε β
  | none, _ => none
  | some (.error e), _ => some (.error e)
  | some (.ok a), f => f a

instance : Monad (Run ε) where
  pure := ok
  bind := andThen

@[simp] lemma pure_eq (a : α) : (pure a : Run ε α) = ok a := rfl

@[simp] lemma ok_bind (a : α) (f : α → Run ε β) : (ok a >>= f) = f a := rfl

@[simp] lemma fail_bind (e : ε) (f : α → Run ε β) : (fail e >>= f) = fail e := rfl

@[simp] lemma stuck_bind (f : α → Run ε β) : (stuck >>= f) = stuck := rfl

/-- A program that returns is a sequence of two that return. -/
lemma bind_eq_ok {x : Run ε α} {f : α → Run ε β} {b : β} :
    (x >>= f) = ok b ↔ ∃ a, x = ok a ∧ f a = ok b := by
  constructor
  · intro h
    match x, h with
    | some (.ok a), h => exact ⟨a, rfl, h⟩
  · rintro ⟨a, rfl, h⟩
    exact h

@[simp] lemma ok_inj {a b : α} : (ok a : Run ε α) = ok b ↔ a = b := by
  constructor
  · rintro ⟨⟩
    rfl
  · rintro rfl
    rfl

@[simp] lemma fail_ne_ok {e : ε} {a : α} : (fail e : Run ε α) ≠ ok a := nofun

@[simp] lemma stuck_ne_ok {a : α} : (stuck : Run ε α) ≠ ok a := nofun

/-- `ok_or(e)?`. -/
def orFail (e : ε) : Option α → Run ε α
  | some a => ok a
  | none => fail e

/-- `expect`, and an index that is checked. -/
def expect : Option α → Run ε α
  | some a => ok a
  | none => stuck

/-- A condition whose failure is an error. -/
def require (p : Prop) [Decidable p] (e : ε) : Run ε Unit := if p then ok () else fail e

/-- Integers of `w` bits: a sum that must not overflow. -/
def add (w a b : ℕ) : Run ε ℕ := if a + b < 2 ^ w then ok (a + b) else stuck

@[simp] lemma orFail_some (e : ε) (a : α) : orFail e (some a) = ok a := rfl

@[simp] lemma orFail_none (e : ε) : orFail e (none : Option α) = fail e := rfl

@[simp] lemma expect_some (a : α) : (expect (some a) : Run ε α) = ok a := rfl

lemma orFail_eq_ok {e : ε} {o : Option α} {a : α} : orFail e o = ok a ↔ o = some a := by
  cases o <;> simp

lemma expect_eq_ok {o : Option α} {a : α} : (expect o : Run ε α) = ok a ↔ o = some a := by
  cases o <;> simp [expect]

lemma require_eq_ok {p : Prop} [Decidable p] {e : ε} {u : Unit} : require p e = ok u ↔ p := by
  rw [require]
  split_ifs with h <;> simp [h]

lemma require_of {p : Prop} [Decidable p] (h : p) (e : ε) : require p e = ok () := if_pos h

lemma add_of_lt {w a b : ℕ} (h : a + b < 2 ^ w) : (add w a b : Run ε ℕ) = ok (a + b) := if_pos h

lemma add_eq_ok {w a b c : ℕ} : (add w a b : Run ε ℕ) = ok c ↔ a + b < 2 ^ w ∧ a + b = c := by
  rw [add]
  split_ifs with h <;> simp [h]

/-- `map_err`. -/
def mapErr {ε' : Type} (f : ε → ε') : Run ε α → Run ε' α
  | none => stuck
  | some (.error e) => fail (f e)
  | some (.ok a) => ok a

lemma mapErr_eq_ok {ε' : Type} {f : ε → ε'} {x : Run ε α} {a : α} :
    mapErr f x = ok a ↔ x = ok a := by
  constructor
  · intro h
    match x, h with
    | some (.ok b), h => exact congrArg ok (ok_inj.mp h)
  · rintro rfl
    rfl

/-- The value that a program returns. -/
def result : Run ε α → Option α
  | some (.ok a) => some a
  | _ => none

lemma result_eq_some {x : Run ε α} {a : α} : x.result = some a ↔ x = ok a := by
  constructor
  · intro h
    match x, h with
    | some (.ok b), h => exact congrArg ok (Option.some_inj.mp h)
  · rintro rfl
    rfl

/-! ### Programs that return -/

/-- The program does not panic, and what it returns has the property. -/
def Returns : Run ε α → (α → Prop) → Prop
  | none, _ => False
  | some (.error _), _ => True
  | some (.ok a), Q => Q a

namespace Returns

variable {x : Run ε α} {f : α → Run ε β} {Q Q' : α → Prop} {R : β → Prop}

@[simp] lemma ok_iff {a : α} : Returns (ok a : Run ε α) Q ↔ Q a := Iff.rfl

@[simp] lemma fail (e : ε) : Returns (Run.fail e : Run ε α) Q := trivial

lemma mono (h : Returns x Q) (hQ : ∀ a, Q a → Q' a) : Returns x Q' :=
  match x, h with
  | some (.error _), _ => trivial
  | some (.ok a), h => hQ a h

/-- The rule for a sequence. -/
lemma bind (h : Returns x Q) (hf : ∀ a, Q a → Returns (f a) R) : Returns (x >>= f) R :=
  match x, h with
  | some (.error _), _ => trivial
  | some (.ok a), h => hf a h

lemma of_eq {a : α} (h : Returns x Q) (hx : x = .ok a) : Q a := by
  subst hx
  exact h

lemma ne_stuck (h : Returns x Q) : x ≠ stuck := by
  rintro rfl
  exact h

lemma of_ne_stuck (h : x ≠ stuck) (hQ : ∀ a, x = .ok a → Q a) : Returns x Q :=
  match x, h, hQ with
  | none, h, _ => absurd rfl h
  | some (.error _), _, _ => trivial
  | some (.ok a), _, hQ => hQ a rfl

lemma orFail {e : ε} {o : Option α} (h : ∀ a, o = some a → Q a) : Returns (Run.orFail e o) Q := by
  cases o with
  | none => trivial
  | some a => exact h a rfl

lemma require {p : Prop} [Decidable p] {e : ε} {Q : Unit → Prop} (h : p → Q ()) :
    Returns (Run.require p e) Q := by
  rw [Run.require]
  split_ifs with hp
  · exact h hp
  · trivial

lemma add {w a b : ℕ} {Q : ℕ → Prop} (hlt : a + b < 2 ^ w) (h : Q (a + b)) :
    Returns (Run.add w a b : Run ε ℕ) Q := by
  rw [add_of_lt hlt]
  exact h

/-- The rule for `ok_or` in a sequence. -/
lemma bind_orFail {e : ε} {o : Option α} (h : ∀ a, o = some a → Returns (f a) R) :
    Returns (Run.orFail e o >>= f) R := by
  cases o with
  | none => trivial
  | some a => exact h a rfl

/-- The rule for a condition in a sequence. -/
lemma bind_require {p : Prop} [Decidable p] {e : ε} {f : Unit → Run ε β}
    (h : p → Returns (f ()) R) : Returns (Run.require p e >>= f) R := by
  rw [Run.require]
  split_ifs with hp
  · exact h hp
  · trivial

/-- The rule for a sum in a sequence. -/
lemma bind_add {w a b : ℕ} {f : ℕ → Run ε β} (hlt : a + b < 2 ^ w) (h : Returns (f (a + b)) R) :
    Returns (Run.add w a b >>= f) R := by
  rw [add_of_lt hlt]
  exact h

/-- The rule for a loop over a list. -/
lemma foldlM {f : σ → α → Run ε σ} {I : List α → σ → Prop} {l : List α} {s : σ} (h₀ : I l s)
    (hstep : ∀ a rest s, I (a :: rest) s → Returns (f s a) (I rest)) :
    Returns (l.foldlM f s) (I []) := by
  induction l generalizing s with
  | nil => exact h₀
  | cons a rest ih => exact (hstep a rest s h₀).bind fun s' hs => ih hs

/-- A loop that checks its elements one by one. -/
lemma foldlM_forall {f : σ → α → Run ε σ} {P : α → Prop} {l : List α}
    (h : ∀ a ∈ l, ∀ s, Returns (f s a) fun _ => P a) (s : σ) :
    Returns (l.foldlM f s) fun _ => ∀ a ∈ l, P a := by
  induction l generalizing s with
  | nil => exact fun _ => nofun
  | cons a l ih =>
      obtain ⟨ha, hl⟩ := List.forall_mem_cons.mp h
      exact (ha s).bind fun s' hP => (ih hl s').mono fun _ hl => List.forall_mem_cons.mpr ⟨hP, hl⟩

end Returns

/-! ### Loops that run a number of times -/

/-- `for _ in 0..n`. -/
def iterate (f : σ → Run ε σ) : ℕ → σ → Run ε σ
  | 0, s => ok s
  | n + 1, s => f s >>= iterate f n

end Run

/-- A relation, `n` times. -/
inductive Iter (R : σ → σ → Prop) : ℕ → σ → σ → Prop
  | zero (s : σ) : Iter R 0 s s
  | succ {n : ℕ} {s t u : σ} (h : R s t) (h' : Iter R n t u) : Iter R (n + 1) s u

namespace Iter

variable {R : σ → σ → Prop} {n : ℕ} {s t u : σ}

lemma concat (h : Iter R n s t) (h' : R t u) : Iter R (n + 1) s u := by
  induction h with
  | zero s => exact .succ h' (.zero u)
  | succ h _ ih => exact .succ h (ih h')

/-- Turns of states are turns of what they hold. -/
lemma map {τ : Type} {R' : τ → τ → Prop} (f : σ → τ) (hR : ∀ s t, R s t → R' (f s) (f t))
    (h : Iter R n s t) : Iter R' n (f s) (f t) := by
  induction h with
  | zero s => exact .zero _
  | succ h _ ih => exact .succ (hR _ _ h) ih

/-- A measure that every turn raises by at least `k`. -/
lemma measure_le {m : σ → ℕ} {k : ℕ} (hR : ∀ s t, R s t → m s + k ≤ m t) (h : Iter R n s t) :
    m s + n * k ≤ m t := by
  induction h with
  | zero s => simp
  | @succ n s t u h _ ih =>
      have := hR s t h
      rw [Nat.succ_mul]
      omega

end Iter

namespace Run.Returns

variable {R : σ → σ → Prop} {f : σ → Run ε σ}

/-- What a loop does, from what a turn does. -/
lemma iterate {I : σ → Prop} (hI : ∀ s t, I s → R s t → I t)
    (hstep : ∀ s, I s → Returns (f s) (R s)) (n : ℕ) {s : σ} (hs : I s) :
    Returns (Run.iterate f n s) (Iter R n s) := by
  induction n generalizing s with
  | zero => exact .zero s
  | succ n ih =>
      refine (hstep s hs).bind fun t ht => (ih (hI s t hs ht)).mono fun u hu => ?_
      exact .succ ht hu

/-- A loop along which a turn is known to be possible. -/
lemma of_iter {f : σ × α → Run ε (σ × α)} {n : ℕ} {s u : σ} (h : Iter R n s u)
    (hstep : ∀ s t a, R s t → Returns (f (s, a)) fun r => r.1 = t) (a : α) :
    Returns (Run.iterate f n (s, a)) fun r => r.1 = u := by
  induction h generalizing a with
  | zero s => rfl
  | @succ n s t u h _ ih =>
      refine (hstep s t a h).bind fun r hr => ?_
      obtain ⟨t', a'⟩ := r
      obtain rfl : t' = t := hr
      exact ih a'

end Run.Returns

end Machine
