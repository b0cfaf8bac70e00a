import Mathlib.Tactic

/-!
Loops, bounds-checked arrays and fallible calls of an imperative program.

The value `none` stands for a run that has not returned: an index out of range,
or a loop that is still running when its fuel is spent. A theorem that a
program equals `some b` therefore says that it terminates without a panic and
returns `b`.

* `write`: the assignment `xs[i] = x`; reading is `xs[i]?`.
* `loop`: repeat a step that either continues or breaks with a result.
* `loop_of_path`: the turns of a `loop` along a known path.
* `loop_eq_some`: the rule for `loop`, an invariant that counts the turns left;
  `loop_sound` is the rule for partial correctness.
-/

namespace Machine

variable {α β σ : Type*}

/-! ### Arrays -/

/-- The assignment `xs[i] = x`. -/
def write (xs : List α) (i : ℕ) (x : α) : Option (List α) :=
  if i < xs.length then some (xs.set i x) else none

lemma write_of_lt {xs : List α} {i : ℕ} (h : i < xs.length) (x : α) :
    write xs i x = some (xs.set i x) := if_pos h

/-- A position that can be read can be written. -/
lemma write_of_getElem? {xs : List α} {i : ℕ} {y : α} (h : xs[i]? = some y) (x : α) :
    write xs i x = some (xs.set i x) :=
  write_of_lt (List.getElem?_eq_some_iff.mp h).1 x

lemma getElem?_set_self' {xs : List α} {i : ℕ} {y : α} (h : xs[i]? = some y) (x : α) :
    (xs.set i x)[i]? = some x :=
  List.getElem?_set_self (List.getElem?_eq_some_iff.mp h).1

/-! ### Fallible code -/

section Except

universe u v

variable {ε : Type v} {α β : Type u}

@[simp] lemma ok_bind (a : α) (f : α → Except ε β) : ((.ok a : Except ε α) >>= f) = f a := rfl

@[simp] lemma error_bind (e : ε) (f : α → Except ε β) :
    ((.error e : Except ε α) >>= f) = .error e := rfl

/-- A sequence of two calls succeeds when both do. -/
lemma bind_eq_ok_iff {x : Except ε α} {f : α → Except ε β} {b : β} :
    (x >>= f) = .ok b ↔ ∃ a, x = .ok a ∧ f a = .ok b := by
  cases x <;> simp

lemma map_eq_ok_iff {f : α → β} {x : Except ε α} {b : β} :
    x.map f = .ok b ↔ ∃ a, x = .ok a ∧ f a = b := by
  cases x <;> simp [Except.map]

lemma mapError_eq_ok {ε' : Type*} {f : ε → ε'} {x : Except ε α} {a : α} :
    x.mapError f = .ok a ↔ x = .ok a := by
  cases x <;> simp [Except.mapError]

/-- A test of the result, on a call that succeeds. -/
lemma eq_ok_of_toOption {x : Except ε α} {f : α → β} {b : β} (h : x.toOption.map f = some b) :
    ∃ a, x = .ok a ∧ f a = b := by
  cases x with
  | error e => simp [Except.toOption] at h
  | ok a => exact ⟨a, rfl, by simpa [Except.toOption] using h⟩

/-- The rule of a fold that succeeds: what holds of the elements so far and the state is
kept by each call. -/
lemma foldlM_ok {f : β → α → Except ε β} {I : List α → β → Prop} {l : List α} {b b' : β}
    (h₀ : I [] b)
    (hstep : ∀ done a b b', done ++ [a] <+: l → I done b → f b a = .ok b' → I (done ++ [a]) b')
    (h : l.foldlM f b = .ok b') : I l b' := by
  have hgen : ∀ (rest done : List α) (b : β), done ++ rest = l → I done b →
      rest.foldlM f b = .ok b' → I l b' := by
    intro rest
    induction rest with
    | nil =>
        intro done b hl hI h
        obtain rfl : b = b' := Except.ok.inj h
        rwa [← hl, List.append_nil]
    | cons a rest ih =>
        intro done b hl hI h
        rw [List.foldlM_cons, bind_eq_ok_iff] at h
        obtain ⟨b₁, hb₁, h⟩ := h
        refine ih (done ++ [a]) b₁ (by simpa using hl) (hstep done a b b₁ ?_ hI hb₁) h
        exact ⟨rest, by simpa using hl⟩
  exact hgen l [] b rfl h₀ h

/-- Calls that leave the state do not matter. -/
lemma foldlM_skip {f : β → α → Except ε β} {l : List α} {b : β} (h : ∀ a ∈ l, f b a = .ok b) :
    l.foldlM f b = .ok b := by
  induction l with
  | nil => rfl
  | cons a l ih =>
      simp only [List.mem_cons, forall_eq_or_imp] at h
      rw [List.foldlM_cons, h.1, ok_bind, ih h.2]

/-- The rule of a fold whose calls succeed. -/
lemma foldlM_total {f : β → α → Except ε β} {I : List α → β → Prop} {l : List α} {b : β}
    (h₀ : I [] b)
    (hstep : ∀ done a b, done ++ [a] <+: l → I done b → ∃ b', f b a = .ok b' ∧ I (done ++ [a]) b') :
    ∃ b', l.foldlM f b = .ok b' ∧ I l b' := by
  have hgen : ∀ (rest done : List α) (b : β), done ++ rest = l → I done b →
      ∃ b', rest.foldlM f b = .ok b' ∧ I l b' := by
    intro rest
    induction rest with
    | nil =>
        intro done b hl hI
        rw [List.append_nil] at hl
        exact ⟨b, rfl, hl ▸ hI⟩
    | cons a rest ih =>
        intro done b hl hI
        obtain ⟨b₁, hb₁, hI₁⟩ := hstep done a b ⟨rest, by simpa using hl⟩ hI
        obtain ⟨b', hb', hI'⟩ := ih (done ++ [a]) b₁ (by simpa using hl) hI₁
        exact ⟨b', by rw [List.foldlM_cons, hb₁, ok_bind, hb'], hI'⟩
  exact hgen l [] b rfl h₀

/-- A traversal succeeds when every call does. -/
lemma mapM_ok_iff {f : α → Except ε β} {l : List α} {l' : List β} :
    l.mapM f = .ok l' ↔ List.Forall₂ (fun a b => f a = .ok b) l l' := by
  induction l generalizing l' with
  | nil => simp [List.mapM_nil, pure, Except.pure, eq_comm]
  | cons a l ih =>
      rw [List.mapM_cons, bind_eq_ok_iff, List.forall₂_cons_left_iff]
      refine exists_congr fun b => ?_
      rw [bind_eq_ok_iff, ← exists_and_left]
      refine exists_congr fun l'' => ?_
      rw [ih]
      simp [pure, Except.pure, eq_comm]

/-- Each result of a sequence of calls comes from one of them. -/
lemma exists_of_mapM_ok {f : α → Except ε β} {l : List α} {l' : List β} (h : l.mapM f = .ok l')
    {b : β} (hb : b ∈ l') : ∃ a ∈ l, f a = .ok b := by
  have hall := mapM_ok_iff.mp h
  obtain ⟨i, hi, rfl⟩ := List.mem_iff_getElem.mp hb
  have hi' : i < l.length := hall.length_eq ▸ hi
  exact ⟨l[i], List.getElem_mem hi', (List.forall₂_iff_get.mp hall).2 i hi' hi⟩

/-- A fold that first converts each element succeeds when the traversal and the fold
do. -/
lemma foldlM_mapM_ok {γ : Type u} {f : α → Except ε γ} {g : β → γ → Except ε β} {l : List α}
    {b b' : β} (h : l.foldlM (fun b a => do g b (← f a)) b = .ok b') :
    ∃ l', l.mapM f = .ok l' ∧ l'.foldlM g b = .ok b' := by
  simp only [mapM_ok_iff]
  induction l generalizing b with
  | nil => exact ⟨[], .nil, h⟩
  | cons a l ih =>
      rw [List.foldlM_cons] at h
      obtain ⟨b₁, hb₁, h⟩ := bind_eq_ok_iff.mp h
      obtain ⟨c, hc, hg⟩ := bind_eq_ok_iff.mp hb₁
      obtain ⟨l', hl', hfold⟩ := ih h
      exact ⟨c :: l', .cons hc hl', by rw [List.foldlM_cons, hg, ok_bind, hfold]⟩

lemma foldlM_of_mapM {γ : Type u} {f : α → Except ε γ} (g : β → γ → Except ε β) {l : List α}
    {l' : List γ} (h : l.mapM f = .ok l') (b : β) :
    l.foldlM (fun b a => do g b (← f a)) b = l'.foldlM g b := by
  rw [mapM_ok_iff] at h
  induction h generalizing b with
  | nil => rfl
  | cons hc _ ih =>
      rw [List.foldlM_cons, List.foldlM_cons, hc, ok_bind]
      exact congrArg (g b _ >>= ·) (funext ih)

/-- A traversal in which every call succeeds. -/
lemma mapM_eq_ok {f : α → Except ε β} {g : α → β} {l : List α} (h : ∀ a ∈ l, f a = .ok (g a)) :
    l.mapM f = .ok (l.map g) := by
  induction l with
  | nil => rfl
  | cons a l ih =>
      simp only [List.mem_cons, forall_eq_or_imp] at h
      simp only [List.mapM_cons, h.1, ih h.2, ok_bind, List.map_cons]
      rfl

end Except

/-! ### Loops -/

/-- Repeat `step`, at most `n` times, until it breaks. -/
def loop (step : σ → Option (σ ⊕ β)) : ℕ → σ → Option β
  | 0, _ => none
  | n + 1, s =>
      match step s with
      | none => none
      | some (.inl s') => loop step n s'
      | some (.inr b) => some b

/-- The turns along a path. -/
lemma loop_of_path {step : σ → Option (σ ⊕ β)} (path : ℕ → σ) {i n : ℕ} (hi : i ≤ n)
    (h : ∀ j < i, step (path j) = some (.inl (path (j + 1)))) :
    loop step n (path 0) = loop step (n - i) (path i) := by
  induction i with
  | zero => rfl
  | succ i ih =>
      rw [ih (Nat.le_of_succ_le hi) fun j hj => h j (Nat.lt_succ_of_lt hj),
        show n - i = n - (i + 1) + 1 by omega, loop, h i (Nat.lt_succ_self i)]

/-- A loop that follows a path and breaks at its end. -/
lemma loop_of_path_break {step : σ → Option (σ ⊕ β)} (path : ℕ → σ) {i n : ℕ} {r : Option β}
    (hi : i < n) (h : ∀ j < i, step (path j) = some (.inl (path (j + 1))))
    (hr : step (path i) = r.map .inr) : loop step n (path 0) = r := by
  rw [loop_of_path path hi.le h, show n - i = n - i - 1 + 1 by omega, loop, hr]
  cases r <;> rfl

/-- The rule for loops. `I m s` says that the state is sound and that at most `m`
more turns follow; each turn either breaks with a result that meets `Q`, or
lowers `m`. -/
theorem loop_eq_some {step : σ → Option (σ ⊕ β)} {I : ℕ → σ → Prop} {Q : β → Prop}
    (hstep : ∀ m s, I m s → (∃ s', step s = some (.inl s') ∧ ∃ k < m, I k s') ∨
      ∃ b, step s = some (.inr b) ∧ Q b)
    {m n : ℕ} {s : σ} (hs : I m s) (hn : m < n) : ∃ b, loop step n s = some b ∧ Q b := by
  induction n generalizing m s with
  | zero => omega
  | succ n ih =>
      obtain ⟨s', hs', k, hk, hinv⟩ | ⟨b, hb, hq⟩ := hstep m s hs
      · obtain ⟨b, hb, hq⟩ := ih hinv (by omega)
        exact ⟨b, by simp [loop, hs', hb], hq⟩
      · exact ⟨b, by simp [loop, hb], hq⟩

/-- A function that returns on all elements. -/
lemma exists_mapM {f : α → Option β} {Q : α → β → Prop} {l : List α}
    (h : ∀ a ∈ l, ∃ b, f a = some b ∧ Q a b) :
    ∃ l', l.mapM f = some l' ∧ List.Forall₂ Q l l' := by
  induction l with
  | nil => exact ⟨[], rfl, .nil⟩
  | cons a l ih =>
      obtain ⟨⟨b, hb, hq⟩, hl⟩ := List.forall_mem_cons.mp h
      obtain ⟨l', hl', hall⟩ := ih hl
      exact ⟨b :: l', by simp [List.mapM_cons, hb, hl'], .cons hq hall⟩

/-- The rule for loops that may fail: the result of a run meets `Q`. -/
theorem loop_sound {step : σ → Option (σ ⊕ β)} {I : σ → Prop} {Q : β → Prop}
    (hstep : ∀ s, I s → (∀ s', step s = some (.inl s') → I s') ∧
      ∀ b, step s = some (.inr b) → Q b)
    {n : ℕ} {s : σ} {b : β} (hs : I s) (hrun : loop step n s = some b) : Q b := by
  induction n generalizing s with
  | zero => cases hrun
  | succ n ih =>
      rw [loop] at hrun
      cases hcase : step s with
      | none => simp [hcase] at hrun
      | some r =>
          cases r with
          | inl s' => exact ih ((hstep s hs).1 s' hcase) (by simpa [hcase] using hrun)
          | inr b' =>
              simp only [hcase, Option.some.injEq] at hrun
              exact hrun ▸ (hstep s hs).2 b' hcase

end Machine
