import Mathlib.Tactic

/-!
Robin Hood hashing. Each slot of a circular table is empty or stores how far it is from its
home; a key that is further from its home takes the slot of one that is less far.

* `Ordered`: the invariant. The distance grows by at most one from a slot to the next one.
* `Ordered.path`: so a search for a key may stop where the distance falls below its own.
* `Ordered.set_empty`, `Ordered.set_swap`: the two ways to write a slot.
-/

namespace Machine

namespace RobinHood

variable {σ : Type*} {dist : σ → Option ℕ} {slots : List σ}

/-- The slot at `p` is at least `d` from its home. -/
def AtLeast (dist : σ → Option ℕ) (slots : List σ) (p d : ℕ) : Prop :=
  ∃ s d', slots[p]? = some s ∧ dist s = some d' ∧ d ≤ d'

/-- A slot that is not at home comes after one that is at most one less far. -/
def Ordered (dist : σ → Option ℕ) (slots : List σ) : Prop :=
  ∀ p s d, p < slots.length → slots[(p + 1) % slots.length]? = some s → dist s = some (d + 1) →
    AtLeast dist slots p d

/-- What is carried to `p`, at a distance of `d`, may be written there. -/
def Carried (dist : σ → Option ℕ) (slots : List σ) (p d : ℕ) : Prop :=
  ∀ d', d = d' + 1 → ∃ q < slots.length, (q + 1) % slots.length = p ∧ AtLeast dist slots q d'

lemma Carried.zero {p : ℕ} : Carried dist slots p 0 := fun _ => nofun

lemma ordered_replicate {n : ℕ} {e : σ} (he : dist e = none) :
    Ordered dist (List.replicate n e) := by
  intro p s d _ hs hd
  rw [List.eq_of_mem_replicate (List.mem_of_getElem? hs), he] at hd
  cases hd

lemma AtLeast.mono {p d d' : ℕ} (h : AtLeast dist slots p d) (hle : d' ≤ d) :
    AtLeast dist slots p d' := by
  obtain ⟨s, x, hs, hx, hd⟩ := h
  exact ⟨s, x, hs, hx, hle.trans hd⟩

/-- On the way from its home to a slot, all slots are at least as far from theirs. -/
lemma Ordered.path (h : Ordered dist slots) {home d : ℕ} (hn : 0 < slots.length)
    (hat : AtLeast dist slots ((home + d) % slots.length) d) {j : ℕ} (hj : j ≤ d) :
    AtLeast dist slots ((home + j) % slots.length) j := by
  induction d with
  | zero =>
      obtain rfl := Nat.le_zero.mp hj
      exact hat
  | succ d ih =>
      rcases Nat.le_succ_iff.mp hj with hj | rfl
      · refine ih ?_ hj
        obtain ⟨s, d', hs, hd', hle⟩ := hat
        obtain ⟨x, rfl⟩ := Nat.exists_eq_add_of_le' hle
        have hnext : ((home + d) % slots.length + 1) % slots.length =
            (home + (d + 1)) % slots.length := by
          rw [Nat.mod_add_mod, Nat.add_assoc]
        refine (h _ s (x + d) (Nat.mod_lt _ hn) (hnext ▸ hs) hd').mono (Nat.le_add_left _ _)
      · exact hat

lemma succ_mod_inj {n p q : ℕ} (hp : p < n) (hq : q < n) (h : (p + 1) % n = (q + 1) % n) :
    p = q := by
  have hmod : p % n = q % n := Nat.ModEq.add_right_cancel' 1 h
  rwa [Nat.mod_eq_of_lt hp, Nat.mod_eq_of_lt hq] at hmod

/-- A slot is written: the ones before and after it stay in order. -/
lemma Ordered.set (h : Ordered dist slots) {p d : ℕ} {s : σ} (hs : dist s = some d)
    (hcarried : Carried dist slots p d) (hp : p < slots.length)
    (hnew : ∀ x, AtLeast dist slots p x → x ≤ d) :
    Ordered dist (slots.set p s) := by
  have hkeep : ∀ q x, AtLeast dist slots q x → AtLeast dist (slots.set p s) q x := by
    intro q x hx
    by_cases hq : p = q
    · subst hq
      exact ⟨s, d, List.getElem?_set_self hp, hs, hnew x hx⟩
    · obtain ⟨t, d', ht, hd', hle⟩ := hx
      exact ⟨t, d', by rwa [List.getElem?_set_ne hq], hd', hle⟩
  intro q t x hq ht hx
  rw [List.length_set] at hq ht
  by_cases hpq : p = (q + 1) % slots.length
  · rw [← hpq, List.getElem?_set_self hp, Option.some_inj] at ht
    rw [← ht, hs, Option.some_inj] at hx
    obtain ⟨q', hq', hnext, hat⟩ := hcarried x hx
    obtain rfl := succ_mod_inj hq' hq (hnext.trans hpq)
    exact hkeep q' x hat
  · rw [List.getElem?_set_ne hpq] at ht
    exact hkeep q x (h q t x hq ht hx)

/-- An empty slot is written. -/
lemma Ordered.set_empty (h : Ordered dist slots) {p d : ℕ} {s e : σ} (he : slots[p]? = some e)
    (hempty : dist e = none) (hs : dist s = some d) (hcarried : Carried dist slots p d) :
    Ordered dist (slots.set p s) := by
  refine h.set hs hcarried (List.getElem?_eq_some_iff.mp he).1 fun x hx => ?_
  obtain ⟨t, d', ht, hd', -⟩ := hx
  rw [he, Option.some_inj] at ht
  rw [← ht, hempty] at hd'
  cases hd'

/-- A slot that is less far from its home is taken. -/
lemma Ordered.set_swap (h : Ordered dist slots) {p d d₀ : ℕ} {s e : σ} (he : slots[p]? = some e)
    (hd₀ : dist e = some d₀) (hlt : d₀ < d) (hs : dist s = some d)
    (hcarried : Carried dist slots p d) : Ordered dist (slots.set p s) := by
  refine h.set hs hcarried (List.getElem?_eq_some_iff.mp he).1 fun x hx => ?_
  obtain ⟨t, d', ht, hd', hle⟩ := hx
  rw [he, Option.some_inj] at ht
  rw [← ht, hd₀, Option.some_inj] at hd'
  omega

/-- What passes a slot that is as far from its home is carried on. -/
lemma AtLeast.carried {p d : ℕ} (h : AtLeast dist slots p d) (hp : p < slots.length) :
    Carried dist slots ((p + 1) % slots.length) (d + 1) := by
  intro d' hd'
  obtain rfl := Nat.succ.inj hd'
  exact ⟨p, hp, rfl, h⟩

end RobinHood

end Machine
