import Mathlib.Tactic

/-!
Chains of hops, and how a scan doubles them.

* `Hops`: so many hops in a row, each from a place where one is allowed.
* `ReachedIn`: the places that fewer than so many hops reach from a seed.
* `hops_add`, `reachedIn_add`: what one more round of a scan adds, from what the rounds before
  have.
-/

namespace Machine

variable {α : Type*} {next : α → α} {ok seed : α → Prop} {m n : ℕ} {p q : α}

/-- From `p`, `n` hops in a row are allowed. -/
def Hops (next : α → α) (ok : α → Prop) (n : ℕ) (p : α) : Prop := ∀ k < n, ok (next^[k] p)

/-- Fewer than `n` hops lead from a seed to `q`. -/
def ReachedIn (next : α → α) (ok seed : α → Prop) (n : ℕ) (q : α) : Prop :=
  ∃ h < n, ∃ p, seed p ∧ Hops next ok h p ∧ next^[h] p = q

lemma hops_zero : Hops next ok 0 p := fun _ hk => absurd hk (Nat.not_lt_zero _)

lemma hops_one : Hops next ok 1 p ↔ ok p := by
  constructor
  · exact fun h => h 0 Nat.one_pos
  · intro h k hk
    rwa [Nat.lt_one_iff.mp hk]

/-- Hops in a row are hops and then hops. -/
lemma hops_add : Hops next ok (m + n) p ↔ Hops next ok m p ∧ Hops next ok n (next^[m] p) := by
  constructor
  · refine fun h => ⟨fun k hk => h k (by omega), fun k hk => ?_⟩
    rw [← Function.iterate_add_apply]
    exact h (k + m) (by omega)
  · rintro ⟨hm, hn⟩ k hk
    obtain hlt | hge := Nat.lt_or_ge k m
    · exact hm k hlt
    · have hback := hn (k - m) (by omega)
      rwa [← Function.iterate_add_apply, Nat.sub_add_cancel hge] at hback

lemma reachedIn_one : ReachedIn next ok seed 1 q ↔ seed q := by
  constructor
  · rintro ⟨h, hlt, p, hp, -, rfl⟩
    rwa [Nat.lt_one_iff.mp hlt]
  · exact fun hq => ⟨0, Nat.one_pos, q, hq, hops_zero, rfl⟩

/-- Of fewer than `m + n` hops the last `m` are split off, if there are as many. -/
lemma reachedIn_add : ReachedIn next ok seed (m + n) q ↔ ReachedIn next ok seed m q ∨
    ∃ p, ReachedIn next ok seed n p ∧ Hops next ok m p ∧ next^[m] p = q := by
  constructor
  · rintro ⟨h, hlt, p, hp, hhops, rfl⟩
    obtain hm | hm := Nat.lt_or_ge h m
    · exact .inl ⟨h, hm, p, hp, hhops, rfl⟩
    · rw [← Nat.sub_add_cancel hm, hops_add] at hhops
      refine .inr ⟨next^[h - m] p, ⟨h - m, by omega, p, hp, hhops.1, rfl⟩, hhops.2, ?_⟩
      rw [← Function.iterate_add_apply, Nat.add_sub_cancel' hm]
  · rintro (⟨h, hlt, hreach⟩ | ⟨_, ⟨h, hlt, p, hp, hhops, rfl⟩, hm, rfl⟩)
    · exact ⟨h, by omega, hreach⟩
    · refine ⟨h + m, by omega, p, hp, hops_add.mpr ⟨hhops, hm⟩, ?_⟩
      rw [Nat.add_comm, Function.iterate_add_apply]

end Machine
