import Mathlib.Tactic

/-!
Open addressing without deletion. A table is an array of slots, each empty or
holding a key; every key has a probe sequence of positions, is stored at the first
one that was empty, and is searched for along the same sequence.

* `WellProbed`: the invariant. Before the position of a stored key, its probe
  sequence meets slots with other keys only.
* `WellProbed.not_stores`: so a search may stop at the first empty slot.
* `WellProbed.insert`, `WellProbed.replace`: the two ways to write a slot.
* `exists_empty`, `linear_surjective`: a table that is not full has an empty slot on
  every linear probe sequence, which bounds the searches; `exists_stop` is where one stops.
-/

namespace Machine

variable {σ κ : Type*}

/-- How keys are found: what key a slot holds, if any, and the `i`-th position probed
for a key. -/
structure Probing (σ κ : Type*) where
  /-- The key in a slot, `none` if the slot is empty. -/
  key : σ → Option κ
  /-- The probe sequence of a key. -/
  index : κ → ℕ → ℕ

namespace Probing

variable (P : Probing σ κ) (slots : List σ)

/-- The key `k` is stored in the slot `s`. -/
def Stores (k : κ) (s : σ) : Prop := ∃ j : ℕ, slots[j]? = some s ∧ P.key s = some k

/-- The first `i` positions probed for `k` hold other keys. -/
def Full (k : κ) (i : ℕ) : Prop :=
  ∀ m < i, ∃ s k', slots[P.index k m]? = some s ∧ P.key s = some k' ∧ k' ≠ k

/-- Every stored key is found by its probe sequence. -/
def WellProbed : Prop :=
  ∀ (j : ℕ) s k, slots[j]? = some s → P.key s = some k → ∃ i, P.index k i = j ∧ P.Full slots k i

/-- Every stored key is found by its first `n + 1` probes. -/
def ProbedWithin (n : ℕ) : Prop :=
  ∀ (j : ℕ) s k, slots[j]? = some s → P.key s = some k →
    ∃ i ≤ n, P.index k i = j ∧ P.Full slots k i

/-- The number of slots in use. -/
def occupied : ℕ := slots.countP fun s => (P.key s).isSome

variable {P slots} {k : κ} {i : ℕ} {s : σ}

lemma Full.zero : P.Full slots k 0 := fun m hm => absurd hm (Nat.not_lt_zero m)

/-- One more slot with another key. -/
lemma Full.succ (h : P.Full slots k i) {k' : κ} (hs : slots[P.index k i]? = some s)
    (hk : P.key s = some k') (hne : k' ≠ k) : P.Full slots k (i + 1) := by
  intro m hm
  obtain hm | rfl := Nat.lt_succ_iff_lt_or_eq.mp hm
  · exact h m hm
  · exact ⟨s, k', hs, hk, hne⟩

/-- A table of empty slots. -/
lemma wellProbed_replicate {n : ℕ} {e : σ} (he : P.key e = none) :
    P.WellProbed (List.replicate n e) := by
  intro j s k hs hk
  rw [List.eq_of_mem_replicate (List.mem_of_getElem? hs), he] at hk
  cases hk

lemma not_stores_replicate {n : ℕ} {e : σ} (he : P.key e = none) (k : κ) (s : σ) :
    ¬ P.Stores (List.replicate n e) k s := by
  rintro ⟨j, hs, hk⟩
  rw [List.eq_of_mem_replicate (List.mem_of_getElem? hs), he] at hk
  cases hk

/-- A key found by probing is stored nowhere else. -/
lemma WellProbed.pos_eq (h : P.WellProbed slots) (hfull : P.Full slots k i)
    (hs : slots[P.index k i]? = some s) (hk : P.key s = some k) {j : ℕ} {s' : σ}
    (hs' : slots[j]? = some s') (hk' : P.key s' = some k) : j = P.index k i := by
  obtain ⟨i', rfl, hfull'⟩ := h j s' k hs' hk'
  obtain hlt | rfl | hlt := lt_trichotomy i i'
  · obtain ⟨t, k', ht, hkt, hne⟩ := hfull' i hlt
    rw [hs, Option.some_inj] at ht
    rw [← ht, hk, Option.some_inj] at hkt
    exact absurd hkt.symm hne
  · rfl
  · obtain ⟨t, k', ht, hkt, hne⟩ := hfull i' hlt
    rw [hs', Option.some_inj] at ht
    rw [← ht, hk', Option.some_inj] at hkt
    exact absurd hkt.symm hne

/-- A search returns what is stored. -/
lemma WellProbed.stores_iff (h : P.WellProbed slots) (hfull : P.Full slots k i)
    (hs : slots[P.index k i]? = some s) (hk : P.key s = some k) {s' : σ} :
    P.Stores slots k s' ↔ s' = s := by
  constructor
  · rintro ⟨j, hs', hk'⟩
    obtain rfl := h.pos_eq hfull hs hk hs' hk'
    exact Option.some_inj.mp (hs'.symm.trans hs)
  · rintro rfl
    exact ⟨_, hs, hk⟩

/-- A search may stop at the first empty slot. -/
lemma WellProbed.not_stores (h : P.WellProbed slots) (hfull : P.Full slots k i)
    (hs : slots[P.index k i]? = some s) (hk : P.key s = none) (s' : σ) :
    ¬ P.Stores slots k s' := by
  rintro ⟨j, hs', hk'⟩
  obtain ⟨i', rfl, hfull'⟩ := h j s' k hs' hk'
  obtain hlt | rfl | hlt := lt_trichotomy i i'
  · obtain ⟨t, k', ht, hkt, -⟩ := hfull' i hlt
    rw [hs, Option.some_inj] at ht
    rw [← ht, hk] at hkt
    cases hkt
  · rw [hs, Option.some_inj] at hs'
    rw [← hs', hk] at hk'
    cases hk'
  · obtain ⟨t, k', ht, hkt, hne⟩ := hfull i' hlt
    rw [hs', Option.some_inj] at ht
    rw [← ht, hk', Option.some_inj] at hkt
    exact hne hkt.symm

/-- A slot in use is not an empty one that is written. -/
lemma getElem?_set_of_empty {j j' : ℕ} {e t : σ} (he : slots[j]? = some e) (hempty : P.key e = none)
    (ht : slots[j']? = some t) (hkt : P.key t ≠ none) : (slots.set j s)[j']? = some t := by
  rw [List.getElem?_set_ne]
  · exact ht
  · rintro rfl
    rw [he, Option.some_inj] at ht
    exact hkt (ht ▸ hempty)

/-- A path of slots in use is one after an empty slot is written. -/
lemma Full.set (hf : P.Full slots k i) {j : ℕ} {e : σ} (he : slots[j]? = some e)
    (hempty : P.key e = none) : P.Full (slots.set j s) k i := by
  intro m hm
  obtain ⟨t, kt, ht, hkt, hne⟩ := hf m hm
  exact ⟨t, kt, getElem?_set_of_empty he hempty ht (by simp [hkt]), hkt, hne⟩

/-- A key that is not stored may be written to the first empty slot of its sequence. -/
theorem WellProbed.insert (h : P.WellProbed slots) (hfull : P.Full slots k i) {e : σ}
    (he : slots[P.index k i]? = some e) (hempty : P.key e = none) (hs : P.key s = some k) :
    P.WellProbed (slots.set (P.index k i) s) ∧
      ∀ k' s', P.Stores (slots.set (P.index k i) s) k' s' ↔
        k' = k ∧ s' = s ∨ P.Stores slots k' s' := by
  have hlt := (List.getElem?_eq_some_iff.mp he).1
  have hself : (slots.set (P.index k i) s)[P.index k i]? = some s := List.getElem?_set_self hlt
  have hpath : ∀ k' i', P.Full slots k' i' → P.Full (slots.set (P.index k i) s) k' i' :=
    fun k' i' hf => hf.set he hempty
  refine ⟨fun j t k' ht hkt => ?_, fun k' s' => ⟨?_, ?_⟩⟩
  · by_cases hj : P.index k i = j
    · subst hj
      rw [hself, Option.some_inj] at ht
      obtain rfl : k = k' := by rwa [← ht, hs, Option.some_inj] at hkt
      exact ⟨i, rfl, hpath k i hfull⟩
    · rw [List.getElem?_set_ne hj] at ht
      obtain ⟨i', hi', hf⟩ := h j t k' ht hkt
      exact ⟨i', hi', hpath k' i' hf⟩
  · rintro ⟨j, ht, hkt⟩
    by_cases hj : P.index k i = j
    · subst hj
      rw [hself, Option.some_inj] at ht
      subst ht
      rw [hs, Option.some_inj] at hkt
      exact .inl ⟨hkt.symm, rfl⟩
    · rw [List.getElem?_set_ne hj] at ht
      exact .inr ⟨j, ht, hkt⟩
  · rintro (⟨rfl, rfl⟩ | ⟨j, ht, hkt⟩)
    · exact ⟨_, hself, hs⟩
    · exact ⟨j, getElem?_set_of_empty he hempty ht (by simp [hkt]), hkt⟩

lemma ProbedWithin.wellProbed {n : ℕ} (h : P.ProbedWithin slots n) : P.WellProbed slots := by
  intro j s k hs hk
  obtain ⟨i, -, hi, hfull⟩ := h j s k hs hk
  exact ⟨i, hi, hfull⟩

/-- The key is written within the probes that find it. -/
lemma ProbedWithin.insert {n : ℕ} (h : P.ProbedWithin slots n) (hn : i ≤ n) (hfull : P.Full slots k i)
    {e : σ} (he : slots[P.index k i]? = some e) (hempty : P.key e = none) (hs : P.key s = some k) :
    P.ProbedWithin (slots.set (P.index k i) s) n := by
  intro j t k' ht hkt
  by_cases hj : P.index k i = j
  · subst hj
    rw [List.getElem?_set_self (List.getElem?_eq_some_iff.mp he).1, Option.some_inj] at ht
    obtain rfl : k = k' := by rwa [← ht, hs, Option.some_inj] at hkt
    exact ⟨i, hn, rfl, hfull.set he hempty⟩
  · rw [List.getElem?_set_ne hj] at ht
    obtain ⟨i', hi', hji', hf⟩ := h j t k' ht hkt
    exact ⟨i', hi', hji', hf.set he hempty⟩

/-- The slot of a stored key may be overwritten by one with the same key. -/
theorem WellProbed.replace (h : P.WellProbed slots) (hfull : P.Full slots k i) {e : σ}
    (he : slots[P.index k i]? = some e) (hke : P.key e = some k) (hs : P.key s = some k) :
    P.WellProbed (slots.set (P.index k i) s) ∧
      ∀ k' s', P.Stores (slots.set (P.index k i) s) k' s' ↔
        k' = k ∧ s' = s ∨ k' ≠ k ∧ P.Stores slots k' s' := by
  have hlt := (List.getElem?_eq_some_iff.mp he).1
  have hself : (slots.set (P.index k i) s)[P.index k i]? = some s := List.getElem?_set_self hlt
  have hpath : ∀ k' i', P.Full slots k' i' → P.Full (slots.set (P.index k i) s) k' i' := by
    intro k' i' hf m hm
    obtain ⟨t, kt, ht, hkt, hne⟩ := hf m hm
    by_cases hj : P.index k i = P.index k' m
    · rw [← hj, he, Option.some_inj] at ht
      rw [← ht, hke, Option.some_inj] at hkt
      exact ⟨s, kt, hj ▸ hself, hkt ▸ hs, hne⟩
    · exact ⟨t, kt, by rwa [List.getElem?_set_ne hj], hkt, hne⟩
  refine ⟨fun j t k' ht hkt => ?_, fun k' s' => ⟨?_, ?_⟩⟩
  · by_cases hj : P.index k i = j
    · subst hj
      rw [hself, Option.some_inj] at ht
      obtain rfl : k = k' := by rwa [← ht, hs, Option.some_inj] at hkt
      exact ⟨i, rfl, hpath k i hfull⟩
    · rw [List.getElem?_set_ne hj] at ht
      obtain ⟨i', hi', hf⟩ := h j t k' ht hkt
      exact ⟨i', hi', hpath k' i' hf⟩
  · rintro ⟨j, ht, hkt⟩
    by_cases hj : P.index k i = j
    · subst hj
      rw [hself, Option.some_inj] at ht
      subst ht
      rw [hs, Option.some_inj] at hkt
      exact .inl ⟨hkt.symm, rfl⟩
    · rw [List.getElem?_set_ne hj] at ht
      by_cases hk' : k' = k
      · subst hk'
        exact absurd (h.pos_eq hfull he hke ht hkt).symm hj
      · exact .inr ⟨hk', j, ht, hkt⟩
  · rintro (⟨rfl, rfl⟩ | ⟨hne, j, ht, hkt⟩)
    · exact ⟨_, hself, hs⟩
    · refine ⟨j, ?_, hkt⟩
      rw [List.getElem?_set_ne]
      · exact ht
      · rintro rfl
        rw [he, Option.some_inj] at ht
        rw [← ht, hke, Option.some_inj] at hkt
        exact hne hkt.symm

/-! ### Load -/

lemma occupied_replicate {n : ℕ} {e : σ} (he : P.key e = none) :
    P.occupied (List.replicate n e) = 0 := by
  simp [occupied, List.countP_replicate, he]

/-- Writing to an empty slot uses one more slot. -/
lemma occupied_set {j : ℕ} {e : σ} (he : slots[j]? = some e) (hempty : P.key e = none)
    (hs : (P.key s).isSome) : P.occupied (slots.set j s) = P.occupied slots + 1 := by
  obtain ⟨hj, rfl⟩ := List.getElem?_eq_some_iff.mp he
  simp [occupied, List.countP_set hj, hempty, hs]

/-- A table that is not full has an empty slot. -/
lemma exists_empty (h : P.occupied slots < slots.length) :
    ∃ (j : ℕ) (e : σ), slots[j]? = some e ∧ P.key e = none := by
  obtain ⟨e, he, hkey⟩ := List.countP_lt_length_iff.mp h
  obtain ⟨j, hj⟩ := List.getElem?_of_mem he
  exact ⟨j, e, hj, by simpa using hkey⟩

/-- Linear probing visits every position of a table of `n` slots in `n` probes. -/
lemma linear_surjective {n : ℕ} (home : ℕ) {j : ℕ} (hj : j < n) : ∃ i < n, (home + i) % n = j := by
  have hmod := Nat.mod_lt home (Nat.zero_lt_of_lt hj)
  have hdiv := Nat.mod_add_div home n
  obtain hle | hlt := le_or_gt (home % n) j
  · refine ⟨j - home % n, by omega, ?_⟩
    rw [show home + (j - home % n) = j + n * (home / n) by omega, Nat.add_mul_mod_self_left,
      Nat.mod_eq_of_lt hj]
  · refine ⟨j + n - home % n, by omega, ?_⟩
    rw [show home + (j + n - home % n) = j + n + n * (home / n) by omega,
      Nat.add_mul_mod_self_left, Nat.add_mod_right, Nat.mod_eq_of_lt hj]

/-- A probe sequence that visits all slots comes to an empty one or to its key. -/
lemma exists_stop {n : ℕ} (h : P.occupied slots < slots.length)
    (hlt : ∀ i, P.index k i < slots.length)
    (hvisit : ∀ j < slots.length, ∃ i < n, P.index k i = j) : ∃ i < n, P.Full slots k i ∧
      ∃ s, slots[P.index k i]? = some s ∧ (P.key s = none ∨ P.key s = some k) := by
  classical
  obtain ⟨j, e, hj, hempty⟩ := exists_empty h
  obtain ⟨i₀, hi₀, rfl⟩ := hvisit j (List.getElem?_eq_some_iff.mp hj).1
  have hex : ∃ i s, slots[P.index k i]? = some s ∧ (P.key s = none ∨ P.key s = some k) :=
    ⟨i₀, e, hj, .inl hempty⟩
  refine ⟨Nat.find hex, (Nat.find_min' hex ⟨e, hj, .inl hempty⟩).trans_lt hi₀, fun m hm => ?_,
    Nat.find_spec hex⟩
  obtain ⟨s, hs⟩ : ∃ s, slots[P.index k m]? = some s := ⟨_, List.getElem?_eq_getElem (hlt m)⟩
  have hgo := Nat.find_min hex hm
  cases hkey : P.key s with
  | none => exact absurd ⟨s, hs, .inl hkey⟩ hgo
  | some k' => exact ⟨s, k', hs, hkey, fun heq => hgo ⟨s, hs, .inr (heq ▸ hkey)⟩⟩

end Probing

end Machine
