import Hypertok.PairMerge.Basic

/-!
Symbols that stand for words, where a merge concatenates.

* `spell`: the letters of a sequence of symbols.
* `Joins.bpe`: merging does not change them.
* `Joins.concat`: the rule that a replay adds keeps to this.
-/

namespace PairMerge

open Relation

variable {α γ ρ : Type*}

/-- The letters of a sequence of symbols, if each stands for a word. -/
def spell (word : α → Option (List γ)) (s : List α) : Option (List γ) :=
  (s.mapM word).map List.flatten

section Spell

variable {word : α → Option (List γ)} {s t : List α} {a b : α} {p q x : List γ}

@[simp] lemma spell_nil : spell word [] = some [] := rfl

lemma spell_cons : spell word (a :: s) = (word a).bind fun p => (spell word s).map (p ++ ·) := by
  rw [spell, spell, List.mapM_cons]
  cases word a <;> cases s.mapM word <;> rfl

lemma spell_append : spell word (s ++ t) =
    (spell word s).bind fun p => (spell word t).map (p ++ ·) := by
  induction s with
  | nil =>
      rw [List.nil_append, spell_nil, Option.bind_some]
      simp
  | cons a s ih =>
      rw [List.cons_append, spell_cons, spell_cons, ih]
      cases word a <;> cases spell word s <;> cases spell word t <;> simp

lemma spell_append_of_eq (hs : spell word s = some p) (ht : spell word t = some q) :
    spell word (s ++ t) = some (p ++ q) := by
  rw [spell_append, hs, ht]
  rfl

lemma spell_append_eq_some : spell word (s ++ t) = some x ↔
    ∃ p q, spell word s = some p ∧ spell word t = some q ∧ p ++ q = x := by
  rw [spell_append]
  simp [Option.bind_eq_some_iff]

lemma spell_cons_eq_some : spell word (a :: s) = some x ↔
    ∃ p q, word a = some p ∧ spell word s = some q ∧ p ++ q = x := by
  rw [spell_cons]
  simp [Option.bind_eq_some_iff]

lemma spell_singleton (h : word a = some p) : spell word [a] = some p := by
  rw [spell_cons, h]
  simp

lemma spell_pair (ha : word a = some p) (hb : word b = some q) :
    spell word [a, b] = some (p ++ q) := spell_append_of_eq (spell_singleton ha) (spell_singleton hb)

/-- More symbols that stand for words. -/
lemma spell_mono {word' : α → Option (List γ)} (hword : ∀ a p, word a = some p → word' a = some p)
    (h : spell word s = some x) : spell word' s = some x := by
  induction s generalizing x with
  | nil => exact h
  | cons a s ih =>
      obtain ⟨p, q, ha, hs, rfl⟩ := spell_cons_eq_some.mp h
      exact spell_cons_eq_some.mpr ⟨p, q, hword a p ha, ih hs, rfl⟩

lemma exists_of_mem_spell (h : spell word s = some x) (ha : a ∈ s) : ∃ p, word a = some p := by
  induction s generalizing x with
  | nil => cases ha
  | cons b s ih =>
      obtain ⟨p, q, hb, hs, rfl⟩ := spell_cons_eq_some.mp h
      obtain rfl | ha := List.mem_cons.mp ha
      · exact ⟨p, hb⟩
      · exact ih hs ha

/-- No more symbols than letters. -/
lemma length_le_of_spell (hword : ∀ a p, word a = some p → p ≠ []) (h : spell word s = some x) :
    s.length ≤ x.length := by
  induction s generalizing x with
  | nil => exact Nat.zero_le _
  | cons a s ih =>
      obtain ⟨p, q, ha, hs, rfl⟩ := spell_cons_eq_some.mp h
      have hp := List.length_pos_iff.mpr (hword a p ha)
      have hq := ih hs
      rw [List.length_cons, List.length_append]
      omega

/-- Symbols that stand for one letter each. -/
lemma spell_map {f : γ → α} (h : ∀ c, word (f c) = some [c]) (x : List γ) :
    spell word (x.map f) = some x := by
  induction x with
  | nil => rfl
  | cons c x ih =>
      rw [List.map_cons, spell_cons, h, ih]
      rfl

/-- The parts of a sequence, one after the other. -/
lemma spell_flatten {parts : List (List α)} {words : List (List γ)}
    (h : List.Forall₂ (fun s p => spell word s = some p) parts words) :
    spell word parts.flatten = some words.flatten := by
  induction h with
  | nil => rfl
  | cons hs _ ih => exact spell_append_of_eq hs ih

end Spell

/-- A merge gives a symbol of the two words. -/
def Joins (M : Table ρ α) (word : α → Option (List γ)) : Prop :=
  ∀ a b p q, word a = some p → word b = some q → ∀ c ∈ M a b, word c.2 = some (p ++ q)

namespace Joins

variable [LinearOrder ρ] {M N : Table ρ α} {word : α → Option (List γ)} {s t : List α}
  {x : List γ}

omit [LinearOrder ρ] in
/-- So does each of fewer merges. -/
lemma anti (h : Joins M word) (hN : ∀ a b p q, word a = some p → word b = some q →
    ∀ c ∈ N a b, c ∈ M a b) : Joins N word :=
  fun a b p q ha hb c hc => h a b p q ha hb c (hN a b p q ha hb c hc)

lemma step (h : Joins M word) (hst : Step M s t) (hs : spell word s = some x) :
    spell word t = some x := by
  rcases hst with @⟨u, v, a, b, c, r, hab, -, -⟩
  obtain ⟨p, _, hu, hright, rfl⟩ := spell_append_eq_some.mp hs
  obtain ⟨l, _, ha, hrest, rfl⟩ := spell_cons_eq_some.mp hright
  obtain ⟨r', q, hb, hv, rfl⟩ := spell_cons_eq_some.mp hrest
  have hc : word c = some (l ++ r') := h a b l r' ha hb _ hab
  rw [← List.append_assoc l]
  exact spell_append_of_eq hu (spell_cons_eq_some.mpr ⟨_, _, hc, hv, rfl⟩)

/-- A run does not change the letters. -/
lemma steps (h : Joins M word) (hst : Steps M s t) (hs : spell word s = some x) :
    spell word t = some x := by
  induction hst with
  | refl => exact hs
  | tail _ hstep ih => exact h.step hstep ih

/-- Merging does not change the letters. -/
theorem bpe (h : Joins M word) (hs : spell word s = some x) :
    spell word (bpe M s) = some x := h.steps (bpe_steps M s) hs

omit [LinearOrder ρ] in
/-- A further merge, of a pair that spells its product. -/
lemma concat (h : Joins M word) {a b c : α} (hab : spell word [a, b] = some x)
    (hc : word c = some x) (hN : ∀ a' b' p q, word a' = some p → word b' = some q →
      ∀ e ∈ N a' b', e ∈ M a' b' ∨ a' = a ∧ b' = b ∧ e.2 = c) : Joins N word := by
  intro a' b' p q ha hb e he
  obtain hM | ⟨rfl, rfl, rfl⟩ := hN a' b' p q ha hb e he
  · exact h a' b' p q ha hb e hM
  · rw [hc, ← hab]
    exact spell_pair ha hb

end Joins

end PairMerge
