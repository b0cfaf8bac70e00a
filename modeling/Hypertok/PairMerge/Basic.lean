import Mathlib.Data.List.Chain
import Mathlib.Logic.Relation
import Mathlib.Tactic

/-!
Priority merging of adjacent pairs: the rewriting system behind byte-pair
encoding, over an arbitrary alphabet and arbitrary linearly ordered ranks.

A table `M : Table ρ α` gives some adjacent pairs a rank and a product. One
step replaces the leftmost pair of minimal rank by its product.

* `best`, `step`, `bpe`: the executable algorithm; `bpe` repeats `step` until
  no pair merges.
* `Step`: the same step as a relation, which shows the context of the merged
  pair; `step_eq_some_iff` says that the two agree, so `Step` is deterministic.
* `eq_bpe`: every run that ends in a word without mergeable pairs ends in
  `bpe M s`; `bpe_eq_of_steps`: a run does not change what remains to be
  computed. These two are how an implementation is compared with `bpe`.
-/

namespace PairMerge

open Relation

variable {α ρ : Type*}

/-- A merge table: the rank and the product of the pairs that merge. -/
abbrev Table (ρ α : Type*) := α → α → Option (ρ × α)

variable {M : Table ρ α}

/-! ### The step, as a relation -/

/-- No pair of the word merges. -/
def Final (M : Table ρ α) (s : List α) : Prop := s.IsChain fun a b => M a b = none

@[simp] lemma final_nil : Final M [] := .nil

@[simp] lemma final_singleton (a : α) : Final M [a] := .singleton _

@[simp] lemma final_cons_cons {a b : α} {s : List α} :
    Final M (a :: b :: s) ↔ M a b = none ∧ Final M (b :: s) := List.isChain_cons_cons

lemma Final.of_infix {s t : List α} (h : Final M s) (ht : t <:+: s) : Final M t :=
  List.IsChain.infix h ht

variable [LinearOrder ρ]

/-- Every pair of the word that merges has rank above `r`. -/
def Above (M : Table ρ α) (r : ρ) (s : List α) : Prop :=
  s.IsChain fun a b => ∀ q ∈ M a b, r < q.1

/-- Every pair of the word that merges has rank `r` or more. -/
def AtLeast (M : Table ρ α) (r : ρ) (s : List α) : Prop :=
  s.IsChain fun a b => ∀ q ∈ M a b, r ≤ q.1

/-- One merge: the pair `a b` has minimal rank, and every pair on its left has
a larger one. -/
inductive Step (M : Table ρ α) : List α → List α → Prop
  | merge {u v : List α} {a b c : α} {r : ρ} (hab : M a b = some (r, c))
      (hu : Above M r (u ++ [a])) (hv : AtLeast M r (b :: v)) :
      Step M (u ++ a :: b :: v) (u ++ c :: v)

/-- A run of merges. -/
abbrev Steps (M : Table ρ α) : List α → List α → Prop := ReflTransGen (Step M)

@[simp] lemma above_singleton (r : ρ) (a : α) : Above M r [a] := .singleton _

@[simp] lemma above_cons_cons {r : ρ} {a b : α} {s : List α} :
    Above M r (a :: b :: s) ↔ (∀ q ∈ M a b, r < q.1) ∧ Above M r (b :: s) :=
  List.isChain_cons_cons

@[simp] lemma atLeast_cons_cons {r : ρ} {a b : α} {s : List α} :
    AtLeast M r (a :: b :: s) ↔ (∀ q ∈ M a b, r ≤ q.1) ∧ AtLeast M r (b :: s) :=
  List.isChain_cons_cons

lemma Final.atLeast {s : List α} (h : Final M s) (r : ρ) : AtLeast M r s :=
  h.imp fun _ _ hxy => by simp [hxy]

lemma AtLeast.trans {r r' : ρ} {s : List α} (h : AtLeast M r' s) (hr : r ≤ r') :
    AtLeast M r s :=
  h.imp fun _ _ hq q hm => hr.trans (hq q hm)

lemma Above.of_infix {r : ρ} {s t : List α} (h : Above M r s) (ht : t <:+: s) : Above M r t :=
  List.IsChain.infix h ht

lemma AtLeast.of_infix {r : ρ} {s t : List α} (h : AtLeast M r s) (ht : t <:+: s) :
    AtLeast M r t :=
  List.IsChain.infix h ht

/-- The rank of a merging pair bounds from above every `r` that bounds the word. -/
lemma AtLeast.le_of_mem {r : ρ} {u v : List α} {a b : α} (h : AtLeast M r (u ++ a :: b :: v))
    {q : ρ × α} (hq : q ∈ M a b) : r ≤ q.1 :=
  (List.isChain_append_cons_cons.mp h).2.1 q hq

/-- Around a pair of minimal rank, the whole word is bounded by its rank. -/
lemma atLeast_of_split {r : ρ} {u v : List α} {a b c : α} (hab : M a b = some (r, c))
    (hu : Above M r (u ++ [a])) (hv : AtLeast M r (b :: v)) :
    AtLeast M r (u ++ a :: b :: v) := by
  refine List.isChain_append_cons_cons.mpr ⟨hu.imp fun _ _ h q hq => (h q hq).le, ?_, hv⟩
  simp [hab]

/-- A step shortens the word by one symbol. -/
lemma Step.length_eq {s t : List α} (h : Step M s t) : s.length = t.length + 1 := by
  cases h
  simp only [List.length_append, List.length_cons]
  omega

/-- A word that steps is not final. -/
lemma Step.not_final {s t : List α} (h : Step M s t) : ¬ Final M s := by
  cases h with
  | merge hab _ _ =>
      intro hf
      have := (List.isChain_append_cons_cons.mp hf).2.1
      simp [hab] at this

/-! ### The step, executable -/

/-- The better of the pair at the head of a word and the best pair of its tail.
Ties go to the head. -/
def pick : Option (ρ × α) → Option (ρ × ℕ × α) → Option (ρ × ℕ × α)
  | none, none => none
  | none, some (r', i, c') => some (r', i + 1, c')
  | some (r, c), none => some (r, 0, c)
  | some (r, c), some (r', i, c') => if r ≤ r' then some (r, 0, c) else some (r', i + 1, c')

/-- The leftmost pair of minimal rank: its rank, its position and its product. -/
def best (M : Table ρ α) : List α → Option (ρ × ℕ × α)
  | a :: b :: s => pick (M a b) (best M (b :: s))
  | _ => none

/-- The word with the pair at position `i` replaced by `c`. -/
def replaceAt (c : α) : ℕ → List α → List α
  | 0, _ :: _ :: s => c :: s
  | i + 1, a :: s => a :: replaceAt c i s
  | _, s => s

/-- One merge of the leftmost pair of minimal rank, `none` if no pair merges. -/
def step (M : Table ρ α) (s : List α) : Option (List α) :=
  (best M s).map fun q => replaceAt q.2.2 q.2.1 s

/-- At most `n` merges. -/
def bpeUpTo (M : Table ρ α) : ℕ → List α → List α
  | 0, s => s
  | n + 1, s =>
      match step M s with
      | none => s
      | some t => bpeUpTo M n t

/-- The reference algorithm: merge until no pair merges. A word of length `n`
admits fewer than `n` merges. -/
def bpe (M : Table ρ α) (s : List α) : List α := bpeUpTo M s.length s

lemma replaceAt_append (c : α) (u : List α) (a b : α) (v : List α) :
    replaceAt c u.length (u ++ a :: b :: v) = u ++ c :: v := by
  induction u with
  | nil => rfl
  | cons x u ih => simp [replaceAt, ih]

lemma pick_eq_none_iff {q : Option (ρ × α)} {q' : Option (ρ × ℕ × α)} :
    pick q q' = none ↔ q = none ∧ q' = none := by
  rcases q with _ | ⟨r, c⟩ <;> rcases q' with _ | ⟨r', i, c'⟩ <;> simp [pick]
  split <;> simp

/-- The two ways a pair is picked: from the head, or from the tail when the
head is worse. -/
lemma pick_eq_some_iff {q : Option (ρ × α)} {q' : Option (ρ × ℕ × α)} {r : ρ} {i : ℕ} {c : α} :
    pick q q' = some (r, i, c) ↔
      (i = 0 ∧ q = some (r, c) ∧ ∀ p ∈ q', r ≤ p.1) ∨
        ∃ j, i = j + 1 ∧ q' = some (r, j, c) ∧ ∀ p ∈ q, r < p.1 := by
  rcases q with _ | ⟨r₁, c₁⟩ <;> rcases q' with _ | ⟨r₂, j, c₂⟩ <;> simp only [pick]
  · simp
  · aesop
  · aesop
  · split <;> rename_i hle <;> constructor
    · rintro ⟨⟩
      exact .inl (by simpa)
    · rintro (⟨rfl, h, -⟩ | ⟨j', rfl, h, h'⟩)
      · simpa using h
      · obtain ⟨rfl, -⟩ := by simpa using h
        exact absurd hle (not_le.mpr (h' _ rfl))
    · rintro ⟨⟩
      exact .inr ⟨j, by simpa using not_le.mp hle⟩
    · rintro (⟨rfl, h, h'⟩ | ⟨j', rfl, h, -⟩)
      · obtain ⟨rfl, -⟩ := by simpa using h
        exact absurd (h' _ rfl) hle
      · simpa using h

/-- No pair is found exactly when the word is final. -/
lemma best_eq_none_iff (s : List α) : best M s = none ↔ Final M s := by
  induction s with
  | nil => simp [best]
  | cons a s ih =>
      cases s with
      | nil => simp [best]
      | cons b s => rw [best, pick_eq_none_iff, ih, final_cons_cons]

/-- The decomposition of a word around the pair that `best` finds. -/
lemma best_eq_some_iff {s : List α} {r : ρ} {i : ℕ} {c : α} :
    best M s = some (r, i, c) ↔
      ∃ u a b v, s = u ++ a :: b :: v ∧ u.length = i ∧ M a b = some (r, c) ∧
        Above M r (u ++ [a]) ∧ AtLeast M r (b :: v) := by
  induction s generalizing r i c with
  | nil => simp [best]
  | cons x s ih =>
      cases s with
      | nil =>
          simp only [best, reduceCtorEq, false_iff]
          rintro ⟨u, a, b, v, h, -⟩
          have := congrArg List.length h
          simp at this
          omega
      | cons y s =>
          have hmin : (∀ p ∈ best M (y :: s), r ≤ p.1) ↔ AtLeast M r (y :: s) := by
            constructor
            · intro h
              cases hbest : best M (y :: s) with
              | none => exact ((best_eq_none_iff _).mp hbest).atLeast r
              | some p =>
                  obtain ⟨u, a, b, v, huv, -, hab, hu, hv⟩ := ih.mp hbest
                  rw [huv]
                  exact (atLeast_of_split hab hu hv).trans (h p hbest)
            · intro h p hp
              obtain ⟨u, a, b, v, huv, -, hab, -, -⟩ := ih.mp hp
              rw [huv] at h
              exact h.le_of_mem (q := (p.1, p.2.2)) hab
          rw [best, pick_eq_some_iff, hmin]
          constructor
          · rintro (⟨rfl, hxy, hrest⟩ | ⟨j, rfl, hrest, hxy⟩)
            · exact ⟨[], x, y, s, rfl, rfl, hxy, by simp, hrest⟩
            · obtain ⟨u, a, b, v, huv, rfl, hab, hu, hv⟩ := ih.mp hrest
              refine ⟨x :: u, a, b, v, by rw [huv]; rfl, rfl, hab, ?_, hv⟩
              cases u <;> simp_all
          · rintro ⟨u, a, b, v, huv, rfl, hab, hu, hv⟩
            cases u with
            | nil =>
                simp only [List.nil_append, List.cons.injEq] at huv
                obtain ⟨rfl, rfl, rfl⟩ := huv
                exact .inl ⟨rfl, hab, hv⟩
            | cons x' u =>
                simp only [List.cons_append, List.cons.injEq] at huv
                obtain ⟨rfl, huv⟩ := huv
                refine .inr ⟨u.length, rfl, ih.mpr ⟨u, a, b, v, huv, rfl, hab, ?_, hv⟩, ?_⟩
                · cases u <;> simp_all
                · cases u <;> simp_all

/-- The executable step computes the relation. -/
theorem step_eq_some_iff {s t : List α} : step M s = some t ↔ Step M s t := by
  rw [step, Option.map_eq_some_iff]
  constructor
  · rintro ⟨⟨r, i, c⟩, hbest, rfl⟩
    obtain ⟨u, a, b, v, rfl, rfl, hab, hu, hv⟩ := best_eq_some_iff.mp hbest
    rw [replaceAt_append]
    exact .merge hab hu hv
  · rintro @⟨u, v, a, b, c, r, hab, hu, hv⟩
    exact ⟨(r, u.length, c), best_eq_some_iff.mpr ⟨u, a, b, v, rfl, rfl, hab, hu, hv⟩,
      replaceAt_append c u a b v⟩

lemma step_eq_none_iff {s : List α} : step M s = none ↔ Final M s := by
  rw [step, Option.map_eq_none_iff, best_eq_none_iff]

/-- At most one step is possible. -/
lemma Step.unique {s t t' : List α} (h : Step M s t) (h' : Step M s t') : t = t' := by
  rw [← step_eq_some_iff] at h h'
  exact Option.some.inj (h.symm.trans h')

lemma bpeUpTo_succ_of_step {s t : List α} (h : Step M s t) (n : ℕ) :
    bpeUpTo M (n + 1) s = bpeUpTo M n t := by
  rw [bpeUpTo, step_eq_some_iff.mpr h]

lemma bpeUpTo_of_final {s : List α} (h : Final M s) (n : ℕ) : bpeUpTo M n s = s := by
  cases n with
  | zero => rfl
  | succ n => rw [bpeUpTo, step_eq_none_iff.mpr h]

/-- A run to a final word is what enough fuel computes. -/
lemma Steps.bpeUpTo_eq {s t : List α} (h : Steps M s t) (ht : Final M t) {n : ℕ}
    (hn : s.length ≤ n) : bpeUpTo M n s = t := by
  induction h using ReflTransGen.head_induction_on generalizing n with
  | refl => exact bpeUpTo_of_final ht n
  | head hstep _ ih =>
      have hlen := hstep.length_eq
      obtain ⟨m, rfl⟩ := Nat.exists_eq_succ_of_ne_zero (show n ≠ 0 by omega)
      rw [bpeUpTo_succ_of_step hstep]
      exact ih (by omega)

/-! ### The reference algorithm -/

/-- Every run that ends in a final word ends in `bpe M s`. -/
theorem eq_bpe {s t : List α} (h : Steps M s t) (ht : Final M t) : bpe M s = t :=
  h.bpeUpTo_eq ht le_rfl

/-- Every word runs to a final one. -/
lemma exists_steps_final (M : Table ρ α) (s : List α) : ∃ t, Steps M s t ∧ Final M t := by
  induction hn : s.length generalizing s with
  | zero => exact ⟨s, .refl, by simp [List.length_eq_zero_iff.mp hn]⟩
  | succ n ih =>
      cases hs : step M s with
      | none => exact ⟨s, .refl, step_eq_none_iff.mp hs⟩
      | some t =>
          have hst := step_eq_some_iff.mp hs
          obtain ⟨t', ht', hfin⟩ := ih t (by have := hst.length_eq; omega)
          exact ⟨t', .head hst ht', hfin⟩

/-- `bpe M s` is the end of a run from `s`. -/
theorem bpe_steps (M : Table ρ α) (s : List α) : Steps M s (bpe M s) := by
  obtain ⟨t, ht, hfin⟩ := exists_steps_final M s
  rwa [eq_bpe ht hfin]

/-- In `bpe M s` no pair merges. -/
theorem bpe_final (M : Table ρ α) (s : List α) : Final M (bpe M s) := by
  obtain ⟨t, ht, hfin⟩ := exists_steps_final M s
  rwa [eq_bpe ht hfin]

/-- A run does not change what remains to be computed. -/
theorem bpe_eq_of_steps {s t : List α} (h : Steps M s t) : bpe M s = bpe M t :=
  eq_bpe (h.trans (bpe_steps M t)) (bpe_final M t)

/-- A run does not lengthen the word. -/
lemma Steps.length_le {s t : List α} (h : Steps M s t) : t.length ≤ s.length := by
  induction h with
  | refl => exact le_rfl
  | tail _ hstep ih => exact (Nat.le_of_lt (by simp [hstep.length_eq])).trans ih

lemma length_bpe_le (M : Table ρ α) (s : List α) : (bpe M s).length ≤ s.length :=
  (bpe_steps M s).length_le

lemma bpe_of_final {s : List α} (h : Final M s) : bpe M s = s := eq_bpe .refl h

@[simp] lemma bpe_nil : bpe M [] = [] := rfl

@[simp] lemma bpe_singleton (a : α) : bpe M [a] = [a] := rfl

/-- From a word that a run has reached, the run goes on to `bpe M s`. -/
lemma steps_bpe_of_steps {s t : List α} (h : Steps M s t) : Steps M t (bpe M s) := by
  rw [bpe_eq_of_steps h]
  exact bpe_steps M t

/-- A pair that runs to one symbol merges to it. -/
lemma Steps.of_pair {a b c : α} (h : Steps M [a, b] [c]) : ∃ r, M a b = some (r, c) := by
  obtain heq | ⟨t, hstep, hrest⟩ := ReflTransGen.cases_head h
  · simp at heq
  have ht : t.length = 1 := by simpa using hstep.length_eq
  have hfin : Final M t := by
    obtain ⟨x, rfl⟩ := List.length_eq_one_iff.mp ht
    simp
  have htc : t = [c] := (bpe_of_final hfin).symm.trans (eq_bpe hrest (by simp))
  subst htc
  generalize hs : [a, b] = s at hstep
  generalize ht' : [c] = t' at hstep
  rcases hstep with @⟨u, v, x, y, z, r, hxy, -, -⟩
  have hlen := congrArg List.length hs
  simp only [List.length_cons, List.length_nil, List.length_append] at hlen
  obtain rfl : u = [] := List.length_eq_zero_iff.mp (by omega)
  obtain rfl : v = [] := List.length_eq_zero_iff.mp (by omega)
  simp only [List.nil_append, List.cons.injEq, and_true] at hs ht'
  obtain ⟨rfl, rfl⟩ := hs
  exact ⟨r, ht' ▸ hxy⟩

end PairMerge
