import Hypertok.PairMerge.Basic

/-!
Locality of priority merging: when the result for a word can be put together from
the results for overlapping parts of it.

Symbols carry a weight (the length of the text they stand for), and a product
weighs as much as its two parts. A position in the text is then the weight of a
prefix, and a position is a boundary of a word if some prefix has that weight.

* `Steps.split`: a run whose result is a concatenation is two runs side by side;
  so boundaries vanish along a run, and never appear.
* `bpe_append`: words are merged independently if nothing merges across the border.
* `bpe_splice`: if `bpe (x ++ o)` has a boundary where `o` starts and
  `bpe (o ++ z)` has one where `o` ends, then `bpe (x ++ o ++ z)` is the part of
  the first before `o`, followed by the second.
-/

namespace PairMerge

open Relation

variable {α ρ : Type*} [LinearOrder ρ] {M : Table ρ α}

/-! ### Steps in parts of a word -/

/-- The position of two adjacent symbols in a concatenation. -/
lemma append_eq_append_cons_cons {β : Type*} {x y u v : List β} {a b : β}
    (h : x ++ y = u ++ a :: b :: v) :
    (∃ w, x = u ++ a :: b :: w ∧ v = w ++ y) ∨ (x = u ++ [a] ∧ y = b :: v) ∨
      ∃ w, u = x ++ w ∧ y = w ++ a :: b :: v := by
  obtain ⟨w, hu, hy⟩ | ⟨w, hx, hw⟩ := List.append_eq_append_iff.mp h
  · exact .inr (.inr ⟨w, hu, hy⟩)
  · match w, hw with
    | [], hw => exact .inr (.inr ⟨[], by simpa using hx.symm, by simpa using hw.symm⟩)
    | [_], hw =>
        obtain ⟨rfl, rfl⟩ := List.cons.inj hw
        exact .inr (.inl ⟨hx, rfl⟩)
    | _ :: _ :: w, hw =>
        simp only [List.cons_append, List.cons.injEq] at hw
        obtain ⟨rfl, rfl, hv⟩ := hw
        exact .inl ⟨w, hx, hv⟩

/-- A merge is a step of every part of the word that contains the pair. -/
lemma step_of_context {u v p q : List α} {a b c : α} {r : ρ} (hab : M a b = some (r, c))
    (hu : Above M r (p ++ u ++ [a])) (hv : AtLeast M r (b :: (v ++ q))) :
    Step M (u ++ a :: b :: v) (u ++ c :: v) :=
  .merge hab (hu.of_infix ⟨p, [], by simp⟩) (hv.of_infix ⟨[], q, by simp⟩)

/-- A run to a concatenation is two runs side by side. -/
theorem Steps.split (t₁ : List α) {s t₂ : List α} (h : Steps M s (t₁ ++ t₂)) :
    ∃ s₁ s₂, s = s₁ ++ s₂ ∧ Steps M s₁ t₁ ∧ Steps M s₂ t₂ := by
  induction h using ReflTransGen.head_induction_on with
  | refl => exact ⟨t₁, t₂, rfl, .refl, .refl⟩
  | head hstep _ ih =>
      obtain ⟨s₁, s₂, hs, h₁, h₂⟩ := ih
      rcases hstep with @⟨u, v, a, b, c, r, hab, hu, hv⟩
      -- the product lies in the second part, or in the first
      have hright : ∀ w, u = s₁ ++ w → s₂ = w ++ c :: v →
          ∃ s₁ s₂, u ++ a :: b :: v = s₁ ++ s₂ ∧ Steps M s₁ t₁ ∧ Steps M s₂ t₂ := by
        rintro w rfl rfl
        have hstep : Step M (w ++ a :: b :: v) (w ++ c :: v) :=
          step_of_context hab hu (q := []) (by simpa using hv)
        exact ⟨s₁, _, by simp, h₁, .head hstep h₂⟩
      obtain ⟨w, rfl, hw⟩ | ⟨w, hu', hs₂⟩ := List.append_eq_append_iff.mp hs
      · cases w with
        | nil => exact hright [] (by simp) (by simpa using hw.symm)
        | cons c' w =>
            obtain ⟨rfl, rfl⟩ := List.cons.inj hw
            have hstep : Step M (u ++ a :: b :: w) (u ++ c :: w) :=
              step_of_context (p := []) hab hu hv
            exact ⟨_, s₂, by simp, .head hstep h₁, h₂⟩
      · exact hright w hu' hs₂

/-- Two words of whose runs no two symbols merge across the border run side by side. -/
theorem Steps.append {x y t : List α}
    (hborder : ∀ x' y' a b, Steps M x (x' ++ [a]) → Steps M y (b :: y') → M a b = none)
    (h : Steps M (x ++ y) t) : ∃ x' y', t = x' ++ y' ∧ Steps M x x' ∧ Steps M y y' := by
  induction h with
  | refl => exact ⟨x, y, rfl, .refl, .refl⟩
  | tail _ hstep ih =>
      obtain ⟨x', y', hxy, hx, hy⟩ := ih
      rcases hstep with @⟨u, v, a, b, c, r, hab, hu, hv⟩
      obtain ⟨w, rfl, rfl⟩ | ⟨rfl, rfl⟩ | ⟨w, rfl, rfl⟩ := append_eq_append_cons_cons hxy.symm
      · have hstep : Step M (u ++ a :: b :: w) (u ++ c :: w) :=
          step_of_context (p := []) hab hu hv
        exact ⟨u ++ c :: w, y', by simp, hx.tail hstep, hy⟩
      · exact absurd hab (by simp [hborder u v a b hx hy])
      · have hstep : Step M (w ++ a :: b :: v) (w ++ c :: v) :=
          step_of_context (q := []) hab hu (by simpa using hv)
        exact ⟨x', w ++ c :: v, by simp, hx, hy.tail hstep⟩

/-- Such words are merged independently. -/
theorem bpe_append {x y : List α}
    (hborder : ∀ x' y' a b, Steps M x (x' ++ [a]) → Steps M y (b :: y') → M a b = none) :
    bpe M (x ++ y) = bpe M x ++ bpe M y := by
  obtain ⟨x', y', hxy, hx, hy⟩ := Steps.append hborder (bpe_steps M (x ++ y))
  have hfinal := bpe_final M (x ++ y)
  rw [hxy] at hfinal
  rw [hxy, eq_bpe hx (hfinal.of_infix ⟨[], y', rfl⟩),
    eq_bpe hy (hfinal.of_infix ⟨x', [], by simp⟩)]

/-! ### Weights -/

/-- The total weight of a word. -/
def weight (w : α → ℕ) (s : List α) : ℕ := (s.map w).sum

@[simp] lemma weight_nil (w : α → ℕ) : weight w [] = 0 := rfl

@[simp] lemma weight_cons (w : α → ℕ) (a : α) (s : List α) :
    weight w (a :: s) = w a + weight w s := by
  simp [weight]

@[simp] lemma weight_append (w : α → ℕ) (s t : List α) :
    weight w (s ++ t) = weight w s + weight w t := by
  simp [weight]

/-- With positive weights, the weight of a prefix determines it. -/
lemma prefix_eq_of_weight_eq {w : α → ℕ} {s s' t t' : List α} (h : s ++ t = s' ++ t')
    (hpos : ∀ a ∈ s ++ t, 0 < w a) (hw : weight w s = weight w s') : s = s' := by
  have hnil : ∀ y : List α, (∀ a ∈ y, 0 < w a) → weight w y = 0 → y = [] := by
    intro y hy h0
    cases y with
    | nil => rfl
    | cons a y =>
        have := hy a (by simp)
        simp only [weight_cons] at h0
        omega
  obtain ⟨y, rfl, rfl⟩ | ⟨y, rfl, rfl⟩ := List.append_eq_append_iff.mp h
  · simp [hnil y (fun a ha => hpos a (by simp [ha])) (by simpa using hw)]
  · simp [hnil y (fun a ha => hpos a (by simp [ha])) (by simpa using hw)]

/-- Symbols that satisfy `P` have positive weight, and merge to such symbols, of the
sum of the weights. -/
structure Weighted (M : Table ρ α) (P : α → Prop) (w : α → ℕ) : Prop where
  pos : ∀ a, P a → 0 < w a
  merge : ∀ a b r c, P a → P b → M a b = some (r, c) → P c ∧ w c = w a + w b

variable {P : α → Prop} {w : α → ℕ} {s t x o z : List α}

namespace Weighted

lemma step (hW : Weighted M P w) (h : Step M s t) (hs : ∀ a ∈ s, P a) :
    (∀ a ∈ t, P a) ∧ weight w t = weight w s := by
  rcases h with @⟨u, v, a, b, c, r, hab, -, -⟩
  simp only [List.mem_append, List.mem_cons] at hs
  obtain ⟨hc, hwc⟩ := hW.merge a b r c (hs a (by simp)) (hs b (by simp)) hab
  refine ⟨?_, by simp [hwc]; omega⟩
  simp only [List.mem_append, List.mem_cons]
  rintro d (hd | rfl | hd)
  · exact hs d (by simp [hd])
  · exact hc
  · exact hs d (by simp [hd])

lemma steps (hW : Weighted M P w) (h : Steps M s t) (hs : ∀ a ∈ s, P a) :
    (∀ a ∈ t, P a) ∧ weight w t = weight w s := by
  induction h with
  | refl => exact ⟨hs, rfl⟩
  | tail _ hstep ih =>
      obtain ⟨hP, hw⟩ := hW.step hstep ih.1
      exact ⟨hP, hw.trans ih.2⟩

/-- The boundary inside a merged pair is lost: no run from the merged word ends with
a boundary there. -/
lemma not_steps_of_straddle (hW : Weighted M P w) {u v t₁ t₂ : List α} {a b c : α} {r : ρ}
    (hab : M a b = some (r, c)) (hP : ∀ d ∈ u ++ a :: b :: v, P d)
    (h : Steps M (u ++ c :: v) (t₁ ++ t₂)) : weight w t₁ ≠ weight w (u ++ [a]) := by
  obtain ⟨hc, hwc⟩ := hW.merge a b r c (hP a (by simp)) (hP b (by simp)) hab
  have ha := hW.pos a (hP a (by simp))
  have hb := hW.pos b (hP b (by simp))
  have hP' : ∀ d ∈ u ++ c :: v, P d := by
    simp only [List.mem_append, List.mem_cons] at hP ⊢
    rintro d (hd | rfl | hd)
    · exact hP d (by simp [hd])
    · exact hc
    · exact hP d (by simp [hd])
  obtain ⟨s₁, s₂, hs, h₁, -⟩ := h.split
  rw [(hW.steps h₁ fun d hd => hP' d (by simp [hs, hd])).2]
  intro heq
  obtain ⟨y, rfl, hy⟩ | ⟨y, rfl, -⟩ := List.append_eq_append_iff.mp hs
  · cases y with
    | nil => simp at heq; omega
    | cons c' y =>
        obtain ⟨rfl, -⟩ := List.cons.inj hy
        simp at heq
        omega
  · simp at heq
    omega

end Weighted

/-! ### Splicing -/

/-- A run of the whole, seen as runs of the three parts and of the two overlapping
words. -/
structure SideBySide (M : Table ρ α) (x o z X O Z : List α) : Prop where
  left : Steps M x X
  mid : Steps M o O
  right : Steps M z Z
  front : Steps M (x ++ o) (X ++ O)
  back : Steps M (o ++ z) (O ++ Z)

lemma Step.ne_nil (h : Step M s t) : t ≠ [] := by
  cases h
  simp

lemma Steps.ne_nil (h : Steps M s t) (hs : s ≠ []) : t ≠ [] := by
  cases h with
  | refl => exact hs
  | tail _ hstep => exact hstep.ne_nil

/-- As long as the two boundaries survive, a step of the whole is a step of one of
the three parts. -/
lemma SideBySide.step (hW : Weighted M P w) (hP : ∀ a ∈ x ++ o ++ z, P a) (ho : o ≠ [])
    {X₁ O₁ O₂ Z₂ : List α} (h₁ : bpe M (x ++ o) = X₁ ++ O₁) (hX : weight w X₁ = weight w x)
    (h₂ : bpe M (o ++ z) = O₂ ++ Z₂) (hO : weight w O₂ = weight w o) {X O Z t : List α}
    (h : SideBySide M x o z X O Z) (hstep : Step M (X ++ (O ++ Z)) t) :
    ∃ X' O' Z', t = X' ++ (O' ++ Z') ∧ SideBySide M x o z X' O' Z' := by
  have hPx : ∀ a ∈ x ++ o, P a := fun a ha => hP a (by simp_all; tauto)
  have hPz : ∀ a ∈ o ++ z, P a := fun a ha => hP a (by simp_all)
  generalize hs : X ++ (O ++ Z) = s at hstep
  rcases hstep with @⟨u, v, a, b, c, r, hab, hu, hv⟩
  obtain ⟨y, rfl, rfl⟩ | ⟨rfl, hO'⟩ | ⟨y, rfl, hy⟩ := append_eq_append_cons_cons hs
  · -- the pair lies in the first part
    have hstepX : Step M (u ++ a :: b :: y) (u ++ c :: y) :=
      step_of_context (p := []) hab hu hv
    have hstepXO : Step M (u ++ a :: b :: (y ++ O)) (u ++ c :: (y ++ O)) :=
      step_of_context (p := []) hab hu (q := Z) (by simpa using hv)
    refine ⟨u ++ c :: y, O, Z, by simp, h.left.tail hstepX, h.mid, h.right, ?_, h.back⟩
    simpa using h.front.tail (by simpa using hstepXO)
  · -- the pair straddles the start of the overlap
    obtain ⟨O', rfl⟩ : ∃ O', O = b :: O' := by
      obtain ⟨b', O', rfl⟩ := List.exists_cons_of_ne_nil (h.mid.ne_nil ho)
      obtain ⟨rfl, -⟩ := List.cons.inj hO'
      exact ⟨O', rfl⟩
    have hstepXO : Step M (u ++ a :: b :: O') (u ++ c :: O') :=
      step_of_context (p := []) hab hu (q := Z) (by
        obtain ⟨-, rfl⟩ := List.cons.inj hO'
        exact hv)
    have hfront : Steps M (x ++ o) (u ++ a :: b :: O') := by simpa using h.front
    have hrun := steps_bpe_of_steps (hfront.tail hstepXO)
    rw [h₁] at hrun
    refine absurd ?_ (hW.not_steps_of_straddle hab (hW.steps hfront hPx).1 hrun)
    rw [hX, (hW.steps h.left fun d hd => hPx d (by simp [hd])).2]
  · obtain ⟨y', rfl, rfl⟩ | ⟨rfl, rfl⟩ | ⟨y', rfl, rfl⟩ := append_eq_append_cons_cons hy
    · -- the pair lies in the overlap
      have hstepO : Step M (y ++ a :: b :: y') (y ++ c :: y') := step_of_context hab hu hv
      have hstepXO : Step M (X ++ y ++ a :: b :: y') (X ++ y ++ c :: y') :=
        step_of_context (p := []) hab hu hv
      have hstepOZ : Step M (y ++ a :: b :: (y' ++ Z)) (y ++ c :: (y' ++ Z)) :=
        step_of_context hab hu (q := []) (by simpa using hv)
      refine ⟨X, y ++ c :: y', Z, by simp, h.left, h.mid.tail hstepO, h.right, ?_, ?_⟩
      · simpa using h.front.tail (by simpa using hstepXO)
      · simpa using h.back.tail (by simpa using hstepOZ)
    · -- the pair straddles the end of the overlap
      have hstepOZ : Step M (y ++ a :: b :: v) (y ++ c :: v) :=
        step_of_context hab hu (q := []) (by simpa using hv)
      have hback : Steps M (o ++ z) (y ++ a :: b :: v) := by simpa using h.back
      have hrun := steps_bpe_of_steps (hback.tail hstepOZ)
      rw [h₂] at hrun
      refine absurd ?_ (hW.not_steps_of_straddle hab (hW.steps hback hPz).1 hrun)
      rw [hO, (hW.steps h.mid fun d hd => hPz d (by simp [hd])).2]
    · -- the pair lies in the last part
      have hstepZ : Step M (y' ++ a :: b :: v) (y' ++ c :: v) :=
        step_of_context (p := X ++ O) hab (by simpa using hu) (q := []) (by simpa using hv)
      have hstepOZ : Step M (O ++ y' ++ a :: b :: v) (O ++ y' ++ c :: v) :=
        step_of_context (p := X) hab (by simpa using hu) (q := []) (by simpa using hv)
      refine ⟨X, O, y' ++ c :: v, by simp, h.left, h.mid, h.right.tail hstepZ, h.front, ?_⟩
      simpa using h.back.tail (by simpa using hstepOZ)

/-- Two results for overlapping words, with a boundary at either end of the
overlap, are parts of the result for the whole. -/
theorem bpe_splice (hW : Weighted M P w) (hP : ∀ a ∈ x ++ o ++ z, P a) (ho : o ≠ [])
    {X O₁ O₂ Z : List α} (h₁ : bpe M (x ++ o) = X ++ O₁) (hX : weight w X = weight w x)
    (h₂ : bpe M (o ++ z) = O₂ ++ Z) (hO : weight w O₂ = weight w o) :
    bpe M (x ++ o ++ z) = X ++ bpe M (o ++ z) := by
  have hrun : ∀ t, Steps M (x ++ (o ++ z)) t →
      ∃ X' O' Z', t = X' ++ (O' ++ Z') ∧ SideBySide M x o z X' O' Z' := by
    intro t ht
    induction ht with
    | refl => exact ⟨x, o, z, rfl, .refl, .refl, .refl, .refl, .refl⟩
    | tail _ hstep ih =>
        obtain ⟨X', O', Z', rfl, hside⟩ := ih
        exact hside.step hW hP ho h₁ hX h₂ hO hstep
  obtain ⟨X', O', Z', hres, hside⟩ := hrun _ (bpe_steps M _)
  have hfinal := bpe_final M (x ++ (o ++ z))
  rw [hres] at hfinal
  have hback := eq_bpe hside.back (hfinal.of_infix ⟨X', [], by simp⟩)
  have hfront := eq_bpe hside.front (hfinal.of_infix ⟨[], Z', by simp⟩)
  -- both `X` and `X'` end at the weight of `x` in `bpe (x ++ o)`
  have hXX' : X = X' := by
    have hPx : ∀ a ∈ x ++ o, P a := fun a ha => hP a (by simp_all; tauto)
    refine prefix_eq_of_weight_eq (h₁.symm.trans hfront) (fun a ha => hW.pos a ?_)
      (hX.trans (hW.steps hside.left fun a ha => hPx a (by simp [ha])).2.symm)
    exact (hW.steps (bpe_steps M (x ++ o)) hPx).1 a (h₁ ▸ ha)
  rw [List.append_assoc, hres, hXX', hback]

end PairMerge
