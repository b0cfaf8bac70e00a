import Hypertok.PairMerge.Compare
import Hypertok.PairMerge.Locality

/-!
Symbols that spell words over an alphabet of letters, where a merge concatenates.

* `Spelled.letters_steps`: a run does not change the letters of a word.
* `Spelled.pair_unique`: in the runs from words of single letters, two neighbours that
  merge to one product are the same two.
* `Spelled.bpe_append`: a border that no product spells across separates a word.
-/

namespace PairMerge

open Relation

variable {α γ ρ : Type*} [LinearOrder ρ] {M : Table ρ α}

/-- Of two words that one word runs to, the shorter one comes later; words of one length
are the same. -/
lemma Steps.eq_of_length {s t t' : List α} (h : Steps M s t) (h' : Steps M s t')
    (hlen : t.length = t'.length) : t = t' := by
  have heq : ∀ {x y : List α}, Steps M x y → x.length = y.length → x = y := by
    intro x y hxy hlen
    obtain rfl | ⟨z, hz, hrest⟩ := ReflTransGen.cases_head hxy
    · rfl
    · have := hz.length_eq
      have := Steps.length_le hrest
      omega
  have hunique : Relator.RightUnique (Step M) := fun _ _ _ => Step.unique
  rcases ReflTransGen.total_of_right_unique hunique h h' with h | h
  · exact heq h hlen
  · exact (heq h hlen.symm).symm

/-- A part of a word comes from a part of the word that ran to it. -/
lemma Steps.exists_infix {s t p : List α} (h : Steps M s t) (hp : p <:+: t) :
    ∃ s', s' <:+: s ∧ Steps M s' p := by
  obtain ⟨x, y, rfl⟩ := hp
  obtain ⟨s₁, s₂, rfl, h₁, -⟩ := Steps.split (x ++ p) h
  obtain ⟨s₃, s₄, rfl, -, h₄⟩ := Steps.split x h₁
  exact ⟨s₄, ⟨s₃, s₂, rfl⟩, h₄⟩

/-- Every symbol has letters, which a merge concatenates. A base symbol has one, by which
it is told apart. -/
structure Spelled (M : Table ρ α) (letters : α → List γ) (Base : α → Prop) : Prop where
  merge : ∀ a b, ∀ q ∈ M a b, letters q.2 = letters a ++ letters b
  base : ∀ a, Base a → ∃ x, letters a = [x]
  inj : ∀ a b, Base a → Base b → letters a = letters b → a = b

namespace Spelled

variable {letters : α → List γ} {Base : α → Prop} (h : Spelled M letters Base)
include h

/-- A run does not change the letters. -/
lemma letters_steps {s t : List α} (hst : Steps M s t) : t.flatMap letters = s.flatMap letters := by
  induction hst with
  | refl => rfl
  | tail _ hstep ih =>
      rcases hstep with @⟨u, v, a, b, c, r, hab, -, -⟩
      rw [← ih]
      simp [h.merge a b _ hab]

omit [LinearOrder ρ] in
/-- Base symbols are told apart by their letters, also as words. -/
lemma eq_of_letters {s s' : List α} (hs : ∀ a ∈ s, Base a) (hs' : ∀ a ∈ s', Base a)
    (heq : s.flatMap letters = s'.flatMap letters) : s = s' := by
  induction s generalizing s' with
  | nil =>
      cases s' with
      | nil => rfl
      | cons b s' =>
          obtain ⟨x, hx⟩ := h.base b (hs' b (by simp))
          simp [hx] at heq
  | cons a s ih =>
      obtain ⟨x, hx⟩ := h.base a (hs a (by simp))
      cases s' with
      | nil => simp [hx] at heq
      | cons b s' =>
          obtain ⟨y, hy⟩ := h.base b (hs' b (by simp))
          simp only [List.flatMap_cons, hx, hy, List.singleton_append, List.cons.injEq] at heq
          have hab : letters a = letters b := by rw [hx, hy, heq.1]
          rw [h.inj a b (hs a (by simp)) (hs' b (by simp)) hab,
            ih (fun c hc => hs c (by simp [hc])) (fun c hc => hs' c (by simp [hc])) heq.2]

/-- Neighbours that merge to one product are the same: they come from the base symbols
that spell the product. -/
theorem pair_unique {s s' t t' : List α} (hs : ∀ a ∈ s, Base a) (hs' : ∀ a ∈ s', Base a)
    (hst : Steps M s t) (hst' : Steps M s' t') {a b a' b' : α} (hab : [a, b] <:+: t)
    (hab' : [a', b'] <:+: t') {q q' : ρ × α} (hq : q ∈ M a b) (hq' : q' ∈ M a' b')
    (hprod : q.2 = q'.2) : a = a' ∧ b = b' := by
  obtain ⟨f, hf, hrun⟩ := hst.exists_infix hab
  obtain ⟨f', hf', hrun'⟩ := hst'.exists_infix hab'
  have hletters : f.flatMap letters = letters q.2 := by
    rw [← h.letters_steps hrun, h.merge a b q hq]
    simp
  have hletters' : f'.flatMap letters = letters q'.2 := by
    rw [← h.letters_steps hrun', h.merge a' b' q' hq']
    simp
  obtain rfl : f = f' := h.eq_of_letters (fun c hc => hs c (hf.subset hc))
    (fun c hc => hs' c (hf'.subset hc)) (by rw [hletters, hletters', hprod])
  simpa using hrun.eq_of_length hrun' rfl

/-- Words of base symbols are merged independently if the two letters at the border are
neighbours in no product. -/
theorem bpe_append {x y : List α} (hx : ∀ a ∈ x, Base a) (hy : ∀ a ∈ y, Base a) {l r : γ}
    (hl : l ∈ (x.flatMap letters).getLast?) (hr : r ∈ (y.flatMap letters).head?)
    (hborder : ∀ a b, ∀ q ∈ M a b, ¬ [l, r] <:+: letters q.2) :
    bpe M (x ++ y) = bpe M x ++ bpe M y := by
  have hne : ∀ {s t : List α}, Steps M s t → (∀ a ∈ s, Base a) → ∀ a ∈ t, letters a ≠ [] := by
    intro s t hst hs
    refine hst.forall_mem (P := fun a => letters a ≠ []) (fun a b ha _ q hq => ?_) fun a ha => ?_
    · simp [h.merge a b q hq, ha]
    · obtain ⟨x, hx⟩ := h.base a (hs a ha)
      simp [hx]
  refine PairMerge.bpe_append fun x' y' a b hx' hy' => ?_
  by_contra hab
  obtain ⟨q, hq⟩ := Option.ne_none_iff_exists'.mp hab
  -- the letters of `a` end with `l`, and those of `b` start with `r`
  have ha := hne hx' hx a (by simp)
  have hb := hne hy' hy b (by simp)
  rw [← h.letters_steps hx', List.flatMap_append, List.flatMap_singleton,
    List.getLast?_append_of_ne_nil _ ha, Option.mem_def,
    List.getLast?_eq_some_iff] at hl
  rw [← h.letters_steps hy', List.flatMap_cons, List.head?_append_of_ne_nil _ hb, Option.mem_def,
    List.head?_eq_some_iff] at hr
  obtain ⟨u, hu⟩ := hl
  obtain ⟨v, hv⟩ := hr
  exact hborder a b q hq ⟨u, v, by simp [h.merge a b q hq, hu, hv]⟩

end Spelled

end PairMerge
