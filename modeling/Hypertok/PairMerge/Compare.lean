import Hypertok.PairMerge.Basic

/-!
Comparing two tables.

* `Extends M N`: `N` adds to `M` pairs of larger rank only. Then every run of `M` is
  a run of `N` (`Extends.steps`).
* `below M r`: the pairs of rank below `r`. They are enough for a run that ends in symbols of
  lower levels (`Steps.below`).
* `Mirrors M N f s`: `N` treats the images of the neighbours in `s` as `M` treats the
  neighbours. If all words of a run are mirrored, the two algorithms give the same
  word (`bpe_map`); `bpe_congr` is the case of two tables over one alphabet.
-/

namespace PairMerge

open Relation

variable {α β ρ : Type*}

/-- Two facts about all neighbours give a third. -/
lemma isChain_of_and {R S T : α → α → Prop} {s : List α} (hR : s.IsChain R) (hS : s.IsChain S)
    (h : ∀ a b, R a b → S a b → T a b) : s.IsChain T := by
  induction s with
  | nil => exact .nil
  | cons a s ih =>
      cases s with
      | nil => exact .singleton _
      | cons b s =>
          simp only [List.isChain_cons_cons] at hR hS ⊢
          exact ⟨h a b hR.1 hS.1, ih hR.2 hS.2⟩

variable [LinearOrder ρ]

/-! ### Adding pairs of larger rank -/

/-- `N` has the pairs of `M`, and its other pairs have larger ranks. -/
structure Extends (M N : Table ρ α) : Prop where
  old : ∀ a b, ∀ q ∈ M a b, q ∈ N a b
  new : ∀ a b, ∀ q ∈ N a b, q ∈ M a b ∨ ∀ a' b', ∀ q' ∈ M a' b', q'.1 < q.1

namespace Extends

variable {M N : Table ρ α} (h : Extends M N)
include h

/-- The pair that `M` merges is the one that `N` merges. -/
lemma step {s t : List α} (hst : Step M s t) : Step N s t := by
  rcases hst with @⟨u, v, a, b, c, r, hab, hu, hv⟩
  refine .merge (h.old a b _ hab) (hu.imp fun x y hxy q hq => ?_)
    (hv.imp fun x y hxy q hq => ?_)
  · exact (h.new x y q hq).elim (hxy q) fun hlt => hlt a b _ hab
  · exact (h.new x y q hq).elim (hxy q) fun hlt => (hlt a b _ hab).le

lemma steps {s t : List α} (hst : Steps M s t) : Steps N s t :=
  ReflTransGen.mono (fun _ _ => h.step) _ _ hst

end Extends

/-! ### Lower ranks -/

/-- The pairs of rank below `r`. -/
def below (M : Table ρ α) (r : ρ) : Table ρ α := fun a b => (M a b).filter fun q => q.1 < r

lemma mem_below {M : Table ρ α} {r : ρ} {a b : α} {q : ρ × α} :
    q ∈ below M r a b ↔ q ∈ M a b ∧ q.1 < r := by
  simp [below, Option.mem_def, Option.filter_eq_some_iff]

/-- A run to symbols of levels below `r` takes pairs of rank below `r` only, if a product has
its rank for its level and its parts have lower levels. -/
lemma Steps.below {M : Table ρ α} {level : α → ρ}
    (hM : ∀ a b, ∀ q ∈ M a b, q.1 = level q.2 ∧ level a < q.1 ∧ level b < q.1) {r : ρ} {s t : List α}
    (h : Steps M s t) (ht : ∀ a ∈ t, level a < r) : Steps (below M r) s t := by
  have hall : Steps (PairMerge.below M r) s t ∧ ∀ a ∈ s, level a < r := by
    induction h using ReflTransGen.head_induction_on with
    | refl => exact ⟨.refl, ht⟩
    | head hstep _ ih =>
        obtain ⟨hrun, hlevel⟩ := ih
        rcases hstep with @⟨u, v, a, b, c, r', hab, hu, hv⟩
        obtain ⟨hc, ha, hb⟩ := hM a b _ hab
        simp only at hc ha hb
        have hr' : r' < r := hc ▸ hlevel c (by simp)
        refine ⟨.head (.merge (mem_below.mpr ⟨hab, hr'⟩) ?_ ?_) hrun, fun x hx => ?_⟩
        · exact hu.imp fun x y hxy q hq => hxy q (mem_below.mp hq).1
        · exact hv.imp fun x y hxy q hq => hxy q (mem_below.mp hq).1
        · simp only [List.mem_append, List.mem_cons] at hx hlevel
          rcases hx with hx | rfl | rfl | hx
          · exact hlevel x (.inl hx)
          · exact ha.trans hr'
          · exact hb.trans hr'
          · exact hlevel x (.inr (.inr hx))
  exact hall.1

/-- The last step of a run to one symbol. -/
lemma Steps.exists_pair {M : Table ρ α} {s : List α} {c : α} (h : Steps M s [c]) (hs : s ≠ [c]) :
    ∃ a b r, Steps M s [a, b] ∧ M a b = some (r, c) := by
  obtain heq | ⟨t, ht, hstep⟩ := ReflTransGen.cases_tail h
  · exact absurd heq.symm hs
  · generalize hw : [c] = w at hstep
    rcases hstep with @⟨u, v, a, b, c', r, hab, -, -⟩
    have hlen := congrArg List.length hw
    simp only [List.length_cons, List.length_nil, List.length_append] at hlen
    obtain rfl : u = [] := List.length_eq_zero_iff.mp (by omega)
    obtain rfl : v = [] := List.length_eq_zero_iff.mp (by omega)
    obtain rfl : c = c' := by simpa using hw
    exact ⟨a, b, r, ht, hab⟩

/-! ### Images -/

/-- `N` treats the images of the neighbours in `s` as `M` treats the neighbours. -/
def Mirrors (M : Table ρ α) (N : Table ρ β) (f : α → β) (s : List α) : Prop :=
  s.IsChain fun a b => N (f a) (f b) = (M a b).map (Prod.map id f)

namespace Mirrors

variable {M : Table ρ α} {N : Table ρ β} {f : α → β} {s t : List α}

omit [LinearOrder ρ] in
/-- Neighbours keep their ranks. -/
lemma rank {a b : α} (h : N (f a) (f b) = (M a b).map (Prod.map id f)) {p : ρ → Prop}
    (hp : ∀ q ∈ M a b, p q.1) : ∀ q ∈ N (f a) (f b), p q.1 := by
  rw [h]
  intro q hq
  obtain ⟨q', hq', rfl⟩ := Option.mem_map.mp hq
  exact hp q' hq'

omit [LinearOrder ρ] in
lemma of_infix (h : Mirrors M N f s) (ht : t <:+: s) : Mirrors M N f t := List.IsChain.infix h ht

lemma step (h : Mirrors M N f s) (hst : Step M s t) : Step N (s.map f) (t.map f) := by
  rcases hst with @⟨u, v, a, b, c, r, hab, hu, hv⟩
  have hleft : Mirrors M N f (u ++ [a]) := h.of_infix ⟨[], b :: v, by simp⟩
  have hright : Mirrors M N f (b :: v) := h.of_infix ⟨u ++ [a], [], by simp⟩
  have hpair := (List.isChain_append_cons_cons.mp h).2.1
  simp only [List.map_append, List.map_cons]
  refine .merge (r := r) (by simp [hpair, hab]) ?_ ?_
  · rw [← List.map_singleton, ← List.map_append]
    exact (List.isChain_map f).mpr (isChain_of_and hleft hu fun x y hxy => rank (p := (r < ·)) hxy)
  · rw [← List.map_cons]
    exact (List.isChain_map f).mpr (isChain_of_and hright hv fun x y hxy => rank (p := (r ≤ ·)) hxy)

omit [LinearOrder ρ] in
lemma final (h : Mirrors M N f s) (hs : Final M s) : Final N (s.map f) := by
  refine (List.isChain_map f).mpr (isChain_of_and h hs fun x y hxy hnone => ?_)
  simp [hxy, hnone]

end Mirrors

/-- If every word that `s` runs to is mirrored, the algorithms agree on `s`. -/
theorem bpe_map {M : Table ρ α} {N : Table ρ β} {f : α → β} {s : List α}
    (h : ∀ t, Steps M s t → Mirrors M N f t) : bpe N (s.map f) = (bpe M s).map f := by
  have hrun : ∀ t, Steps M s t → Steps N (s.map f) (t.map f) := by
    intro t ht
    induction ht with
    | refl => exact .refl
    | tail ht hstep ih => exact ih.tail ((h _ ht).step hstep)
  exact eq_bpe (hrun _ (bpe_steps M s)) ((h _ (bpe_steps M s)).final (bpe_final M s))

/-- A set closed under merges is not left. -/
lemma Steps.forall_mem {M : Table ρ α} {P : α → Prop}
    (hP : ∀ a b, P a → P b → ∀ q ∈ M a b, P q.2) {s t : List α} (h : Steps M s t)
    (hs : ∀ a ∈ s, P a) : ∀ a ∈ t, P a := by
  induction h with
  | refl => exact hs
  | tail _ hstep ih =>
      rcases hstep with @⟨u, v, a, b, c, r, hab, -, -⟩
      have hc := hP a b (ih a (by simp)) (ih b (by simp)) _ hab
      simp only [List.mem_append, List.mem_cons] at ih ⊢
      rintro x (hx | rfl | hx)
      · exact ih x (.inl hx)
      · exact hc
      · exact ih x (.inr (.inr (.inr hx)))

/-- Tables that agree on a set closed under merges give the same words. -/
theorem bpe_congr {M N : Table ρ α} {P : α → Prop} (hMN : ∀ a b, P a → P b → M a b = N a b)
    (hP : ∀ a b, P a → P b → ∀ q ∈ M a b, P q.2) {s : List α} (hs : ∀ a ∈ s, P a) :
    bpe M s = bpe N s := by
  have hmirror : ∀ t, Steps M s t → Mirrors M N id t := by
    intro t ht
    have hPt := ht.forall_mem hP hs
    refine List.isChain_iff_getElem.mpr fun i hi => ?_
    simp [hMN _ _ (hPt _ (List.getElem_mem _)) (hPt _ (List.getElem_mem _))]
  simpa using (bpe_map hmirror).symm

end PairMerge
