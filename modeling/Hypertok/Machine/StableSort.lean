import Mathlib.Tactic

/-!
Stable sorts of lists, by a key.

* `IsStableSort`: the list is sorted, and the elements of one key keep their order.
* `IsStableSort.insert`: an element goes after all those of its key or less.
-/

namespace Machine

variable {α : Type*} {key : α → ℕ} {l out : List α}

/-- `out` is `l`, sorted by the key; the elements of one key keep their order. -/
structure IsStableSort (key : α → ℕ) (l out : List α) : Prop where
  sorted : out.Pairwise fun a b => key a ≤ key b
  stable : ∀ k, out.filter (fun a => key a = k) = l.filter fun a => key a = k

namespace IsStableSort

lemma nil : IsStableSort key ([] : List α) [] := ⟨.nil, fun _ => rfl⟩

lemma mem_iff (h : IsStableSort key l out) {a : α} : a ∈ out ↔ a ∈ l := by
  have hfilter : ∀ xs : List α, a ∈ xs ↔ a ∈ xs.filter fun b => key b = key a := fun xs => by
    rw [List.mem_filter, decide_eq_true rfl, and_iff_left rfl]
  rw [hfilter out, h.stable, ← hfilter l]

/-- One more element, which goes before those of a greater key. -/
lemma insert {below above : List α} (h : IsStableSort key l (below ++ above)) {c : α}
    (hbelow : ∀ a ∈ below, key a ≤ key c) (habove : ∀ a ∈ above, key c < key a) :
    IsStableSort key (l ++ [c]) (below ++ c :: above) := by
  obtain ⟨hfirst, hsecond, hcross⟩ := List.pairwise_append.mp h.sorted
  refine ⟨List.pairwise_append.mpr ⟨hfirst, List.pairwise_cons.mpr ⟨fun a ha => (habove a ha).le,
    hsecond⟩, fun a ha b hb => ?_⟩, fun k => ?_⟩
  · rcases List.mem_cons.mp hb with rfl | hb
    · exact hbelow a ha
    · exact hcross a ha b hb
  · have hl := h.stable k
    rw [List.filter_append] at hl
    rw [List.filter_append, List.filter_append, ← hl, List.append_assoc]
    by_cases hk : key c = k
    · have hnone : above.filter (fun a => key a = k) = [] := by
        refine List.filter_eq_nil_iff.mpr fun a ha => ?_
        rw [decide_eq_true_iff]
        exact (hk ▸ habove a ha).ne'
      simp only [List.filter_cons, decide_eq_true hk, if_true, hnone, List.filter_nil,
        List.nil_append]
    · simp only [List.filter_cons, decide_eq_false hk, Bool.false_eq_true, if_false,
        List.filter_nil, List.append_nil]

end IsStableSort

end Machine
