import Hypertok.Machine.Regex

/-!
A text split at the matches of a regular expression. The matches are pieces, and so are the gaps
between them.

* `split`: the pieces, from left to right.
* `split_of_first`, `split_of_gap`: the first piece, and the pieces of the rest.
* `flatten_split`, `ne_nil_of_mem_split`: the pieces are the text, and none is empty.
-/

namespace Machine

namespace Regex

universe u

variable {α : Type u}

/-- A gap is a piece, unless it is empty. -/
def gapPieces : List α → List (List α)
  | [] => []
  | a :: gap => [a :: gap]

/-- The pieces of a text behind a gap; an empty match is no match. -/
def isolate (r : Regex α) (gap : List α) : List α → List (List α)
  | [] => gapPieces gap
  | a :: x =>
      match first r (a :: x) with
      | none => isolate r (gap ++ [a]) x
      | some rest =>
          if _h : rest.length ≤ x.length then
            gapPieces gap ++ (a :: x).take (x.length + 1 - rest.length) :: isolate r [] rest
          else isolate r (gap ++ [a]) x
  termination_by x => x.length

/-- The pieces of a text. -/
def split (r : Regex α) (x : List α) : List (List α) := isolate r [] x

variable {r : Regex α} {a : α} {x gap piece rest : List α}

@[simp] lemma split_nil (r : Regex α) : split r [] = [] := by rw [split, isolate, gapPieces]

@[simp] lemma flatten_gapPieces (gap : List α) : (gapPieces gap).flatten = gap := by
  cases gap <;> simp [gapPieces]

lemma gapPieces_of_ne_nil (h : gap ≠ []) : gapPieces gap = [gap] := by
  cases gap with
  | nil => exact absurd rfl h
  | cons a gap => rfl

lemma isolate_of_none (h : first r (a :: x) = none) :
    isolate r gap (a :: x) = isolate r (gap ++ [a]) x := by rw [isolate, h]

/-- A match ends a gap. -/
lemma isolate_of_first (hpiece : piece ≠ []) (h : first r (piece ++ rest) = some rest) :
    isolate r gap (piece ++ rest) = gapPieces gap ++ piece :: split r rest := by
  cases piece with
  | nil => exact absurd rfl hpiece
  | cons a piece =>
      have hlen : rest.length ≤ (piece ++ rest).length := by
        rw [List.length_append]
        exact Nat.le_add_left _ _
      have htake : (a :: (piece ++ rest)).take ((piece ++ rest).length + 1 - rest.length) =
          a :: piece := by
        rw [← List.cons_append]
        refine List.take_left' ?_
        rw [List.length_append, List.length_cons]
        omega
      rw [List.cons_append] at h ⊢
      rw [isolate, h]
      dsimp only
      rw [dif_pos hlen, htake, split]

/-- Characters at which no match starts make a gap longer. -/
lemma isolate_of_gap {g : List α} (h : ∀ y, y <:+ g → y ≠ [] → first r (y ++ rest) = none) :
    isolate r gap (g ++ rest) = isolate r (gap ++ g) rest := by
  induction g generalizing gap with
  | nil => rw [List.nil_append, List.append_nil]
  | cons a g ih =>
      have hself := h (a :: g) (List.suffix_refl _) (List.cons_ne_nil a g)
      rw [List.cons_append] at hself ⊢
      rw [isolate_of_none hself, ih fun y hy => h y (hy.trans (List.suffix_cons a g)),
        List.append_assoc, List.singleton_append]

/-- A match is the first piece. -/
lemma split_of_first (h : first r (a :: x) = some rest) (hlen : rest.length ≤ x.length) :
    ∃ piece, piece ≠ [] ∧ a :: x = piece ++ rest ∧ split r (a :: x) = piece :: split r rest := by
  obtain ⟨piece, hpiece⟩ := suffix_of_first h
  have hne : piece ≠ [] := by
    rintro rfl
    rw [List.nil_append] at hpiece
    rw [hpiece, List.length_cons] at hlen
    omega
  rw [← hpiece] at h ⊢
  exact ⟨piece, hne, rfl, isolate_of_first hne h⟩

/-- A gap is the first piece, up to the next match or to the end. -/
lemma split_of_gap (hgap : gap ≠ [])
    (h : ∀ y, y <:+ gap → y ≠ [] → first r (y ++ rest) = none)
    (hrest : ∀ a x, rest = a :: x → ∃ rest', first r (a :: x) = some rest' ∧
      rest'.length ≤ x.length) :
    split r (gap ++ rest) = gap :: split r rest := by
  rw [split, isolate_of_gap h, List.nil_append]
  cases rest with
  | nil => rw [isolate, gapPieces_of_ne_nil hgap, split_nil]
  | cons a x =>
      obtain ⟨rest', hfirst, hlen⟩ := hrest a x rfl
      obtain ⟨piece, hne, hpiece, hsplit⟩ := split_of_first hfirst hlen
      rw [hpiece] at hfirst
      rw [hsplit, hpiece, isolate_of_first hne hfirst, gapPieces_of_ne_nil hgap]
      rfl

/-- A text cut in matches is split in them. -/
lemma Segments.split_eq {pieces : List (List α)} (h : Segments r x pieces) : split r x = pieces := by
  induction h with
  | nil => exact split_nil r
  | cons hpiece hmatch h ih => rw [split, isolate_of_first hpiece hmatch, ih, gapPieces, List.nil_append]

lemma flatten_isolate (r : Regex α) (gap x : List α) : (isolate r gap x).flatten = gap ++ x := by
  induction gap, x using isolate.induct r with
  | case1 gap => rw [isolate, flatten_gapPieces, List.append_nil]
  | case2 gap a x hnone ih => rw [isolate_of_none hnone, ih, List.append_assoc, List.singleton_append]
  | case3 gap a x rest hsome hle ih =>
      have hsuffix := List.suffix_iff_eq_append.mp (suffix_of_first hsome)
      rw [List.length_cons] at hsuffix
      rw [isolate, hsome]
      dsimp only
      rw [dif_pos hle, List.flatten_append, List.flatten_cons, flatten_gapPieces, ih,
        List.nil_append, hsuffix]
  | case4 gap a x rest hsome hlt ih =>
      rw [isolate, hsome]
      dsimp only
      rw [dif_neg hlt, ih, List.append_assoc, List.singleton_append]

/-- The pieces are the text. -/
theorem flatten_split (r : Regex α) (x : List α) : (split r x).flatten = x :=
  flatten_isolate r [] x

lemma ne_nil_of_mem_isolate (r : Regex α) (gap x : List α) : ∀ y ∈ isolate r gap x, y ≠ [] := by
  have hgap : ∀ gap : List α, ∀ y ∈ gapPieces gap, y ≠ [] := by
    intro gap y hy
    cases gap with
    | nil => cases hy
    | cons a gap =>
        rw [List.mem_singleton.mp hy]
        exact List.cons_ne_nil a gap
  induction gap, x using isolate.induct r with
  | case1 gap =>
      rw [isolate]
      exact hgap gap
  | case2 gap a x hnone ih => rwa [isolate_of_none hnone]
  | case3 gap a x rest hsome hle ih =>
      rw [isolate, hsome]
      dsimp only
      rw [dif_pos hle]
      refine List.forall_mem_append.mpr ⟨hgap gap, List.forall_mem_cons.mpr ⟨?_, ih⟩⟩
      rw [Nat.succ_sub hle, List.take_succ_cons]
      exact List.cons_ne_nil _ _
  | case4 gap a x rest hsome hlt ih =>
      rw [isolate, hsome]
      dsimp only
      rwa [dif_neg hlt]

/-- No piece is empty. -/
theorem ne_nil_of_mem_split (r : Regex α) (x : List α) : ∀ y ∈ split r x, y ≠ [] :=
  ne_nil_of_mem_isolate r [] x

end Regex

end Machine
