import Hypertok.Machine.Split

/-!
Matchers that see the text behind them too, as `\b` does. They are regular expressions, joined by
sequence, by lookahead and by the boundary of words.

* `Matcher.split`: a text split at the matches, where each one sees all that is behind it.
* `Matcher.split_eq`: what is behind does not matter to a matcher that agrees with a regular
  expression.
* `boundary_of_word`: behind a word, `\b` is where no word follows.
-/

namespace Machine

namespace Regex

universe u

variable {α : Type u}

/-- What may be left of a text, behind another one, of all matches in their order. -/
def Matcher (α : Type u) := List α → List α → List (List α)

namespace Matcher

/-- A regular expression does not look behind. -/
def ofRegex (r : Regex α) : Matcher α := fun _ x => rests r x

/-- What the first part matches is behind the second. -/
def seq (m m' : Matcher α) : Matcher α := fun before x =>
  (m before x).flatMap fun y => m' (before ++ x.take (x.length - y.length)) y

/-- `(?=m)`. -/
def ahead (m : Matcher α) : Matcher α := fun before x =>
  if (m before x).isEmpty then [] else [x]

/-- `\b`: a word is behind or ahead, and not both. -/
def boundary (isWord : α → Bool) : Matcher α := fun before x =>
  if before.getLast?.any isWord = x.head?.any isWord then [] else [x]

/-- What is left after the leftmost-first match. -/
def first (m : Matcher α) (before x : List α) : Option (List α) := (m before x).head?

/-- The pieces of a text, behind `before` and a gap. -/
def isolate (m : Matcher α) (before gap : List α) : List α → List (List α)
  | [] => gapPieces gap
  | a :: x =>
      match m.first (before ++ gap) (a :: x) with
      | none => isolate m before (gap ++ [a]) x
      | some rest =>
          if _h : rest.length ≤ x.length then
            gapPieces gap ++ (a :: x).take (x.length + 1 - rest.length) ::
              isolate m (before ++ gap ++ (a :: x).take (x.length + 1 - rest.length)) [] rest
          else isolate m before (gap ++ [a]) x
  termination_by x => x.length

/-- The pieces of a text. -/
def split (m : Matcher α) (x : List α) : List (List α) := isolate m [] [] x

variable {m : Matcher α} {r : Regex α}

/-- A matcher that agrees with a regular expression, whatever is behind. -/
lemma isolate_eq (h : ∀ before x, m.first before x = Regex.first r x) (before gap x : List α) :
    m.isolate before gap x = Regex.isolate r gap x := by
  induction gap, x using Regex.isolate.induct r generalizing before with
  | case1 gap => rw [isolate, Regex.isolate]
  | case2 gap a x hnone ih => rw [isolate, h, hnone, isolate_of_none hnone, ← ih before]
  | case3 gap a x rest hsome hle ih =>
      rw [isolate, h, Regex.isolate, hsome]
      dsimp only
      rw [dif_pos hle, dif_pos hle, ih]
  | case4 gap a x rest hsome hlt ih =>
      rw [isolate, h, Regex.isolate, hsome]
      dsimp only
      rw [dif_neg hlt, dif_neg hlt, ih]

theorem split_eq (h : ∀ before x, m.first before x = Regex.first r x) (x : List α) :
    m.split x = Regex.split r x :=
  isolate_eq h [] [] x

lemma split_ofRegex (r : Regex α) : (ofRegex r).split = Regex.split r :=
  funext (split_eq fun _ _ => rfl)

/-- The pieces of splits that follow each other. -/
def splitAll (matchers : List (Matcher α)) (x : List α) : List (List α) :=
  matchers.foldl (fun pieces m => pieces.flatMap m.split) [x]

lemma splitAll_ofRegex (r : Regex α) (x : List α) : splitAll [ofRegex r] x = Regex.split r x := by
  rw [splitAll, List.foldl_cons, List.foldl_nil, List.flatMap_singleton, split_ofRegex]

end Matcher

/-- `(?=r)`. -/
def ahead (r : Regex α) : Regex α := notAhead (notAhead r)

variable {r s : Regex α} {p : α → Bool} {x y : List α}

lemma rests_ahead : rests (ahead r) x = if (rests r x).isEmpty then [] else [x] := by
  rw [ahead, rests_notAhead, rests_notAhead]
  cases (rests r x).isEmpty <;> rfl

lemma first_ahead : first (ahead r) x = if first r x = none then none else some x := by
  rw [ahead, first_notAhead, first_notAhead]
  cases first r x <;> simp

lemma rests_notAhead_one :
    rests (notAhead (one p)) x = if x.head?.any p then [] else [x] := by
  cases x with
  | nil => rfl
  | cons a x =>
      rw [rests_notAhead, rests_one_cons, List.head?_cons, Option.any_some]
      cases p a <;> rfl

/-- Behind a word, `\b` is where no word follows. -/
lemma boundary_of_word {isWord : α → Bool} {before : List α}
    (h : before.getLast?.any isWord = true) :
    Matcher.boundary isWord before x = rests (notAhead (one isWord)) x := by
  rw [Matcher.boundary, rests_notAhead_one, h]
  cases x.head?.any isWord <;> rfl

/-- Every letter that the expression matches is one of `p`. -/
def Over (p : α → Bool) : Regex α → Prop
  | empty | notAhead _ | atEnd => True
  | one q => ∀ a, q a = true → p a = true
  | seq r s | alt r s => Over p r ∧ Over p s
  | star r | atomic r => Over p r

/-- A match of such an expression. -/
lemma exists_of_mem_rests (h : Over p r) (hy : y ∈ rests r x) :
    ∃ piece, x = piece ++ y ∧ ∀ a ∈ piece, p a = true := by
  induction r generalizing x y with
  | empty => exact ⟨[], List.mem_singleton.mp hy ▸ rfl, List.forall_mem_nil _⟩
  | one q =>
      cases x with
      | nil => cases hy
      | cons a x =>
          rw [rests_one_cons] at hy
          split_ifs at hy with ha
          · exact ⟨[a], by rw [List.mem_singleton.mp hy]; rfl,
              List.forall_mem_singleton.mpr (h a ha)⟩
          · cases hy
  | seq r s ihr ihs =>
      obtain ⟨z, hz, hzy⟩ := List.mem_flatMap.mp hy
      obtain ⟨piece, rfl, hpiece⟩ := ihr h.1 hz
      obtain ⟨piece', rfl, hpiece'⟩ := ihs h.2 hzy
      exact ⟨piece ++ piece', (List.append_assoc _ _ _).symm,
        List.forall_mem_append.mpr ⟨hpiece, hpiece'⟩⟩
  | alt r s ihr ihs => exact (List.mem_append.mp hy).elim (ihr h.1) (ihs h.2)
  | star r ih =>
      have hturns : ∀ n x y, y ∈ starRests (rests r) n x →
          ∃ piece, x = piece ++ y ∧ ∀ a ∈ piece, p a = true := by
        intro n
        induction n with
        | zero => exact fun x y hy => ⟨[], List.mem_singleton.mp hy ▸ rfl, List.forall_mem_nil _⟩
        | succ n ihn =>
            intro x y hy
            rw [starRests_succ, List.mem_append, List.mem_flatMap, List.mem_singleton] at hy
            obtain ⟨z, hz, hy⟩ | rfl := hy
            · obtain ⟨piece, rfl, hpiece⟩ := ih h (List.mem_of_mem_filter hz)
              obtain ⟨piece', rfl, hpiece'⟩ := ihn z y hy
              exact ⟨piece ++ piece', (List.append_assoc _ _ _).symm,
                List.forall_mem_append.mpr ⟨hpiece, hpiece'⟩⟩
            · exact ⟨[], rfl, List.forall_mem_nil _⟩
      exact hturns x.length x y hy
  | atomic r ih => exact ih h (List.mem_of_mem_take hy)
  | notAhead r ih =>
      rw [rests_notAhead] at hy
      split_ifs at hy
      · exact ⟨[], List.mem_singleton.mp hy ▸ rfl, List.forall_mem_nil _⟩
      · cases hy
  | atEnd =>
      rw [rests_atEnd] at hy
      split_ifs at hy
      · exact ⟨[], List.mem_singleton.mp hy ▸ rfl, List.forall_mem_nil _⟩
      · cases hy

/-- No match starts in a gap. -/
def Gap (r : Regex α) (g rest : List α) : Prop :=
  ∀ y, y <:+ g → y ≠ [] → first r (y ++ rest) = none

lemma gap_nil (r : Regex α) (rest : List α) : Gap r [] rest :=
  fun _ hy hne => absurd (List.suffix_nil.mp hy) hne

lemma gap_singleton {a : α} {rest : List α} (h : first r (a :: rest) = none) : Gap r [a] rest := by
  intro y hy hne
  obtain rfl := (List.suffix_cons_iff.mp hy).resolve_right fun h => hne (List.suffix_nil.mp h)
  exact h

lemma Gap.append {g g' rest : List α} (h : Gap r g (g' ++ rest)) (h' : Gap r g' rest) :
    Gap r (g ++ g') rest := by
  induction g with
  | nil => exact h'
  | cons a g ih =>
      intro y hy hne
      obtain rfl | hy := List.suffix_cons_iff.mp hy
      · change first r ((a :: g ++ g') ++ rest) = none
        rw [List.append_assoc]
        exact h (a :: g) (List.suffix_refl _) (List.cons_ne_nil a g)
      · exact ih (fun y hy => h y (hy.trans (List.suffix_cons a g))) y hy hne

end Regex

end Machine
