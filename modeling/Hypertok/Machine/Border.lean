import Hypertok.Machine.Boundary

/-!
Borders between two letters that no match of a regular expression crosses.

* `Idle`, `Short`, `Local`: what an expression takes before and behind a border.
* `rests_border`: the matches before a border are those of the text that ends there.
* `splitAll_border`: splits that follow each other split the two parts.
-/

namespace Machine

namespace Regex

universe u

variable {α : Type u}

/-- Nothing is taken of a text that starts with `b`. -/
def Idle (b : α) : Regex α → Prop
  | empty => True
  | one p => p b = false
  | seq r s | alt r s => Idle b r ∧ Idle b s
  | star r | atomic r | notAhead r => Idle b r
  | atEnd => False

/-- Not all is taken of a text that ends in `e`. -/
def Short (e : α) : Regex α → Prop
  | empty | notAhead _ | atEnd => True
  | one p => p e = false
  | seq r s | alt r s => Short e r ∧ Short e s
  | star r | atomic r => Short e r

/-- No match crosses a border between `e` and `b`. -/
def Local (e b : α) : Regex α → Prop
  | empty | one _ | atEnd => True
  | seq r s => Local e b r ∧ Local e b s ∧ (Short e r ∨ Idle b s)
  | alt r s => Local e b r ∧ Local e b s
  | star r => Local e b r ∧ (Short e r ∨ Idle b r)
  | atomic r | notAhead r => Local e b r

variable {r s : Regex α} {e a b : α} {u v w x gap : List α}

lemma Idle.local (h : Idle b r) : Local e b r := by
  induction r with
  | empty | one | atEnd => trivial
  | seq r s ihr ihs => exact ⟨ihr h.1, ihs h.2, .inr h.2⟩
  | alt r s ihr ihs => exact ⟨ihr h.1, ihs h.2⟩
  | star r ih => exact ⟨ih h, .inr h⟩
  | atomic r ih | notAhead r ih => exact ih h

lemma Local.seq_idle (hr : Local e b r) (hs : Idle b s) : Local e b (seq r s) :=
  ⟨hr, hs.local, .inr hs⟩

/-- What is left of a text that ends in `e`. -/
lemma eq_nil_or_of_mem_rests (h : w ∈ rests r (u ++ [e])) : w = [] ∨ ∃ u', w = u' ++ [e] := by
  obtain hnil | ⟨u', hu', -⟩ := List.suffix_concat_iff.mp (suffix_of_mem_rests r _ _ h)
  · exact .inl hnil
  · exact .inr ⟨u', hu'⟩

lemma starRests_nil (f : List α → List (List α)) (n : ℕ) : starRests f n [] = [[]] := by
  cases n with
  | zero => rfl
  | succ n =>
      rw [starRests_succ, List.filter_eq_nil_iff.mpr fun y _ => by simp]
      rfl

/-- An idle turn is the last. -/
lemma starRests_idle {f : List α → List (List α)} (h : f (b :: v) = (f []).map (· ++ b :: v))
    (n : ℕ) : starRests f n (b :: v) = [b :: v] := by
  cases n with
  | zero => rfl
  | succ n =>
      have hnone : (f (b :: v)).filter (fun y => y.length < (b :: v).length) = [] := by
        refine List.filter_eq_nil_iff.mpr fun y hy => ?_
        rw [h] at hy
        obtain ⟨w, -, rfl⟩ := List.mem_map.mp hy
        rw [List.length_append, decide_eq_true_eq, not_lt]
        exact Nat.le_add_left _ _
      rw [starRests_succ, hnone]
      rfl

lemma rests_idle (h : Idle b r) : rests r (b :: v) = (rests r []).map (· ++ b :: v) := by
  induction r generalizing v with
  | empty => rfl
  | one p => rw [rests_one_cons, h, rests_one_nil]; rfl
  | seq r s ihr ihs =>
      rw [rests_seq, rests_seq, ihr h.1, List.flatMap_map, List.map_flatMap]
      refine List.flatMap_congr fun w hw => ?_
      rw [List.suffix_nil.mp (suffix_of_mem_rests r _ _ hw), List.nil_append, ihs h.2]
  | alt r s ihr ihs => rw [rests_alt, rests_alt, ihr h.1, ihs h.2, List.map_append]
  | star r ih => rw [rests_star, rests_star, starRests_idle (ih h), starRests_nil]; rfl
  | atomic r ih => rw [rests_atomic, rests_atomic, ih h, List.map_take]
  | notAhead r ih =>
      rw [rests_notAhead, rests_notAhead, ih h, List.isEmpty_map]
      split_ifs <;> rfl
  | atEnd => exact h.elim

lemma nil_not_mem_starRests {f : List α → List (List α)}
    (hsuffix : ∀ x, ∀ y ∈ f x, y <:+ x) (h : ∀ u, [] ∉ f (u ++ [e])) (n : ℕ) (u : List α) :
    [] ∉ starRests f n (u ++ [e]) := by
  induction n generalizing u with
  | zero => simp [starRests]
  | succ n ih =>
      rw [starRests_succ, List.mem_append, List.mem_flatMap, List.mem_singleton]
      rintro (⟨w, hw, hmem⟩ | hnil)
      · have hw := List.mem_of_mem_filter hw
        obtain rfl | ⟨u', rfl, -⟩ := List.suffix_concat_iff.mp (hsuffix _ _ hw)
        · exact h u hw
        · exact ih u' hmem
      · simp at hnil

lemma nil_not_mem_rests (h : Short e r) (u : List α) : [] ∉ rests r (u ++ [e]) := by
  induction r generalizing u with
  | empty => simp [rests_empty]
  | one p =>
      cases u with
      | nil => rw [List.nil_append, rests_one_cons, h]; simp
      | cons a u =>
          rw [List.cons_append, rests_one_cons]
          split_ifs <;> simp
  | seq r s ihr ihs =>
      intro hmem
      obtain ⟨w, hw, hnil⟩ := List.mem_flatMap.mp hmem
      obtain rfl | ⟨u', rfl⟩ := eq_nil_or_of_mem_rests hw
      · exact ihr h.1 u hw
      · exact ihs h.2 u' hnil
  | alt r s ihr ihs =>
      exact fun hmem => (List.mem_append.mp hmem).elim (ihr h.1 u) (ihs h.2 u)
  | star r ih => exact nil_not_mem_starRests (suffix_of_mem_rests r) (ih h) _ u
  | atomic r ih => exact fun hmem => ih h u (List.mem_of_mem_take hmem)
  | notAhead r ih =>
      rw [rests_notAhead]
      split_ifs <;> simp
  | atEnd => simp [rests_atEnd]

/-- Turns that do not cross a border. -/
lemma starRests_border {f : List α → List (List α)} (hsuffix : ∀ x, ∀ y ∈ f x, y <:+ x)
    (h : ∀ u, f (u ++ e :: b :: v) = (f (u ++ [e])).map (· ++ b :: v))
    (hborder : (∀ u, [] ∉ f (u ++ [e])) ∨ f (b :: v) = (f []).map (· ++ b :: v))
    {m n : ℕ} (hm : u.length < m) (hn : u.length < n) :
    starRests f n (u ++ e :: b :: v) = (starRests f m (u ++ [e])).map (· ++ b :: v) := by
  induction m generalizing u n with
  | zero => exact absurd hm (Nat.not_lt_zero _)
  | succ m ih =>
      cases n with
      | zero => exact absurd hn (Nat.not_lt_zero _)
      | succ n =>
          have hlen : ∀ w : List α, (w ++ b :: v).length < (u ++ e :: b :: v).length ↔
              w.length < (u ++ [e]).length := by
            intro w
            simp only [List.length_append, List.length_cons, List.length_nil]
            omega
          have hfilter : (f (u ++ e :: b :: v)).filter
                (fun y => y.length < (u ++ e :: b :: v).length) =
              ((f (u ++ [e])).filter fun y => y.length < (u ++ [e]).length).map (· ++ b :: v) := by
            rw [h, List.filter_map]
            refine congrArg _ (List.filter_congr fun w _ => ?_)
            exact decide_eq_decide.mpr (hlen w)
          rw [starRests_succ, starRests_succ, hfilter, List.flatMap_map, List.map_append,
            List.map_flatMap, List.map_singleton, List.append_assoc, List.singleton_append]
          refine congrArg (· ++ _) (List.flatMap_congr fun w hw => ?_)
          obtain ⟨hmem, hlt⟩ := List.mem_filter.mp hw
          obtain rfl | ⟨u', rfl, -⟩ := List.suffix_concat_iff.mp (hsuffix _ _ hmem)
          · have hidle := hborder.resolve_left fun hshort => hshort u hmem
            rw [List.nil_append, starRests_idle hidle, starRests_nil]
            rfl
          · have hlt : u'.length < u.length := by simpa using hlt
            rw [List.append_assoc, List.singleton_append]
            exact ih (by omega) (by omega)

/-- No match crosses the border. -/
theorem rests_border (h : Local e b r) (u v : List α) :
    rests r (u ++ e :: b :: v) = (rests r (u ++ [e])).map (· ++ b :: v) := by
  induction r generalizing u with
  | empty => rw [rests_empty, rests_empty, List.map_singleton, List.append_assoc]; rfl
  | one p =>
      cases u with
      | nil =>
          rw [List.nil_append, List.nil_append, rests_one_cons, rests_one_cons]
          split_ifs <;> rfl
      | cons a u =>
          rw [List.cons_append, List.cons_append, rests_one_cons, rests_one_cons]
          split_ifs
          · rw [List.map_singleton, List.append_assoc]; rfl
          · rfl
  | seq r s ihr ihs =>
      obtain ⟨hr, hs, hborder⟩ := h
      rw [rests_seq, rests_seq, ihr hr, List.flatMap_map, List.map_flatMap]
      refine List.flatMap_congr fun w hw => ?_
      obtain rfl | ⟨u', rfl⟩ := eq_nil_or_of_mem_rests hw
      · have hidle := hborder.resolve_left fun hshort => nil_not_mem_rests hshort u hw
        rw [List.nil_append, rests_idle hidle]
      · rw [List.append_assoc, List.singleton_append, ihs hs]
  | alt r s ihr ihs => rw [rests_alt, rests_alt, ihr h.1, ihs h.2, List.map_append]
  | star r ih =>
      obtain ⟨hr, hborder⟩ := h
      refine starRests_border (suffix_of_mem_rests r) (fun u => ih hr u) ?_ (by simp) (by simp)
      exact hborder.imp nil_not_mem_rests rests_idle
  | atomic r ih => rw [rests_atomic, rests_atomic, ih h, List.map_take]
  | notAhead r ih =>
      rw [rests_notAhead, rests_notAhead, ih h, List.isEmpty_map]
      split_ifs
      · rw [List.map_singleton, List.append_assoc]; rfl
      · rfl
  | atEnd =>
      rw [rests_atEnd, rests_atEnd, if_neg (by simp), if_neg (by simp)]
      rfl

/-! ### Splits -/

/-- A match starts here, and it is not empty. -/
def Starts (r : Regex α) (x : List α) : Prop :=
  ∃ piece rest, piece ≠ [] ∧ x = piece ++ rest ∧ first r x = some rest

lemma isolate_of_not_starts (h : ¬ Starts r (a :: x)) :
    isolate r gap (a :: x) = isolate r (gap ++ [a]) x := by
  cases hfirst : first r (a :: x) with
  | none => exact isolate_of_none hfirst
  | some rest =>
      have hlen : ¬ rest.length ≤ x.length := by
        intro hle
        obtain ⟨piece, hne, hpiece, -⟩ := split_of_first hfirst hle
        exact h ⟨piece, rest, hne, hpiece, hfirst⟩
      rw [isolate, hfirst]
      dsimp only
      rw [dif_neg hlen]

/-- A gap is the front of a piece. -/
lemma exists_isolate (r : Regex α) (hgap : gap ≠ []) (x : List α) :
    ∃ z ys, ∀ g, isolate r (g ++ gap) x = (g ++ gap ++ z) :: ys := by
  induction x generalizing gap with
  | nil =>
      refine ⟨[], [], fun g => ?_⟩
      rw [isolate, gapPieces_of_ne_nil (by simp [hgap]), List.append_nil]
  | cons a x ih =>
      by_cases hstarts : Starts r (a :: x)
      · obtain ⟨piece, rest, hne, hpiece, hfirst⟩ := hstarts
        rw [hpiece] at hfirst ⊢
        refine ⟨[], piece :: split r rest, fun g => ?_⟩
        rw [isolate_of_first hne hfirst, gapPieces_of_ne_nil (by simp [hgap]), List.append_nil,
          List.singleton_append]
      · obtain ⟨z, ys, hys⟩ := ih (List.append_ne_nil_of_left_ne_nil hgap [a])
        refine ⟨a :: z, ys, fun g => ?_⟩
        rw [isolate_of_not_starts hstarts, List.append_assoc, hys g]
        simp

/-- The pieces of two parts of a text: the border is a cut, or the pieces that meet there are
joined. -/
inductive Meets (e b : α) : List (List α) → List (List α) → List (List α) → Prop
  | cut (xs ys) : Meets e b xs ys (xs ++ ys)
  | joined (xs y z ys) :
      Meets e b (xs ++ [y ++ [e]]) ((b :: z) :: ys) (xs ++ (y ++ e :: b :: z) :: ys)

lemma Meets.append {xs ys zs : List (List α)} (h : Meets e b xs ys zs) (ws vs : List (List α)) :
    Meets e b (ws ++ xs) (ys ++ vs) (ws ++ (zs ++ vs)) := by
  cases h with
  | cut =>
      rw [List.append_assoc, ← List.append_assoc ws]
      exact .cut _ _
  | joined xs y z ys =>
      have h := Meets.joined (e := e) (b := b) (ws ++ xs) y z (ys ++ vs)
      simpa using h

lemma starts_border (h : Local e b r) (u v : List α) :
    Starts r (u ++ e :: b :: v) ↔ Starts r (u ++ [e]) := by
  have hsplit : u ++ e :: b :: v = (u ++ [e]) ++ b :: v := by simp
  constructor
  · rintro ⟨piece, rest, hne, hpiece, hfirst⟩
    rw [first, rests_border h, List.head?_map, Option.map_eq_some_iff] at hfirst
    obtain ⟨w, hw, rfl⟩ := hfirst
    rw [hsplit, ← List.append_assoc, List.append_cancel_right_eq] at hpiece
    exact ⟨piece, w, hne, hpiece, hw⟩
  · rintro ⟨piece, rest, hne, hpiece, hfirst⟩
    refine ⟨piece, rest ++ b :: v, hne, by rw [hsplit, hpiece, List.append_assoc], ?_⟩
    rw [first, rests_border h, List.head?_map, ← first, hfirst]
    rfl

/-- A gap that reaches the border. -/
lemma isolate_gap_border (r : Regex α) (e b : α) (gap v : List α) :
    isolate r (gap ++ [e]) (b :: v) = [gap ++ [e]] ++ split r (b :: v) ∨
      Meets e b [gap ++ [e]] (split r (b :: v)) (isolate r (gap ++ [e]) (b :: v)) := by
  have hgap : gap ++ [e] ≠ [] := by simp
  by_cases hb : Starts r (b :: v)
  · left
    obtain ⟨piece, rest, hne, hpiece, hfirst⟩ := hb
    rw [hpiece] at hfirst ⊢
    rw [split, isolate_of_first hne hfirst, isolate_of_first hne hfirst, gapPieces_of_ne_nil hgap,
      gapPieces, List.nil_append]
  · right
    obtain ⟨z, ys, hys⟩ := exists_isolate r (List.cons_ne_nil b []) v
    rw [split, isolate_of_not_starts hb, isolate_of_not_starts hb, hys, hys]
    have := Meets.joined (e := e) (b := b) [] gap z ys
    simpa using this

/-- A match before the border. -/
lemma isolate_border_of_first (gap v : List α) (h : Local e b r) {piece rest : List α}
    (hne : piece ≠ []) (hpiece : u ++ [e] = piece ++ rest) (hfirst : first r (u ++ [e]) = some rest) :
    isolate r gap (u ++ [e]) = gapPieces gap ++ [piece] ++ split r rest ∧
      isolate r gap (u ++ e :: b :: v) = gapPieces gap ++ [piece] ++ split r (rest ++ b :: v) := by
  have htext : u ++ e :: b :: v = piece ++ (rest ++ b :: v) := by
    rw [← List.append_assoc, ← hpiece]
    simp
  have hfirst' : first r (piece ++ (rest ++ b :: v)) = some (rest ++ b :: v) := by
    rw [← htext, first, rests_border h, List.head?_map, ← first, hfirst]
    rfl
  rw [hpiece] at hfirst
  rw [htext, hpiece, isolate_of_first hne hfirst, isolate_of_first hne hfirst', List.append_assoc,
    List.append_assoc]
  exact ⟨rfl, rfl⟩

/-- The border is a cut, unless a gap crosses it. -/
theorem isolate_border (h : Local e b r) (gap u v : List α) :
    isolate r gap (u ++ e :: b :: v) = isolate r gap (u ++ [e]) ++ split r (b :: v) ∨
      ¬ Starts r (e :: b :: v) ∧ Meets e b (isolate r gap (u ++ [e])) (split r (b :: v))
        (isolate r gap (u ++ e :: b :: v)) := by
  induction hn : u.length using Nat.strong_induction_on generalizing gap u with
  | _ n ih =>
      by_cases hstarts : Starts r (u ++ [e])
      · obtain ⟨piece, rest, hne, hpiece, hfirst⟩ := hstarts
        obtain ⟨hleft, hright⟩ := isolate_border_of_first gap v h hne hpiece hfirst
        rw [hleft, hright]
        obtain rfl | ⟨u', rfl, -⟩ := List.suffix_concat_iff.mp (suffix_of_first hfirst)
        · left
          rw [split_nil, List.append_nil, List.nil_append]
        · have hlt : u'.length < n := by
            have := congrArg List.length hpiece
            have := List.length_pos_iff.mpr hne
            simp only [List.length_append, List.length_singleton] at *
            omega
          have htail : u' ++ [e] ++ b :: v = u' ++ e :: b :: v := by simp
          rw [htail, split, split]
          obtain hcut | ⟨hnot, hmeets⟩ := ih _ hlt [] u' rfl
          · left
            simp only [hcut, List.append_assoc]
          · right
            have := hmeets.append (gapPieces gap ++ [piece]) []
            rw [List.append_nil, List.append_nil] at this
            exact ⟨hnot, this⟩
      · have hnot := (starts_border h u v).not.mpr hstarts
        cases u with
        | nil =>
            rw [List.nil_append] at hstarts hnot ⊢
            rw [List.nil_append, isolate_of_not_starts hnot, isolate_of_not_starts hstarts, isolate,
              gapPieces_of_ne_nil (by simp)]
            exact (isolate_gap_border r e b gap v).imp_right fun hmeets => ⟨hnot, hmeets⟩
        | cons a u =>
            rw [List.cons_append] at hstarts hnot ⊢
            rw [List.cons_append, isolate_of_not_starts hnot, isolate_of_not_starts hstarts]
            exact ih u.length (by simp [← hn]) _ u rfl

/-- The pieces of the pieces. -/
lemma Meets.flatMap {xs ys zs : List (List α)} (h : Meets e b xs ys zs) (hr : Local e b r) :
    (zs.flatMap (split r) = xs.flatMap (split r) ++ ys.flatMap (split r)) ∨
      (∃ x, ¬ Starts r (e :: x)) ∧
        Meets e b (xs.flatMap (split r)) (ys.flatMap (split r)) (zs.flatMap (split r)) := by
  cases h with
  | cut => exact .inl List.flatMap_append
  | joined xs y z ys =>
      rw [List.flatMap_append, List.flatMap_append, List.flatMap_singleton, List.flatMap_cons,
        List.flatMap_cons]
      obtain hcut | ⟨hnot, hmeets⟩ := isolate_border hr [] y z
      · left
        rw [split, hcut]
        simp [split]
      · exact .inr ⟨⟨_, hnot⟩, hmeets.append _ _⟩

/-- The pieces of splits that follow each other. -/
def splitThrough (rs : List (Regex α)) (pieces : List (List α)) : List (List α) :=
  rs.foldl (fun pieces r => pieces.flatMap (split r)) pieces

lemma splitThrough_append (rs : List (Regex α)) (xs ys : List (List α)) :
    splitThrough rs (xs ++ ys) = splitThrough rs xs ++ splitThrough rs ys := by
  induction rs generalizing xs ys with
  | nil => rfl
  | cons r rs ih => exact (congrArg (splitThrough rs) List.flatMap_append).trans (ih _ _)

/-- One of the splits cuts at the border. -/
lemma Meets.splitThrough {rs : List (Regex α)} (hlocal : ∀ r ∈ rs, Local e b r)
    (hstarts : ∃ r ∈ rs, ∀ x, Starts r (e :: x)) {xs ys zs : List (List α)}
    (h : Meets e b xs ys zs) :
    splitThrough rs zs = splitThrough rs xs ++ splitThrough rs ys := by
  induction rs generalizing xs ys zs with
  | nil => simp at hstarts
  | cons r rs ih =>
      obtain ⟨hr, hlocal⟩ := List.forall_mem_cons.mp hlocal
      obtain hcut | ⟨⟨x, hnot⟩, hmeets⟩ := h.flatMap hr
      · exact (congrArg (Regex.splitThrough rs) hcut).trans (splitThrough_append rs _ _)
      · obtain ⟨s, hs, hall⟩ := hstarts
        obtain rfl | hs := List.mem_cons.mp hs
        · exact absurd (hall x) hnot
        · exact ih hlocal ⟨s, hs, hall⟩ hmeets

lemma splitAll_eq_splitThrough {matchers : List (Matcher α)} {rs : List (Regex α)}
    (hmatchers : matchers.map Matcher.split = rs.map split) (x : List α) :
    Matcher.splitAll matchers x = splitThrough rs [x] := by
  calc Matcher.splitAll matchers x
      = (matchers.map Matcher.split).foldl (fun pieces f => pieces.flatMap f) [x] := by
        rw [Matcher.splitAll, List.foldl_map]
    _ = splitThrough rs [x] := by rw [hmatchers, splitThrough, List.foldl_map]

lemma flatten_flatMap_split (r : Regex α) (pieces : List (List α)) :
    (pieces.flatMap (split r)).flatten = pieces.flatten := by
  induction pieces with
  | nil => rfl
  | cons x pieces ih =>
      rw [List.flatMap_cons, List.flatten_append, flatten_split, ih, List.flatten_cons]

lemma flatten_splitThrough (rs : List (Regex α)) (pieces : List (List α)) :
    (splitThrough rs pieces).flatten = pieces.flatten := by
  induction rs generalizing pieces with
  | nil => rfl
  | cons r rs ih => exact (ih _).trans (flatten_flatMap_split r pieces)

/-- No piece is empty. -/
lemma ne_nil_of_mem_splitThrough {rs : List (Regex α)} (hrs : rs ≠ []) {pieces : List (List α)} :
    ∀ y ∈ splitThrough rs pieces, y ≠ [] := by
  obtain ⟨rs', r, rfl⟩ := (List.eq_nil_or_concat' rs).resolve_left hrs
  intro y hy
  rw [splitThrough, List.foldl_append, List.foldl_cons, List.foldl_nil, List.mem_flatMap] at hy
  obtain ⟨x, -, hy⟩ := hy
  exact ne_nil_of_mem_split r x y hy

/-- A text is split at a border that no match crosses, where one of the splits has matches at all
texts that start with `e`. -/
theorem splitAll_border {matchers : List (Matcher α)} {rs : List (Regex α)}
    (hmatchers : matchers.map Matcher.split = rs.map split) (hlocal : ∀ r ∈ rs, Local e b r)
    (hstarts : ∃ r ∈ rs, ∀ x, Starts r (e :: x)) (u v : List α) :
    Matcher.splitAll matchers (u ++ e :: b :: v) =
      Matcher.splitAll matchers (u ++ [e]) ++ Matcher.splitAll matchers (b :: v) := by
  rw [splitAll_eq_splitThrough hmatchers, splitAll_eq_splitThrough hmatchers,
    splitAll_eq_splitThrough hmatchers]
  exact (Meets.joined [] u v []).splitThrough hlocal hstarts

end Regex

end Machine
