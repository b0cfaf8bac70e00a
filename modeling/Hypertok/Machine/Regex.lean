import Mathlib.Tactic

/-!
Regular expressions with the semantics of a backtracking matcher: the alternatives are tried in
their order, and the repetitions are greedy.

* `rests`: what may be left of a text after a match, in the order of the matcher.
* `first`: what is left after the leftmost-first match.
* `findSome?_runRests`: how far a run of characters is given back for what follows it.
* `Segments`: a text cut in matches that follow each other.
-/

namespace Machine

universe u

/-- Regular expressions over letters of any type. -/
inductive Regex (α : Type u)
  | empty
  | one (p : α → Bool)
  | seq (r s : Regex α)
  | alt (r s : Regex α)
  | star (r : Regex α)
  | atomic (r : Regex α)
  | notAhead (r : Regex α)
  | atEnd

namespace Regex

variable {α : Type u}

/-- The turns of a greedy repetition, of which each one takes something. -/
def starRests (f : List α → List (List α)) : ℕ → List α → List (List α)
  | 0, x => [x]
  | n + 1, x => ((f x).filter fun y => y.length < x.length).flatMap (starRests f n) ++ [x]

/-- What is left of the text after a match at its front, of all matches in their order. -/
def rests : Regex α → List α → List (List α)
  | empty, x => [x]
  | one _, [] => []
  | one p, a :: x => if p a then [x] else []
  | seq r s, x => (rests r x).flatMap (rests s)
  | alt r s, x => rests r x ++ rests s x
  | star r, x => starRests (rests r) x.length x
  | atomic r, x => (rests r x).take 1
  | notAhead r, x => if (rests r x).isEmpty then [x] else []
  | atEnd, x => if x.isEmpty then [x] else []

/-- What is left after the leftmost-first match at the front of the text. -/
def first (r : Regex α) (x : List α) : Option (List α) := (rests r x).head?

/-- `r?`. -/
def opt (r : Regex α) : Regex α := alt r empty

/-- `r+`. -/
def plus (r : Regex α) : Regex α := seq r (star r)

/-- `r{0,n}`. -/
def atMost (r : Regex α) : ℕ → Regex α
  | 0 => empty
  | n + 1 => opt (seq r (atMost r n))

/-- Alternatives, in their order. -/
def anyOf (rs : List (Regex α)) : Regex α := rs.foldr alt (one fun _ => false)

variable {r s t : Regex α} {p q : α → Bool} {a : α} {x y : List α}

/-! ### The equations -/

lemma rests_empty : rests empty x = [x] := rfl

lemma rests_one_nil : rests (one p) [] = [] := rfl

lemma rests_one_cons : rests (one p) (a :: x) = if p a then [x] else [] := rfl

lemma rests_seq : rests (seq r s) x = (rests r x).flatMap (rests s) := rfl

lemma rests_alt : rests (alt r s) x = rests r x ++ rests s x := rfl

lemma rests_star : rests (star r) x = starRests (rests r) x.length x := rfl

lemma rests_atomic : rests (atomic r) x = (rests r x).take 1 := rfl

lemma rests_notAhead : rests (notAhead r) x = if (rests r x).isEmpty then [x] else [] := rfl

lemma rests_atEnd : rests (atEnd : Regex α) x = if x.isEmpty then [x] else [] := rfl

lemma starRests_succ (f : List α → List (List α)) (n : ℕ) : starRests f (n + 1) x =
    ((f x).filter fun y => y.length < x.length).flatMap (starRests f n) ++ [x] := rfl

/-! ### The first match -/

@[simp] lemma first_empty : first empty x = some x := rfl

@[simp] lemma first_one_nil : first (one p) [] = none := rfl

@[simp] lemma first_one_cons : first (one p) (a :: x) = if p a then some x else none := by
  rw [first, rests_one_cons]
  split_ifs <;> rfl

@[simp] lemma first_alt : first (alt r s) x = (first r x).or (first s x) := List.head?_append

@[simp] lemma first_opt : first (opt r) x = (first r x).or (some x) := first_alt

@[simp] lemma first_atomic : first (atomic r) x = first r x := by
  rw [first, first, rests_atomic]
  cases rests r x <;> rfl

@[simp] lemma first_notAhead : first (notAhead r) x = if first r x = none then some x else none := by
  rw [first, first, rests_notAhead]
  cases rests r x <;> rfl

@[simp] lemma first_atEnd : first (atEnd : Regex α) x = if x = [] then some x else none := by
  rw [first, rests_atEnd]
  cases x <;> rfl

lemma first_anyOf_nil : first (anyOf ([] : List (Regex α))) x = none := by cases x <;> rfl

@[simp] lemma first_anyOf_cons (rs : List (Regex α)) :
    first (anyOf (r :: rs)) x = (first r x).or (first (anyOf rs) x) := first_alt

/-- Of a sequence, the first match of `r` that `s` can follow. -/
lemma first_seq : first (seq r s) x = (rests r x).findSome? (first s) := List.head?_flatMap

lemma first_seq_of_first (hr : first r x = some y) {z : List α} (hs : first s y = some z) :
    first (seq r s) x = some z := by
  rw [first_seq]
  cases hrests : rests r x with
  | nil => simp [first, hrests] at hr
  | cons y' ys =>
      obtain rfl : y' = y := by simpa [first, hrests] using hr
      rw [List.findSome?_cons, hs]

lemma first_seq_none (hr : first r x = none) : first (seq r s) x = none := by
  rw [first_seq, List.head?_eq_none_iff.mp hr]
  rfl

@[simp] lemma first_seq_empty : first (seq empty s) x = first s x := by
  rw [first_seq, rests_empty, List.findSome?_singleton]

@[simp] lemma first_seq_alt :
    first (seq (alt r s) t) x = (first (seq r t) x).or (first (seq s t) x) := by
  rw [first_seq, first_seq, first_seq, rests_alt, List.findSome?_append]

@[simp] lemma first_seq_opt : first (seq (opt r) s) x = (first (seq r s) x).or (first s x) := by
  rw [opt, first_seq_alt, first_seq_empty]

@[simp] lemma first_seq_one_nil : first (seq (one p) s) [] = none := rfl

@[simp] lemma first_seq_one_cons :
    first (seq (one p) s) (a :: x) = if p a then first s x else none := by
  rw [first_seq, rests_one_cons]
  split_ifs
  · exact List.findSome?_singleton
  · rfl

/-- An atomic group does not give back. -/
@[simp] lemma first_seq_atomic : first (seq (atomic r) s) x = (first r x).bind (first s) := by
  rw [first_seq, rests_atomic, first]
  cases rests r x with
  | nil => rfl
  | cons y ys => exact List.findSome?_singleton

lemma first_seq_seq : first (seq (seq r s) t) x = first (seq r (seq s t)) x := by
  rw [first, first, rests_seq, rests_seq, rests_seq, List.flatMap_assoc]
  rfl

/-! ### Repetitions -/

/-- More turns than letters change nothing. -/
lemma starRests_eq {f : List α → List (List α)} {n : ℕ} (h : x.length ≤ n) :
    starRests f n x = starRests f x.length x := by
  induction n using Nat.strong_induction_on generalizing x with
  | _ n ih =>
      cases n with
      | zero => rw [Nat.le_zero.mp h]
      | succ n =>
          have hturns : ∀ k ≤ n, x.length ≤ k + 1 → starRests f (k + 1) x =
              ((f x).filter fun y => y.length < x.length).flatMap
                (fun y => starRests f y.length y) ++ [x] := by
            intro k hk hx
            rw [starRests_succ]
            refine congrArg (· ++ [x]) (List.flatMap_congr fun y hy => ?_)
            have hy' := of_decide_eq_true (List.mem_filter.mp hy).2
            exact ih k (Nat.lt_succ_of_le hk) (by omega)
          cases hx : x.length with
          | zero =>
              have hnone : ((f x).filter fun y => y.length < x.length) = [] :=
                List.filter_eq_nil_iff.mpr fun y _ => by simp [hx]
              rw [hturns n le_rfl h, hnone]
              rfl
          | succ k => rw [hturns n le_rfl h, hturns k (by omega) (by omega)]

/-- A repetition of what always takes something: one turn more, or none. -/
lemma first_seq_star (h : ∀ y ∈ rests r x, y.length < x.length) :
    first (seq (star r) s) x = (first (seq r (seq (star r) s)) x).or (first s x) := by
  have hturn : rests (star r) x = (rests r x).flatMap (rests (star r)) ++ [x] := by
    rw [rests_star]
    cases hx : x.length with
    | zero =>
        have hnone : rests r x = [] := List.eq_nil_iff_forall_not_mem.mpr fun y hy => by
          have := h y hy
          omega
        rw [hnone]
        rfl
    | succ n =>
        have hall : ((rests r x).filter fun y => y.length < x.length) = rests r x :=
          List.filter_eq_self.mpr fun y hy => decide_eq_true (h y hy)
        rw [starRests_succ, hall]
        refine congrArg (· ++ [x]) (List.flatMap_congr fun y hy => ?_)
        have := h y hy
        exact starRests_eq (by omega)
  have hseq : rests (seq (star r) s) x = rests (seq r (seq (star r) s)) x ++ rests s x := by
    change (rests (star r) x).flatMap (rests s) = _
    rw [hturn, List.flatMap_append, List.flatMap_singleton, List.flatMap_assoc]
    rfl
  rw [first, hseq, List.head?_append]
  rfl

/-! ### Runs -/

/-- What a run of letters leaves, when it gives them back one by one. -/
def runRests (p : α → Bool) : List α → List (List α)
  | [] => [[]]
  | a :: x => if p a then runRests p x ++ [a :: x] else [a :: x]

lemma starRests_one {n : ℕ} (h : x.length ≤ n) : starRests (rests (one p)) n x = runRests p x := by
  induction n generalizing x with
  | zero =>
      rw [List.length_eq_zero_iff.mp (Nat.le_zero.mp h)]
      rfl
  | succ n ih =>
      cases x with
      | nil => rfl
      | cons a x =>
          rw [starRests_succ, rests_one_cons, runRests]
          split_ifs with hp
          · have hshorter : [x].filter (fun y => y.length < (a :: x).length) = [x] := by simp
            rw [hshorter, List.flatMap_singleton, ih (Nat.le_of_succ_le_succ h)]
          · rfl

@[simp] lemma rests_star_one : rests (star (one p)) x = runRests p x := starRests_one le_rfl

lemma head?_runRests : (runRests p x).head? = some (x.dropWhile p) := by
  induction x with
  | nil => rfl
  | cons a x ih =>
      rw [runRests, List.dropWhile_cons]
      split_ifs
      · rw [List.head?_append, ih, Option.some_or]
      · rfl

/-- A greedy run takes all letters. -/
@[simp] lemma first_star_one : first (star (one p)) x = some (x.dropWhile p) := by
  rw [first, rests_star_one, head?_runRests]

@[simp] lemma first_plus_one_nil : first (plus (one p)) [] = none := rfl

@[simp] lemma first_plus_one_cons :
    first (plus (one p)) (a :: x) = if p a then some (x.dropWhile p) else none := by
  rw [plus, first_seq_one_cons, first_star_one]

lemma first_seq_plus_one_nil : first (seq (plus (one p)) s) [] = none := rfl

lemma first_seq_plus_one_cons : first (seq (plus (one p)) s) (a :: x) =
    if p a then (runRests p x).findSome? (first s) else none := by
  rw [first_seq, plus, rests_seq, rests_one_cons]
  split_ifs
  · rw [List.flatMap_singleton, rests_star_one]
  · rfl

lemma findSome?_runRests_cons (f : List α → Option (List α)) (ha : p a = true) :
    (runRests p (a :: x)).findSome? f = ((runRests p x).findSome? f).or (f (a :: x)) := by
  rw [runRests, if_pos ha, List.findSome?_append, List.findSome?_singleton]

/-- `f` fails after all that a run can give back. -/
lemma findSome?_runRests_none {f : List α → Option (List α)} {run rest : List α}
    (hrun : ∀ b ∈ run, p b = true) (hrest : ∀ b ∈ rest.head?, p b = false)
    (hfail : ∀ y, y <:+ run → f (y ++ rest) = none) :
    (runRests p (run ++ rest)).findSome? f = none := by
  induction run with
  | nil =>
      have hlast : runRests p rest = [rest] := by
        cases rest with
        | nil => rfl
        | cons b rest => rw [runRests, hrest b rfl, if_neg Bool.false_ne_true]
      rw [List.nil_append, hlast, List.findSome?_singleton]
      exact hfail [] (List.suffix_refl _)
  | cons b run ih =>
      obtain ⟨hb, hrun⟩ := List.forall_mem_cons.mp hrun
      rw [List.cons_append, findSome?_runRests_cons f hb,
        ih hrun fun y hy => hfail y (hy.trans (List.suffix_cons b run)), Option.none_or]
      exact hfail _ (List.suffix_refl _)

/-- Where `f` succeeds behind the whole run, nothing is given back. -/
lemma findSome?_runRests_dropWhile {f : List α → Option (List α)} {z : List α}
    (hf : f (x.dropWhile p) = some z) : (runRests p x).findSome? f = some z := by
  have hhead := head?_runRests (p := p) (x := x)
  cases hrests : runRests p x with
  | nil => simp [hrests] at hhead
  | cons y ys =>
      obtain rfl : y = x.dropWhile p := by simpa [hrests] using hhead
      rw [List.findSome?_cons, hf]

/-- A run is given back up to where `f` succeeds first. -/
lemma findSome?_runRests {f : List α → Option (List α)} {before after rest z : List α}
    (hbefore : ∀ b ∈ before, p b = true) (ha : p a = true) (hafter : ∀ b ∈ after, p b = true)
    (hrest : ∀ b ∈ rest.head?, p b = false) (hfail : ∀ y, y <:+ after → f (y ++ rest) = none)
    (hf : f (a :: after ++ rest) = some z) :
    (runRests p (before ++ (a :: after ++ rest))).findSome? f = some z := by
  induction before with
  | nil =>
      rw [List.nil_append, List.cons_append, findSome?_runRests_cons f ha,
        findSome?_runRests_none hafter hrest hfail, Option.none_or, ← List.cons_append, hf]
  | cons b before ih =>
      obtain ⟨hb, hbefore⟩ := List.forall_mem_cons.mp hbefore
      rw [List.cons_append, findSome?_runRests_cons f hb, ih hbefore, Option.some_or]

/-! ### Segmentation -/

/-- A match is at the front of the text. -/
lemma suffix_of_mem_rests (r : Regex α) (x : List α) : ∀ y ∈ rests r x, y <:+ x := by
  induction r generalizing x with
  | empty => simp [rests_empty]
  | one p =>
      cases x with
      | nil => simp [rests_one_nil]
      | cons a x =>
          rw [rests_one_cons]
          split_ifs
          · simp
          · simp
  | seq r s ihr ihs =>
      intro y hy
      obtain ⟨z, hz, hy⟩ := List.mem_flatMap.mp hy
      exact (ihs z y hy).trans (ihr x z hz)
  | alt r s ihr ihs => exact fun y hy => (List.mem_append.mp hy).elim (ihr x y) (ihs x y)
  | star r ih =>
      have hturns : ∀ n x, ∀ y ∈ starRests (rests r) n x, y <:+ x := by
        intro n
        induction n with
        | zero => simp [starRests]
        | succ n ihn =>
            intro x y hy
            rw [starRests_succ, List.mem_append, List.mem_flatMap, List.mem_singleton] at hy
            obtain ⟨z, hz, hy⟩ | rfl := hy
            · exact (ihn z y hy).trans (ih x z (List.mem_of_mem_filter hz))
            · exact List.suffix_refl y
      exact hturns x.length x
  | atomic r ih => exact fun y hy => ih x y (List.mem_of_mem_take hy)
  | notAhead r ih =>
      rw [rests_notAhead]
      split_ifs
      · simp
      · simp
  | atEnd =>
      rw [rests_atEnd]
      split_ifs
      · simp
      · simp

/-- What begins with a letter takes something. -/
lemma length_lt_of_mem_rests (h : y ∈ rests (seq (one p) s) x) : y.length < x.length := by
  obtain ⟨z, hz, hy⟩ := List.mem_flatMap.mp h
  cases x with
  | nil => cases hz
  | cons a x =>
      rw [rests_one_cons] at hz
      split_ifs at hz
      · obtain rfl := List.mem_singleton.mp hz
        exact Nat.lt_succ_of_le (suffix_of_mem_rests s z y hy).length_le
      · cases hz

lemma suffix_of_first (h : first r x = some y) : y <:+ x :=
  suffix_of_mem_rests r x y (List.mem_of_head? h)

/-- The text is cut in matches: each one is the first match at the end of the one before. -/
inductive Segments (r : Regex α) : List α → List (List α) → Prop
  | nil : Segments r [] []
  | cons {piece rest : List α} {pieces : List (List α)} (hpiece : piece ≠ [])
      (hmatch : first r (piece ++ rest) = some rest) (h : Segments r rest pieces) :
      Segments r (piece ++ rest) (piece :: pieces)

lemma Segments.flatten {pieces : List (List α)} (h : Segments r x pieces) : pieces.flatten = x := by
  induction h with
  | nil => rfl
  | cons hpiece hmatch h ih => rw [List.flatten_cons, ih]

lemma Segments.ne_nil {pieces : List (List α)} (h : Segments r x pieces) :
    ∀ piece ∈ pieces, piece ≠ [] := by
  induction h with
  | nil => exact List.forall_mem_nil _
  | cons hpiece hmatch h ih => exact List.forall_mem_cons.mpr ⟨hpiece, ih⟩

lemma Segments.exists_rest {piece : List α} {pieces : List (List α)}
    (h : Segments r x (piece :: pieces)) :
    ∃ rest, x = piece ++ rest ∧ piece ≠ [] ∧ first r x = some rest ∧ Segments r rest pieces := by
  cases h with
  | cons hpiece hmatch h => exact ⟨_, rfl, hpiece, hmatch, h⟩

/-- There is only one segmentation. -/
theorem Segments.unique {pieces pieces' : List (List α)} (h : Segments r x pieces)
    (h' : Segments r x pieces') : pieces = pieces' := by
  induction h generalizing pieces' with
  | nil =>
      cases pieces' with
      | nil => rfl
      | cons piece' pieces' =>
          obtain ⟨rest, hx, hne, -, -⟩ := h'.exists_rest
          exact absurd (List.append_eq_nil_iff.mp hx.symm).1 hne
  | @cons piece rest pieces hpiece hmatch h ih =>
      cases pieces' with
      | nil => exact absurd (List.append_eq_nil_iff.mp h'.flatten.symm).1 hpiece
      | cons piece' pieces' =>
          obtain ⟨rest', hx, -, hmatch', hrest'⟩ := h'.exists_rest
          obtain rfl := Option.some_inj.mp (hmatch.symm.trans hmatch')
          rw [List.append_cancel_right hx, ih hrest']

end Regex

end Machine
