import Hypertok.Machine.Boundary
import Hypertok.Pretokenize.O200kFamily

/-!
The two splits of Cohere Command: at `\d{1,3}(?=(?:\d{3})*\b)`, and then the scheme o200k in each of
the pieces.

* `first_groupMatcher`: the boundary is behind a digit, so it is seen ahead.
* `first_group`: of the digits up to a boundary, the first match leaves a multiple of three.
* `split_digits`, `split_gap`: the pieces of the first split.
-/

namespace Hypertok

open Machine Regex

/-- `CommandCharClass`. -/
inductive CommandCharClass
  | other
  | word
  | decimal
  deriving DecidableEq

/-- The classes of ASCII. -/
def asciiCommandClass (cp : ℕ) : CommandCharClass :=
  if 48 ≤ cp ∧ cp ≤ 57 then .decimal
  else if 65 ≤ cp ∧ cp ≤ 90 ∨ 97 ≤ cp ∧ cp ≤ 122 ∨ cp = 95 then .word
  else .other

/-- `command_class_of`, besides `o200k_class_of`: a classification of the codepoints that agrees
with ASCII. The decimals are numbers, as both tables are generated from the general categories. -/
structure CommandTable extends O200kTable where
  commandClassOf : ℕ → CommandCharClass
  commandAscii : ∀ cp < 0x80, commandClassOf cp = asciiCommandClass cp
  decimal : ∀ cp, commandClassOf cp = .decimal → classOf cp = .number

namespace CohereCommand

variable (table : CommandTable)

/-! ### The splits -/

/-- `\d`. -/
def isDecimal (c : Char) : Bool := table.commandClassOf c.toNat = .decimal

/-- `\w`. -/
def isWord (c : Char) : Bool := table.commandClassOf c.toNat ≠ .other

/-- `\d{1,3}`. -/
def upToThree : Regex Char := seq (one (isDecimal table)) (atMost (one (isDecimal table)) 2)

/-- `\d{3}`. -/
def three : Regex Char :=
  seq (one (isDecimal table)) (seq (one (isDecimal table)) (one (isDecimal table)))

/-- `\d{1,3}(?=(?:\d{3})*\b)`. -/
def groupMatcher : Matcher Char :=
  .seq (.ofRegex (upToThree table))
    (.ahead (.seq (.ofRegex (star (three table))) (.boundary (isWord table))))

/-- The second regex. -/
def o200kRegex : Regex Char := O200kFamily.regex table.toO200kTable O200kFamily.o200k

/-- The tokens: the matches of the second regex in each piece of the first split. -/
def Tokens (t : List Char) (tokens : List (List Char)) : Prop :=
  ∃ parts, List.Forall₂ (Segments (o200kRegex table)) ((groupMatcher table).split t) parts ∧
    tokens = parts.flatten

/-! ### The boundary -/

/-- `\d{1,3}(?=(?:\d{3})*(?!\w))`. -/
def group : Regex Char :=
  seq (upToThree table) (ahead (seq (star (three table)) (notAhead (one (isWord table)))))

variable {table} {c : Char} {t u x : List Char}

lemma isWord_of_isDecimal (h : isDecimal table c = true) : isWord table c = true := by
  have hcls : table.commandClassOf c.toNat = .decimal := of_decide_eq_true h
  rw [isWord, hcls]
  rfl

/-- Behind digits is a word. -/
lemma any_getLast?_digits {before piece : List Char} (hne : piece ≠ [])
    (h : ∀ c ∈ piece, isDecimal table c = true) :
    (before ++ piece).getLast?.any (isWord table) = true := by
  rw [List.getLast?_append_of_ne_nil _ hne, List.getLast?_eq_some_getLast hne, Option.any_some]
  exact isWord_of_isDecimal (h _ (List.getLast_mem hne))

/-- The boundary is behind a digit, so it is seen ahead. -/
lemma first_groupMatcher (table : CommandTable) (before x : List Char) :
    (groupMatcher table).first before x = first (group table) x := by
  have hfirst : Over (isDecimal table) (upToThree table) :=
    ⟨fun _ => id, ⟨⟨fun _ => id, ⟨fun _ => id, trivial⟩, trivial⟩, trivial⟩⟩
  have hthrees : Over (isDecimal table) (star (three table)) :=
    ⟨fun _ => id, fun _ => id, fun _ => id⟩
  refine congrArg List.head? (List.flatMap_congr fun y hy => ?_)
  obtain ⟨piece, rfl, hpiece⟩ := exists_of_mem_rests hfirst hy
  have hne : piece ≠ [] := by
    rintro rfl
    exact absurd (length_lt_of_mem_rests hy) (Nat.lt_irrefl _)
  have htake : (piece ++ y).take ((piece ++ y).length - y.length) = piece := by
    refine List.take_left' ?_
    rw [List.length_append]
    omega
  have hseq : Matcher.seq (.ofRegex (star (three table))) (.boundary (isWord table))
      (before ++ piece) y =
        rests (seq (star (three table)) (notAhead (one (isWord table)))) y := by
    refine List.flatMap_congr fun z hz => ?_
    obtain ⟨piece', rfl, hpiece'⟩ := exists_of_mem_rests hthrees hz
    have htake' : (piece' ++ z).take ((piece' ++ z).length - z.length) = piece' := by
      refine List.take_left' ?_
      rw [List.length_append]
      omega
    rw [htake', List.append_assoc]
    exact boundary_of_word (any_getLast?_digits (List.append_ne_nil_of_left_ne_nil hne piece')
      (List.forall_mem_append.mpr ⟨hpiece, hpiece'⟩))
  rw [htake, rests_ahead, Matcher.ahead, hseq]

/-! ### The groups -/

/-- The number of digits at the front. -/
def runLength (table : CommandTable) (x : List Char) : ℕ := (x.takeWhile (isDecimal table)).length

/-- A boundary is behind the digits at the front. -/
def bounded (table : CommandTable) (x : List Char) : Bool :=
  !(x.dropWhile (isDecimal table)).head?.any (isWord table)

/-- The length of the first group of `n` digits. -/
def groupLength (n : ℕ) : ℕ := if n % 3 = 0 then 3 else n % 3

lemma runLength_of_neg (h : isDecimal table c = false) : runLength table (c :: t) = 0 := by
  rw [runLength, List.takeWhile_cons_of_neg (by rw [h]; exact Bool.false_ne_true), List.length_nil]

lemma runLength_cons (h : isDecimal table c = true) :
    runLength table (c :: t) = runLength table t + 1 := by
  rw [runLength, List.takeWhile_cons_of_pos h, List.length_cons, runLength]

lemma bounded_cons (h : isDecimal table c = true) :
    bounded table (c :: t) = bounded table t := by
  rw [bounded, List.dropWhile_cons_of_pos h, bounded]

lemma length_lt_of_mem_three {y : List Char} (h : y ∈ rests (three table) x) :
    y.length < x.length := length_lt_of_mem_rests h

/-- What may follow the groups of three. -/
lemma first_threes (table : CommandTable) (x : List Char) :
    first (seq (star (three table)) (notAhead (one (isWord table)))) x = none ↔
      ¬ (runLength table x % 3 = 0 ∧ bounded table x = true) := by
  have hend : ∀ c t, first (notAhead (one (isWord table))) (c :: t) =
      if isWord table c then none else some (c :: t) := by
    intro c t
    rw [first_notAhead, first_one_cons]
    cases isWord table c <;> rfl
  induction hn : x.length using Nat.strong_induction_on generalizing x with
  | _ n ih =>
      subst hn
      rw [first_seq_star fun y => length_lt_of_mem_three, three, first_seq_seq]
      cases x with
      | nil => simp [runLength, bounded]
      | cons c x =>
          rw [first_seq_one_cons, hend]
          cases hc : isDecimal table c with
          | false =>
              have hbounded : bounded table (c :: x) = !isWord table c := by
                rw [bounded, List.dropWhile_cons_of_neg (by rw [hc]; exact Bool.false_ne_true)]
                rfl
              rw [runLength_of_neg hc, hbounded, if_neg Bool.false_ne_true, Option.none_or]
              cases isWord table c <;> simp
          | true =>
              rw [isWord_of_isDecimal hc, if_pos rfl, if_pos rfl, Option.or_none, runLength_cons hc,
                bounded_cons hc, first_seq_seq]
              cases x with
              | nil => simp [runLength]
              | cons d x =>
                  rw [first_seq_one_cons]
                  cases hd : isDecimal table d with
                  | false => simp [runLength_of_neg hd]
                  | true =>
                      rw [if_pos rfl, runLength_cons hd, bounded_cons hd]
                      cases x with
                      | nil => simp [runLength]
                      | cons e x =>
                          rw [first_seq_one_cons]
                          cases he : isDecimal table e with
                          | false => simp [runLength_of_neg he]
                          | true =>
                              have hmod : (runLength table x + 1 + 1 + 1) % 3 =
                                  runLength table x % 3 := by omega
                              rw [if_pos rfl, runLength_cons he, bounded_cons he, hmod]
                              exact ih x.length (by simp only [List.length_cons]; omega) x rfl

lemma first_group_of_neg (h : isDecimal table c = false) :
    first (group table) (c :: t) = none := by
  rw [group, upToThree, first_seq_seq, first_seq_one_cons, h, if_neg Bool.false_ne_true]

/-- Of the digits before a boundary, the first match leaves a multiple of three. -/
lemma first_group (h : isDecimal table c = true) :
    first (group table) (c :: t) = if bounded table (c :: t) then
      some ((c :: t).drop (groupLength (runLength table (c :: t)))) else none := by
  have hahead : ∀ x, first (ahead (seq (star (three table)) (notAhead (one (isWord table))))) x =
      if runLength table x % 3 = 0 ∧ bounded table x = true then some x else none := by
    intro x
    rw [Regex.first_ahead]
    by_cases hx : runLength table x % 3 = 0 ∧ bounded table x = true
    · rw [if_pos hx, if_neg fun hnone => (first_threes table x).mp hnone hx]
    · rw [if_neg hx, if_pos ((first_threes table x).mpr hx)]
  rw [group, upToThree, first_seq_seq, first_seq_one_cons, if_pos h, atMost, first_seq_opt,
    first_seq_seq, hahead, runLength_cons h, bounded_cons h]
  cases t with
  | nil => simp [runLength, bounded, groupLength]
  | cons d t =>
      rw [first_seq_one_cons]
      cases hd : isDecimal table d with
      | false =>
          rw [runLength_of_neg hd]
          cases bounded table (d :: t) <;> simp [groupLength]
      | true =>
          rw [if_pos rfl, atMost, first_seq_opt, first_seq_seq, hahead, runLength_cons hd,
            bounded_cons hd]
          cases t with
          | nil => simp [runLength, bounded, groupLength]
          | cons e t =>
              rw [first_seq_one_cons]
              cases he : isDecimal table e with
              | false =>
                  rw [runLength_of_neg he]
                  cases bounded table (e :: t) <;> simp [groupLength]
              | true =>
                  rw [if_pos rfl, atMost, first_seq_empty, hahead, runLength_cons he,
                    bounded_cons he]
                  have hmod : runLength table t % 3 = 0 ∨ runLength table t % 3 = 1 ∨
                      runLength table t % 3 = 2 := by omega
                  cases bounded table t with
                  | false => simp
                  | true =>
                      rw [groupLength]
                      generalize runLength table t = n at hmod
                      obtain hmod | hmod | hmod := hmod
                      · have hthree : (n + 1 + 1 + 1) % 3 = 0 := by omega
                        simp [hmod, hthree]
                      · have hone : (n + 1) % 3 = 2 := by omega
                        have htwo : (n + 1 + 1) % 3 = 0 := by omega
                        have hthree : (n + 1 + 1 + 1) % 3 = 1 := by omega
                        simp [hmod, hone, htwo, hthree]
                      · have hone : (n + 1) % 3 = 0 := by omega
                        have hthree : (n + 1 + 1 + 1) % 3 = 2 := by omega
                        simp [hmod, hone, hthree]

/-! ### The pieces -/

lemma groupLength_pos (n : ℕ) : 0 < groupLength n := by
  rw [groupLength]
  split_ifs <;> omega

lemma groupLength_le {n : ℕ} (hn : 0 < n) : groupLength n ≤ n ∧ groupLength n ≤ 3 := by
  rw [groupLength]
  split_ifs <;> omega

/-- Behind the first group, the groups have three digits. -/
lemma groupLength_sub {n : ℕ} (hn : 0 < n) : groupLength (n - groupLength n) = 3 := by
  have hmod : (n - groupLength n) % 3 = 0 := by
    rw [groupLength]
    split_ifs <;> omega
  rw [groupLength, if_pos hmod]

variable {front run rest : List Char}

/-- Digits up to a word are a gap. -/
lemma gap_unbounded (hrun : ∀ c ∈ run, isDecimal table c = true)
    (hrest : ∀ c ∈ rest.head?, isDecimal table c = false)
    (hword : rest.head?.any (isWord table) = true) : Gap (group table) run rest := by
  intro y hy hne
  obtain ⟨c, y, rfl⟩ := List.exists_cons_of_ne_nil hne
  have hy' : ∀ d ∈ c :: y, isDecimal table d = true := fun d hd => hrun d (hy.subset hd)
  have hbounded : bounded table ((c :: y) ++ rest) = false := by
    rw [bounded, List.dropWhile_append_of_pos hy', dropWhile_eq_self hrest, hword]
    rfl
  rw [List.cons_append] at hbounded ⊢
  rw [first_group (hy' c List.mem_cons_self), hbounded, if_neg Bool.false_ne_true]

section

variable (hrun : ∀ c ∈ run, isDecimal table c = true)
  (hrest : ∀ c ∈ rest.head?, isWord table c = false)
include hrun hrest

/-- Digits up to a boundary are cut in groups. -/
lemma first_digits (hne : run ≠ []) :
    first (group table) (run ++ rest) = some (run.drop (groupLength run.length) ++ rest) := by
  have hstop : ∀ c ∈ rest.head?, isDecimal table c = false := fun c hc =>
    Bool.eq_false_iff.mpr fun hd => by
      have hword := isWord_of_isDecimal hd
      rw [hrest c hc] at hword
      cases hword
  have hbounded : bounded table (run ++ rest) = true := by
    rw [bounded, List.dropWhile_append_of_pos hrun, dropWhile_eq_self hstop]
    cases rest with
    | nil => rfl
    | cons c rest =>
        rw [List.head?_cons, Option.any_some, hrest c rfl]
        rfl
  have hlength : runLength table (run ++ rest) = run.length := by
    rw [runLength, List.takeWhile_append_of_pos hrun, List.length_append]
    cases rest with
    | nil => rfl
    | cons c rest =>
        rw [List.takeWhile_cons_of_neg (by rw [hstop c rfl]; exact Bool.false_ne_true),
          List.length_nil, Nat.add_zero]
  have hle := (groupLength_le (List.length_pos_of_ne_nil hne)).1
  obtain ⟨c, run', rfl⟩ := List.exists_cons_of_ne_nil hne
  rw [List.cons_append] at hbounded hlength ⊢
  rw [first_group (hrun c List.mem_cons_self), hbounded, if_pos rfl, hlength, ← List.cons_append,
    List.drop_append_of_le_length hle]

lemma split_digits (hne : run ≠ []) : split (group table) (run ++ rest) =
    run.take (groupLength run.length) ::
      split (group table) (run.drop (groupLength run.length) ++ rest) := by
  have hfirst := first_digits hrun hrest hne
  have hpiece : run.take (groupLength run.length) ≠ [] := by
    have := groupLength_pos run.length
    have := List.length_pos_of_ne_nil hne
    rw [← List.length_pos_iff_ne_nil, List.length_take]
    omega
  have hsplit : run ++ rest = run.take (groupLength run.length) ++
      (run.drop (groupLength run.length) ++ rest) := by
    rw [← List.append_assoc, List.take_append_drop]
  rw [hsplit] at hfirst
  have hisolate := @isolate_of_first _ _ [] _ _ hpiece hfirst
  rw [← hsplit] at hisolate
  exact hisolate

/-- A gap is a piece, in front of digits up to a boundary or at the end. -/
lemma split_gap (hfront : front ≠ []) (hgap : Gap (group table) front (run ++ rest))
    (hend : run = [] → rest = []) :
    split (group table) (front ++ (run ++ rest)) = front :: split (group table) (run ++ rest) := by
  refine split_of_gap hfront hgap fun c t hct => ?_
  have hne : run ≠ [] := by
    rintro rfl
    rw [hend rfl] at hct
    cases hct
  refine ⟨_, hct ▸ first_digits hrun hrest hne, ?_⟩
  have hlen := congrArg List.length hct
  have := groupLength_pos run.length
  have := List.length_pos_of_ne_nil hne
  rw [List.length_cons, List.length_append] at hlen
  rw [List.length_append, List.length_drop]
  omega

end

/-! ### The tokens -/

/-- A group of digits is one match of the second regex. -/
lemma segments_digits (hne : run ≠ []) (hlen : run.length ≤ 3)
    (hrun : ∀ c ∈ run, isDecimal table c = true) : Segments (o200kRegex table) run [run] := by
  have hnumber : ∀ c ∈ run, table.classOf c.toNat = .number := fun c hc =>
    table.decimal _ (of_decide_eq_true (hrun c hc))
  have hbase : ∀ c ∈ run, table.base.isA .number c = true := fun c hc => by
    rw [O200kTable.isA_base, hnumber c hc]
    rfl
  have hdrop : ∀ (n : ℕ) (t : List Char), t.length ≤ n →
      (∀ c ∈ t, table.base.isA .number c = true) → dropNumbers table.base n t = [] := by
    intro n
    induction n with
    | zero =>
        intro t ht _
        rw [List.length_eq_zero_iff.mp (Nat.le_zero.mp ht)]
        rfl
    | succ n ih =>
        intro t ht hall
        cases t with
        | nil => rfl
        | cons c t =>
            obtain ⟨hc, hall⟩ := List.forall_mem_cons.mp hall
            rw [dropNumbers, if_pos hc]
            exact ih t (Nat.le_of_succ_le_succ ht) hall
  obtain ⟨c, t, rfl⟩ := List.exists_cons_of_ne_nil hne
  have hhan : table.isHanChar O200kFamily.o200k.han c = false := rfl
  have hword : O200kFamily.wordRest table.toO200kTable O200kFamily.o200k c t = none := by
    have hrunClass : O200kFamily.runClass table.toO200kTable O200kFamily.o200k.han c = none := by
      rw [O200kFamily.runClass_of_not_han hhan, hnumber c List.mem_cons_self]
    rw [O200kFamily.wordRest, hrunClass]
    dsimp only
    rw [hbase c List.mem_cons_self, Bool.or_true, if_pos rfl]
  have hrest : O200kFamily.numberRest table.toO200kTable O200kFamily.o200k t = [] := by
    rw [O200kFamily.numberRest, if_pos (by rfl)]
    exact hdrop 2 t (Nat.le_of_succ_le_succ hlen) fun d hd => hbase d (.tail _ hd)
  have hfirst : first (o200kRegex table) (c :: t) = some [] := by
    rw [o200kRegex, O200kFamily.first_regex hhan, hword, hbase c List.mem_cons_self, if_pos rfl,
      hrest]
    rfl
  have hsegments := Segments.cons (r := o200kRegex table) (List.cons_ne_nil c t)
    (by rw [List.append_nil]; exact hfirst) .nil
  rwa [List.append_nil] at hsegments

lemma tokens_iff {tokens : List (List Char)} : Tokens table t tokens ↔
    ∃ parts, List.Forall₂ (Segments (o200kRegex table)) (split (group table) t) parts ∧
      tokens = parts.flatten := by
  rw [Tokens, Matcher.split_eq (first_groupMatcher table)]

lemma tokens_nil (table : CommandTable) : Tokens table [] [] := by
  rw [tokens_iff, split_nil]
  exact ⟨[], .nil, rfl⟩

/-- The tokens of a gap, and of what follows it. -/
lemma tokens_gap {pieces tokens : List (List Char)} (hgap : Gap (group table) front (run ++ rest))
    (hrun : ∀ c ∈ run, isDecimal table c = true) (hrest : ∀ c ∈ rest.head?, isWord table c = false)
    (hend : run = [] → rest = []) (hpieces : Segments (o200kRegex table) front pieces)
    (h : Tokens table (run ++ rest) tokens) :
    Tokens table (front ++ (run ++ rest)) (pieces ++ tokens) := by
  by_cases hfront : front = []
  · subst hfront
    obtain rfl := hpieces.unique .nil
    exact h
  · obtain ⟨parts, hparts, rfl⟩ := tokens_iff.mp h
    refine tokens_iff.mpr ⟨pieces :: parts, ?_, rfl⟩
    rw [split_gap hrun hrest hfront hgap hend]
    exact .cons hpieces hparts

/-- A group of digits is a token. -/
lemma tokens_digits {tokens : List (List Char)} (hne : run ≠ [])
    (hrun : ∀ c ∈ run, isDecimal table c = true) (hrest : ∀ c ∈ rest.head?, isWord table c = false)
    (h : Tokens table (run.drop (groupLength run.length) ++ rest) tokens) :
    Tokens table (run ++ rest) (run.take (groupLength run.length) :: tokens) := by
  obtain ⟨parts, hparts, rfl⟩ := tokens_iff.mp h
  refine tokens_iff.mpr ⟨[run.take (groupLength run.length)] :: parts, ?_, rfl⟩
  have hlen := groupLength_le (List.length_pos_of_ne_nil hne)
  have hpos := groupLength_pos run.length
  rw [split_digits hrun hrest hne]
  refine .cons (segments_digits ?_ ?_ fun c hc => hrun c (List.mem_of_mem_take hc)) hparts
  · rw [← List.length_pos_iff_ne_nil, List.length_take]
    omega
  · rw [List.length_take]
    omega

/-- The tokens are the text, and none is empty. -/
lemma Tokens.flatten {tokens : List (List Char)} (h : Tokens table t tokens) :
    tokens.flatten = t ∧ ∀ token ∈ tokens, token ≠ [] := by
  obtain ⟨parts, hparts, rfl⟩ := tokens_iff.mp h
  have hall : ∀ {pieces : List (List Char)} {parts : List (List (List Char))},
      List.Forall₂ (Segments (o200kRegex table)) pieces parts →
        parts.flatten.flatten = pieces.flatten ∧ ∀ token ∈ parts.flatten, token ≠ [] := by
    intro pieces parts hparts
    induction hparts with
    | nil => exact ⟨rfl, List.forall_mem_nil _⟩
    | cons hpiece _ ih =>
        refine ⟨?_, ?_⟩
        · rw [List.flatten_cons, List.flatten_append, hpiece.flatten, ih.1, List.flatten_cons]
        · rw [List.flatten_cons]
          exact List.forall_mem_append.mpr ⟨hpiece.ne_nil, ih.2⟩
  obtain ⟨hflatten, hne⟩ := hall hparts
  exact ⟨hflatten.trans (flatten_split _ _), hne⟩

end CohereCommand

end Hypertok
