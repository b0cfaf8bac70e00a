import Hypertok.Pretokenize.CohereSplits

/-!
The scanner of `cohere_command.rs`. It looks for the next run of digits that ends at a boundary, reads
what is before it with the scanner of o200k, and cuts the run in groups of three from its end.

* `findNextDigitRun_at`: what it passes over is a gap of the first split.
* `collect_at`: from any state, the tokens that follow.
* `spans_tokens`: the tokens of a text.
-/

namespace Hypertok

open Machine Regex

namespace CohereCommand

variable (table : CommandTable)

/-! ### The scanner -/

/-- `DigitRun`. -/
structure DigitRun where
  start : ℕ
  stop : ℕ
  firstGroupChars : ℕ

/-- `FastO200kPretokenizer`, of the bytes from `base` on. -/
structure O200kScanner where
  base : ℕ
  bytes : List UInt8
  pos : ℕ

/-- `FastCohereCommandPretokenizer`, without its bytes. -/
structure Scanner where
  o200k : Option O200kScanner
  run : Option DigitRun
  runCursor : ℕ
  nextGroupChars : ℕ

/-- `scalar_class`. -/
def scalarClass (bytes : List UInt8) (pos : ℕ) : Option (CommandCharClass × ℕ) := do
  let byte ← bytes[pos]?
  if byte < 0x80 then
    return (if isDigit byte then .decimal
      else if isLetter byte || byte = 95 then .word
      else .other, 1)
  else
    let (cp, len) ← decodeCp bytes pos
    return (table.commandClassOf cp, len)

/-- The inner loop of `find_next_digit_run`. -/
def digitStep (bytes : List UInt8) : ℕ × ℕ → Option ((ℕ × ℕ) ⊕ (ℕ × ℕ))
  | (pos, chars) =>
      if pos < bytes.length then do
        let (cls, len) ← scalarClass table bytes pos
        return if cls ≠ .decimal then .inr (pos, chars) else .inl (pos + len, chars + 1)
      else some (.inr (pos, chars))

/-- `ends_at_word_boundary`. -/
def endsAtWordBoundary (bytes : List UInt8) (pos : ℕ) : Option Bool :=
  if pos = bytes.length then some true
  else do
    let (cls, _) ← scalarClass table bytes pos
    return cls = .other

/-- A turn of `find_next_digit_run` at a digit. -/
def digitRun (bytes : List UInt8) (start : ℕ) : Option (ℕ ⊕ Option DigitRun) := do
  let (stop, chars) ← loop (digitStep table bytes) (bytes.length + 1) (start, 0)
  let boundary ← endsAtWordBoundary table bytes stop
  return if boundary then
      .inr (some ⟨start, stop, if chars % 3 = 0 then 3 else chars % 3⟩)
    else .inl stop

/-- The outer loop of `find_next_digit_run`. -/
def runStep (bytes : List UInt8) (pos : ℕ) : Option (ℕ ⊕ Option DigitRun) :=
  if pos < bytes.length then do
    let (cls, len) ← scalarClass table bytes pos
    if cls ≠ .decimal then return .inl (pos + len)
    else digitRun table bytes pos
  else some (.inr none)

/-- `find_next_digit_run`. -/
def findNextDigitRun (bytes : List UInt8) (pos : ℕ) : Option (Option DigitRun) :=
  loop (runStep table bytes) (bytes.length + 1) pos

/-- `advance_decimal_chars`, with its assertion. -/
def advanceDecimalChars (bytes : List UInt8) (pos : ℕ) : ℕ → Option ℕ
  | 0 => some pos
  | count + 1 => do
      let (cls, len) ← scalarClass table bytes pos
      if cls = .decimal then advanceDecimalChars bytes (pos + len) count else none

/-- `reset_at`. -/
def resetAt (bytes : List UInt8) (pos : ℕ) : Option Scanner := do
  let run ← findNextDigitRun table bytes pos
  let ordinaryEnd := (run.map DigitRun.start).getD bytes.length
  return {
    o200k := if pos < ordinaryEnd then some ⟨pos, (bytes.take ordinaryEnd).drop pos, 0⟩ else none
    run
    runCursor := ordinaryEnd
    nextGroupChars := (run.map DigitRun.firstGroupChars).getD 0 }

/-- `next`, of a run of digits, with its assertion. -/
def nextGroup (bytes : List UInt8) (st : Scanner) (run : DigitRun) :
    Option (Option (ℕ × ℕ) × Scanner) := do
  let stop ← advanceDecimalChars table bytes st.runCursor st.nextGroupChars
  if run.stop < stop then none
  else if stop = run.stop then do
    let st' ← resetAt table bytes stop
    return (some (st.runCursor, stop), st')
  else return (some (st.runCursor, stop), { st with runCursor := stop, nextGroupChars := 3 })

/-- `next`, behind the ordinary text. -/
def nextRun (bytes : List UInt8) (st : Scanner) : Option (Option (ℕ × ℕ) × Scanner) :=
  match st.run with
  | none => some (none, st)
  | some run => nextGroup table bytes st run

/-- `next`: where the token starts and where it ends. -/
def next (bytes : List UInt8) (st : Scanner) : Option (Option (ℕ × ℕ) × Scanner) :=
  match st.o200k with
  | none => nextRun table bytes st
  | some o =>
      if o.pos < o.bytes.length then do
        let stop ← O200kFamily.advancePos table.toO200kTable O200kFamily.o200k o.bytes o.pos
        return (some (o.base + o.pos, o.base + stop),
          { st with o200k := some { o with pos := stop } })
      else nextRun table bytes { st with o200k := none }

/-- The tokens up to the end of the iterator, `n` calls of `next` at most. -/
def collect (bytes : List UInt8) : ℕ → Scanner → Option (List (ℕ × ℕ))
  | 0, _ => none
  | n + 1, st => do
      match ← next table bytes st with
      | (none, _) => return []
      | (some token, st) => return token :: (← collect bytes n st)

/-- The tokens of a new scanner. -/
def tokenSpans (bytes : List UInt8) : Option (List (ℕ × ℕ)) := do
  collect table bytes (bytes.length + 1) (← resetAt table bytes 0)

/-- The spans of pieces that follow each other. -/
def spans : ℕ → List (List Char) → List (ℕ × ℕ)
  | _, [] => []
  | pos, piece :: pieces =>
      (pos, pos + (textBytes piece).length) :: spans (pos + (textBytes piece).length) pieces

/-! ### The search for digits -/

variable {table} {bytes : List UInt8} {pos : ℕ} {c : Char} {t u front run rest : List Char}

/-- The class of a character. -/
lemma scalarClass_at (table : CommandTable) (h : At bytes pos (c :: t)) :
    ∃ l, scalarClass table bytes pos = some (table.commandClassOf c.toNat, l) ∧
      At bytes (pos + l) t := by
  by_cases hc : c.toNat < 0x80
  · obtain ⟨hget, hnext⟩ := h.ascii hc
    refine ⟨1, ?_, hnext⟩
    have hall : ∀ cp < 0x80, (if isDigit (UInt8.ofNat cp) then CommandCharClass.decimal
        else if isLetter (UInt8.ofNat cp) || UInt8.ofNat cp = 95 then .word else .other) =
          asciiCommandClass cp := by decide +kernel
    rw [scalarClass, hget, Option.bind_eq_bind, Option.bind_some,
      if_pos (UInt8.not_le.mp (not_le_ofNat hc)), hall _ hc, table.commandAscii _ hc]
    rfl
  · obtain ⟨⟨b, hget, hge⟩, l, hdecode, hnext⟩ := decodeCp_at h (Nat.not_lt.mp hc)
    refine ⟨l, ?_, hnext⟩
    rw [scalarClass, hget, Option.bind_eq_bind, Option.bind_some,
      if_neg (UInt8.not_lt.mpr hge), hdecode]
    rfl

/-- The inner loop reads the digits. -/
lemma digits_at (table : CommandTable) (h : At bytes pos t) : ∃ q,
    loop (digitStep table bytes) (bytes.length + 1) (pos, 0) = some (q, runLength table t) ∧
      At bytes q (t.dropWhile (isDecimal table)) := by
  have hstep : ∀ m (s : ℕ × ℕ), (∃ u, At bytes s.1 u ∧ u.length = m ∧
        u.dropWhile (isDecimal table) = t.dropWhile (isDecimal table) ∧
          s.2 + runLength table u = runLength table t) →
      (∃ s', digitStep table bytes s = some (.inl s') ∧ ∃ k < m, ∃ u, At bytes s'.1 u ∧
        u.length = k ∧ u.dropWhile (isDecimal table) = t.dropWhile (isDecimal table) ∧
          s'.2 + runLength table u = runLength table t) ∨
      ∃ b, digitStep table bytes s = some (.inr b) ∧ b.2 = runLength table t ∧
        At bytes b.1 (t.dropWhile (isDecimal table)) := by
    rintro m ⟨p, chars⟩ ⟨u, hu, rfl, hdrop, hcount⟩
    dsimp only at hu hcount
    cases u with
    | nil =>
        rw [digitStep, if_neg hu.not_lt]
        exact .inr ⟨_, rfl, hcount, hdrop ▸ hu⟩
    | cons c u =>
        obtain ⟨l, hcls, hnext⟩ := scalarClass_at table hu
        rw [digitStep, if_pos hu.lt, hcls, Option.bind_eq_bind, Option.bind_some]
        dsimp only
        cases hc : isDecimal table c with
        | true =>
            have hcls : table.commandClassOf c.toNat = .decimal := of_decide_eq_true hc
            rw [if_neg (not_not_intro hcls)]
            rw [List.dropWhile_cons_of_pos hc] at hdrop
            rw [runLength_cons hc] at hcount
            refine .inl ⟨_, rfl, u.length, Nat.lt_succ_self _, u, hnext, rfl, hdrop, ?_⟩
            omega
        | false =>
            have hcls : table.commandClassOf c.toNat ≠ .decimal := of_decide_eq_false hc
            rw [if_pos hcls]
            rw [runLength_of_neg hc] at hcount
            refine .inr ⟨_, rfl, hcount, ?_⟩
            rw [← hdrop, List.dropWhile_cons_of_neg (by rw [hc]; exact Bool.false_ne_true)]
            exact hu
  obtain ⟨⟨q, chars⟩, hq, rfl, hat⟩ := loop_eq_some hstep (s := (pos, 0))
    ⟨t, h, rfl, rfl, Nat.zero_add _⟩ (Nat.lt_succ_of_le h.length_le)
  exact ⟨q, hq, hat⟩

/-- The flag at the end of the digits. -/
lemma endsAtWordBoundary_at (table : CommandTable) (h : At bytes pos t) :
    endsAtWordBoundary table bytes pos = some (!t.head?.any (isWord table)) := by
  cases t with
  | nil =>
      have hlen : pos = bytes.length := by
        have := h.length_eq
        rwa [textBytes_nil, List.length_nil, Nat.add_zero] at this
      rw [endsAtWordBoundary, if_pos hlen]
      rfl
  | cons c t =>
      obtain ⟨l, hcls, -⟩ := scalarClass_at table h
      rw [endsAtWordBoundary, if_neg (Nat.ne_of_lt h.lt), hcls, Option.bind_eq_bind,
        Option.bind_some, List.head?_cons, Option.any_some, isWord]
      cases table.commandClassOf c.toNat <;> rfl

/-- The digits up to the next boundary, or the end of the text. -/
structure NextRun (table : CommandTable) (bytes : List UInt8) (found : Option DigitRun)
    (run rest : List Char) : Prop where
  digits : ∀ c ∈ run, isDecimal table c = true
  boundary : ∀ c ∈ rest.head?, isWord table c = false
  found : (found = none ∧ run = [] ∧ rest = []) ∨ (run ≠ [] ∧ ∃ d, found = some d ∧
    At bytes d.start (run ++ rest) ∧ At bytes d.stop rest ∧
      d.firstGroupChars = groupLength run.length)

/-- What the search passes over is a gap. -/
lemma findNextDigitRun_at (table : CommandTable) (h : At bytes pos t) :
    ∃ found front run rest, findNextDigitRun table bytes pos = some found ∧
      t = front ++ (run ++ rest) ∧ Gap (group table) front (run ++ rest) ∧
        NextRun table bytes found run rest := by
  have hstep : ∀ m p, (∃ front u, At bytes p u ∧ u.length = m ∧ t = front ++ u ∧
        Gap (group table) front u) →
      (∃ p', runStep table bytes p = some (.inl p') ∧ ∃ k < m, ∃ front u, At bytes p' u ∧
        u.length = k ∧ t = front ++ u ∧ Gap (group table) front u) ∨
      ∃ found, runStep table bytes p = some (.inr found) ∧ ∃ front run rest,
        t = front ++ (run ++ rest) ∧ Gap (group table) front (run ++ rest) ∧
          NextRun table bytes found run rest := by
    rintro m p ⟨front, u, hu, rfl, rfl, hgap⟩
    cases u with
    | nil =>
        rw [runStep, if_neg hu.not_lt]
        exact .inr ⟨none, rfl, front, [], [], rfl, hgap, List.forall_mem_nil _,
          fun c hc => absurd hc (Option.not_mem_none c), .inl ⟨rfl, rfl, rfl⟩⟩
    | cons c u =>
        obtain ⟨l, hcls, hnext⟩ := scalarClass_at table hu
        rw [runStep, if_pos hu.lt, hcls, Option.bind_eq_bind, Option.bind_some]
        dsimp only
        cases hc : isDecimal table c with
        | false =>
            have hcls : table.commandClassOf c.toNat ≠ .decimal := of_decide_eq_false hc
            rw [if_pos hcls]
            exact .inl ⟨_, rfl, u.length, Nat.lt_succ_self _, front ++ [c], u, hnext, rfl,
              by rw [List.append_assoc, List.singleton_append], hgap.append (gap_singleton (first_group_of_neg hc))⟩
        | true =>
            have hcls : table.commandClassOf c.toNat = .decimal := of_decide_eq_true hc
            obtain ⟨q, hq, hat⟩ := digits_at table hu
            rw [if_neg (not_not_intro hcls), digitRun, hq, Option.bind_eq_bind, Option.bind_some]
            dsimp only
            rw [endsAtWordBoundary_at table hat, Option.bind_eq_bind, Option.bind_some, runLength]
            have hsplit : c :: u = (c :: u).takeWhile (isDecimal table) ++
                (c :: u).dropWhile (isDecimal table) := List.takeWhile_append_dropWhile.symm
            have hdigits : ∀ d ∈ (c :: u).takeWhile (isDecimal table), isDecimal table d = true :=
              fun d hd => List.mem_takeWhile_imp hd
            have hstop : ∀ d ∈ ((c :: u).dropWhile (isDecimal table)).head?,
                isDecimal table d = false := fun d hd => of_mem_head?_dropWhile hd
            have hne : (c :: u).takeWhile (isDecimal table) ≠ [] := by
              rw [List.takeWhile_cons_of_pos hc]
              exact List.cons_ne_nil _ _
            generalize (c :: u).takeWhile (isDecimal table) = run at hsplit hdigits hne
            generalize (c :: u).dropWhile (isDecimal table) = rest at hsplit hstop hat
            rw [hsplit] at hu hgap ⊢
            cases hword : rest.head?.any (isWord table) with
            | true =>
                refine .inl ⟨q, rfl, rest.length, ?_, front ++ run, rest, hat, rfl,
                  (List.append_assoc _ _ _).symm,
                  hgap.append (gap_unbounded hdigits hstop hword)⟩
                have := List.length_pos_of_ne_nil hne
                rw [List.length_append]
                omega
            | false =>
                refine .inr ⟨_, rfl, front, run, rest, rfl, hgap, hdigits, fun d hd => ?_,
                  .inr ⟨hne, _, rfl, hu, hat, rfl⟩⟩
                obtain ⟨rest, rfl⟩ := List.head?_eq_some_iff.mp hd
                exact hword
  obtain ⟨found, hfound, front, run, rest, ht, hgap, hnext⟩ := loop_eq_some hstep
    ⟨[], t, h, rfl, rfl, gap_nil _ _⟩ (Nat.lt_succ_of_le h.length_le)
  exact ⟨found, front, run, rest, hfound, ht, hgap, hnext⟩

/-! ### The states -/

/-- The scanner is in the ordinary text `u`, before the digits `run`. -/
structure Holds (table : CommandTable) (bytes : List UInt8) (st : Scanner)
    (u run rest : List Char) : Prop where
  digits : ∀ c ∈ run, isDecimal table c = true
  boundary : ∀ c ∈ rest.head?, isWord table c = false
  ordinary : (st.o200k = none ∧ u = []) ∨ ∃ o, st.o200k = some o ∧ At o.bytes o.pos u ∧
    At bytes (o.base + o.pos) (u ++ (run ++ rest))
  group : (st.run = none ∧ run = [] ∧ rest = []) ∨ (run ≠ [] ∧ ∃ d, st.run = some d ∧
    At bytes st.runCursor (run ++ rest) ∧ At bytes d.stop rest ∧
      st.nextGroupChars = groupLength run.length)

/-- The tokens that follow. -/
def Yields (table : CommandTable) (u run rest : List Char) (tokens : List (List Char)) : Prop :=
  ∃ pieces tokens', Segments (o200kRegex table) u pieces ∧ Tokens table (run ++ rest) tokens' ∧
    tokens = pieces ++ tokens'

/-- The bytes between two positions. -/
lemma take_drop_at {stop : ℕ} (h : At bytes pos (front ++ t)) (hstop : At bytes stop t) :
    (bytes.take stop).drop pos = textBytes front ∧ stop = pos + (textBytes front).length := by
  have hpos := h.append.pos_eq hstop
  refine ⟨?_, hpos.symm⟩
  rw [List.drop_take, h.drop_eq, textBytes_append, ← hpos, Nat.add_sub_cancel_left,
    List.take_left' rfl]

lemma length_textBytes_pos (hne : t ≠ []) : 0 < (textBytes t).length := by
  obtain ⟨c, t, rfl⟩ := List.exists_cons_of_ne_nil hne
  have := length_utf8EncodeChar_pos c
  rw [textBytes_cons, List.length_append]
  omega

/-- A reset finds the next digits. -/
lemma resetAt_at (table : CommandTable) (h : At bytes pos t) :
    ∃ st front run rest, resetAt table bytes pos = some st ∧ t = front ++ (run ++ rest) ∧
      Holds table bytes st front run rest ∧
        ∀ tokens, Yields table front run rest tokens → Tokens table t tokens := by
  obtain ⟨found, front, run, rest, hfound, rfl, hgap, hnext⟩ := findNextDigitRun_at table h
  have hend : run = [] → rest = [] := by
    rintro rfl
    obtain ⟨-, -, hrest⟩ | ⟨hne, -⟩ := hnext.found
    · exact hrest
    · exact absurd rfl hne
  have hstop : At bytes ((found.map DigitRun.start).getD bytes.length) (run ++ rest) := by
    obtain ⟨rfl, rfl, rfl⟩ | ⟨-, d, rfl, hd, -⟩ := hnext.found
    · refine ⟨le_rfl, ?_⟩
      rw [Option.map_none, Option.getD_none, List.drop_length]
      rfl
    · exact hd
  obtain ⟨hslice, hlen⟩ := take_drop_at h hstop
  refine ⟨_, front, run, rest, by rw [resetAt, hfound]; rfl, rfl, ?_, ?_⟩
  · refine ⟨hnext.digits, hnext.boundary, ?_, ?_⟩
    · dsimp only
      by_cases hfront : front = []
      · refine .inl ⟨if_neg ?_, hfront⟩
        rw [hlen, hfront, textBytes_nil, List.length_nil]
        exact Nat.lt_irrefl _
      · have := length_textBytes_pos hfront
        refine .inr ⟨_, if_pos (by omega), ?_, h⟩
        rw [hslice]
        exact at_zero front
    · obtain ⟨rfl, rfl, rfl⟩ | ⟨hne, d, rfl, hd, hdstop, hchars⟩ := hnext.found
      · exact .inl ⟨rfl, rfl, rfl⟩
      · exact .inr ⟨hne, d, rfl, hd, hdstop, hchars⟩
  · rintro tokens ⟨pieces, tokens', hpieces, htokens, rfl⟩
    exact tokens_gap hgap hnext.digits hnext.boundary hend hpieces htokens

/-- The characters of a group are digits. -/
lemma advanceDecimalChars_at (hrun : ∀ c ∈ run, isDecimal table c = true)
    (h : At bytes pos (run ++ rest)) :
    ∃ q, advanceDecimalChars table bytes pos run.length = some q ∧ At bytes q rest := by
  induction run generalizing pos with
  | nil => exact ⟨pos, rfl, h⟩
  | cons c run ih =>
      obtain ⟨hc, hrun⟩ := List.forall_mem_cons.mp hrun
      obtain ⟨l, hcls, hnext⟩ := scalarClass_at table h
      obtain ⟨q, hq, hat⟩ := ih hrun hnext
      refine ⟨q, ?_, hat⟩
      have hdecimal : table.commandClassOf c.toNat = .decimal := of_decide_eq_true hc
      rw [List.length_cons, advanceDecimalChars, hcls, Option.bind_eq_bind, Option.bind_some]
      dsimp only
      rw [if_pos hdecimal, hq]

/-- A token, and the state behind it. -/
def Steps (table : CommandTable) (bytes : List UInt8) (pos : ℕ) (u run rest : List Char)
    (result : Option (Option (ℕ × ℕ) × Scanner)) : Prop :=
  ∃ token st u' run' rest', token ≠ [] ∧
    result = some (some (pos, pos + (textBytes token).length), st) ∧
    u ++ (run ++ rest) = token ++ (u' ++ (run' ++ rest')) ∧ Holds table bytes st u' run' rest' ∧
    ∀ tokens, Yields table u' run' rest' tokens → Yields table u run rest (token :: tokens)

/-- A group of digits. -/
lemma nextGroup_at {st : Scanner} {d : DigitRun} (hrun : ∀ c ∈ run, isDecimal table c = true)
    (hrest : ∀ c ∈ rest.head?, isWord table c = false) (hne : run ≠ []) (ho : st.o200k = none)
    (hd : st.run = some d) (hpos : At bytes st.runCursor (run ++ rest))
    (hstop : At bytes d.stop rest) (hchars : st.nextGroupChars = groupLength run.length) :
    Steps table bytes st.runCursor [] run rest (nextGroup table bytes st d) := by
  have hlen := groupLength_le (List.length_pos_of_ne_nil hne)
  have hgroup := groupLength_pos run.length
  have htake : (run.take (groupLength run.length)).length = groupLength run.length :=
    List.length_take_of_le hlen.1
  have hsplit : run ++ rest = run.take (groupLength run.length) ++
      (run.drop (groupLength run.length) ++ rest) := by
    rw [← List.append_assoc, List.take_append_drop]
  have hpiece : run.take (groupLength run.length) ≠ [] := by
    rw [← List.length_pos_iff_ne_nil, htake]
    exact hgroup
  have hpos' := hpos
  rw [hsplit] at hpos'
  obtain ⟨q, hq, hat⟩ := advanceDecimalChars_at
    (fun c hc => hrun c (List.mem_of_mem_take hc)) hpos'
  rw [htake, ← hchars] at hq
  have hq' : q = st.runCursor + (textBytes (run.take (groupLength run.length))).length :=
    hat.pos_eq hpos'.append
  have hdrop : ∀ c ∈ run.drop (groupLength run.length), isDecimal table c = true :=
    fun c hc => hrun c (List.mem_of_mem_drop hc)
  have hyields : ∀ u' run' rest', (∀ tokens, Yields table u' run' rest' tokens →
      Tokens table (run.drop (groupLength run.length) ++ rest) tokens) →
        ∀ tokens, Yields table u' run' rest' tokens →
          Yields table [] run rest (run.take (groupLength run.length) :: tokens) :=
    fun u' run' rest' h tokens htokens =>
      ⟨[], _, .nil, tokens_digits hne hrun hrest (h tokens htokens), rfl⟩
  have hbefore : q + (textBytes (run.drop (groupLength run.length))).length = d.stop :=
    hat.append.pos_eq hstop
  rw [nextGroup, hq, Option.bind_eq_bind, Option.bind_some, if_neg (by omega)]
  by_cases hnil : run.drop (groupLength run.length) = []
  · rw [hnil, textBytes_nil, List.length_nil, Nat.add_zero] at hbefore
    rw [hnil, List.nil_append] at hat
    obtain ⟨st', front, run', rest', hst', hfront, hholds, htokens⟩ := resetAt_at table hat
    rw [if_pos hbefore, hst', Option.bind_eq_bind, Option.bind_some]
    refine ⟨_, st', front, run', rest', hpiece, by rw [← hq']; rfl, ?_, hholds, ?_⟩
    · rw [List.nil_append, hsplit, hnil, List.nil_append, hfront]
    · refine hyields front run' rest' fun tokens h => ?_
      rw [hnil, List.nil_append]
      exact htokens tokens h
  · have := length_textBytes_pos hnil
    have hlast : groupLength (run.drop (groupLength run.length)).length = 3 := by
      rw [List.length_drop]
      exact groupLength_sub (List.length_pos_of_ne_nil hne)
    rw [if_neg (by omega)]
    refine ⟨_, { st with runCursor := q, nextGroupChars := 3 }, [], _, rest, hpiece,
      by rw [← hq']; rfl, hsplit, ?_, ?_⟩
    · exact ⟨hdrop, hrest, .inl ⟨ho, rfl⟩, .inr ⟨hnil, d, hd, hat, hstop, hlast.symm⟩⟩
    · refine hyields [] _ rest fun tokens => ?_
      rintro ⟨pieces, tokens', hpieces, htokens, rfl⟩
      obtain rfl := hpieces.unique .nil
      exact htokens

/-- A call gives a token, until the text is at its end. -/
lemma next_at {st : Scanner} (h : Holds table bytes st u run rest)
    (hpos : At bytes pos (u ++ (run ++ rest))) :
    (u ++ (run ++ rest) = [] ∧ ∃ st', next table bytes st = some (none, st')) ∨
      Steps table bytes pos u run rest (next table bytes st) := by
  have hgroup : ∀ st', st'.o200k = none → st'.run = st.run → st'.runCursor = st.runCursor →
      st'.nextGroupChars = st.nextGroupChars → u = [] →
        (u ++ (run ++ rest) = [] ∧ ∃ st'', nextRun table bytes st' = some (none, st'')) ∨
          Steps table bytes pos u run rest (nextRun table bytes st') := by
    rintro st' ho hrun hcursor hchars rfl
    rw [nextRun, hrun]
    obtain ⟨hnone, rfl, rfl⟩ | ⟨hne, d, hd, hcur, hstop, hlen⟩ := h.group
    · rw [hnone]
      exact .inl ⟨rfl, _, rfl⟩
    · rw [hd]
      obtain rfl : pos = st'.runCursor := by
        rw [hcursor]
        exact hpos.pos_eq hcur
      exact .inr (nextGroup_at h.digits h.boundary hne ho (hrun.trans hd) hpos hstop
        (hchars.trans hlen))
  rw [next]
  obtain ⟨ho, hu⟩ | ⟨o, ho, hat, hbase⟩ := h.ordinary
  · rw [ho]
    exact hgroup st ho rfl rfl rfl hu
  · rw [ho]
    dsimp only
    cases u with
    | nil =>
        rw [if_neg hat.not_lt]
        exact hgroup { st with o200k := none } rfl rfl rfl rfl rfl
    | cons c u =>
        obtain ⟨q, u', hq, hnext, hmatch, hlen⟩ :=
          O200kFamily.scans table.toO200kTable O200kFamily.o200k o.bytes o.pos c u hat
        obtain ⟨token, htoken⟩ := suffix_of_first hmatch
        have hne : token ≠ [] := by
          rintro rfl
          have := congrArg List.length htoken
          rw [List.nil_append, List.length_cons] at this
          omega
        rw [← htoken, List.append_assoc] at hbase hpos
        rw [← htoken] at hat hmatch ⊢
        have hq' := hnext.pos_eq hat.append
        have hpos' := hpos.pos_eq hbase
        rw [if_pos (by rw [htoken] at hat; exact hat.lt), hq, Option.bind_eq_bind,
          Option.bind_some]
        refine .inr ⟨token, { st with o200k := some { o with pos := q } }, u', run, rest, hne, ?_,
          List.append_assoc _ _ _, ?_, ?_⟩
        · rw [hpos', hq', ← Nat.add_assoc]
          rfl
        · refine ⟨h.digits, h.boundary, .inr ⟨_, rfl, hnext, ?_⟩, h.group⟩
          rw [hq', ← Nat.add_assoc]
          exact hbase.append
        · rintro tokens ⟨pieces, tokens', hpieces, htokens, rfl⟩
          exact ⟨token :: pieces, tokens', .cons hne hmatch hpieces, htokens, rfl⟩

/-- The tokens that follow a state. -/
lemma collect_at {st : Scanner} {n : ℕ} (h : Holds table bytes st u run rest)
    (hpos : At bytes pos (u ++ (run ++ rest))) (hn : (u ++ (run ++ rest)).length < n) :
    ∃ tokens, Yields table u run rest tokens ∧
      collect table bytes n st = some (spans pos tokens) := by
  induction n generalizing st pos u run rest with
  | zero => exact absurd hn (Nat.not_lt_zero _)
  | succ n ih =>
      rw [collect]
      obtain ⟨hnil, st', hst'⟩ | ⟨token, st', u', run', rest', hne, hst', hsplit, hholds, hyields⟩ :=
        next_at h hpos
      · obtain ⟨hu, hrun⟩ := List.append_eq_nil_iff.mp hnil
        refine ⟨[], ⟨[], [], hu ▸ .nil, ?_, rfl⟩, by rw [hst']; rfl⟩
        rw [hrun]
        exact tokens_nil table
      · rw [hsplit] at hpos hn
        have := List.length_pos_of_ne_nil hne
        rw [List.length_append] at hn
        obtain ⟨tokens, htokens, hcollect⟩ := ih hholds hpos.append (by omega)
        refine ⟨token :: tokens, hyields tokens htokens, ?_⟩
        rw [hst', Option.bind_eq_bind, Option.bind_some]
        dsimp only
        rw [hcollect]
        rfl

/-- The tokens of a new scanner are those of the two splits. -/
lemma exists_tokenSpans (table : CommandTable) (text : List Char) :
    ∃ tokens, Tokens table text tokens ∧
      tokenSpans table (textBytes text) = some (spans 0 tokens) := by
  obtain ⟨st, front, run, rest, hst, rfl, hholds, htokens⟩ := resetAt_at table (at_zero text)
  obtain ⟨tokens, hyields, hcollect⟩ := collect_at hholds (at_zero _)
    (Nat.lt_succ_of_le (at_zero _).length_le)
  refine ⟨tokens, htokens tokens hyields, ?_⟩
  rw [tokenSpans, hst]
  exact hcollect

/-- The iterator ends, and its tokens are those of the two splits: they follow each other from the
start of the text to its end, and none is empty. -/
theorem spans_tokens (table : CommandTable) (text : List Char) :
    ∃ tokens, Tokens table text tokens ∧
      tokenSpans table (textBytes text) = some (spans 0 tokens) ∧ tokens.flatten = text ∧
        ∀ token ∈ tokens, token ≠ [] := by
  obtain ⟨tokens, htokens, hspans⟩ := exists_tokenSpans table text
  exact ⟨tokens, htokens, hspans, htokens.flatten⟩

end CohereCommand

end Hypertok
