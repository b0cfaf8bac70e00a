import Hypertok.Pretokenize.Segment

/-!
The scalar scanner of `pretokenize/fast/r50k.rs`, for the regex of GPT-2.

* `advanceWs_at`: a run of spaces ends where `\s+(?!\S)|\s+` does.
* `scans`: a token ends where the leftmost-first match does.
* `segmentation_r50k`: the walk from position 0 gives the matches of the regex.
-/

namespace Hypertok

namespace R50k

open Machine Regex

variable (table : ClassTable)

/-- `'(?:[sdmt]|ll|ve|re)`. -/
def contraction : Regex Char := seq (lit '\'') (contractionLetters id)

/-- `'(?:[sdmt]|ll|ve|re)| ?\p{L}+| ?\p{N}+| ?[^\s\p{L}\p{N}]+|\s+(?!\S)|\s+`. -/
def regex : Regex Char :=
  anyOf [contraction, seq (opt (lit ' ')) (plus (oneOf table .letter)),
    seq (opt (lit ' ')) (plus (oneOf table .number)), seq (opt (lit ' ')) (plus (noneOf table)),
    spacesBefore table, plus (oneOf table .whitespace)]

/-- One turn of the loop of `advance_ws` over the spaces. -/
def spaceStep (bytes : List UInt8) (pos : ℕ) : Option (ℕ ⊕ ℕ) := do
  return match ← classEndAt table .whitespace isAsciiWs bytes pos with
    | some pos => .inl pos
    | none => .inr pos

/-- The loop of `advance_ws` back to the start of a character. -/
def charStart (bytes : List UInt8) (tokenStart : ℕ) : ℕ → Option ℕ
  | 0 => some 0
  | last + 1 =>
      if tokenStart < last + 1 then do
        let b ← bytes[last + 1]?
        if b &&& 0xC0 = 0x80 then charStart bytes tokenStart last else return last + 1
      else some (last + 1)

/-- `advance_ws`. -/
def advanceWs (bytes : List UInt8) (scanPos tokenStart : ℕ) : Option ℕ := do
  let p ← loop (spaceStep table bytes) (bytes.length + 1) scanPos
  if p < bytes.length ∧ 2 ≤ p - tokenStart then do
    let last ← charStart bytes tokenStart (p - 1)
    return if tokenStart < last then last else p
  else return p

/-- The `match` on the class of a character, whose end is `p`. -/
def advanceClass (bytes : List UInt8) (p start : ℕ) : CharClass → Option ℕ
  | .letter => scanLettersFrom table bytes p
  | .number => scanDigitsFrom table bytes p
  | .whitespace => advanceWs table bytes p start
  | .other => scanOtherFrom table bytes p

/-- `advance_pos`, behind a space. -/
def advanceSpace (bytes : List UInt8) (start : ℕ) : Option ℕ :=
  match bytes[start + 1]? with
  | none => some (start + 1)
  | some b₁ =>
      if isLetter b₁ then scanLettersFrom table bytes (start + 2)
      else if isDigit b₁ then scanDigitsFrom table bytes (start + 2)
      else if 0x80 ≤ b₁ then do
        let (cp, l) ← decodeCp bytes (start + 1)
        advanceClass table bytes (start + 1 + l) start (table.classOf cp)
      else if isAsciiWs b₁ then advanceWs table bytes (start + 1) start
      else scanOtherFrom table bytes (start + 2)

/-- `advance_pos`. -/
def advancePos (bytes : List UInt8) (start : ℕ) : Option ℕ := do
  let b₀ ← bytes[start]?
  if isLetter b₀ then scanLettersFrom table bytes (start + 1)
  else if b₀ = 32 then advanceSpace table bytes start
  else if 0x80 ≤ b₀ then do
    let (cp, l) ← decodeCp bytes start
    advanceClass table bytes (start + l) start (table.classOf cp)
  else if isDigit b₀ then scanDigitsFrom table bytes (start + 1)
  else if b₀ = 39 then
    match contractionEnd id bytes start with
    | some p => some p
    | none => scanOtherFrom table bytes (start + 1)
  else if b₀ - 9 < 5 then advanceWs table bytes (start + 1) start
  else scanOtherFrom table bytes (start + 1)

variable {table} {bytes : List UInt8} {pos start : ℕ} {c : Char} {t : List Char}

/-! ### Spaces -/

lemma spaces_at (table : ClassTable) (h : At bytes pos t) :
    ∃ q, loop (spaceStep table bytes) (bytes.length + 1) pos = some q ∧
      At bytes q (t.dropWhile (table.isA .whitespace)) := by
  have hstep : ∀ m p, (∃ u, At bytes p u ∧ u.length = m ∧
        u.dropWhile (table.isA .whitespace) = t.dropWhile (table.isA .whitespace)) →
      (∃ p', spaceStep table bytes p = some (.inl p') ∧ ∃ k < m, ∃ u, At bytes p' u ∧
        u.length = k ∧
        u.dropWhile (table.isA .whitespace) = t.dropWhile (table.isA .whitespace)) ∨
      ∃ q, spaceStep table bytes p = some (.inr q) ∧
        At bytes q (t.dropWhile (table.isA .whitespace)) := by
    rintro m p ⟨u, hu, rfl, hdrop⟩
    rw [spaceStep]
    obtain ⟨c, u', q, rfl, hA, hsome, hnext⟩ | ⟨hnone, hhead⟩ :=
      classEndAt_at table recognizes_isAsciiWs hu
    · rw [hsome]
      refine .inl ⟨q, rfl, u'.length, Nat.lt_succ_self _, u', hnext, rfl, ?_⟩
      rw [← hdrop, List.dropWhile_cons_of_pos hA]
    · rw [hnone]
      refine .inr ⟨p, rfl, ?_⟩
      rw [← hdrop, dropWhile_eq_self hhead]
      exact hu
  exact loop_eq_some hstep ⟨t, h, rfl, rfl⟩ (Nat.lt_succ_of_le h.length_le)

/-- Only the first byte of a character is not `0b10......`. -/
lemma utf8EncodeChar_lead (c : Char) : ∃ b bs, String.utf8EncodeChar c = b :: bs ∧
    b &&& 0xC0 ≠ 0x80 ∧ ∀ b' ∈ bs, b' &&& 0xC0 = 0x80 := by
  have hlow : ∀ n < 0x80, UInt8.ofNat n &&& 0xC0 ≠ 0x80 := by decide +kernel
  have hlead : ∀ n < 0x40, UInt8.ofNat (n + 0xC0) &&& 0xC0 ≠ 0x80 := by decide +kernel
  have hcont : ∀ n : ℕ, UInt8.ofNat (n % 0x40 + 0x80) &&& 0xC0 = 0x80 := by
    have hsmall : ∀ n < 0x40, UInt8.ofNat (n + 0x80) &&& 0xC0 = 0x80 := by decide +kernel
    exact fun n => hsmall _ (Nat.mod_lt _ (by decide))
  rw [String.utf8EncodeChar]
  split_ifs with h₁ h₂ h₃
  · exact ⟨_, [], rfl, hlow _ (by omega), List.forall_mem_nil _⟩
  · refine ⟨_, _, rfl, hlead _ (by omega), ?_⟩
    exact List.forall_mem_singleton.mpr (hcont _)
  · refine ⟨_, _, rfl, hlead (c.val.toNat / 4096 % 0x10 + 0x20) (by omega), ?_⟩
    exact List.forall_mem_cons.mpr ⟨hcont _, List.forall_mem_singleton.mpr (hcont _)⟩
  · refine ⟨_, _, rfl, hlead (c.val.toNat / 262144 % 0x08 + 0x30) (by omega), ?_⟩
    exact List.forall_mem_cons.mpr ⟨hcont _, List.forall_mem_cons.mpr ⟨hcont _,
      List.forall_mem_singleton.mpr (hcont _)⟩⟩

/-- The walk back from inside of a character. -/
lemma charStart_at (h : At bytes pos (c :: t)) (hstart : start ≤ pos) {k : ℕ}
    (hk : k < (String.utf8EncodeChar c).length) : charStart bytes start (pos + k) = some pos := by
  obtain ⟨b, bs, hbytes, hlead, hcont⟩ := utf8EncodeChar_lead c
  have hget := h.getElem?
  rw [textBytes_cons, hbytes] at hget
  rw [hbytes, List.length_cons] at hk
  induction k with
  | zero =>
      rw [Nat.add_zero]
      cases pos with
      | zero => rfl
      | succ pos =>
          rw [charStart]
          split_ifs
          · have hb : bytes[pos + 1]? = some b := hget 0
            rw [hb, Option.bind_eq_bind, Option.bind_some, if_neg hlead]
            rfl
          · rfl
  | succ k ih =>
      have hb : bytes[pos + (k + 1)]? = bs[k]? := by
        rw [hget, List.cons_append, List.getElem?_cons_succ, List.getElem?_append_left (by omega)]
      rw [List.getElem?_eq_getElem (by omega : k < bs.length)] at hb
      rw [← Nat.add_assoc] at hb ⊢
      rw [charStart, if_pos (by omega), hb, Option.bind_eq_bind, Option.bind_some,
        if_pos (hcont _ (List.getElem_mem _))]
      exact ih (by omega)

/-- `advance_ws` stops where `\s+(?!\S)|\s+` does. -/
lemma advanceWs_at {v : List Char} {scanPos : ℕ} (h : At bytes start (c :: t))
    (hscan : At bytes scanPos v)
    (hv : v.dropWhile (table.isA .whitespace) = t.dropWhile (table.isA .whitespace)) :
    ∃ q, advanceWs table bytes scanPos start = some q ∧ At bytes q (spacesRest table t) := by
  obtain ⟨p, hp, hrest⟩ := spaces_at table hscan
  rw [hv] at hrest
  rw [advanceWs, hp, Option.bind_eq_bind, Option.bind_some, spacesRest]
  by_cases hend : t.dropWhile (table.isA .whitespace) = []
  · rw [hend] at hrest
    rw [if_pos hend, if_neg fun hlt => hrest.not_lt hlt.1]
    exact ⟨p, rfl, hrest⟩
  · rw [if_neg hend]
    have hsplit : t = t.takeWhile (table.isA .whitespace) ++ t.dropWhile (table.isA .whitespace) :=
      List.takeWhile_append_dropWhile.symm
    generalize t.takeWhile (table.isA .whitespace) = run at hsplit
    generalize t.dropWhile (table.isA .whitespace) = rest at hsplit hrest hend
    subst hsplit
    have hlt : p < bytes.length := by
      cases rest with
      | nil => exact absurd rfl hend
      | cons d rest => exact hrest.lt
    have hc := length_utf8EncodeChar_pos c
    rcases List.eq_nil_or_concat run with rfl | ⟨before, d, rfl⟩
    · have hp := hrest.pos_eq h.tail
      refine ⟨p, ?_, hrest⟩
      by_cases hlong : 2 ≤ p - start
      · have hback : charStart bytes start (p - 1) = some start := by
          have hk : p - 1 = start + ((String.utf8EncodeChar c).length - 1) := by omega
          rw [hk]
          exact charStart_at h le_rfl (by omega)
        rw [if_pos ⟨hlt, hlong⟩, hback, Option.bind_some, if_neg (Nat.lt_irrefl _)]
        rfl
      · rw [if_neg fun h => hlong h.2]
        rfl
    · rw [List.concat_eq_append, List.append_assoc, ← List.cons_append] at h
      have hlast : At bytes (start + (textBytes (c :: before)).length) (d :: rest) := h.append
      have hp := hrest.pos_eq hlast.tail
      have hd := length_utf8EncodeChar_pos d
      have hfront : 0 < (textBytes (c :: before)).length := by
        rw [textBytes_cons, List.length_append]
        omega
      have hback : charStart bytes start (p - 1) =
          some (start + (textBytes (c :: before)).length) := by
        have hk : p - 1 = start + (textBytes (c :: before)).length +
            ((String.utf8EncodeChar d).length - 1) := by omega
        rw [hk]
        exact charStart_at hlast (Nat.le_add_right _ _) (by omega)
      rw [if_pos ⟨hlt, by omega⟩, hback, Option.bind_some, if_pos (by omega), List.concat_eq_append, List.getLast?_append, List.getLast?_singleton]
      exact ⟨_, rfl, hlast⟩

/-! ### The matches of the regex -/

/-- What a token leaves, behind a first character of the class. -/
def classRest (table : ClassTable) (cls : CharClass) (t : List Char) : List Char :=
  if cls = .whitespace then spacesRest table t else t.dropWhile (table.isA cls)

lemma first_contraction (hc : c ≠ '\'') : first contraction (c :: t) = none := by
  rw [contraction, lit, first_seq_one_cons, decide_eq_false hc, if_neg Bool.false_ne_true]

lemma first_class (hspace : c ≠ ' ') (hquote : c ≠ '\'') :
    first (regex table) (c :: t) = some (classRest table (table.classOf c.toNat) t) := by
  have hopt : ∀ k, first (seq (opt (lit ' ')) (plus (oneOf table k))) (c :: t) =
      if table.isA k c then some (t.dropWhile (table.isA k)) else none := by
    intro k
    rw [first_seq_opt, lit, first_seq_one_cons, decide_eq_false hspace,
      if_neg Bool.false_ne_true, Option.none_or, oneOf, first_plus_one_cons]
  rw [regex, first_anyOf_cons, first_anyOf_cons, first_anyOf_cons, first_anyOf_cons,
    first_anyOf_cons, first_anyOf_cons, first_anyOf_nil, first_contraction hquote, noneOf_eq,
    hopt, hopt, hopt, classRest, Option.or_none, Option.none_or]
  cases hcls : table.classOf c.toNat with
  | letter => simp [isA_eq hcls]
  | number => simp [isA_eq hcls]
  | other => simp [isA_eq hcls]
  | whitespace =>
      have hspaces := first_spaces (t := t) (isA_eq hcls .whitespace)
      simpa [isA_eq hcls] using hspaces

lemma first_space_nil : first (regex table) [' '] = some [] := by
  have hopt : ∀ k, k ≠ .whitespace →
      first (seq (opt (lit ' ')) (plus (oneOf table k))) [' '] = none := by
    intro k hk
    rw [first_seq_opt, lit, first_seq_one_cons, oneOf, first_plus_one_nil, first_plus_one_cons,
      isA_eq (classOf_space table), decide_eq_false hk.symm]
    rfl
  have hspaces := first_spaces (t := []) (isA_eq (classOf_space table) .whitespace)
  rw [regex, first_anyOf_cons, first_anyOf_cons, first_anyOf_cons, first_anyOf_cons,
    first_anyOf_cons, first_anyOf_cons, first_anyOf_nil, first_contraction (by decide), noneOf_eq,
    hopt _ (by decide), hopt _ (by decide), hopt _ (by decide), Option.or_none, Option.none_or,
    Option.none_or, Option.none_or, Option.none_or, hspaces]
  rfl

lemma first_space_cons : first (regex table) (' ' :: c :: t) =
    some (if table.isA .whitespace c then spacesRest table (c :: t)
      else t.dropWhile (table.isA (table.classOf c.toNat))) := by
  have hopt : ∀ k, k ≠ .whitespace →
      first (seq (opt (lit ' ')) (plus (oneOf table k))) (' ' :: c :: t) =
        if table.isA k c then some (t.dropWhile (table.isA k)) else none := by
    intro k hk
    rw [first_seq_opt, lit, first_seq_one_cons, oneOf, first_plus_one_cons, first_plus_one_cons,
      isA_eq (classOf_space table), decide_eq_false hk.symm, if_neg Bool.false_ne_true,
      Option.or_none]
    rfl
  have hspaces := first_spaces (t := c :: t) (isA_eq (classOf_space table) .whitespace)
  rw [regex, first_anyOf_cons, first_anyOf_cons, first_anyOf_cons, first_anyOf_cons,
    first_anyOf_cons, first_anyOf_cons, first_anyOf_nil, first_contraction (by decide), noneOf_eq,
    hopt _ (by decide), hopt _ (by decide), hopt _ (by decide), Option.or_none, Option.none_or,
    hspaces]
  cases hcls : table.classOf c.toNat with
  | letter => simp [isA_eq hcls]
  | number => simp [isA_eq hcls]
  | other => simp [isA_eq hcls]
  | whitespace => simp [isA_eq hcls]

lemma first_quote : first (regex table) ('\'' :: t) =
    some ((contractionRest id t).getD (t.dropWhile (table.isA .other))) := by
  have hopt : ∀ k, first (seq (opt (lit ' ')) (plus (oneOf table k))) ('\'' :: t) =
      if .other = k then some (t.dropWhile (table.isA k)) else none := by
    intro k
    rw [first_seq_opt, lit, first_seq_one_cons, oneOf, first_plus_one_cons,
      isA_eq (classOf_quote table)]
    simp
  have hcontraction : first contraction ('\'' :: t) = contractionRest id t := by
    rw [contraction, lit, first_seq_one_cons, first_contractionLetters]
    rfl
  rw [regex, first_anyOf_cons, first_anyOf_cons, first_anyOf_cons, first_anyOf_cons, hcontraction,
    noneOf_eq, hopt, hopt, hopt]
  cases contractionRest id t <;> rfl

/-! ### The scanner -/

lemma advanceClass_at {v : List Char} {p : ℕ} (cls : CharClass) (h : At bytes start (c :: t))
    (hp : At bytes p v) (hv : cls = .whitespace →
      v.dropWhile (table.isA .whitespace) = t.dropWhile (table.isA .whitespace)) :
    ∃ q, advanceClass table bytes p start cls = some q ∧ At bytes q
      (if cls = .whitespace then spacesRest table t else v.dropWhile (table.isA cls)) := by
  cases cls with
  | letter => exact scanLettersFrom_at table hp
  | number => exact scanDigitsFrom_at table hp
  | whitespace => exact advanceWs_at h hp (hv rfl)
  | other => exact scanOtherFrom_at table hp

/-- Behind a space. -/
lemma advanceSpace_at (h : At bytes start (' ' :: t)) :
    ∃ q rest, advanceSpace table bytes start = some q ∧ At bytes q rest ∧
      first (regex table) (' ' :: t) = some rest ∧ rest.length ≤ t.length := by
  have hnext : At bytes (start + 1) t := h.tail
  cases t with
  | nil =>
      refine ⟨start + 1, [], ?_, hnext, first_space_nil, le_rfl⟩
      rw [advanceSpace, hnext.nil]
  | cons d t =>
      have hshort : (if table.isA .whitespace d then spacesRest table (d :: t)
          else t.dropWhile (table.isA (table.classOf d.toNat))).length ≤ (d :: t).length := by
        split_ifs
        · exact length_spacesRest_le table (d :: t)
        · exact (List.length_dropWhile_le _ _).trans (Nat.le_succ _)
      suffices hscan : ∃ q, advanceSpace table bytes start = some q ∧ At bytes q
          (if table.isA .whitespace d then spacesRest table (d :: t)
            else t.dropWhile (table.isA (table.classOf d.toNat))) by
        obtain ⟨q, hq, hrest⟩ := hscan
        exact ⟨q, _, hq, hrest, first_space_cons, hshort⟩
      by_cases hd : d.toNat < 0x80
      · obtain ⟨hget, hbehind⟩ := hnext.ascii hd
        have hletter := recognizes_isLetter.isA_eq table hd
        have hdigit := recognizes_isDigit.isA_eq table hd
        have hws := recognizes_isAsciiWs.isA_eq table hd
        rw [advanceSpace, hget]
        dsimp only
        rw [hletter, hdigit, hws, if_neg (not_le_ofNat hd)]
        cases hcls : table.classOf d.toNat with
        | letter =>
            rw [isA_eq hcls, isA_eq hcls, isA_eq hcls]
            exact scanLettersFrom_at table hbehind
        | number =>
            rw [isA_eq hcls, isA_eq hcls, isA_eq hcls]
            exact scanDigitsFrom_at table hbehind
        | whitespace =>
            rw [isA_eq hcls, isA_eq hcls, isA_eq hcls]
            exact advanceWs_at h hnext rfl
        | other =>
            rw [isA_eq hcls, isA_eq hcls, isA_eq hcls]
            exact scanOtherFrom_at table hbehind
      · obtain ⟨⟨b, hget, hge⟩, l, hdecode, hbehind⟩ := decodeCp_at hnext (Nat.not_lt.mp hd)
        have hletter : isLetter b = false := Bool.eq_false_iff.mpr fun hb =>
          UInt8.not_lt.mpr hge (recognizes_isLetter.lt hb)
        have hdigit : isDigit b = false := Bool.eq_false_iff.mpr fun hb =>
          UInt8.not_lt.mpr hge (recognizes_isDigit.lt hb)
        rw [advanceSpace, hget]
        dsimp only
        rw [hletter, hdigit, if_neg Bool.false_ne_true, if_neg Bool.false_ne_true, if_pos hge,
          hdecode, Option.bind_eq_bind, Option.bind_some]
        have hclass := advanceClass_at (table.classOf d.toNat) h hbehind fun hcls =>
          (List.dropWhile_cons_of_pos (@isA_eq _ table _ hcls .whitespace)).symm
        rwa [ClassTable.isA, ite_congr (decide_eq_true_eq) (fun _ => rfl) (fun _ => rfl)]


/-- Behind a character that is neither a space nor an apostrophe. -/
lemma advance_class (hspace : c ≠ ' ') (hquote : c ≠ '\'') {result : Option ℕ}
    (h : ∃ q, result = some q ∧ At bytes q (classRest table (table.classOf c.toNat) t)) :
    ∃ q rest, result = some q ∧ At bytes q rest ∧ first (regex table) (c :: t) = some rest ∧
      rest.length ≤ t.length := by
  obtain ⟨q, hq, hrest⟩ := h
  refine ⟨q, _, hq, hrest, first_class hspace hquote, ?_⟩
  rw [classRest]
  split_ifs
  · exact length_spacesRest_le table t
  · exact List.length_dropWhile_le _ _

lemma folds_id : Folds id id where
  ascii _ hc := ⟨rfl, hc⟩
  high _ hb := hb
  nonAscii _ hc := hc

/-- A token ends where the leftmost-first match does. -/
theorem scans (table : ClassTable) : Scans (regex table) (advancePos table) := by
  intro bytes pos c t h
  have hspace : table.classOf c.toNat ≠ .whitespace → c ≠ ' ' := by
    rintro hne rfl
    exact hne (classOf_space table)
  have hquote : table.classOf c.toNat ≠ .other → c ≠ '\'' := by
    rintro hne rfl
    exact hne (classOf_quote table)
  by_cases hc : c.toNat < 0x80
  · obtain ⟨hget, hnext⟩ := h.ascii hc
    have hletter := recognizes_isLetter.isA_eq table hc
    have hdigit := recognizes_isDigit.isA_eq table hc
    have hws := recognizes_isAsciiWs.isA_eq table hc
    have h32 : UInt8.ofNat c.toNat = 32 ↔ c = ' ' := ofNat_eq_iff (d := ' ') hc (by decide)
    have h39 : UInt8.ofNat c.toNat = 39 ↔ c = '\'' := ofNat_eq_iff (d := '\'') hc (by decide)
    rw [advancePos, hget, Option.bind_eq_bind, Option.bind_some]
    cases hcls : table.classOf c.toNat with
    | letter =>
        have hA := isA_eq hcls
        rw [hletter, hA, if_pos (by decide)]
        refine advance_class (hspace (by rw [hcls]; decide)) (hquote (by rw [hcls]; decide)) ?_
        rw [hcls]
        exact scanLettersFrom_at table hnext
    | number =>
        have hA := isA_eq hcls
        have hne := hspace (by rw [hcls]; decide)
        rw [hletter, hA, if_neg (by decide), if_neg (mt h32.mp hne), if_neg (not_le_ofNat hc), hdigit,
          hA, if_pos (by decide)]
        refine advance_class hne (hquote (by rw [hcls]; decide)) ?_
        rw [hcls]
        exact scanDigitsFrom_at table hnext
    | whitespace =>
        have hA := isA_eq hcls
        rw [hletter, hA, if_neg (by decide)]
        by_cases hsp : c = ' '
        · subst hsp
          exact advanceSpace_at h
        · have hne := hquote (by rw [hcls]; decide)
          have htab : UInt8.ofNat c.toNat - 9 < 5 := by
            rw [hA, isAsciiWs, decide_eq_false (mt h32.mp hsp), Bool.false_or] at hws
            exact of_decide_eq_true hws
          rw [if_neg (mt h32.mp hsp), if_neg (not_le_ofNat hc), hdigit, hA, if_neg (by decide),
            if_neg (mt h39.mp hne), if_pos htab]
          refine advance_class hsp hne ?_
          rw [hcls]
          exact advanceWs_at h hnext rfl
    | other =>
        have hA := isA_eq hcls
        have hne := hspace (by rw [hcls]; decide)
        have htab : ¬ UInt8.ofNat c.toNat - 9 < 5 := by
          rw [hA, isAsciiWs, decide_eq_false (mt h32.mp hne), Bool.false_or] at hws
          exact of_decide_eq_false hws
        rw [hletter, hA, if_neg (by decide), if_neg (mt h32.mp hne), if_neg (not_le_ofNat hc), hdigit,
          hA, if_neg (by decide)]
        by_cases hq : c = '\''
        · subst hq
          rw [if_pos (h39.mpr rfl)]
          obtain ⟨q, rest, hend, hsome, hrest, hshort⟩ | ⟨hend, hnone⟩ :=
            contractionEnd_at folds_id hnext
          · rw [hend]
            refine ⟨q, rest, rfl, hrest, ?_, hshort.le⟩
            rw [first_quote, hsome, Option.getD_some]
          · rw [hend]
            obtain ⟨q, hq, hrest⟩ := scanOtherFrom_at table hnext
            refine ⟨q, _, hq, hrest, ?_, List.length_dropWhile_le _ _⟩
            rw [first_quote, hnone, Option.getD_none]
        · rw [if_neg (mt h39.mp hq), if_neg htab]
          refine advance_class hne hq ?_
          rw [hcls]
          exact scanOtherFrom_at table hnext
  · obtain ⟨⟨b, hget, hge⟩, l, hdecode, hnext⟩ := decodeCp_at h (Nat.not_lt.mp hc)
    have hletter : isLetter b = false := Bool.eq_false_iff.mpr fun hb =>
      UInt8.not_lt.mpr hge (recognizes_isLetter.lt hb)
    have h32 : b ≠ 32 := by
      rintro rfl
      exact absurd hge (by decide)
    rw [advancePos, hget, Option.bind_eq_bind, Option.bind_some, hletter,
      if_neg Bool.false_ne_true, if_neg h32, if_pos hge, hdecode, Option.bind_eq_bind,
      Option.bind_some]
    refine advance_class (fun h => hc (by rw [h]; decide)) (fun h => hc (by rw [h]; decide)) ?_
    exact advanceClass_at (table.classOf c.toNat) h hnext fun _ => rfl

/-- The scalar scanner of GPT-2 implements its regex: for every text and every classification that
agrees with ASCII, the tokens from position 0 are the leftmost-first matches. -/
theorem segmentation_r50k (table : ClassTable) (text : List Char) :
    ∃ pieces, Segments (regex table) text pieces ∧
      pretokens (advancePos table) (textBytes text) (textBytes text).length 0 =
        some (pieces.map textBytes) :=
  (scans table).pretokens_eq text

/-- The last of several spaces goes with what follows it. -/
example : pretokens (advancePos ⟨asciiClass, fun _ _ => rfl⟩) (textBytes "I'll  go ".toList) 9 0 =
    some (["I", "'ll", " ", " go", " "].map fun s => textBytes s.toList) := by decide +kernel

end R50k

end Hypertok
