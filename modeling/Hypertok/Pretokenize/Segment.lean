import Hypertok.Machine.Regex
import Hypertok.Pretokenize.Scan

/-!
What the scanners of `pretokenize/fast` have in common: the classes of their regexes, the
contractions, and the walk over a text.

* `Scans`: the scanner ends where the leftmost-first match of the regex does.
* `Scans.pretokens`: the walk from position 0 then cuts the text in the matches.
-/

namespace Hypertok

open Machine Regex

/-- A character of the class: `\p{L}`, `\p{N}`, `\s`. -/
def oneOf (table : ClassTable) (cls : CharClass) : Regex Char := one (table.isA cls)

/-- `[^\s\p{L}\p{N}]`. -/
def noneOf (table : ClassTable) : Regex Char :=
  one fun c => !(table.isA .whitespace c || table.isA .letter c || table.isA .number c)

/-- `\S`. -/
def nonSpace (table : ClassTable) : Regex Char := one fun c => !table.isA .whitespace c

/-- A character. -/
def lit (c : Char) : Regex Char := one fun d => d = c

/-- `\s+(?!\S)`. -/
def spacesBefore (table : ClassTable) : Regex Char :=
  seq (plus (oneOf table .whitespace)) (notAhead (nonSpace table))

lemma noneOf_eq (table : ClassTable) : noneOf table = oneOf table .other := by
  refine congrArg one (funext fun c => ?_)
  simp only [ClassTable.isA]
  cases table.classOf c.toNat <;> rfl

section

variable {table : ClassTable} {c : Char} {t : List Char}

lemma classOf_space (table : ClassTable) : table.classOf ' '.toNat = .whitespace :=
  table.ascii 32 (by decide)

lemma classOf_quote (table : ClassTable) : table.classOf '\''.toNat = .other :=
  table.ascii 39 (by decide)

lemma isA_eq {table : ClassTable} {cls : CharClass} (hcls : table.classOf c.toNat = cls)
    (k : CharClass) : table.isA k c = decide (cls = k) := by rw [ClassTable.isA, hcls]

/-- What `\s+(?!\S)|\s+` leaves behind its first character: the last space, if there is one, where
the text goes on. -/
def spacesRest (table : ClassTable) (t : List Char) : List Char :=
  let rest := t.dropWhile (table.isA .whitespace)
  if rest = [] then []
  else match (t.takeWhile (table.isA .whitespace)).getLast? with
    | some d => d :: rest
    | none => rest

/-- `\s+(?!\S)` takes the spaces up to the end, or all but the last one. -/
lemma first_spacesBefore (hc : table.isA .whitespace c = true) :
    first (spacesBefore table) (c :: t) =
      if t.dropWhile (table.isA .whitespace) = [] then some []
      else (t.takeWhile (table.isA .whitespace)).getLast?.map fun d =>
        d :: t.dropWhile (table.isA .whitespace) := by
  rw [spacesBefore, oneOf, first_seq_plus_one_cons, if_pos hc]
  by_cases hend : t.dropWhile (table.isA .whitespace) = []
  · rw [if_pos hend]
    refine findSome?_runRests_dropWhile ?_
    rw [hend, first_notAhead]
    rfl
  · rw [if_neg hend]
    have hsplit : t = t.takeWhile (table.isA .whitespace) ++ t.dropWhile (table.isA .whitespace) :=
      List.takeWhile_append_dropWhile.symm
    have hrun : ∀ d ∈ t.takeWhile (table.isA .whitespace), table.isA .whitespace d = true :=
      fun d hd => List.mem_takeWhile_imp hd
    have hrest : ∀ d ∈ (t.dropWhile (table.isA .whitespace)).head?,
        table.isA .whitespace d = false := fun d => of_mem_head?_dropWhile
    generalize t.takeWhile (table.isA .whitespace) = run at hsplit hrun
    generalize t.dropWhile (table.isA .whitespace) = rest at hsplit hrest hend
    have hfail : first (notAhead (nonSpace table)) rest = none := by
      cases rest with
      | nil => exact absurd rfl hend
      | cons d rest =>
          rw [first_notAhead, nonSpace, first_one_cons, hrest d rfl]
          rfl
    subst hsplit
    rcases List.eq_nil_or_concat run with rfl | ⟨before, d, rfl⟩
    · exact findSome?_runRests_none hrun hrest fun y hy => by rwa [List.suffix_nil.mp hy]
    · rw [List.concat_eq_append] at hrun ⊢
      have hd := hrun d (List.mem_append_right _ (List.mem_singleton_self d))
      have hlast : first (notAhead (nonSpace table)) ([d] ++ rest) = some (d :: rest) := by
        rw [List.singleton_append, first_notAhead, nonSpace, first_one_cons, hd]
        rfl
      rw [List.append_assoc, List.getLast?_append, List.getLast?_singleton]
      exact findSome?_runRests (fun b hb => hrun b (List.mem_append_left _ hb)) hd
        (List.forall_mem_nil _) hrest (fun y hy => by rwa [List.suffix_nil.mp hy]) hlast

/-- `\s+(?!\S)|\s+`. -/
lemma first_spaces (hc : table.isA .whitespace c = true) :
    (first (spacesBefore table) (c :: t)).or (first (plus (oneOf table .whitespace)) (c :: t)) =
      some (spacesRest table t) := by
  rw [first_spacesBefore hc, oneOf, first_plus_one_cons, if_pos hc, spacesRest]
  split_ifs
  · rfl
  · cases (t.takeWhile (table.isA .whitespace)).getLast? <;> rfl

lemma length_spacesRest_le (table : ClassTable) (t : List Char) :
    (spacesRest table t).length ≤ t.length := by
  have hsplit := congrArg List.length
    (List.takeWhile_append_dropWhile (p := table.isA .whitespace) (l := t))
  rw [List.length_append] at hsplit
  rw [spacesRest]
  split_ifs
  · exact Nat.zero_le _
  · cases hrun : (t.takeWhile (table.isA .whitespace)).getLast? with
    | none => exact List.length_dropWhile_le _ _
    | some d =>
        have hpos := List.length_pos_of_mem (List.mem_of_getLast? hrun)
        dsimp only
        rw [List.length_cons]
        omega

end

/-! ### Contractions -/

/-- The tests behind an apostrophe, on bytes that `lower` folds: the end of `'s`, `'d`, `'m`, `'t`,
`'ll`, `'ve` or `'re`. -/
def contractionEnd (lower : UInt8 → UInt8) (bytes : List UInt8) (pos : ℕ) : Option ℕ :=
  let b₁ := bytes[pos + 1]?.map lower
  let b₂ := bytes[pos + 2]?.map lower
  if b₁ = some 115 ∨ b₁ = some 100 ∨ b₁ = some 109 ∨ b₁ = some 116 then some (pos + 2)
  else if b₁ = some 108 ∧ b₂ = some 108 then some (pos + 3)
  else if b₁ = some 118 ∧ b₂ = some 101 then some (pos + 3)
  else if b₁ = some 114 ∧ b₂ = some 101 then some (pos + 3)
  else none

/-- What a contraction leaves, behind its apostrophe. -/
def contractionRest (fold : Char → Char) : List Char → Option (List Char)
  | [] => none
  | d :: t =>
      if fold d = 's' ∨ fold d = 'd' ∨ fold d = 'm' ∨ fold d = 't' then some t
      else if fold d = 'l' ∧ t.head?.map fold = some 'l' ∨
          fold d = 'v' ∧ t.head?.map fold = some 'e' ∨
          fold d = 'r' ∧ t.head?.map fold = some 'e' then some t.tail
      else none

/-- A character that is folded to the given one. -/
def folded (fold : Char → Char) (a : Char) : Regex Char := one fun c => fold c = a

lemma first_folded (fold : Char → Char) (a d : Char) (t : List Char) :
    first (folded fold a) (d :: t) = if fold d = a then some t else none := by
  rw [folded, first_one_cons]
  simp only [decide_eq_true_eq]

lemma first_folded_folded (fold : Char → Char) (a b d : Char) (t : List Char) :
    first (seq (folded fold a) (folded fold b)) (d :: t) =
      if fold d = a ∧ t.head?.map fold = some b then some t.tail else none := by
  rw [folded, first_seq_one_cons]
  cases t with
  | nil => simp [folded]
  | cons e t => simp [first_folded, ite_and]

/-- `(?:[sdmt]|ll|ve|re)`, of folded characters. -/
def contractionLetters (fold : Char → Char) : Regex Char :=
  anyOf [anyOf [folded fold 's', folded fold 'd', folded fold 'm', folded fold 't'],
    seq (folded fold 'l') (folded fold 'l'), seq (folded fold 'v') (folded fold 'e'),
    seq (folded fold 'r') (folded fold 'e')]

/-- Two alternatives that leave the same. -/
lemma or_ite {α : Type*} {p q : Prop} [Decidable p] [Decidable q] (a : α) :
    (if p then some a else none).or (if q then some a else none) =
      if p ∨ q then some a else none := by
  by_cases hp : p
  · rw [if_pos hp, Option.some_or, if_pos (.inl hp)]
  · rw [if_neg hp, Option.none_or]
    exact if_congr (or_iff_right hp).symm rfl rfl

lemma first_contractionLetters (fold : Char → Char) (t : List Char) :
    first (contractionLetters fold) t = contractionRest fold t := by
  cases t with
  | nil => rfl
  | cons d t =>
      simp only [contractionLetters, contractionRest, first_anyOf_cons, first_anyOf_nil,
        first_folded, first_folded_folded, Option.or_none, or_ite]
      split_ifs <;> rfl

/-- The bytes are folded as the characters are. -/
structure Folds (lower : UInt8 → UInt8) (fold : Char → Char) : Prop where
  ascii : ∀ c : Char, c.toNat < 0x80 →
    lower (UInt8.ofNat c.toNat) = UInt8.ofNat (fold c).toNat ∧ (fold c).toNat < 0x80
  high : ∀ b : UInt8, 0x80 ≤ b → 0x80 ≤ lower b
  nonAscii : ∀ c : Char, 0x80 ≤ c.toNat → 0x80 ≤ (fold c).toNat

section

variable {lower : UInt8 → UInt8} {fold : Char → Char} {bytes : List UInt8} {pos : ℕ} {t : List Char}

lemma Folds.byte_iff (hfold : Folds lower fold) (h : At bytes pos t) {a : Char}
    (ha : a.toNat < 0x80) :
    bytes[pos]?.map lower = some (UInt8.ofNat a.toNat) ↔ t.head?.map fold = some a := by
  cases t with
  | nil =>
      rw [h.nil]
      exact ⟨fun h => absurd h.symm (Option.some_ne_none _),
        fun h => absurd h.symm (Option.some_ne_none _)⟩
  | cons c t =>
      rw [List.head?_cons, Option.map_some, Option.some_inj]
      by_cases hc : c.toNat < 0x80
      · obtain ⟨hlower, hlt⟩ := hfold.ascii c hc
        rw [(h.ascii hc).1, Option.map_some, hlower, Option.some_inj, ← UInt8.toNat_inj,
          UInt8.toNat_ofNat_of_lt' (hlt.trans (by decide)),
          UInt8.toNat_ofNat_of_lt' (ha.trans (by decide)), Char.toNat_inj]
      · obtain ⟨⟨b, hb, hge⟩, -⟩ := decodeCp_at h (Nat.not_lt.mp hc)
        rw [hb, Option.map_some, Option.some_inj]
        constructor
        · intro heq
          have hle := UInt8.le_iff_toNat_le.mp (hfold.high b hge)
          rw [heq, UInt8.toNat_ofNat_of_lt' (ha.trans (by decide))] at hle
          exact absurd ha (Nat.not_lt.mpr hle)
        · rintro rfl
          exact absurd ha (Nat.not_lt.mpr (hfold.nonAscii c (Nat.not_lt.mp hc)))

/-- The tests find a contraction where the text has one. -/
lemma contractionEnd_at (hfold : Folds lower fold) (h : At bytes (pos + 1) t) :
    (∃ q rest, contractionEnd lower bytes pos = some q ∧ contractionRest fold t = some rest ∧
      At bytes q rest ∧ rest.length < t.length) ∨
    contractionEnd lower bytes pos = none ∧ contractionRest fold t = none := by
  cases t with
  | nil =>
      have hnone : ∀ b : UInt8, ¬ (none : Option UInt8) = some b := fun b hb =>
        Option.some_ne_none b hb.symm
      exact .inr ⟨by simp only [contractionEnd, h.nil, Option.map_none, hnone, false_or, false_and,
        if_false], rfl⟩
  | cons d t =>
      have hbyte : ∀ a : Char, a.toNat < 0x80 →
          (bytes[pos + 1]?.map lower = some (UInt8.ofNat a.toNat) ↔ fold d = a) := by
        intro a ha
        rw [hfold.byte_iff h ha, List.head?_cons, Option.map_some, Option.some_inj]
      have hs : bytes[pos + 1]?.map lower = some 115 ↔ fold d = 's' := hbyte 's' (by decide)
      have hd : bytes[pos + 1]?.map lower = some 100 ↔ fold d = 'd' := hbyte 'd' (by decide)
      have hm : bytes[pos + 1]?.map lower = some 109 ↔ fold d = 'm' := hbyte 'm' (by decide)
      have ht : bytes[pos + 1]?.map lower = some 116 ↔ fold d = 't' := hbyte 't' (by decide)
      have hl : bytes[pos + 1]?.map lower = some 108 ↔ fold d = 'l' := hbyte 'l' (by decide)
      have hv : bytes[pos + 1]?.map lower = some 118 ↔ fold d = 'v' := hbyte 'v' (by decide)
      have hr : bytes[pos + 1]?.map lower = some 114 ↔ fold d = 'r' := hbyte 'r' (by decide)
      simp only [contractionEnd, contractionRest, hs, hd, hm, ht, hl, hv, hr]
      by_cases hc : d.toNat < 0x80
      · have hnext := (h.ascii hc).2
        have hl₂ : bytes[pos + 2]?.map lower = some 108 ↔ t.head?.map fold = some 'l' :=
          hfold.byte_iff hnext (a := 'l') (by decide)
        have he₂ : bytes[pos + 2]?.map lower = some 101 ↔ t.head?.map fold = some 'e' :=
          hfold.byte_iff hnext (a := 'e') (by decide)
        simp only [hl₂, he₂]
        by_cases hone : fold d = 's' ∨ fold d = 'd' ∨ fold d = 'm' ∨ fold d = 't'
        · rw [if_pos hone, if_pos hone]
          exact .inl ⟨_, _, rfl, rfl, hnext, Nat.lt_succ_self _⟩
        · rw [if_neg hone, if_neg hone]
          have htwo : ∀ {a : Char}, a.toNat < 0x80 → t.head?.map fold = some a →
              At bytes (pos + 3) t.tail ∧ t.tail.length < (d :: t).length := by
            intro a ha hhead
            cases t with
            | nil => exact absurd hhead.symm (Option.some_ne_none _)
            | cons e t =>
                rw [List.head?_cons, Option.map_some, Option.some_inj] at hhead
                have he : e.toNat < 0x80 := by
                  by_contra hge
                  exact absurd (hhead ▸ hfold.nonAscii e (Nat.not_lt.mp hge)) (Nat.not_le.mpr ha)
                exact ⟨(hnext.ascii he).2, by simp⟩
          by_cases hll : fold d = 'l' ∧ t.head?.map fold = some 'l'
          · rw [if_pos hll, if_pos (.inl hll)]
            exact .inl ⟨_, _, rfl, rfl, htwo (by decide) hll.2⟩
          · rw [if_neg hll]
            by_cases hve : fold d = 'v' ∧ t.head?.map fold = some 'e'
            · rw [if_pos hve, if_pos (.inr (.inl hve))]
              exact .inl ⟨_, _, rfl, rfl, htwo (by decide) hve.2⟩
            · rw [if_neg hve]
              by_cases hre : fold d = 'r' ∧ t.head?.map fold = some 'e'
              · rw [if_pos hre, if_pos (.inr (.inr hre))]
                exact .inl ⟨_, _, rfl, rfl, htwo (by decide) hre.2⟩
              · rw [if_neg hre, if_neg (not_or.mpr ⟨hll, not_or.mpr ⟨hve, hre⟩⟩)]
                exact .inr ⟨rfl, rfl⟩
      · have hne : ∀ a : Char, a.toNat < 0x80 → fold d ≠ a := by
          rintro a ha rfl
          exact absurd (hfold.nonAscii d (Nat.not_lt.mp hc)) (Nat.not_le.mpr ha)
        have hs' := hne 's' (by decide)
        have hd' := hne 'd' (by decide)
        have hm' := hne 'm' (by decide)
        have ht' := hne 't' (by decide)
        have hl' := hne 'l' (by decide)
        have hv' := hne 'v' (by decide)
        have hr' := hne 'r' (by decide)
        simp only [hs', hd', hm', ht', hl', hv', hr', false_and, or_self, if_false]
        exact .inr ⟨trivial, trivial⟩

end

/-- The scanner ends where the leftmost-first match of the regex does. -/
def Scans (r : Regex Char) (advance : List UInt8 → ℕ → Option ℕ) : Prop :=
  ∀ (bytes : List UInt8) (pos : ℕ) (c : Char) (t : List Char), At bytes pos (c :: t) →
    ∃ q rest, advance bytes pos = some q ∧ At bytes q rest ∧ first r (c :: t) = some rest ∧
      rest.length ≤ t.length

/-- The pretokens, from the position on: `advance` ends each one, `n` of them at most. -/
def pretokens (advance : List UInt8 → ℕ → Option ℕ) (bytes : List UInt8) :
    ℕ → ℕ → Option (List (List UInt8))
  | 0, pos => if pos < bytes.length then none else some []
  | n + 1, pos =>
      if pos < bytes.length then do
        let stop ← advance bytes pos
        let rest ← pretokens advance bytes n stop
        return (bytes.drop pos).take (stop - pos) :: rest
      else some []

/-- The walk cuts a text in the pieces that the tokens extend. -/
lemma exists_pretokens (Cut : List Char → List (List Char) → Prop)
    {advance : List UInt8 → ℕ → Option ℕ} (hnil : Cut [] [])
    (hadvance : ∀ bytes pos c t, At bytes pos (c :: t) → ∃ q piece rest,
      advance bytes pos = some q ∧ At bytes q rest ∧ piece ≠ [] ∧ c :: t = piece ++ rest ∧
        ∀ pieces, Cut rest pieces → Cut (c :: t) (piece :: pieces)) (t : List Char) :
    ∃ pieces, Cut t pieces ∧
      pretokens advance (textBytes t) (textBytes t).length 0 = some (pieces.map textBytes) := by
  have hwalk : ∀ (n : ℕ) (bytes : List UInt8) (pos : ℕ) (u : List Char), At bytes pos u →
      u.length ≤ n → ∃ pieces, Cut u pieces ∧
        pretokens advance bytes n pos = some (pieces.map textBytes) := by
    intro n
    induction n with
    | zero =>
        intro bytes pos u hu hn
        obtain rfl := List.length_eq_zero_iff.mp (Nat.le_zero.mp hn)
        exact ⟨[], hnil, if_neg hu.not_lt⟩
    | succ n ih =>
        intro bytes pos u hu hn
        cases u with
        | nil => exact ⟨[], hnil, if_neg hu.not_lt⟩
        | cons c u =>
            obtain ⟨q, piece, rest, hq, hrest, hne, hpiece, hcut⟩ := hadvance bytes pos c u hu
            have hshort : rest.length ≤ n := by
              have hlen := congrArg List.length hpiece
              have := List.length_pos_of_ne_nil hne
              rw [List.length_append] at hlen
              omega
            obtain ⟨pieces, hpieces, hwalk⟩ := ih bytes q rest hrest hshort
            refine ⟨piece :: pieces, hcut pieces hpieces, ?_⟩
            have htake : (bytes.drop pos).take (q - pos) = textBytes piece := by
              have hlen := hu.length_eq
              have hlen' := hrest.length_eq
              rw [hpiece, textBytes_append, List.length_append] at hlen
              rw [hu.drop_eq, hpiece, textBytes_append]
              exact List.take_left' (by omega)
            rw [pretokens, if_pos hu.lt, hq, Option.bind_eq_bind, Option.bind_some, hwalk,
              Option.bind_eq_bind, Option.bind_some, htake]
            rfl
  exact hwalk _ _ 0 t (at_zero t) (at_zero t).length_le

/-- The pretokens are the matches of the regex. -/
theorem Scans.pretokens_eq {r : Regex Char} {advance : List UInt8 → ℕ → Option ℕ}
    (h : Scans r advance) (t : List Char) : ∃ pieces, Segments r t pieces ∧
      pretokens advance (textBytes t) (textBytes t).length 0 = some (pieces.map textBytes) := by
  refine exists_pretokens (Segments r) .nil (fun bytes pos c u hu => ?_) t
  obtain ⟨q, rest, hq, hrest, hmatch, hshort⟩ := h bytes pos c u hu
  obtain ⟨piece, hpiece⟩ := suffix_of_first hmatch
  have hne : piece ≠ [] := by
    rintro rfl
    have hlen := congrArg List.length hpiece
    rw [List.nil_append, List.length_cons] at hlen
    omega
  refine ⟨q, piece, rest, hq, hrest, hne, hpiece.symm, fun pieces hpieces => ?_⟩
  rw [← hpiece] at hmatch ⊢
  exact .cons hne hmatch hpieces

end Hypertok
