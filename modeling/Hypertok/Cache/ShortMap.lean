import Hypertok.Cache.Short

/-!
`ShortPretokenCache` as a finite map. A run of calls, each with the hash of its key, takes the table
from map to map.

* `Reached`: the tables that such a run reaches, each with the map that it stands for.
* `Reached.holds`: the entries of the table are those of the map.
* `reached_refines`: lookups, insertions, growth and the probe of a pair are those of the map.
-/

namespace Hypertok

namespace ShortPretokenCache

open Machine

/-- What the map holds after an entry is written. -/
def stored (M : ℕ → Option (ℕ × ℕ)) (e : Entry) : ℕ → Option (ℕ × ℕ) :=
  Function.update M e.key (some (e.val, e.ext))

/-- The tables that a run reaches, and the maps they stand for. An entry is inserted for a key that
is absent; `insert_at` follows a miss of `get_or_slot`, and lookups change nothing. -/
inductive Reached (hash : ℕ → ℕ) : ShortPretokenCache → (ℕ → Option (ℕ × ℕ)) → Prop
  | new {c n minSlots} (hnew : withAtLeast n minSlots = some c) : Reached hash c fun _ => none
  | insertAt {c c' M} {e : Entry} {slot : ℕ} (h : Reached hash c M) (hne : e.key ≠ emptyKey)
      (hmiss : c.getOrSlot e.key (hash e.key) = some (.error slot))
      (hrun : c.insertAt hash slot e (hash e.key) = some c') : Reached hash c' (stored M e)
  | insert {c c' M} {e : Entry} (h : Reached hash c M) (hne : e.key ≠ emptyKey)
      (habsent : M e.key = none) (hrun : c.insert hash e (hash e.key) = some c') :
      Reached hash c' (stored M e)
  | replace {c c' M} {e : Entry} (h : Reached hash c M) (hne : e.key ≠ emptyKey)
      (hrun : c.replace hash e (hash e.key) = some c') : Reached hash c' (stored M e)
  | grow {c c' M} (h : Reached hash c M) (hrun : c.grow hash = some c') : Reached hash c' M

variable {hash : ℕ → ℕ} {c c' : ShortPretokenCache} {M M' : ℕ → Option (ℕ × ℕ)} {e : Entry}
  {key : ℕ}

lemma stored_self : stored M e e.key = some (e.val, e.ext) := Function.update_self ..

lemma stored_of_ne (h : key ≠ e.key) : stored M e key = M key := Function.update_of_ne h ..

/-- The table stands for the map. -/
structure Holds (hash : ℕ → ℕ) (c : ShortPretokenCache) (M : ℕ → Option (ℕ × ℕ)) : Prop where
  valid : Valid hash c
  entries : ∀ key ≠ emptyKey, ∀ v, M key = some v ↔ ∃ e ∈ c.slots, e.key = key ∧ (e.val, e.ext) = v

namespace Holds

lemma eq_none_iff (h : Holds hash c M) (hne : key ≠ emptyKey) :
    M key = none ↔ ∀ e ∈ c.slots, e.key ≠ key := by
  rw [Option.eq_none_iff_forall_ne_some]
  constructor
  · exact fun hnone e he hkey => hnone _ ((h.entries key hne _).mpr ⟨e, he, hkey, rfl⟩)
  · intro hall v hv
    obtain ⟨e, he, hkey, -⟩ := (h.entries key hne v).mp hv
    exact hall e he hkey

/-- The entries of the table after one is written. -/
lemma of_mem (h : Holds hash c M) (hvalid : Valid hash c') (hne : e.key ≠ emptyKey)
    (hmem : ∀ x, x.key ≠ emptyKey → (x ∈ c'.slots ↔ x = e ∨ x.key ≠ e.key ∧ x ∈ c.slots)) :
    Holds hash c' (stored M e) := by
  refine ⟨hvalid, fun key hkey v => ?_⟩
  by_cases heq : key = e.key
  · subst heq
    rw [stored_self, Option.some_inj]
    constructor
    · rintro rfl
      exact ⟨e, (hmem e hne).mpr (.inl rfl), rfl, rfl⟩
    · rintro ⟨x, hx, hxk, rfl⟩
      obtain rfl | ⟨hxne, -⟩ := (hmem x (hxk ▸ hne)).mp hx
      · rfl
      · exact absurd hxk hxne
  · rw [stored_of_ne heq, h.entries key hkey]
    refine exists_congr fun x => ?_
    constructor
    · rintro ⟨hx, rfl, hv⟩
      exact ⟨(hmem x hkey).mpr (.inr ⟨heq, hx⟩), rfl, hv⟩
    · rintro ⟨hx, rfl, hv⟩
      obtain rfl | ⟨-, hx⟩ := (hmem x hkey).mp hx
      · exact absurd rfl heq
      · exact ⟨hx, rfl, hv⟩

/-- The entries of the table after one is added for a new key. -/
lemma of_insert (h : Holds hash c M) (hvalid : Valid hash c') (hne : e.key ≠ emptyKey)
    (habsent : ∀ x ∈ c.slots, x.key ≠ e.key)
    (hmem : ∀ x, x.key ≠ emptyKey → (x ∈ c'.slots ↔ x = e ∨ x ∈ c.slots)) :
    Holds hash c' (stored M e) := by
  refine h.of_mem hvalid hne fun x hx => (hmem x hx).trans (or_congr_right ?_)
  exact ⟨fun hxc => ⟨habsent x hxc, hxc⟩, And.right⟩

/-- A lookup finds what the map holds, or the first empty slot of the probe sequence. -/
lemma getOrSlot (h : Holds hash c M) (hne : key ≠ emptyKey) :
    (∃ v, M key = some v ∧ c.getOrSlot key (hash key) = some (.ok v)) ∨
      M key = none ∧ ∃ i e₀, (probing hash c.mask c.slots.length).Full c.slots key i ∧
        c.slots[(probing hash c.mask c.slots.length).index key i]? = some e₀ ∧
        e₀.key = emptyKey ∧ c.getOrSlot key (hash key) =
          some (.error ((probing hash c.mask c.slots.length).index key i)) := by
  obtain ⟨e, he, hkey, hfound⟩ | ⟨i, e₀, hfull, he₀, hempty, hmiss⟩ := h.valid.getOrSlot key
  · exact .inl ⟨_, (h.entries key hne _).mpr ⟨e, he, hkey, rfl⟩, hfound⟩
  · refine .inr ⟨(h.eq_none_iff hne).mpr fun x hx heq => ?_, i, e₀, hfull, he₀, hempty, hmiss⟩
    exact h.valid.placed.probed.not_stores hfull he₀ (probing_key_eq_none.mpr hempty) x
      (probing_stores.mpr ⟨hx, heq, hne⟩)

lemma insertAt {slot : ℕ} (h : Holds hash c M) (hne : e.key ≠ emptyKey)
    (hmiss : c.getOrSlot e.key (hash e.key) = some (.error slot)) :
    ∃ c', c.insertAt hash slot e (hash e.key) = some c' ∧ Holds hash c' (stored M e) := by
  obtain ⟨v, -, hfound⟩ | ⟨hnone, i, e₀, hfull, he₀, hempty, hslot⟩ := h.getOrSlot hne
  · rw [hmiss] at hfound
    cases hfound
  · rw [hmiss] at hslot
    obtain rfl := Except.error.inj (Option.some_inj.mp hslot)
    obtain ⟨c', hrun, hvalid, hmem⟩ := h.valid.insertAt hne hfull he₀ hempty
    exact ⟨c', hrun, h.of_insert hvalid hne ((h.eq_none_iff hne).mp hnone) hmem⟩

lemma insert (h : Holds hash c M) (hne : e.key ≠ emptyKey) (habsent : M e.key = none) :
    ∃ c', c.insert hash e (hash e.key) = some c' ∧ Holds hash c' (stored M e) := by
  have hnew := (h.eq_none_iff hne).mp habsent
  obtain ⟨c', hrun, hvalid, hmem⟩ := h.valid.insert hne hnew
  exact ⟨c', hrun, h.of_insert hvalid hne hnew hmem⟩

lemma replace (h : Holds hash c M) (hne : e.key ≠ emptyKey) :
    ∃ c', c.replace hash e (hash e.key) = some c' ∧ Holds hash c' (stored M e) := by
  obtain ⟨c', hrun, hvalid, hmem⟩ := h.valid.replace hne
  exact ⟨c', hrun, h.of_mem hvalid hne hmem⟩

lemma grow (h : Holds hash c M) : ∃ c', c.grow hash = some c' ∧ Holds hash c' M := by
  obtain ⟨c', hrun, hplaced, hused, hlen, hslots, hmem⟩ := h.valid.grow
  have hload := h.valid.load
  refine ⟨c', hrun, ⟨hplaced, hused.trans hlen.symm, by omega⟩, fun key hkey v => ?_⟩
  rw [h.entries key hkey]
  refine exists_congr fun x => ?_
  constructor
  · rintro ⟨hx, rfl, hv⟩
    exact ⟨(hmem x hkey).mpr hx, rfl, hv⟩
  · rintro ⟨hx, rfl, hv⟩
    exact ⟨(hmem x hkey).mp hx, rfl, hv⟩

end Holds

/-- A table that is reached stands for its map. -/
lemma Reached.holds (h : Reached hash c M) : Holds hash c M := by
  induction h with
  | @new c n minSlots hnew =>
      obtain ⟨c', hc', hvalid, hempty⟩ := withAtLeast_valid hash n minSlots
      obtain rfl := Option.some_inj.mp (hnew.symm.trans hc')
      refine ⟨hvalid, fun key hkey v => iff_of_false (Option.some_ne_none v).symm ?_⟩
      rintro ⟨e, he, rfl, -⟩
      exact hkey (hempty e he)
  | insertAt h hne hmiss hrun ih =>
      obtain ⟨c', hrun', hc'⟩ := ih.insertAt hne hmiss
      exact Option.some_inj.mp (hrun'.symm.trans hrun) ▸ hc'
  | insert h hne habsent hrun ih =>
      obtain ⟨c', hrun', hc'⟩ := ih.insert hne habsent
      exact Option.some_inj.mp (hrun'.symm.trans hrun) ▸ hc'
  | replace h hne hrun ih =>
      obtain ⟨c', hrun', hc'⟩ := ih.replace hne
      exact Option.some_inj.mp (hrun'.symm.trans hrun) ▸ hc'
  | grow h hrun ih =>
      obtain ⟨c', hrun', hc'⟩ := ih.grow
      exact Option.some_inj.mp (hrun'.symm.trans hrun) ▸ hc'

/-- `ShortPretokenCache` refines a finite map over the keys that are not zero: in every table that
is reached, a lookup returns what the map holds, or on a miss the first empty slot of the probe
sequence; the calls that write return, and the probe of a pair reports what a lookup returns. -/
theorem reached_refines (h : Reached hash c M) {key : ℕ} (hne : key ≠ emptyKey) :
    ((∃ v, M key = some v ∧ c.getOrSlot key (hash key) = some (.ok v)) ∨
      M key = none ∧ ∃ i, (∀ j < i, ∃ e, c.slots[(homePair c.mask (hash key) + j) %
          c.slots.length]? = some e ∧ e.key ≠ emptyKey) ∧
        (∃ e, c.slots[(homePair c.mask (hash key) + i) % c.slots.length]? = some e ∧
          e.key = emptyKey) ∧
        c.getOrSlot key (hash key) =
          some (.error ((homePair c.mask (hash key) + i) % c.slots.length))) ∧
    (∀ e : Entry, e.key = key → (∃ c', c.replace hash e (hash key) = some c') ∧
      (M key = none → ∃ c', c.insert hash e (hash key) = some c') ∧
      ∀ slot, c.getOrSlot key (hash key) = some (.error slot) →
        ∃ c', c.insertAt hash slot e (hash key) = some c') ∧
    (∃ c', c.grow hash = some c') ∧
    ∃ val ext found, c.probePair key (hash key) = some (val, ext, found) ∧
      (found = true → c.getOrSlot key (hash key) = some (.ok (val, ext))) := by
  have hholds := h.holds
  refine ⟨?_, ?_, ?_, ?_⟩
  · obtain hfound | ⟨hnone, i, e₀, hfull, he₀, hempty, hmiss⟩ := hholds.getOrSlot hne
    · exact .inl hfound
    · refine .inr ⟨hnone, i, fun j hj => ?_, ⟨e₀, he₀, hempty⟩, hmiss⟩
      obtain ⟨s, k', hs, hk', -⟩ := hfull j hj
      obtain ⟨rfl, hk'⟩ := probing_key_eq_some.mp hk'
      exact ⟨s, hs, hk'⟩
  · rintro e rfl
    refine ⟨?_, fun habsent => ?_, fun slot hmiss => ?_⟩
    · obtain ⟨c', hrun, -⟩ := hholds.replace hne
      exact ⟨c', hrun⟩
    · obtain ⟨c', hrun, -⟩ := hholds.insert hne habsent
      exact ⟨c', hrun⟩
    · obtain ⟨c', hrun, -⟩ := hholds.insertAt hne hmiss
      exact ⟨c', hrun⟩
  · obtain ⟨c', hrun, -⟩ := hholds.grow
    exact ⟨c', hrun⟩
  · obtain ⟨val, ext, found, hprobe, hentry⟩ := hholds.valid.probePair key (hash key)
    refine ⟨val, ext, found, hprobe, fun hfound => ?_⟩
    obtain ⟨e, he, hkey, rfl, rfl⟩ := hentry hfound
    have hM := (hholds.entries key hne _).mpr ⟨e, he, hkey, rfl⟩
    obtain ⟨v, hv, hget⟩ | ⟨hnone, -⟩ := hholds.getOrSlot hne
    · rwa [Option.some_inj.mp (hM.symm.trans hv)]
    · rw [hnone] at hM
      cases hM

/-- An entry that is inserted in a new table is found. -/
theorem reached_refines_insert : ∃ c c', withAtLeast 0 0 = some c ∧
    c.insert id ⟨1, 2, 3⟩ 1 = some c' ∧ c'.getOrSlot 1 1 = some (.ok (2, 3)) := by
  obtain ⟨c, hc, -⟩ := withAtLeast_valid id 0 0
  have hnew : Reached id c fun _ => none := .new hc
  obtain ⟨c', hc', -⟩ := hnew.holds.insert (e := ⟨1, 2, 3⟩) Nat.one_ne_zero rfl
  have hreach := hnew.insert (e := ⟨1, 2, 3⟩) Nat.one_ne_zero rfl hc'
  obtain ⟨⟨v, hv, hget⟩ | ⟨hnone, -⟩, -⟩ := reached_refines hreach (show 1 ≠ emptyKey from Nat.one_ne_zero)
  · obtain rfl := Option.some_inj.mp hv
    exact ⟨c, c', hc, hc', hget⟩
  · exact absurd hnone (Option.some_ne_none _)

end ShortPretokenCache

end Hypertok
