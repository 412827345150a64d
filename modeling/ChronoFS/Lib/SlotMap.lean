import Mathlib.Data.List.Basic
import Mathlib.Tactic

/-!
# Maps kept in a table of slots

A table is a list of slots, each free or holding a key with a value. `get` is the map that the table
stands for: the value in the first slot with the key. A new key goes to the first free slot or, if
there is none, to a new slot at the end (`put`); a slot is freed in place (`clear`). If no key is in
two slots (`Distinct`), each operation changes the map at one key only and keeps the keys apart. That
follows from which slot it changes, and from that slot being the one for the key (`Stores`).
-/

/-- A table of slots. -/
abbrev SlotMap (κ ν : Type*) := List (Option (κ × ν))

namespace SlotMap

variable {κ ν : Type*} {m : SlotMap κ ν} {k k' : κ} {v : ν} {i j : ℕ}

/-- The first slot that passes a test, among slots that are numbered. -/
theorem findIdx?_map_range {α : Type*} (f : ℕ → α) (p : α → Bool) (n : ℕ) :
    ((List.range n).map f).findIdx? p = (List.range n).find? fun i => p (f i) := by
  refine Option.ext fun i => ?_
  rw [List.findIdx?_eq_some_iff_getElem, List.find?_range_eq_some]
  simp only [List.length_map, List.length_range, List.getElem_map, List.getElem_range,
    List.mem_range]
  constructor
  · rintro ⟨hi, hp, hno⟩
    exact ⟨hp, hi, fun j hj => by simpa using hno j hj⟩
  · rintro ⟨hp, hi, hno⟩
    exact ⟨hi, hp, fun j hj => by simpa using hno j hj⟩

/-- No key is in two slots. -/
def Distinct (m : SlotMap κ ν) : Prop :=
  ∀ (i j : ℕ) (e e' : κ × ν), m[i]? = some (some e) → m[j]? = some (some e') → e.1 = e'.1 → i = j

instance [DecidableEq κ] : Decidable m.Distinct :=
  decidable_of_iff (∀ i : Fin m.length, ∀ j : Fin m.length, ∀ e ∈ m[i], ∀ e' ∈ m[j],
      e.1 = e'.1 → i = j) <| by
    constructor
    · intro h i j e e' hi hj heq
      obtain ⟨hi', he⟩ := List.getElem?_eq_some_iff.mp hi
      obtain ⟨hj', he'⟩ := List.getElem?_eq_some_iff.mp hj
      exact congrArg Fin.val (h ⟨i, hi'⟩ ⟨j, hj'⟩ e he e' he' heq)
    · intro h i j e he e' he' heq
      exact Fin.ext (h i j e e' (List.getElem?_eq_some_iff.mpr ⟨i.isLt, he⟩)
        (List.getElem?_eq_some_iff.mpr ⟨j.isLt, he'⟩) heq)

/-- The slot that the next key goes to: the first free one, or a new one. -/
def putIndex (m : SlotMap κ ν) : ℕ := (m.findIdx? (·.isNone)).getD m.length

/-- Put a key into the first free slot, or at the end. -/
def put (m : SlotMap κ ν) (k : κ) (v : ν) : SlotMap κ ν :=
  match m.findIdx? (·.isNone) with
  | some i => m.set i (some (k, v))
  | none => m ++ [some (k, v)]

/-- Free a slot. -/
def clear (m : SlotMap κ ν) (i : ℕ) : SlotMap κ ν := m.set i none

/-- The slot that a key goes to holds nothing. -/
theorem putIndex_free (m : SlotMap κ ν) (e : κ × ν) : m[m.putIndex]? ≠ some (some e) := by
  unfold putIndex
  cases hfree : m.findIdx? (·.isNone) with
  | none =>
    rw [Option.getD_none, List.getElem?_eq_none le_rfl]
    nofun
  | some i =>
    obtain ⟨hlt, hnone, -⟩ := List.findIdx?_eq_some_iff_getElem.mp hfree
    rw [Option.getD_some, List.getElem?_eq_getElem hlt, Option.isNone_iff_eq_none.mp hnone]
    nofun

/-- Putting a key changes one slot. -/
theorem getElem?_put (m : SlotMap κ ν) (k : κ) (v : ν) (j : ℕ) :
    (m.put k v)[j]? = if j = m.putIndex then some (some (k, v)) else m[j]? := by
  unfold put putIndex
  cases hfree : m.findIdx? (·.isNone) with
  | none =>
    dsimp only [Option.getD_none]
    rw [List.getElem?_append]
    rcases lt_trichotomy j m.length with hlt | heq | hgt
    · rw [if_pos hlt, if_neg (by omega)]
    · rw [if_neg (by omega), if_pos heq, heq, Nat.sub_self]
      rfl
    · rw [if_neg (by omega), if_neg (by omega), List.getElem?_eq_none (by simp; omega),
        List.getElem?_eq_none (by omega)]
  | some i =>
    obtain ⟨hlt, -, -⟩ := List.findIdx?_eq_some_iff_getElem.mp hfree
    dsimp only [Option.getD_some]
    rw [List.getElem?_set]
    by_cases hij : i = j
    · rw [if_pos hij, if_pos hij.symm, if_pos (hij ▸ hlt)]
    · rw [if_neg hij, if_neg (Ne.symm hij)]

/-- Freeing a slot changes that slot. -/
theorem getElem?_clear (m : SlotMap κ ν) (i j : ℕ) :
    (m.clear i)[j]? = if i = j ∧ j < m.length then some none else m[j]? := by
  unfold clear
  rw [List.getElem?_set]
  by_cases hij : i = j
  · by_cases hlt : j < m.length
    · rw [if_pos hij, if_pos (by omega), if_pos ⟨hij, hlt⟩]
    · rw [if_pos hij, if_neg (by omega), if_neg fun h => hlt h.2, List.getElem?_eq_none (by omega)]
  · rw [if_neg hij, if_neg fun h => hij h.1]

/-- Freeing a slot keeps the keys apart. -/
theorem Distinct.clear (h : m.Distinct) (i : ℕ) : (m.clear i).Distinct := by
  intro j j' e e' hj hj' heq
  rw [getElem?_clear] at hj hj'
  split at hj
  · nomatch hj
  · split at hj'
    · nomatch hj'
    · exact h j j' e e' hj hj' heq

/-- `m'` is `m` with slot `i`, the one slot for `k`, holding `k` with the value `x`, or free. -/
structure Stores (m m' : SlotMap κ ν) (i : ℕ) (k : κ) (x : Option ν) : Prop where
  /-- No other slot changes. -/
  slot : ∀ j : ℕ, m'[j]? = if j = i then some (x.map (Prod.mk k)) else m[j]?
  /-- The slot holds no other key, and no other slot holds `k`. -/
  only : ∀ (j : ℕ) (e : κ × ν), m[j]? = some (some e) → (j = i ↔ e.1 = k)

variable {m' : SlotMap κ ν} {x : Option ν}

/-- What the slots hold afterwards. -/
theorem Stores.getElem?_iff (h : Stores m m' i k x) (j : ℕ) (e : κ × ν) :
    m'[j]? = some (some e) ↔
      (j = i ∧ e.1 = k ∧ x = some e.2) ∨ (e.1 ≠ k ∧ m[j]? = some (some e)) := by
  rw [h.slot]
  obtain ⟨k', w⟩ := e
  by_cases hj : j = i
  · rw [if_pos hj]
    have hold : k' ≠ k → m[j]? ≠ some (some (k', w)) := fun hne he => hne ((h.only j _ he).mp hj)
    cases x with
    | none => simpa using hold
    | some v => grind
  · rw [if_neg hj]
    have hne : m[j]? = some (some (k', w)) → k' ≠ k := fun he heq => hj ((h.only j _ he).mpr heq)
    simpa [hj] using hne

/-- The keys stay apart. -/
theorem Stores.distinct (h : Stores m m' i k x) (hd : m.Distinct) : m'.Distinct := by
  intro j j' e e' hj hj' heq
  rcases (h.getElem?_iff j e).mp hj with ⟨rfl, hk, -⟩ | ⟨hk, hold⟩
  · rcases (h.getElem?_iff j' e').mp hj' with ⟨rfl, -, -⟩ | ⟨hk', -⟩
    · rfl
    · exact absurd (heq.symm.trans hk) hk'
  · rcases (h.getElem?_iff j' e').mp hj' with ⟨rfl, hk', -⟩ | ⟨-, hold'⟩
    · exact absurd (heq.trans hk') hk
    · exact hd j j' e e' hold hold' heq

section Keys

variable [DecidableEq κ]

/-- The slot holds the key. -/
def holds (k : κ) (x : Option (κ × ν)) : Bool := x.any fun e => e.1 = k

/-- The first slot that holds the key. -/
def index (m : SlotMap κ ν) (k : κ) : Option ℕ := m.findIdx? (holds k)

/-- The value of the key. -/
def get (m : SlotMap κ ν) (k : κ) : Option ν :=
  (m.index k).bind fun i => m[i]?.join.map Prod.snd

theorem holds_iff {x : Option (κ × ν)} : holds k x = true ↔ ∃ v, x = some (k, v) := by
  cases x with
  | none => simp [holds]
  | some e =>
    obtain ⟨k', v⟩ := e
    simp [holds]

/-- The slot that is found holds the key. -/
theorem getElem?_of_index (h : m.index k = some i) : ∃ v, m[i]? = some (some (k, v)) := by
  obtain ⟨hlt, hholds, -⟩ := List.findIdx?_eq_some_iff_getElem.mp h
  obtain ⟨v, hv⟩ := holds_iff.mp hholds
  exact ⟨v, by rw [List.getElem?_eq_getElem hlt, hv]⟩

/-- A key in some slot is found. -/
theorem index_isSome (h : m[i]? = some (some (k, v))) : ∃ j, m.index k = some j := by
  cases hidx : m.index k with
  | some j => exact ⟨j, rfl⟩
  | none =>
    have hno := List.findIdx?_eq_none_iff.mp hidx _ (List.mem_of_getElem? h)
    rw [holds_iff.mpr ⟨v, rfl⟩] at hno
    nomatch hno

theorem index_eq_none_iff : m.index k = none ↔ ∀ (i : ℕ) (v : ν), m[i]? ≠ some (some (k, v)) := by
  constructor
  · intro hnone i v hi
    obtain ⟨j, hj⟩ := index_isSome hi
    rw [hnone] at hj
    nomatch hj
  · intro hall
    by_contra hsome
    obtain ⟨i, hi⟩ := Option.ne_none_iff_exists'.mp hsome
    obtain ⟨v, hv⟩ := getElem?_of_index hi
    exact hall i v hv

theorem get_eq_none_iff : m.get k = none ↔ ∀ (i : ℕ) (v : ν), m[i]? ≠ some (some (k, v)) := by
  rw [← index_eq_none_iff]
  unfold get
  cases hidx : m.index k with
  | none => simp
  | some i =>
    obtain ⟨v, hv⟩ := getElem?_of_index hidx
    simp [hv]

theorem index_eq_none_iff_get : m.index k = none ↔ m.get k = none := by
  rw [index_eq_none_iff, get_eq_none_iff]

/-- The key in slot `i` is found there. -/
theorem Distinct.index_eq (h : m.Distinct) (hi : m[i]? = some (some (k, v))) :
    m.index k = some i := by
  obtain ⟨j, hj⟩ := index_isSome hi
  obtain ⟨w, hw⟩ := getElem?_of_index hj
  rw [hj, h j i _ _ hw hi rfl]

/-- The map of a table: what is in its slots. -/
theorem Distinct.get_eq_some_iff (h : m.Distinct) :
    m.get k = some v ↔ ∃ i : ℕ, m[i]? = some (some (k, v)) := by
  constructor
  · intro hget
    obtain ⟨i, hidx, hval⟩ := Option.bind_eq_some_iff.mp hget
    obtain ⟨w, hw⟩ := getElem?_of_index hidx
    rw [hw] at hval
    obtain rfl : w = v := Option.some.inj hval
    exact ⟨i, hw⟩
  · rintro ⟨i, hi⟩
    unfold get
    rw [h.index_eq hi, Option.bind_some, hi]
    rfl

/-! ## The operations on the map -/

/-- The map changes at `k` only. -/
theorem Stores.get (h : Stores m m' i k x) (hd : m.Distinct) (k' : κ) :
    m'.get k' = if k' = k then x else m.get k' := by
  refine Option.ext fun w => ?_
  rw [(h.distinct hd).get_eq_some_iff]
  simp only [h.getElem?_iff]
  by_cases hk : k' = k
  · simp [hk]
  · rw [if_neg hk, hd.get_eq_some_iff]
    simp [hk]

/-- Putting a new key. -/
theorem stores_put (hnew : m.index k = none) (v : ν) :
    Stores m (m.put k v) m.putIndex k (some v) where
  slot := getElem?_put m k v
  only j e he := ⟨fun hj => absurd (hj ▸ he) (putIndex_free m e), fun hk => by
    obtain ⟨k', v'⟩ := e
    obtain rfl : k' = k := hk
    exact absurd he (index_eq_none_iff.mp hnew j v')⟩

/-- A new value for a key, or its removal, in place. -/
theorem Distinct.stores_set (h : m.Distinct) (hi : m.index k = some i) (x : Option ν) :
    Stores m (m.set i (x.map (Prod.mk k))) i k x := by
  obtain ⟨v, hv⟩ := getElem?_of_index hi
  refine ⟨fun j => ?_, fun j e he => ⟨fun hj => ?_, fun hk => h j i e (k, v) he hv hk⟩⟩
  · rw [List.getElem?_set]
    by_cases hj : j = i
    · rw [if_pos hj.symm, if_pos hj, if_pos (List.getElem?_eq_some_iff.mp hv).1]
    · rw [if_neg (Ne.symm hj), if_neg hj]
  · rw [hj, hv] at he
    rw [← Option.some.inj (Option.some.inj he)]

/-- Putting a new key sets its value and no other. -/
theorem get_put (h : m.Distinct) (hnew : m.index k = none) (v : ν) (k' : κ) :
    (m.put k v).get k' = if k' = k then some v else m.get k' :=
  (stores_put hnew v).get h k'

/-- Freeing the slot of a key removes that key and no other. -/
theorem get_clear (h : m.Distinct) (hi : m.index k = some i) (k' : κ) :
    (m.clear i).get k' = if k' = k then none else m.get k' :=
  (h.stores_set hi none).get h k'

end Keys

end SlotMap
