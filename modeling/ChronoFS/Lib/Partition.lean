import ChronoFS.Lib.Ownership

/-!
# Blocks that are all accounted for

`Parted ref pool area` says that the blocks of `area` are parted: each of them is in `pool` once, or
is the block of one owner, and never both. The pool is what an allocator has to hand out, with what it
has just handed out; the two moves give a block of the pool to an owner that has none (`attach`) and take
it back (`detach`). Nothing is lost in them, and nothing is handed out twice.
-/

variable {ι : Type*}

/-- Every block of the area is in the pool once or has one owner. -/
structure Parted (ref : ι → ℕ) (pool : List ℕ) (area : ℕ → Prop) : Prop where
  /-- No block has two places. -/
  own : Own ref pool (fun _ => true) area
  /-- Every block has one. -/
  full : ∀ b, area b → b ∈ pool ∨ ∃ o, ref o = b
  /-- There is no block `0`. -/
  zero : ¬ area 0

namespace Parted

variable {ref ref' : ι → ℕ} {pool pool' : List ℕ} {area : ℕ → Prop} {b : ℕ} {o : ι}

/-- A block of the pool has no owner. -/
theorem pool_ne (h : Parted ref pool area) (hb : b ∈ pool) (o : ι) : ref o ≠ b :=
  (h.own.held b hb).2.2.2 o

theorem pool_area (h : Parted ref pool area) (hb : b ∈ pool) : area b := (h.own.held b hb).2.1

theorem pool_ne_zero (h : Parted ref pool area) (hb : b ∈ pool) : b ≠ 0 := (h.own.held b hb).1

/-- A block of the pool is given to an owner that has none. -/
theorem attach (h : Parted ref (b :: pool) area) (hz : ref o = 0)
    (ho : ∀ o', o' ≠ o → ref' o' = ref o') (hb : ref' o = b) : Parted ref' pool area := by
  refine ⟨h.own.attach ho hb, fun c hc => ?_, h.zero⟩
  rcases h.full c hc with hmem | ⟨o', rfl⟩
  · rcases List.mem_cons.mp hmem with rfl | hmem
    · exact .inr ⟨o, hb⟩
    · exact .inl hmem
  · refine .inr ⟨o', ho o' ?_⟩
    rintro rfl
    rw [hz] at hc
    exact h.zero hc

/-- An owner's block is taken back. -/
theorem detach (h : Parted ref pool area) (hne : ref o ≠ 0) (hz : ref' o = 0)
    (ho : ∀ o', o' ≠ o → ref' o' = ref o') : Parted ref' (ref o :: pool) area := by
  have hown := h.own.detach (l := [o]) (List.nodup_singleton o)
    (fun o' hm => List.mem_singleton.mp hm ▸ hne) (fun o' hm => List.mem_singleton.mp hm ▸ hz)
    fun o' hm => ho o' fun heq => hm (List.mem_singleton.mpr heq)
  refine ⟨hown, fun c hc => ?_, h.zero⟩
  rcases h.full c hc with hmem | ⟨o', rfl⟩
  · exact .inl (List.mem_cons_of_mem _ hmem)
  · by_cases hoo : o' = o
    · exact .inl (hoo ▸ List.mem_cons_self)
    · exact .inr ⟨o', ho o' hoo⟩

/-- The order of the pool does not matter. -/
theorem perm (h : Parted ref pool area) (hp : pool'.Perm pool) : Parted ref pool' area :=
  ⟨h.own.perm hp, fun c hc => (h.full c hc).imp_left hp.mem_iff.mpr, h.zero⟩

/-- The owners may be named otherwise, and some that have no block may be left out. -/
theorem reindex {κ : Type*} {ref' : κ → ℕ} (h : Parted ref pool area) (f : κ → ι)
    (hf : Function.Injective f) (href : ∀ x, ref' x = ref (f x))
    (hrest : ∀ o, ref o ≠ 0 → ∃ x, f x = o) : Parted ref' pool area := by
  obtain rfl : ref' = fun x => ref (f x) := funext href
  refine ⟨⟨fun x => h.own.inArea (f x), fun _ _ => rfl, fun x y hx heq => hf (h.own.inj _ _ hx heq),
    fun c hc => ?_, h.own.nodup⟩, fun c hc => ?_, h.zero⟩
  · obtain ⟨h0, harea, hused, hno⟩ := h.own.held c hc
    exact ⟨h0, harea, hused, fun x => hno (f x)⟩
  · refine (h.full c hc).imp_right ?_
    rintro ⟨o, rfl⟩
    obtain ⟨x, rfl⟩ := hrest o fun hz => h.zero (hz ▸ hc)
    exact ⟨x, rfl⟩

/-- There may be more owners, which have no blocks. -/
theorem sumZero {κ : Type*} (h : Parted ref pool area) :
    Parted (Sum.elim ref fun _ : κ => 0) pool area := by
  refine ⟨⟨fun o ho => ?_, fun _ _ => rfl, fun o o' ho heq => ?_, fun b hb => ?_, h.own.nodup⟩,
    fun b hb => ?_, h.zero⟩
  · cases o with
    | inl o => exact h.own.inArea o ho
    | inr _ => exact absurd rfl ho
  · cases o with
    | inl o =>
      cases o' with
      | inl o' => exact congrArg Sum.inl (h.own.inj o o' ho heq)
      | inr _ => exact absurd heq ho
    | inr _ => exact absurd rfl ho
  · obtain ⟨hb0, harea, hused, hno⟩ := h.own.held b hb
    refine ⟨hb0, harea, hused, fun o => ?_⟩
    cases o with
    | inl o => exact hno o
    | inr _ => exact Ne.symm hb0
  · exact (h.full b hb).imp_right fun ⟨o, ho⟩ => ⟨.inl o, ho⟩

open Classical in
/-- An owner for each block that is not in the pool and has none of the owners. -/
noncomputable def rest (ref : ι → ℕ) (pool : List ℕ) (area : ℕ → Prop) (b : ℕ) : ℕ :=
  if area b ∧ b ∉ pool ∧ ∀ o, ref o ≠ b then b else 0

/-- Blocks with at most one owner are parted if the rest has owners too. -/
theorem complete (h : Own ref pool (fun _ => true) area) (h0 : ¬ area 0) :
    Parted (Sum.elim (rest ref pool area) ref) pool area := by
  have hrest : ∀ b, rest ref pool area b ≠ 0 →
      rest ref pool area b = b ∧ area b ∧ b ∉ pool ∧ ∀ o, ref o ≠ b := by
    intro b hb
    unfold rest at hb ⊢
    split_ifs with hc
    · exact ⟨rfl, hc⟩
    · rw [if_neg hc] at hb
      exact absurd rfl hb
  refine ⟨⟨fun o ho => ?_, fun _ _ => rfl, fun o o' ho heq => ?_, fun b hb => ?_, h.nodup⟩,
    fun b hb => ?_, h0⟩
  · cases o with
    | inl b =>
      obtain ⟨heq, harea, -⟩ := hrest b ho
      show area (rest ref pool area b)
      rw [heq]
      exact harea
    | inr o => exact h.inArea o ho
  · have ho' : Sum.elim (rest ref pool area) ref o' ≠ 0 := heq ▸ ho
    cases o with
    | inl b =>
      obtain ⟨hb, -, -, hno⟩ := hrest b ho
      cases o' with
      | inl b' => exact congrArg Sum.inl (hb.symm.trans (heq.trans (hrest b' ho').1))
      | inr o' => exact absurd (heq.symm.trans hb) (hno o')
    | inr o =>
      cases o' with
      | inl b' => exact absurd (heq.trans (hrest b' ho').1) ((hrest b' ho').2.2.2 o)
      | inr o' => exact congrArg Sum.inr (h.inj o o' ho heq)
  · obtain ⟨hb0, harea, hused, hno⟩ := h.held b hb
    refine ⟨hb0, harea, hused, fun o heq => ?_⟩
    cases o with
    | inl b' =>
      have hne : rest ref pool area b' ≠ 0 := fun hz => hb0 (heq.symm.trans hz)
      obtain ⟨hb', -, hmem, -⟩ := hrest b' hne
      exact hmem (hb'.symm.trans heq ▸ hb)
    | inr o => exact hno o heq
  · by_cases hmem : b ∈ pool
    · exact .inl hmem
    · by_cases ho : ∃ o, ref o = b
      · obtain ⟨o, rfl⟩ := ho
        exact .inr ⟨.inr o, rfl⟩
      · exact .inr ⟨.inl b, if_pos ⟨hb, hmem, fun o heq => ho ⟨o, heq⟩⟩⟩

end Parted
