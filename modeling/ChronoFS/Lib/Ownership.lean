import Mathlib.Logic.Function.Basic
import Mathlib.Data.List.Nodup
import Mathlib.Tactic

/-!
# Blocks with at most one owner

A store hands out blocks, which are numbers, to owners: `ref o` is the block of the owner `o`, or
`0` when it has none. `Own ref hand used area` says that no two owners have the same block, that
every block with an owner lies in `area` and is marked used, and the same of the blocks `hand`,
which are allocated but have no owner yet, or no longer. The four moves are to allocate a block
(`alloc`), to give one to an owner (`attach`), to take it back (`detach`) and to free it (`free`).
-/

variable {ι : Type*}

/-- Every block has at most one owner, and is used and in the area if it has one. -/
structure Own (ref : ι → ℕ) (hand : List ℕ) (used : ℕ → Bool) (area : ℕ → Prop) : Prop where
  /-- The block of an owner lies in the area. -/
  inArea : ∀ o, ref o ≠ 0 → area (ref o)
  /-- It is marked used. -/
  isUsed : ∀ o, ref o ≠ 0 → used (ref o) = true
  /-- No other owner has it. -/
  inj : ∀ o o', ref o ≠ 0 → ref o = ref o' → o = o'
  /-- The blocks in hand lie in the area, are marked used and have no owner. -/
  held : ∀ b ∈ hand, b ≠ 0 ∧ area b ∧ used b = true ∧ ∀ o, ref o ≠ b
  /-- A block is in hand once. -/
  nodup : hand.Nodup

namespace Own

variable {ref ref' : ι → ℕ} {hand hand' : List ℕ} {used : ℕ → Bool} {area : ℕ → Prop} {b : ℕ}
  {o : ι}

open Function

/-- A block that is not used has no owner and is not in hand. -/
theorem fresh (h : Own ref hand used area) (hb : b ≠ 0) (hu : used b = false) :
    (∀ o, ref o ≠ b) ∧ b ∉ hand := by
  refine ⟨?_, ?_⟩
  · rintro o rfl
    rw [h.isUsed o hb] at hu
    cases hu
  · intro hmem
    rw [(h.held b hmem).2.2.1] at hu
    cases hu

/-- Allocating a block puts it in hand. -/
theorem alloc (h : Own ref hand used area) (hb : b ≠ 0) (ha : area b) (hu : used b = false) :
    Own ref (b :: hand) (update used b true) area := by
  obtain ⟨hfresh, hmem⟩ := h.fresh hb hu
  refine ⟨h.inArea, fun o ho => ?_, h.inj, fun c hc => ?_, List.nodup_cons.mpr ⟨hmem, h.nodup⟩⟩
  · rw [update_of_ne (hfresh o)]
    exact h.isUsed o ho
  · rcases List.mem_cons.mp hc with rfl | hold
    · exact ⟨hb, ha, update_self .., hfresh⟩
    · obtain ⟨h0, harea, hused, hno⟩ := h.held c hold
      rw [update_of_ne (by rintro rfl; exact hmem hold)]
      exact ⟨h0, harea, hused, hno⟩

/-- Freeing a block in hand. -/
theorem free (h : Own ref (b :: hand) used area) : Own ref hand (update used b false) area := by
  obtain ⟨hb, hnd⟩ := List.nodup_cons.mp h.nodup
  obtain ⟨-, -, -, hno⟩ := h.held b List.mem_cons_self
  refine ⟨h.inArea, fun o ho => ?_, h.inj, fun c hc => ?_, hnd⟩
  · rw [update_of_ne (hno o)]
    exact h.isUsed o ho
  · rw [update_of_ne (by rintro rfl; exact hb hc)]
    exact h.held c (List.mem_cons_of_mem _ hc)

/-- Giving blocks in hand to owners. -/
theorem give {l : List ℕ} (h : Own ref (l ++ hand) used area)
    (ho : ∀ o, ref' o = ref o ∨ ref' o ∈ l)
    (hinj : ∀ o o', ref' o ∈ l → ref' o = ref' o' → o = o') : Own ref' hand used area := by
  obtain ⟨-, hnd, hdisj⟩ := List.nodup_append.mp h.nodup
  have htaken : ∀ o, ref' o ∈ l → area (ref' o) ∧ used (ref' o) = true := fun o hm =>
    ⟨(h.held _ (List.mem_append_left _ hm)).2.1, (h.held _ (List.mem_append_left _ hm)).2.2.1⟩
  refine ⟨fun o h' => ?_, fun o h' => ?_, fun o1 o2 h1 h2 => ?_, fun c hc => ?_, hnd⟩
  · rcases ho o with heq | hm
    · rw [heq] at h' ⊢
      exact h.inArea o h'
    · exact (htaken o hm).1
  · rcases ho o with heq | hm
    · rw [heq] at h' ⊢
      exact h.isUsed o h'
    · exact (htaken o hm).2
  · -- an owner's new block is never one that another keeps
    rcases ho o1 with heq1 | hm1
    · rcases ho o2 with heq2 | hm2
      · rw [heq1] at h1 h2
        rw [heq2] at h2
        exact h.inj o1 o2 h1 h2
      · exact (hinj o2 o1 hm2 h2.symm).symm
    · exact hinj o1 o2 hm1 h2
  · obtain ⟨hc0, hca, hcu, hcno⟩ := h.held c (List.mem_append_right _ hc)
    refine ⟨hc0, hca, hcu, fun o heq => ?_⟩
    rcases ho o with heq' | hm
    · exact hcno o (heq'.symm.trans heq)
    · exact hdisj _ hm c hc heq

/-- Giving a block in hand to an owner that has none. -/
theorem attach (h : Own ref (b :: hand) used area) (ho : ∀ o', o' ≠ o → ref' o' = ref o')
    (hb : ref' o = b) : Own ref' hand used area := by
  obtain ⟨-, -, -, hno⟩ := h.held b List.mem_cons_self
  have honly : ∀ o', ref' o' = b → o' = o := by
    intro o' heq
    by_contra hne
    exact hno o' ((ho o' hne).symm.trans heq)
  refine give (l := [b]) h (fun o' => ?_) fun o1 o2 hm heq => ?_
  · by_cases hoo : o' = o
    · rw [hoo, hb]
      exact .inr List.mem_cons_self
    · exact .inl (ho o' hoo)
  · have h1 := List.mem_singleton.mp hm
    rw [honly o1 h1, honly o2 (heq.symm.trans h1)]

/-- Taking their blocks back from the owners in a list. -/
theorem detach (h : Own ref hand used area) {l : List ι} (hl : l.Nodup) (hne : ∀ o ∈ l, ref o ≠ 0)
    (hz : ∀ o ∈ l, ref' o = 0) (ho : ∀ o, o ∉ l → ref' o = ref o) :
    Own ref' (l.map ref ++ hand) used area := by
  have hkeep : ∀ o, ref' o ≠ 0 → ref' o = ref o := fun o h' => ho o fun hm => h' (hz o hm)
  -- an owner that keeps its block is not in the list, so its block is not taken back
  have htaken : ∀ o ∈ l, ∀ o', ref' o' ≠ ref o := by
    intro o hm o' heq
    have hne' : ref' o' ≠ 0 := heq ▸ hne o hm
    have heq' := hkeep o' hne'
    have hoo := h.inj o o' (hne o hm) (heq ▸ heq')
    exact hne' (hz o' (hoo ▸ hm))
  refine ⟨fun o h' => ?_, fun o h' => ?_, fun o1 o2 h1 h2 => ?_, fun c hc => ?_, ?_⟩
  · have heq := hkeep o h'
    rw [heq] at h' ⊢
    exact h.inArea o h'
  · have heq := hkeep o h'
    rw [heq] at h' ⊢
    exact h.isUsed o h'
  · have heq1 := hkeep o1 h1
    have heq2 := hkeep o2 (h2 ▸ h1)
    rw [heq1] at h1 h2
    rw [heq2] at h2
    exact h.inj o1 o2 h1 h2
  · rcases List.mem_append.mp hc with hc | hc
    · obtain ⟨o, hm, rfl⟩ := List.mem_map.mp hc
      exact ⟨hne o hm, h.inArea o (hne o hm), h.isUsed o (hne o hm), htaken o hm⟩
    · obtain ⟨hc0, hca, hcu, hcno⟩ := h.held c hc
      refine ⟨hc0, hca, hcu, fun o heq => hcno o ?_⟩
      rw [← hkeep o (heq ▸ hc0), heq]
  · refine List.nodup_append.mpr ⟨?_, h.nodup, ?_⟩
    · exact hl.map_on fun o hm o' _ heq => h.inj o o' (hne o hm) heq
    · rintro _ hm c hc rfl
      obtain ⟨o, -, heq⟩ := List.mem_map.mp hm
      exact (h.held _ hc).2.2.2 o heq

/-- Owners may lose their blocks. -/
theorem shrink (h : Own ref hand used area) (ho : ∀ o, ref' o = 0 ∨ ref' o = ref o) :
    Own ref' hand used area := by
  have hsome : ∀ o, ref' o ≠ 0 → ref' o = ref o := fun o h' => (ho o).resolve_left h'
  refine ⟨fun o h' => ?_, fun o h' => ?_, fun o1 o2 h1 h2 => ?_, fun c hc => ?_, h.nodup⟩
  · have heq := hsome o h'
    rw [heq] at h' ⊢
    exact h.inArea o h'
  · have heq := hsome o h'
    rw [heq] at h' ⊢
    exact h.isUsed o h'
  · have heq1 := hsome o1 h1
    have heq2 := hsome o2 (h2 ▸ h1)
    rw [heq1] at h1 h2
    rw [heq2] at h2
    exact h.inj o1 o2 h1 h2
  · obtain ⟨hc0, hca, hcu, hcno⟩ := h.held c hc
    refine ⟨hc0, hca, hcu, fun o heq => ?_⟩
    rw [hsome o (heq ▸ hc0)] at heq
    exact hcno o heq

/-- Some of the owners, with nothing in hand. -/
theorem comap {κ : Type*} (h : Own ref hand used area) {f : κ → ι} (hf : Function.Injective f) :
    Own (fun x => ref (f x)) [] used area :=
  ⟨fun x => h.inArea (f x), fun x => h.isUsed (f x),
    fun x y hx heq => hf (h.inj (f x) (f y) hx heq), by nofun, List.nodup_nil⟩

/-- The order of the blocks in hand does not matter. -/
theorem perm (h : Own ref hand used area) (hp : hand'.Perm hand) : Own ref hand' used area :=
  ⟨h.inArea, h.isUsed, h.inj, fun c hc => h.held c (hp.mem_iff.mp hc), hp.nodup_iff.mpr h.nodup⟩

end Own
