import Mathlib.Data.List.Induction
import Mathlib.Data.List.Nodup
import Mathlib.Logic.Function.Basic

/-!
# Circular doubly linked lists

Nodes are linked through `prev` and `next`; a list is a ring of nodes with a head that is no element
of it. `Ring h l` says that the ring with head `h` has the elements `l`, in this order from `h` on.
`unlink` and `pushFront` are the pointer operations, and `scan` is the loop that follows one of the
pointers from the head until a node with some property, or the head, is met; on a ring it is
`List.find?`.
-/

open Function

/-- The pointers of the nodes. -/
structure Links (α : Type*) where
  /-- The node before. -/
  prev : α → α
  /-- The node after. -/
  next : α → α

namespace Links

variable {α : Type*} {k k' : Links α} {a b c h : α} {l l₁ l₂ : List α}

/-- The nodes `l` are linked in this order between `a` and `c`. -/
def Seg (k : Links α) : α → List α → α → Prop
  | a, [], c => k.next a = c ∧ k.prev c = a
  | a, b :: l, c => (k.next a = b ∧ k.prev b = a) ∧ Seg k b l c

/-- The ring with head `h` has the elements `l`. -/
structure Ring (k : Links α) (h : α) (l : List α) : Prop where
  /-- No node is met twice. -/
  nodup : (h :: l).Nodup
  /-- The elements are linked in this order. -/
  seg : k.Seg h l h

/-- A segment is made of the pointers out of its nodes. -/
theorem Seg.congr (hs : k.Seg a l c) (hnext : ∀ x ∈ a :: l, k'.next x = k.next x)
    (hprev : ∀ x ∈ l ++ [c], k'.prev x = k.prev x) : k'.Seg a l c := by
  induction l generalizing a with
  | nil =>
    constructor
    · rw [hnext a List.mem_cons_self]
      exact hs.1
    · rw [hprev c List.mem_cons_self]
      exact hs.2
  | cons b l ih =>
    obtain ⟨⟨hn, hp⟩, hrest⟩ := hs
    refine ⟨⟨?_, ?_⟩, ih hrest (fun x hx => hnext x (List.mem_cons_of_mem _ hx))
      fun x hx => hprev x (List.mem_cons_of_mem _ hx)⟩
    · rw [hnext a List.mem_cons_self]
      exact hn
    · rw [hprev b List.mem_cons_self]
      exact hp

theorem seg_append : k.Seg a (l₁ ++ b :: l₂) c ↔ k.Seg a l₁ b ∧ k.Seg b l₂ c := by
  induction l₁ generalizing a with
  | nil => exact Iff.rfl
  | cons x l₁ ih =>
    show (_ ∧ k.Seg x (l₁ ++ b :: l₂) c) ↔ (_ ∧ k.Seg x l₁ b) ∧ _
    rw [ih]
    exact and_assoc.symm

/-- The first pointer of a segment. -/
theorem Seg.next_mem (hs : k.Seg a l c) : k.next a ∈ l ++ [c] := by
  cases l with
  | nil => simp [hs.1]
  | cons b l => simp [hs.1.1]

/-- The last pointer of a segment. -/
theorem Seg.prev_mem (hs : k.Seg a l c) : k.prev c ∈ a :: l := by
  induction l generalizing a with
  | nil => simp [hs.2]
  | cons b l ih => exact List.mem_cons_of_mem _ (ih hs.2)

/-- A ring without elements. -/
theorem ring_nil (hn : k.next h = h) (hp : k.prev h = h) : k.Ring h [] :=
  ⟨List.nodup_singleton h, hn, hp⟩

section Operations

variable [DecidableEq α]

/-- `b->next->prev = b->prev; b->prev->next = b->next`. -/
def unlink (k : Links α) (b : α) : Links α :=
  let k := { k with prev := update k.prev (k.next b) (k.prev b) }
  { k with next := update k.next (k.prev b) (k.next b) }

/-- `b->next = h->next; b->prev = h; h->next->prev = b; h->next = b`. -/
def pushFront (k : Links α) (h b : α) : Links α :=
  let k := { k with next := update k.next b (k.next h) }
  let k := { k with prev := update k.prev b h }
  let k := { k with prev := update k.prev (k.next h) b }
  { k with next := update k.next h b }

/-- The pointers after `unlink` of a node that is not linked to itself. -/
theorem unlink_eq (hb : k.next b ≠ b) : k.unlink b =
    ⟨update k.prev (k.next b) (k.prev b), update k.next (k.prev b) (k.next b)⟩ := by
  unfold unlink
  dsimp only
  rw [update_of_ne hb.symm]

/-- The pointers after `pushFront` of another node than the head. -/
theorem pushFront_eq (hb : b ≠ h) : k.pushFront h b =
    ⟨update (update k.prev b h) (k.next h) b, update (update k.next b (k.next h)) h b⟩ := by
  unfold pushFront
  dsimp only
  rw [update_of_ne hb.symm]

/-- A segment without one of its nodes. -/
theorem Seg.unlink (h1 : k.Seg a l₁ b) (h2 : k.Seg b l₂ c)
    (hnodup : (a :: l₁ ++ b :: l₂).Nodup) (hc : c ∉ l₁ ++ b :: l₂) :
    (k.unlink b).Seg a (l₁ ++ l₂) c := by
  have hmem := h2.next_mem
  have hne : k.next b ≠ b := by
    intro he
    rw [he] at hmem
    rcases List.mem_append.mp hmem with hb | hb
    · exact (List.nodup_cons.mp (List.nodup_append.mp hnodup).2.1).1 hb
    · rw [← List.mem_singleton.mp hb] at hc
      exact hc (List.mem_append_right _ List.mem_cons_self)
  rw [unlink_eq hne]
  induction l₁ generalizing a with
  | nil =>
    obtain ⟨ha, hpa⟩ := h1
    subst hpa
    obtain ⟨hab, hnodup⟩ : k.prev b ∉ b :: l₂ ∧ (b :: l₂).Nodup := List.nodup_cons.mp hnodup
    cases l₂ with
    | nil =>
      obtain ⟨hn, -⟩ := h2
      subst hn
      exact ⟨update_self .., update_self ..⟩
    | cons d l₂ =>
      obtain ⟨⟨hn, -⟩, hrest⟩ := h2
      subst hn
      obtain ⟨-, hnodup⟩ := List.nodup_cons.mp hnodup
      refine ⟨⟨update_self .., update_self ..⟩, hrest.congr (fun x hx => ?_) fun x hx => ?_⟩
      · apply update_of_ne
        rintro rfl
        exact hab (List.mem_cons_of_mem _ hx)
      · apply update_of_ne
        rintro rfl
        rcases List.mem_append.mp hx with hx | hx
        · exact (List.nodup_cons.mp hnodup).1 hx
        · rw [List.mem_singleton.mp hx] at hc
          exact hc (by simp)
  | cons x l₁ ih =>
    obtain ⟨⟨hn, hp⟩, hrest⟩ := h1
    obtain ⟨ha, hnodup⟩ : a ∉ x :: l₁ ++ b :: l₂ ∧ _ := List.nodup_cons.mp hnodup
    refine ⟨⟨?_, ?_⟩, ih hrest hnodup fun hx => hc (List.mem_cons_of_mem _ hx)⟩
    · refine Eq.trans (update_of_ne ?_ ..) hn
      rintro rfl
      exact ha (List.mem_append_left _ hrest.prev_mem)
    · refine Eq.trans (update_of_ne ?_ ..) hp
      intro he
      rw [← he] at hmem
      rcases List.mem_append.mp hmem with hx | hx
      · exact (List.nodup_cons.mp hnodup).1 (List.mem_append_right _ (List.mem_cons_of_mem _ hx))
      · rw [← List.mem_singleton.mp hx] at hc
        exact hc List.mem_cons_self

/-- An element leaves the ring. -/
theorem Ring.unlink (hr : k.Ring h (l₁ ++ b :: l₂)) : (k.unlink b).Ring h (l₁ ++ l₂) := by
  obtain ⟨h1, h2⟩ := seg_append.mp hr.seg
  obtain ⟨hh, hl⟩ := List.nodup_cons.mp hr.nodup
  constructor
  · have hsub : (l₁ ++ l₂).Sublist (l₁ ++ b :: l₂) :=
      (List.sublist_cons_self b l₂).append_left l₁
    exact List.nodup_cons.mpr ⟨fun hmem => hh (hsub.subset hmem), hl.sublist hsub⟩
  · exact h1.unlink h2 hr.nodup hh

/-- A node enters the ring behind the head. -/
theorem Ring.pushFront (hr : k.Ring h l) (hb : b ∉ h :: l) : (k.pushFront h b).Ring h (b :: l) := by
  have hbh : b ≠ h := fun he => hb (he ▸ List.mem_cons_self)
  have hbl : b ∉ l := fun hmem => hb (List.mem_cons_of_mem _ hmem)
  obtain ⟨hh, hl⟩ := List.nodup_cons.mp hr.nodup
  rw [pushFront_eq hbh]
  constructor
  · refine List.nodup_cons.mpr ⟨?_, List.nodup_cons.mpr ⟨hbl, hl⟩⟩
    simp [hbh.symm, hh]
  have hnb : k.next h ≠ b := by
    intro he
    have hmem := hr.seg.next_mem
    rw [he] at hmem
    rcases List.mem_append.mp hmem with hmem | hmem
    · exact hbl hmem
    · exact hbh (List.mem_singleton.mp hmem)
  refine ⟨⟨update_self .., ?_⟩, ?_⟩
  · show update (update k.prev b h) (k.next h) b b = h
    rw [update_of_ne hnb.symm, update_self]
  have hnext : update (update k.next b (k.next h)) h b b = k.next h := by
    rw [update_of_ne hbh, update_self]
  cases l with
  | nil =>
    obtain ⟨hn, -⟩ := hr.seg
    have hprev : update (update k.prev b h) (k.next h) b h = b := by
      rw [hn, update_self]
    exact ⟨hnext.trans hn, hprev⟩
  | cons d l =>
    obtain ⟨⟨hn, -⟩, hrest⟩ := hr.seg
    obtain ⟨hd, -⟩ := List.nodup_cons.mp hl
    refine ⟨⟨hnext.trans hn, hn ▸ update_self ..⟩, hrest.congr (fun x hx => ?_) fun x hx => ?_⟩
    · have hxh : x ≠ h := fun he => hh (he ▸ hx)
      have hxb : x ≠ b := fun he => hbl (he ▸ hx)
      show update (update k.next b _) h b x = _
      rw [update_of_ne hxh, update_of_ne hxb]
    · have hxd : x ≠ k.next h := by
        rw [hn]
        rintro rfl
        rcases List.mem_append.mp hx with hx | hx
        · exact hd hx
        · exact hh (List.mem_singleton.mp hx ▸ List.mem_cons_self)
      have hxb : x ≠ b := by
        rintro rfl
        rcases List.mem_append.mp hx with hx | hx
        · exact hbl (List.mem_cons_of_mem _ hx)
        · exact hbh (List.mem_singleton.mp hx)
      show update (update k.prev b h) _ b x = _
      rw [update_of_ne hxd, update_of_ne hxb]

/-- `for(b = step(a); b != h; b = step(b)) if(p(b)) return b`, with a bound on the number of
rounds. -/
def scan (step : α → α) (h : α) (p : α → Bool) : ℕ → α → Option α
  | 0, _ => none
  | n + 1, a =>
    if step a = h then none
    else if p (step a) then some (step a)
    else scan step h p n (step a)

/-- The loop along `next` sees the elements in order. -/
theorem Seg.scan_next (hs : k.Seg a l h) (hl : h ∉ l) (p : α → Bool) {n : ℕ} (hn : l.length < n) :
    scan k.next h p n a = l.find? p := by
  induction l generalizing a n with
  | nil =>
    obtain ⟨n, rfl⟩ := Nat.exists_eq_add_of_lt hn
    show (if k.next a = h then _ else _) = _
    rw [if_pos hs.1]
    rfl
  | cons b l ih =>
    obtain ⟨n, rfl⟩ : ∃ m, n = m + 1 := ⟨n - 1, by simp at hn; omega⟩
    obtain ⟨⟨hb, -⟩, hrest⟩ := hs
    have hbh : b ≠ h := fun he => hl (he ▸ List.mem_cons_self)
    show (if k.next a = h then _ else if p (k.next a) then some (k.next a) else _) = _
    rw [hb, if_neg hbh, List.find?_cons]
    cases p b with
    | true => rfl
    | false =>
      exact ih hrest (fun hmem => hl (List.mem_cons_of_mem _ hmem)) (by simpa using hn)

theorem Ring.scan_next (hr : k.Ring h l) (p : α → Bool) {n : ℕ} (hn : l.length < n) :
    scan k.next h p n h = l.find? p :=
  hr.seg.scan_next (List.nodup_cons.mp hr.nodup).1 p hn

/-- The loop along `prev` sees the elements in reverse order. -/
theorem Seg.scan_prev (hs : k.Seg h l c) (hl : h ∉ l) (p : α → Bool) {n : ℕ} (hn : l.length < n) :
    scan k.prev h p n c = l.reverse.find? p := by
  induction l using List.reverseRecOn generalizing c n with
  | nil =>
    obtain ⟨n, rfl⟩ := Nat.exists_eq_add_of_lt hn
    show (if k.prev c = h then _ else _) = _
    rw [if_pos hs.2]
    rfl
  | append_singleton l b ih =>
    obtain ⟨n, rfl⟩ : ∃ m, n = m + 1 := ⟨n - 1, by simp at hn; omega⟩
    obtain ⟨hrest, -, hb⟩ := seg_append.mp hs
    have hbh : b ≠ h := fun he => hl (he ▸ List.mem_append_right _ List.mem_cons_self)
    show (if k.prev c = h then _ else if p (k.prev c) then some (k.prev c) else _) = _
    rw [hb, if_neg hbh, List.reverse_append, List.reverse_singleton, List.singleton_append,
      List.find?_cons]
    cases p b with
    | true => rfl
    | false =>
      exact ih hrest (fun hmem => hl (List.mem_append_left _ hmem)) (by simpa using hn)

theorem Ring.scan_prev (hr : k.Ring h l) (p : α → Bool) {n : ℕ} (hn : l.length < n) :
    scan k.prev h p n h = l.reverse.find? p :=
  hr.seg.scan_prev (List.nodup_cons.mp hr.nodup).1 p hn

end Operations

end Links
