import Mathlib.Tactic.Abel
import ChronoFS.Lib.Cells
import ChronoFS.Umalloc.Model

/-!
# The free list

`FreeList base mem nodes` says that the headers from `base` on are a circular list in the order of the
addresses, with a gap after each block: so no two blocks overlap, and no two of them are side by side.
`free` puts a block in at the one place that keeps the order, and joins it with its neighbours
(`FreeList.insert`); `malloc` takes a block out or cuts its end off (`FreeList.take`). Both say which cells
the list covers afterwards, and that no other header has changed.
-/

namespace ChronoFS.Umalloc

open Function

variable {base : ℕ} {mem : Mem} {nodes l₁ l₂ : List ℕ} {bp p q x y : ℕ}

/-- The circular list of free blocks. -/
structure FreeList (base : ℕ) (mem : Mem) (nodes : List ℕ) : Prop where
  /-- The links. -/
  ring : RingList (fun a => (mem a).ptr) nodes
  /-- `base` is the first one. -/
  head : nodes.head? = some base
  /-- It is empty. -/
  base_size : (mem base).size = 0
  /-- The others are not. -/
  pos : ∀ x ∈ nodes, x ≠ base → 0 < (mem x).size
  /-- In the order of addresses, with gaps. -/
  gap : nodes.Pairwise fun x y => x + (mem x).size < y

/-- The cells of the free list. -/
def freeCells (mem : Mem) (nodes : List ℕ) : Multiset ℕ := covered nodes id fun a => (mem a).size

theorem freeCells_append : freeCells mem (l₁ ++ l₂) = freeCells mem l₁ + freeCells mem l₂ :=
  covered_append

theorem freeCells_cons : freeCells mem (x :: l₁) = cells x (mem x).size + freeCells mem l₁ :=
  covered_cons

theorem freeCells_congr {mem' : Mem} (h : ∀ x ∈ nodes, (mem' x).size = (mem x).size) :
    freeCells mem' nodes = freeCells mem nodes := covered_congr h

namespace FreeList

theorem base_mem (h : FreeList base mem nodes) : base ∈ nodes := List.mem_of_mem_head? h.head

theorem lt (h : FreeList base mem nodes) : nodes.Pairwise (· < ·) :=
  h.gap.imp fun hxy => lt_of_le_of_lt (Nat.le_add_right _ _) hxy

theorem nodup (h : FreeList base mem nodes) : nodes.Nodup := h.lt.imp fun hxy => hxy.ne

/-- `base` is before all blocks. -/
theorem base_le (h : FreeList base mem nodes) (hx : x ∈ nodes) : base ≤ x := by
  have hlt := h.lt
  have hhead := h.head
  cases nodes with
  | nil => exact nomatch hhead
  | cons a l =>
    obtain rfl := Option.some.inj hhead
    rcases List.mem_cons.mp hx with rfl | hx
    · exact le_rfl
    · exact ((List.pairwise_cons.mp hlt).1 x hx).le

/-- Only the headers of the list matter. -/
theorem congr {mem' : Mem} (h : FreeList base mem nodes) (hsame : ∀ x ∈ nodes, mem' x = mem x) :
    FreeList base mem' nodes := by
  refine ⟨?_, h.head, ?_, fun x hx hne => ?_, ?_⟩
  · exact h.ring.congr fun x hx => congrArg Header.ptr (hsame x hx)
  · rw [hsame base h.base_mem]
    exact h.base_size
  · rw [hsame x hx]
    exact h.pos x hx hne
  · refine h.gap.imp_of_mem fun {x y} hx _ hxy => ?_
    rw [hsame x hx]
    exact hxy

/-- What a block points to: the next one, or `base` if it is the last one. -/
theorem ptr_eq (h : FreeList base mem (l₁ ++ p :: l₂)) : (mem p).ptr = l₂.headD base := by
  have hring := h.ring
  have hhead := h.head
  cases l₂ with
  | cons y k2 => exact hring.next_eq
  | nil =>
    cases l₁ with
    | nil =>
      obtain rfl := Option.some.inj hhead
      exact hring.1
    | cons a k1 =>
      obtain rfl := Option.some.inj hhead
      exact RingList.next_last (l := a :: k1) hring rfl

/-- Where the loop of `free` stops is before the place of the block. -/
theorem split_of_stops (h : FreeList base mem nodes) (hbase : base < bp) (hx : x ∈ nodes)
    (hstop : stops mem bp x = true) :
    ∃ l₁ l₂, nodes = l₁ ++ x :: l₂ ∧ x < bp ∧ ∀ y ∈ l₂, bp < y := by
  unfold stops at hstop
  simp only [Bool.or_eq_true, Bool.and_eq_true, decide_eq_true_eq] at hstop
  have hlt := h.lt
  obtain ⟨k1, k2, rfl⟩ := List.append_of_mem hx
  rw [h.ptr_eq] at hstop
  cases k2 with
  | nil =>
    have hstop : x < bp := by
      rw [List.headD_nil] at hstop
      omega
    exact ⟨k1, [], rfl, hstop, fun y hy => absurd hy List.not_mem_nil⟩
  | cons y k2 =>
    obtain ⟨hxy, hy⟩ := List.pairwise_cons.mp (List.pairwise_append.mp hlt).2.1
    have hxy := hxy y List.mem_cons_self
    rw [List.headD_cons] at hstop
    have hbp : x < bp ∧ bp < y := by omega
    refine ⟨k1, y :: k2, rfl, hbp.1, fun z hz => ?_⟩
    rcases List.mem_cons.mp hz with rfl | hz
    · exact hbp.2
    · exact hbp.2.trans ((List.pairwise_cons.mp hy).1 z hz)

/-- The block after the place of a new one is joined with it, or not: the link and the size that the
new one gets, and the blocks that are left after it. -/
theorem joinUpper_spec (h : FreeList base mem (l₁ ++ p :: l₂)) (hbase : base < bp) (hafter : ∀ y ∈ l₂, bp + (mem bp).size ≤ y) :
    ∃ next n l2', joinUpper mem bp p = update mem bp ⟨next, n⟩ ∧
      RingList (update (fun a => (mem a).ptr) p next) (l₁ ++ p :: l2') ∧ l2'.Sublist l₂ ∧
      (∀ y ∈ l2', bp + n < y) ∧ (mem bp).size ≤ n ∧
      cells bp (mem bp).size + freeCells mem l₂ = cells bp n + freeCells mem l2' := by
  have hptr := h.ptr_eq
  unfold joinUpper
  by_cases hjoin : bp + (mem bp).size = (mem p).ptr
  · rw [if_pos hjoin]
    cases l₂ with
    | nil =>
      rw [hptr, List.headD_nil] at hjoin
      omega
    | cons c l₂ =>
      rw [List.headD_cons] at hptr
      rw [hptr] at hjoin ⊢
      have hgap := (List.pairwise_append.mp h.gap).2.1
      obtain ⟨-, hgap⟩ := List.pairwise_cons.mp hgap
      obtain ⟨hc, -⟩ := List.pairwise_cons.mp hgap
      refine ⟨_, _, l₂, rfl, h.ring.remove h.nodup, List.sublist_cons_self _ _, ?_,
        Nat.le_add_right _ _, ?_⟩
      · intro y hy
        have := hc y hy
        omega
      · rw [freeCells_cons, cells_add, hjoin, add_assoc]
  · rw [if_neg hjoin]
    refine ⟨_, _, l₂, rfl, ?_, List.Sublist.refl _, ?_, le_rfl, rfl⟩
    · rw [Function.update_eq_self p fun a => (mem a).ptr]
      exact h.ring
    · intro y hy
      refine lt_of_le_of_ne (hafter y hy) ?_
      rintro heq
      cases l₂ with
      | nil => exact absurd hy List.not_mem_nil
      | cons c l₂ =>
        -- only the first one can be side by side with the new one
        rw [hptr, List.headD_cons] at hjoin
        rcases List.mem_cons.mp hy with rfl | hy
        · exact hjoin heq
        · have hlt := (List.pairwise_append.mp h.lt).2.1
          obtain ⟨hc, -⟩ := List.pairwise_cons.mp (List.pairwise_cons.mp hlt).2
          have := hc y hy
          have := hafter c List.mem_cons_self
          omega

/-- A change of the headers at and after a block `p` that keeps the order. -/
theorem splice {mem' : Mem} {l : List ℕ} (h : FreeList base mem (l₁ ++ p :: l₂))
    (hring : RingList (fun a => (mem' a).ptr) (l₁ ++ p :: l))
    (hsame : ∀ x ∈ l₁, mem' x = mem x) (hbase : (mem' base).size = 0)
    (hlt : ∀ x ∈ l, p < x) (hpos : ∀ x ∈ p :: l, x ≠ base → 0 < (mem' x).size)
    (hgap : (p :: l).Pairwise fun x y => x + (mem' x).size < y) :
    FreeList base mem' (l₁ ++ p :: l) := by
  obtain ⟨hgap1, -, hgap2⟩ := List.pairwise_append.mp h.gap
  refine ⟨hring, ?_, hbase, ?_, ?_⟩
  · have := h.head
    cases l₁ with
    | nil => exact this
    | cons a l₁ => exact this
  · intro x hx hne
    rcases List.mem_append.mp hx with hx | hx
    · rw [hsame x hx]
      exact h.pos x (List.mem_append_left _ hx) hne
    · exact hpos x hx hne
  · refine List.pairwise_append.mpr ⟨?_, hgap, ?_⟩
    · refine hgap1.imp_of_mem fun {x y} hx _ hxy => ?_
      rw [hsame x hx]
      exact hxy
    · intro x hx y hy
      have hxp := hgap2 x hx p List.mem_cons_self
      rw [hsame x hx]
      rcases List.mem_cons.mp hy with rfl | hy
      · exact hxp
      · exact hxp.trans (hlt y hy)

/-- A block `p` grows by `n` units, and the blocks `l` are left after it. -/
theorem grow {mem' : Mem} {l : List ℕ} {next n : ℕ} (h : FreeList base mem (l₁ ++ p :: l₂))
    (hring : RingList (update (fun a => (mem a).ptr) p next) (l₁ ++ p :: l))
    (hsub : l.Sublist l₂) (hl : ∀ y ∈ l, p + ((mem p).size + n) < y) (hpbase : p ≠ base)
    (hself : mem' p = ⟨next, (mem p).size + n⟩) (hother : ∀ x ∈ base :: (l₁ ++ l), x ≠ p →
      mem' x = mem x) :
    FreeList base mem' (l₁ ++ p :: l) ∧ freeCells mem' (l₁ ++ p :: l) =
      freeCells mem l₁ + (cells p ((mem p).size + n) + freeCells mem l) := by
  obtain ⟨-, hgap, hlt⟩ := List.pairwise_append.mp h.gap
  obtain ⟨hp, hgap⟩ := List.pairwise_cons.mp hgap
  have hpl : ∀ y ∈ l, p < y := by
    intro y hy
    have := hl y hy
    omega
  have hsame1 : ∀ x ∈ l₁, mem' x = mem x := by
    intro x hx
    have := hlt x hx p List.mem_cons_self
    exact hother x (List.mem_cons_of_mem _ (List.mem_append_left _ hx)) (by omega)
  have hsame2 : ∀ x ∈ l, mem' x = mem x := fun x hx =>
    hother x (List.mem_cons_of_mem _ (List.mem_append_right _ hx)) (hpl x hx).ne'
  refine ⟨h.splice ?_ hsame1 ?_ hpl ?_ ?_, ?_⟩
  · refine hring.congr fun x hx => ?_
    by_cases hxp : x = p
    · rw [hxp, hself, update_self]
    · rw [update_of_ne hxp]
      rcases List.mem_append.mp hx with hx | hx
      · rw [hsame1 x hx]
      · rw [hsame2 x ((List.mem_cons.mp hx).resolve_left hxp)]
  · rw [hother base List.mem_cons_self (Ne.symm hpbase)]
    exact h.base_size
  · intro x hx hne
    rcases List.mem_cons.mp hx with rfl | hx
    · have := h.pos x (List.mem_append_right _ List.mem_cons_self) hne
      rw [hself]
      show 0 < (mem x).size + n
      omega
    · rw [hsame2 x hx]
      exact h.pos x (List.mem_append_right _ (List.mem_cons_of_mem _ (hsub.subset hx))) hne
  · refine List.pairwise_cons.mpr ⟨fun y hy => ?_, ?_⟩
    · rw [hself]
      exact hl y hy
    · refine (hgap.sublist hsub).imp_of_mem fun {x y} hx _ hxy => ?_
      rw [hsame2 x hx]
      exact hxy
  · have hcells1 := freeCells_congr fun x hx => congrArg Header.size (hsame1 x hx)
    have hcells2 := freeCells_congr fun x hx => congrArg Header.size (hsame2 x hx)
    rw [freeCells_append, freeCells_cons, hself, hcells1, hcells2]

/-- A block `bp` of `n` units is linked in after `p`, with the blocks `l` after it. -/
theorem link {mem' : Mem} {l : List ℕ} {next n : ℕ} (h : FreeList base mem (l₁ ++ p :: l₂))
    (hring : RingList (update (fun a => (mem a).ptr) p next) (l₁ ++ p :: l))
    (hsub : l.Sublist l₂) (hl : ∀ y ∈ l, bp + n < y) (hn : 0 < n)
    (hbefore : p + (mem p).size < bp) (hself : mem' p = ⟨bp, (mem p).size⟩)
    (hnew : mem' bp = ⟨next, n⟩) (hother : ∀ x, x ≠ bp → x ≠ p → mem' x = mem x) :
    FreeList base mem' (l₁ ++ p :: bp :: l) ∧ freeCells mem' (l₁ ++ p :: bp :: l) =
      freeCells mem l₁ + (cells p (mem p).size + (cells bp n + freeCells mem l)) := by
  obtain ⟨-, hgap, hlt⟩ := List.pairwise_append.mp h.gap
  obtain ⟨hp, hgap⟩ := List.pairwise_cons.mp hgap
  have hl1 : ∀ x ∈ l₁, x ≠ bp ∧ x ≠ p := by
    intro x hx
    have := hlt x hx p List.mem_cons_self
    exact ⟨by omega, by omega⟩
  have hl2 : ∀ x ∈ l, x ≠ bp ∧ x ≠ p := by
    intro x hx
    have := hl x hx
    exact ⟨by omega, by omega⟩
  have hsame1 : ∀ x ∈ l₁, mem' x = mem x := fun x hx => hother x (hl1 x hx).1 (hl1 x hx).2
  have hsame2 : ∀ x ∈ l, mem' x = mem x := fun x hx => hother x (hl2 x hx).1 (hl2 x hx).2
  have hbpmem : bp ∉ l₁ ++ p :: l := by
    intro hmem
    rcases List.mem_append.mp hmem with hmem | hmem
    · exact (hl1 bp hmem).1 rfl
    rcases List.mem_cons.mp hmem with heq | hmem
    · omega
    · exact (hl2 bp hmem).1 rfl
  have hnodup : (l₁ ++ p :: l).Nodup :=
    h.nodup.sublist ((List.Sublist.refl l₁).append (hsub.cons_cons p))
  have hbase := h.base_le (List.mem_append_right l₁ (List.mem_cons_self (a := p) (l := l₂)))
  refine ⟨h.splice ?_ hsame1 ?_ ?_ ?_ ?_, ?_⟩
  · refine (hring.insert hnodup hbpmem).congr fun x hx => ?_
    by_cases hxp : x = p
    · rw [hxp, hself, update_self]
    · rw [update_of_ne hxp]
      by_cases hxb : x = bp
      · rw [hxb, hnew, update_self, update_self]
      · rw [update_of_ne hxb, update_of_ne hxp, hother x hxb hxp]
  · by_cases hpb : base = p
    · rw [hpb, hself, ← hpb]
      exact h.base_size
    · rw [hother base (by omega) hpb]
      exact h.base_size
  · intro x hx
    rcases List.mem_cons.mp hx with rfl | hx
    · omega
    · have := hl x hx
      omega
  · intro x hx hne
    rcases List.mem_cons.mp hx with rfl | hx
    · rw [hself]
      exact h.pos x (List.mem_append_right _ List.mem_cons_self) hne
    rcases List.mem_cons.mp hx with rfl | hx
    · rw [hnew]
      exact hn
    · rw [hsame2 x hx]
      exact h.pos x (List.mem_append_right _ (List.mem_cons_of_mem _ (hsub.subset hx))) hne
  · refine List.pairwise_cons.mpr ⟨fun y hy => ?_, List.pairwise_cons.mpr ⟨fun y hy => ?_, ?_⟩⟩
    · rw [hself]
      show p + (mem p).size < y
      rcases List.mem_cons.mp hy with rfl | hy
      · exact hbefore
      · have := hl y hy
        omega
    · rw [hnew]
      exact hl y hy
    · refine (hgap.sublist hsub).imp_of_mem fun {x y} hx _ hxy => ?_
      rw [hsame2 x hx]
      exact hxy
  · have hcells1 := freeCells_congr fun x hx => congrArg Header.size (hsame1 x hx)
    have hcells2 := freeCells_congr fun x hx => congrArg Header.size (hsame2 x hx)
    rw [freeCells_append, freeCells_cons, freeCells_cons, hself, hnew, hcells1, hcells2]

/-- `free` puts a block into the list, joined with its neighbours. -/
theorem insert (h : FreeList base mem (l₁ ++ p :: l₂)) (hbase : base < bp)
    (hpos : 0 < (mem bp).size) (hlt : p < bp) (hbefore : p + (mem p).size ≤ bp)
    (hafter : ∀ y ∈ l₂, bp + (mem bp).size ≤ y) :
    ∃ nodes, FreeList base (joinLower (joinUpper mem bp p) bp p) nodes ∧ p ∈ nodes ∧
      freeCells (joinLower (joinUpper mem bp p) bp p) nodes =
        freeCells mem (l₁ ++ p :: l₂) + cells bp (mem bp).size ∧
      (∃ x ∈ nodes, (mem bp).size ≤ (joinLower (joinUpper mem bp p) bp p x).size) ∧
      ∀ x, x ≠ bp → x ≠ p → joinLower (joinUpper mem bp p) bp p x = mem x := by
  obtain ⟨next, n, l, hupper, hring, hsub, hl, hn, hcells⟩ := h.joinUpper_spec hbase hafter
  have hpbp : p ≠ bp := hlt.ne
  rw [hupper]
  unfold joinLower
  rw [update_of_ne hpbp, update_self]
  by_cases hjoin : p + (mem p).size = bp
  · have hpbase : p ≠ base := by
      rintro rfl
      rw [h.base_size] at hjoin
      omega
    rw [if_pos hjoin]
    have hother : ∀ x, x ≠ bp → x ≠ p →
        update (update mem bp ⟨next, n⟩) p ⟨next, (mem p).size + n⟩ x = mem x := by
      intro x hxb hxp
      rw [update_of_ne hxp, update_of_ne hxb]
    have hgrow : ∀ y ∈ l, p + ((mem p).size + n) < y := by
      intro y hy
      have := hl y hy
      omega
    obtain ⟨hfree, hcells'⟩ := h.grow hring hsub hgrow hpbase (update_self p _ _) fun x hx hxp => by
      refine hother x ?_ hxp
      rcases List.mem_cons.mp hx with rfl | hx
      · exact hbase.ne
      rcases List.mem_append.mp hx with hx | hx
      · have := (List.pairwise_append.mp h.lt).2.2 x hx p List.mem_cons_self
        omega
      · have := hl x hx
        omega
    refine ⟨_, hfree, List.mem_append_right _ List.mem_cons_self, ?_, ⟨p, ?_, ?_⟩, hother⟩
    · rw [hcells', cells_add, hjoin, add_assoc (cells p _), ← hcells, freeCells_append,
        freeCells_cons]
      abel
    · exact List.mem_append_right _ List.mem_cons_self
    · rw [update_self]
      show (mem bp).size ≤ (mem p).size + n
      omega
  · rw [if_neg hjoin]
    have hother : ∀ x, x ≠ bp → x ≠ p →
        update (update mem bp ⟨next, n⟩) p ⟨bp, (mem p).size⟩ x = mem x := by
      intro x hxb hxp
      rw [update_of_ne hxp, update_of_ne hxb]
    have hnew : update (update mem bp ⟨next, n⟩) p ⟨bp, (mem p).size⟩ bp = ⟨next, n⟩ := by
      rw [update_of_ne (Ne.symm hpbp), update_self]
    obtain ⟨hfree, hcells'⟩ := h.link hring hsub hl (hpos.trans_le hn)
      (lt_of_le_of_ne hbefore hjoin) (update_self p _ _) hnew hother
    refine ⟨_, hfree, List.mem_append_right _ List.mem_cons_self, ?_, ⟨bp, ?_, ?_⟩, hother⟩
    · rw [hcells', ← hcells, freeCells_append, freeCells_cons]
      abel
    · exact List.mem_append_right _ (List.mem_cons_of_mem _ List.mem_cons_self)
    · rw [hnew]
      exact hn

/-- The block before another one is the one that points to it. -/
theorem split_of_ptr (h : FreeList base mem nodes) (hq : q ∈ nodes) (hptr : (mem q).ptr = p)
    (hp : p ≠ base) : ∃ l₁ l₂, nodes = l₁ ++ q :: p :: l₂ := by
  obtain ⟨l₁, l₂, rfl⟩ := List.append_of_mem hq
  rw [h.ptr_eq] at hptr
  cases l₂ with
  | nil => exact absurd hptr.symm hp
  | cons y l₂ =>
    obtain rfl : y = p := hptr
    exact ⟨l₁, l₂, rfl⟩

/-- `malloc` takes a whole block. -/
theorem takeWhole (h : FreeList base mem (l₁ ++ q :: p :: l₂)) :
    FreeList base (update mem q { mem q with ptr := (mem p).ptr }) (l₁ ++ q :: l₂) ∧
      freeCells mem (l₁ ++ q :: p :: l₂) =
        freeCells (update mem q { mem q with ptr := (mem p).ptr }) (l₁ ++ q :: l₂) +
          cells p (mem p).size := by
  have hsub : (l₁ ++ q :: l₂).Sublist (l₁ ++ q :: p :: l₂) :=
    (List.Sublist.refl l₁).append ((List.sublist_cons_self p l₂).cons_cons q)
  have hsize : ∀ x, (update mem q { mem q with ptr := (mem p).ptr } x).size = (mem x).size := by
    intro x
    by_cases hx : x = q
    · rw [hx, update_self]
    · rw [update_of_ne hx]
  refine ⟨⟨?_, ?_, ?_, ?_, ?_⟩, ?_⟩
  · refine (h.ring.remove h.nodup).congr fun x _ => ?_
    by_cases hx : x = q
    · rw [hx, update_self, update_self]
    · rw [update_of_ne hx, update_of_ne hx]
  · have := h.head
    cases l₁ with
    | nil => exact this
    | cons a l₁ => exact this
  · rw [hsize]
    exact h.base_size
  · intro x hx hne
    rw [hsize]
    exact h.pos x (hsub.subset hx) hne
  · refine (h.gap.sublist hsub).imp fun {x y} hxy => ?_
    rw [hsize]
    exact hxy
  · rw [freeCells_congr fun x _ => hsize x]
    simp only [freeCells_append, freeCells_cons]
    abel

/-- `malloc` cuts the end of a block off. -/
theorem takeEnd (h : FreeList base mem nodes) (hp : p ∈ nodes) {r n : ℕ} (hr : 0 < r) (hn : 0 < n)
    (hsize : (mem p).size = r + n) {mem' : Mem}
    (hmem' : mem' = update (update mem p { mem p with size := r }) (p + r)
      { update mem p { mem p with size := r } (p + r) with size := n }) :
    FreeList base mem' nodes ∧ freeCells mem nodes = freeCells mem' nodes + cells (p + r) n ∧
      (∀ x, x ≠ p → x ≠ p + r → mem' x = mem x) ∧ (mem' (p + r)).size = n := by
  have hne : p ≠ p + r := by omega
  have hother : ∀ x, x ≠ p → x ≠ p + r → mem' x = mem x := by
    intro x hxp hxr
    rw [hmem', update_of_ne hxr, update_of_ne hxp]
  have hself : mem' p = { mem p with size := r } := by
    rw [hmem', update_of_ne hne, update_self]
  obtain ⟨l₁, l₂, rfl⟩ := List.append_of_mem hp
  obtain ⟨-, hgap, hlt⟩ := List.pairwise_append.mp h.gap
  obtain ⟨hpl, hgap⟩ := List.pairwise_cons.mp hgap
  -- the new block is inside of the old one, so it is none of the others
  have hl1 : ∀ x ∈ l₁, mem' x = mem x := by
    intro x hx
    have := hlt x hx p List.mem_cons_self
    exact hother x (by omega) (by omega)
  have hl2 : ∀ x ∈ l₂, mem' x = mem x := by
    intro x hx
    have := hpl x hx
    exact hother x (by omega) (by omega)
  have hpbase : p ≠ base := by
    rintro rfl
    have := h.base_size
    omega
  have hbase : mem' base = mem base := by
    have := h.base_le hp
    exact hother base (Ne.symm hpbase) (by omega)
  refine ⟨h.splice ?_ hl1 (by rw [hbase]; exact h.base_size) ?_ ?_ ?_, ?_, hother, ?_⟩
  · refine h.ring.congr fun x hx => ?_
    rcases List.mem_append.mp hx with hx | hx
    · rw [hl1 x hx]
    rcases List.mem_cons.mp hx with rfl | hx
    · rw [hself]
    · rw [hl2 x hx]
  · intro x hx
    have := hpl x hx
    omega
  · intro x hx hne
    rcases List.mem_cons.mp hx with rfl | hx
    · rw [hself]
      exact hr
    · rw [hl2 x hx]
      exact h.pos x (List.mem_append_right _ (List.mem_cons_of_mem _ hx)) hne
  · refine List.pairwise_cons.mpr ⟨fun y hy => ?_, ?_⟩
    · have := hpl y hy
      rw [hself]
      show p + r < y
      omega
    · refine hgap.imp_of_mem fun {x y} hx _ hxy => ?_
      rw [hl2 x hx]
      exact hxy
  · have hcells1 := freeCells_congr fun x hx => congrArg Header.size (hl1 x hx)
    have hcells2 := freeCells_congr fun x hx => congrArg Header.size (hl2 x hx)
    rw [freeCells_append, freeCells_append, freeCells_cons, freeCells_cons, hself, hcells1, hcells2,
      hsize, cells_add]
    abel
  · rw [hmem', update_self]

end FreeList

end ChronoFS.Umalloc
