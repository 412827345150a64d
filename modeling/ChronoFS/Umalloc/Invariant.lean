import ChronoFS.Lib.Run
import ChronoFS.Umalloc.FreeList

/-!
# The allocator keeps its heap

The cells of the free blocks and of the blocks of the program are together the cells that `sbrk` has
returned, each of them once (`Inv.conserved`, `Inv.nodup`): so the blocks are disjoint, they are in memory of the
program, and no unit is lost. Every call keeps this, whatever the number of passes that it may make, and
with enough passes every call returns: a round of the free list for `free`, and for `malloc` at
most two, since `morecore` gives it a block that is large enough.
-/

namespace ChronoFS.Umalloc

open Function

variable {base bp f fuel n p q x : ℕ} {s s' : Heap} {nodes : List ℕ} {mem : Mem}
  {sbrk : Heap → ℕ → Option ℕ} {nbytes nunits : ℕ}

/-- The cells of the blocks of the program. -/
def liveCells (l : List Live) : Multiset ℕ := covered l Live.addr Live.units

/-- The cells that `sbrk` has returned. -/
def regionCells (l : List (ℕ × ℕ)) : Multiset ℕ := covered l Prod.fst Prod.snd

theorem liveCells_split {l l1 l2 : List Live} {b : Live} (h : l = l1 ++ b :: l2) :
    liveCells l = liveCells (l1 ++ l2) + cells b.addr b.units := by
  unfold liveCells
  rw [h, covered_append, covered_cons, covered_append]
  abel

/-- The heap after the first call. -/
structure Inv (base : ℕ) (s : Heap) (nodes : List ℕ) : Prop where
  /-- The free list. -/
  free : FreeList base s.mem nodes
  /-- `freep` is one of its blocks. -/
  freep : ∃ f ∈ nodes, s.freep = some f
  /-- The blocks of the program have their sizes in their headers. -/
  size : ∀ b ∈ s.live, (s.mem b.addr).size = b.units ∧ 0 < b.units
  /-- They have room for what the program has asked for. -/
  room : ∀ b ∈ s.live, b.nbytes ≤ HEADER * (b.units - 1)
  /-- Every unit is in a free block or in a block of the program. -/
  conserved : freeCells s.mem nodes + liveCells s.live = regionCells s.regions
  /-- `sbrk` has returned no unit twice. -/
  nodup : (regionCells s.regions).Nodup
  /-- All are after `base`. -/
  above : ∀ u ∈ regionCells s.regions, base < u

/-! ## `free` -/

/-- The place that the loop of `free` has found. -/
theorem exists_place (hfree : FreeList base mem nodes) (hbase : base < bp) (hpos : 0 < (mem bp).size)
    (hdisj : Disjoint (freeCells mem nodes) (cells bp (mem bp).size)) (hp : p ∈ nodes)
    (hstop : stops mem bp p = true) :
    ∃ l1 l2, nodes = l1 ++ p :: l2 ∧ p < bp ∧ p + (mem p).size ≤ bp ∧
      ∀ y ∈ l2, bp + (mem bp).size ≤ y := by
  have hapart : ∀ x ∈ nodes, x ≠ base → x + (mem x).size ≤ bp ∨ bp + (mem bp).size ≤ x := by
    intro x hx hne
    refine apart_of_disjoint (Multiset.disjoint_left.mpr fun {u} hu hu' => ?_) (hfree.pos x hx hne)
      hpos
    exact Multiset.disjoint_left.mp hdisj (mem_covered.mpr ⟨x, hx, hu⟩) hu'
  obtain ⟨l1, l2, rfl, hlt, hl2⟩ := hfree.split_of_stops hbase hp hstop
  refine ⟨l1, l2, rfl, hlt, ?_, fun y hy => ?_⟩
  · by_cases hpb : p = base
    · rw [hpb, hfree.base_size]
      omega
    · have := hapart p hp hpb
      omega
  · have hy' := hl2 y hy
    have := hapart y (List.mem_append_right _ (List.mem_cons_of_mem _ hy)) (by omega)
    omega

/-- What `free` has done, if it returns. -/
theorem freeAt_spec (hfree : FreeList base s.mem nodes) (hf : ∃ f ∈ nodes, s.freep = some f)
    (hbase : base < bp) (hpos : 0 < (s.mem bp).size)
    (hdisj : Disjoint (freeCells s.mem nodes) (cells bp (s.mem bp).size))
    (h : s.freeAt fuel bp = some s') :
    ∃ mem' nodes' p, s' = { s with mem := mem', freep := some p } ∧ FreeList base mem' nodes' ∧
      p ∈ nodes' ∧ freeCells mem' nodes' = freeCells s.mem nodes + cells bp (s.mem bp).size ∧
      (∃ x ∈ nodes', (s.mem bp).size ≤ (mem' x).size) ∧
      ∀ x, x ≠ bp → x ∉ nodes → mem' x = s.mem x := by
  obtain ⟨f, hf, hfreep⟩ := hf
  unfold Heap.freeAt at h
  rw [hfreep] at h
  dsimp only at h
  cases hfind : RingList.find (fun p => (s.mem p).ptr) (stops s.mem bp) fuel f with
  | none =>
    rw [hfind] at h
    exact nomatch h
  | some p =>
    rw [hfind] at h
    obtain ⟨hp, hstop⟩ := hfree.ring.find_some hf hfind
    obtain ⟨l1, l2, rfl, hlt, hbefore, hafter⟩ := exists_place hfree hbase hpos hdisj hp hstop
    obtain ⟨nodes', hfree', hp', hcells, hfit, hother⟩ :=
      hfree.insert hbase hpos hlt hbefore hafter
    refine ⟨_, nodes', p, (Option.some.inj h).symm, hfree', hp', hcells, hfit, fun x hxb hx => ?_⟩
    refine hother x hxb fun heq => hx ?_
    rw [heq]
    exact hp

namespace Inv

/-- The units of the free blocks and of the blocks of the program. -/
theorem disjoint (h : Inv base s nodes) : Disjoint (freeCells s.mem nodes) (liveCells s.live) := by
  have := h.nodup
  rw [← h.conserved, Multiset.nodup_add] at this
  exact this.2.2

theorem free_le (h : Inv base s nodes) {u : ℕ} (hu : u ∈ freeCells s.mem nodes) :
    u ∈ regionCells s.regions := by
  rw [← h.conserved]
  exact Multiset.mem_add.mpr (.inl hu)

theorem live_le (h : Inv base s nodes) {u : ℕ} (hu : u ∈ liveCells s.live) :
    u ∈ regionCells s.regions := by
  rw [← h.conserved]
  exact Multiset.mem_add.mpr (.inr hu)

/-- The header of a block of the program is one of its units. -/
theorem addr_mem (h : Inv base s nodes) {b : Live} (hb : b ∈ s.live) : b.addr ∈ liveCells s.live :=
  mem_covered.mpr ⟨b, hb, self_mem_cells (h.size b hb).2⟩

/-- A unit of the program is no block of the free list. -/
theorem not_mem_nodes (h : Inv base s nodes) {u : ℕ} (hu : u ∈ liveCells s.live) : u ∉ nodes := by
  intro hmem
  have hne : u ≠ base := (h.above u (h.live_le hu)).ne'
  have hself : u ∈ freeCells s.mem nodes :=
    mem_covered.mpr ⟨u, hmem, self_mem_cells (h.free.pos u hmem hne)⟩
  exact Multiset.disjoint_left.mp h.disjoint hself hu

/-- A block of the program and the other ones. -/
theorem live_disjoint (h : Inv base s nodes) {b : Live} {l1 l2 : List Live}
    (hlive : s.live = l1 ++ b :: l2) : Disjoint (liveCells (l1 ++ l2)) (cells b.addr b.units) := by
  have := h.nodup
  rw [← h.conserved, Multiset.nodup_add, liveCells_split hlive, Multiset.nodup_add] at this
  exact this.2.1.2.2

/-- `free` of a block of the program. -/
theorem freed (h : Inv base s nodes) {b : Live} {l1 l2 : List Live} (hlive : s.live = l1 ++ b :: l2)
    (hfree : s.free fuel (b.addr + 1) = some s') :
    ∃ nodes', Inv base { s' with live := l1 ++ l2 } nodes' := by
  have hb : b ∈ s.live := by
    rw [hlive]
    exact List.mem_append_right _ List.mem_cons_self
  obtain ⟨hsize, hpos⟩ := h.size b hb
  have hcells := liveCells_split hlive
  have hdisj : Disjoint (freeCells s.mem nodes) (cells b.addr b.units) := by
    have := h.disjoint
    rw [hcells, Multiset.disjoint_add_right] at this
    exact this.2
  have hbase := h.above _ (h.live_le (h.addr_mem hb))
  unfold Heap.free at hfree
  rw [Nat.add_sub_cancel] at hfree
  obtain ⟨mem', nodes', p, rfl, hlist, hp, hfreeCells, -, hother⟩ :=
    freeAt_spec h.free h.freep hbase (by omega) (by rw [hsize]; exact hdisj) hfree
  have hkept : ∀ c ∈ l1 ++ l2, c ∈ s.live ∧ mem' c.addr = s.mem c.addr := by
    intro c hc
    have hmem : c ∈ s.live := by
      rw [hlive]
      rcases List.mem_append.mp hc with hc | hc
      · exact List.mem_append_left _ hc
      · exact List.mem_append_right _ (List.mem_cons_of_mem _ hc)
    refine ⟨hmem, hother _ ?_ (h.not_mem_nodes (h.addr_mem hmem))⟩
    intro heq
    have hself : c.addr ∈ liveCells (l1 ++ l2) :=
      mem_covered.mpr ⟨c, hc, self_mem_cells (h.size c hmem).2⟩
    refine Multiset.disjoint_left.mp (h.live_disjoint hlive) hself ?_
    rw [heq]
    exact self_mem_cells hpos
  refine ⟨nodes', hlist, ⟨p, hp, rfl⟩, fun c hc => ?_, fun c hc => ?_, ?_, h.nodup, h.above⟩
  · rw [show ({ s with mem := mem', freep := some p, live := l1 ++ l2 } : Heap).mem c.addr =
      s.mem c.addr from (hkept c hc).2]
    exact h.size c (hkept c hc).1
  · exact h.room c (hkept c hc).1
  · show freeCells mem' nodes' + liveCells (l1 ++ l2) = _
    rw [hfreeCells, hsize, ← h.conserved, hcells]
    abel

/-- What the program writes into its blocks. -/
theorem store (h : Inv base s nodes)
    (hmem : ∀ u, (∀ b ∈ s.live, u ≤ b.addr ∨ b.addr + b.units ≤ u) → mem u = s.mem u) :
    Inv base { s with mem := mem } nodes := by
  have hout : ∀ u, u ∉ liveCells s.live → mem u = s.mem u := by
    intro u hu
    refine hmem u fun b hb => ?_
    by_contra hcon
    exact hu (mem_covered.mpr ⟨b, hb, mem_cells.mpr ⟨by omega, by omega⟩⟩)
  have hnodes : ∀ x ∈ nodes, mem x = s.mem x := fun x hx =>
    hout x fun hlive => h.not_mem_nodes hlive hx
  have hheader : ∀ b ∈ s.live, mem b.addr = s.mem b.addr := by
    intro b hb
    refine hmem _ fun c hc => ?_
    by_contra hcon
    rw [not_or, not_le, not_le] at hcon
    -- the header of a block is not in another one, nor in its own bytes
    obtain ⟨l1, l2, hlive⟩ := List.append_of_mem hb
    have hother : c ∈ l1 ++ l2 := by
      rw [hlive] at hc
      rcases List.mem_append.mp hc with hc | hc
      · exact List.mem_append_left _ hc
      rcases List.mem_cons.mp hc with rfl | hc
      · omega
      · exact List.mem_append_right _ hc
    exact Multiset.disjoint_left.mp (h.live_disjoint hlive)
      (mem_covered.mpr ⟨c, hother, mem_cells.mpr ⟨hcon.1.le, hcon.2⟩⟩) (self_mem_cells (h.size b hb).2)
  refine ⟨h.free.congr hnodes, h.freep, ?_, h.room, ?_, h.nodup, h.above⟩
  · intro b hb
    rw [show ({ s with mem := mem } : Heap).mem b.addr = s.mem b.addr from hheader b hb]
    exact h.size b hb
  · rw [← h.conserved]
    exact congrArg (· + _) (freeCells_congr fun x hx => congrArg Header.size (hnodes x hx))

/-! ## `malloc` -/

/-- `malloc` takes a block that is large enough. -/
theorem take (h : Inv base s nodes) (hq : q ∈ nodes) (hptr : (s.mem q).ptr = p) (hn : 0 < nunits)
    (hfit : nunits ≤ (s.mem p).size) (hroom : nbytes ≤ HEADER * (nunits - 1)) :
    ∃ nodes', Inv base (s.take nbytes nunits q p).2 nodes' := by
  have hp : p ∈ nodes := hptr ▸ h.free.ring.next_mem hq
  have hpbase : p ≠ base := by
    rintro rfl
    rw [h.free.base_size] at hfit
    omega
  have hlive : ∀ b ∈ s.live, b.addr ∉ freeCells s.mem nodes := fun b hb hfree =>
    Multiset.disjoint_left.mp h.disjoint hfree (h.addr_mem hb)
  have hrooms : ∀ a, ∀ b ∈ (⟨a, nunits, nbytes⟩ : Live) :: s.live,
      b.nbytes ≤ HEADER * (b.units - 1) := by
    intro a b hb
    rcases List.mem_cons.mp hb with rfl | hb
    · exact hroom
    · exact h.room b hb
  unfold Heap.take
  by_cases hwhole : (s.mem p).size = nunits
  · rw [if_pos hwhole]
    obtain ⟨l1, l2, rfl⟩ := h.free.split_of_ptr hq hptr hpbase
    obtain ⟨hfree, hcells⟩ := h.free.takeWhole
    rw [hwhole] at hcells
    have hqp : p ≠ q := by
      have hnodup := (List.nodup_append.mp h.free.nodup).2.1
      rintro rfl
      exact (List.nodup_cons.mp hnodup).1 List.mem_cons_self
    refine ⟨l1 ++ q :: l2, hfree, ⟨q, List.mem_append_right _ List.mem_cons_self, rfl⟩, ?_,
      hrooms p, ?_, h.nodup, h.above⟩
    · intro b hb
      show (update s.mem q _ b.addr).size = b.units ∧ 0 < b.units
      rcases List.mem_cons.mp hb with rfl | hb
      · rw [update_of_ne hqp]
        exact ⟨hwhole, hn⟩
      · have hbq : b.addr ≠ q := fun heq => h.not_mem_nodes (h.addr_mem hb) (by rwa [heq])
        rw [update_of_ne hbq]
        exact h.size b hb
    · show freeCells _ _ + liveCells (_ :: s.live) = regionCells s.regions
      unfold liveCells
      rw [covered_cons, ← h.conserved, hcells]
      unfold liveCells
      abel
  · rw [if_neg hwhole]
    have hrest : (s.mem p).size = (s.mem p).size - nunits + nunits := by omega
    obtain ⟨hfree, hcells, hother, hsize⟩ := h.free.takeEnd hp (by omega) hn hrest rfl
    have hin : ∀ u ∈ cells p (s.mem p).size, u ∈ freeCells s.mem nodes := fun u hu =>
      mem_covered.mpr ⟨p, hp, hu⟩
    refine ⟨nodes, hfree, ⟨q, hq, rfl⟩, ?_, hrooms _, ?_, h.nodup, h.above⟩
    · intro b hb
      rcases List.mem_cons.mp hb with rfl | hb
      · exact ⟨hsize, hn⟩
      · have hbp : b.addr ≠ p := fun heq => hlive b hb (hin _ (mem_cells.mpr ⟨by omega, by omega⟩))
        have hbr : b.addr ≠ p + ((s.mem p).size - nunits) := fun heq =>
          hlive b hb (hin _ (mem_cells.mpr ⟨by omega, by omega⟩))
        rw [show Heap.mem _ b.addr = s.mem b.addr from hother b.addr hbp hbr]
        exact h.size b hb
    · show freeCells _ _ + liveCells (_ :: s.live) = regionCells s.regions
      unfold liveCells
      rw [covered_cons, ← h.conserved, hcells]
      unfold liveCells
      abel

/-- A region that `sbrk` returns, before `morecore` frees it. -/
structure Grown (base : ℕ) (s : Heap) (nodes : List ℕ) (hp nu : ℕ) (s₁ : Heap) : Prop where
  /-- The free list is as before. -/
  free : FreeList base s₁.mem nodes
  /-- And its cells. -/
  cells : freeCells s₁.mem nodes = freeCells s.mem nodes
  /-- The region has a header. -/
  size : (s₁.mem hp).size = nu
  /-- No other header has changed. -/
  other : ∀ x, x ≠ hp → s₁.mem x = s.mem x
  /-- It is after all. -/
  above : base < hp ∧ hp ∉ nodes ∧ ∀ u ∈ regionCells s.regions, u < hp
  /-- It is one more region. -/
  regions : s₁.regions = (hp, nu) :: s.regions
  /-- The rest is as before. -/
  rest : s₁.freep = s.freep ∧ s₁.live = s.live

theorem grown (h : Inv base s nodes) (hsbrk : Fresh base sbrk) {nu hp m : ℕ}
    (hres : sbrk s m = some hp) (hnu : nu * HEADER < 2 ^ 32) :
    Grown base s nodes hp nu { s with
      mem := update s.mem hp { s.mem hp with size := nu }
      regions := (hp, nu * HEADER % 2 ^ 32 / HEADER) :: s.regions } := by
  obtain ⟨hbase, hafter⟩ := hsbrk s m hp hres
  have hlt : ∀ u ∈ regionCells s.regions, u < hp := by
    intro u hu
    obtain ⟨r, hr, hur⟩ := mem_covered.mp hu
    have := hafter r hr
    have := (mem_cells.mp hur).2
    omega
  have hnodes : hp ∉ nodes := by
    intro hmem
    have hne : hp ≠ base := by omega
    have hself : hp ∈ freeCells s.mem nodes :=
      mem_covered.mpr ⟨hp, hmem, self_mem_cells (h.free.pos hp hmem hne)⟩
    exact absurd (hlt hp (h.free_le hself)) (lt_irrefl hp)
  have hother : ∀ x, x ≠ hp → update s.mem hp { s.mem hp with size := nu } x = s.mem x :=
    fun x hx => update_of_ne hx ..
  have hsame : ∀ x ∈ nodes, update s.mem hp { s.mem hp with size := nu } x = s.mem x :=
    fun x hx => hother x fun heq => hnodes (by rwa [← heq])
  refine ⟨h.free.congr hsame, ?_, ?_, hother, ⟨hbase, hnodes, hlt⟩, ?_, rfl, rfl⟩
  · exact freeCells_congr fun x hx => congrArg Header.size (hsame x hx)
  · show (update s.mem hp _ hp).size = nu
    rw [update_self]
  · show (hp, nu * HEADER % 2 ^ 32 / HEADER) :: s.regions = _
    rw [Nat.mod_eq_of_lt hnu, Nat.mul_div_cancel _ (by decide)]

/-- What `morecore` asks for. -/
theorem morecore_units (hnu : nunits ≤ 2 ^ 27 + 1) :
    nunits ≤ (if nunits < 4096 then 4096 else nunits) ∧
      0 < (if nunits < 4096 then 4096 else nunits) ∧
      (if nunits < 4096 then 4096 else nunits) * HEADER < 2 ^ 32 := by
  unfold HEADER
  split <;> omega

/-- `morecore` fails and changes nothing, or frees a block that is large enough. -/
theorem morecore (h : Inv base s nodes) (hsbrk : Fresh base sbrk) (hnu : nunits ≤ 2 ^ 27 + 1)
    {r : Option ℕ} (hmore : s.morecore sbrk fuel nunits = some (r, s')) :
    (r = none ∧ s' = s) ∨ ∃ nodes' q, Inv base s' nodes' ∧ r = some q ∧ s'.freep = some q ∧
      q ∈ nodes' ∧ ∃ x ∈ nodes', nunits ≤ (s'.mem x).size := by
  obtain ⟨hle, hpos, hsmall⟩ := morecore_units hnu
  unfold Heap.morecore at hmore
  generalize (if nunits < 4096 then 4096 else nunits) = nu at hmore hle hpos hsmall
  dsimp only at hmore
  cases hres : sbrk s (nu * HEADER % 2 ^ 32) with
  | none =>
    rw [hres] at hmore
    obtain ⟨rfl, rfl⟩ := Prod.mk.inj (Option.some.inj hmore)
    exact .inl ⟨rfl, rfl⟩
  | some hp =>
    rw [hres] at hmore
    dsimp only at hmore
    have hgrown := h.grown hsbrk hres hsmall
    generalize ({ s with
      mem := update s.mem hp { s.mem hp with size := nu }
      regions := (hp, nu * HEADER % 2 ^ 32 / HEADER) :: s.regions } : Heap) = s1 at hmore hgrown
    obtain ⟨hfree, hcells, hsize, hother, ⟨hbase, hnodes, hlt⟩, hregions, hfreep, hlive⟩ := hgrown
    cases hat : s1.freeAt fuel hp with
    | none =>
      rw [hat] at hmore
      exact nomatch hmore
    | some s2 =>
      rw [hat] at hmore
      obtain ⟨rfl, rfl⟩ := Prod.mk.inj (Option.some.inj hmore)
      have hdisj : Disjoint (freeCells s1.mem nodes) (cells hp (s1.mem hp).size) := by
        refine Multiset.disjoint_left.mpr fun {u} hu hu' => ?_
        rw [hcells] at hu
        have := hlt u (h.free_le hu)
        have := (mem_cells.mp hu').1
        omega
      obtain ⟨mem', nodes', p, rfl, hfree', hp', hcells', ⟨x, hx, hfit⟩, hother'⟩ :=
        freeAt_spec hfree (by rw [hfreep]; exact h.freep) hbase (by omega) hdisj hat
      refine .inr ⟨nodes', p, ⟨hfree', ⟨p, hp', rfl⟩, ?_, ?_, ?_, ?_, ?_⟩, rfl, rfl, hp', x, hx, ?_⟩
      · intro b hb
        have hb : b ∈ s.live := hlive ▸ hb
        have hbhp := hlt _ (h.live_le (h.addr_mem hb))
        rw [show Heap.mem _ b.addr = s1.mem b.addr from
          hother' b.addr hbhp.ne (h.not_mem_nodes (h.addr_mem hb)), hother b.addr hbhp.ne]
        exact h.size b hb
      · intro b hb
        exact h.room b (hlive ▸ hb)
      · show freeCells mem' nodes' + liveCells s1.live = regionCells s1.regions
        unfold regionCells
        rw [hcells', hcells, hsize, hlive, hregions, covered_cons, ← regionCells, ← h.conserved]
        abel
      · show (regionCells s1.regions).Nodup
        unfold regionCells
        rw [hregions, covered_cons, Multiset.nodup_add]
        refine ⟨nodup_cells, h.nodup, Multiset.disjoint_left.mpr fun {u} hu hu' => ?_⟩
        have := hlt u hu'
        have : hp ≤ u := (mem_cells.mp hu).1
        omega
      · intro u hu
        have hu : u ∈ regionCells ((hp, nu) :: s.regions) := hregions ▸ hu
        unfold regionCells at hu
        rw [covered_cons, Multiset.mem_add] at hu
        rcases hu with hu | hu
        · exact hbase.trans_le (mem_cells.mp hu).1
        · exact h.above u hu
      · rw [hsize] at hfit
        exact hle.trans hfit

/-- `malloc` keeps the heap, if it returns. -/
theorem mallocLoop (hsbrk : Fresh base sbrk) (hn : 0 < nunits) (hnu : nunits ≤ 2 ^ 27 + 1)
    (hroom : nbytes ≤ HEADER * (nunits - 1)) {r : Option ℕ} (h : Inv base s nodes) (hq : q ∈ nodes)
    (hloop : Heap.mallocLoop sbrk nbytes nunits fuel s q (s.mem q).ptr = some (r, s')) :
    ∃ nodes', Inv base s' nodes' := by
  induction fuel generalizing s nodes q with
  | zero => exact nomatch hloop
  | succ fuel ih =>
    rw [Heap.mallocLoop] at hloop
    by_cases hfit : nunits ≤ (s.mem (s.mem q).ptr).size
    · rw [if_pos hfit] at hloop
      obtain ⟨nodes', htake⟩ := h.take hq rfl hn hfit hroom
      rw [Option.some.inj hloop] at htake
      exact ⟨nodes', htake⟩
    rw [if_neg hfit] at hloop
    by_cases hround : s.freep = some (s.mem q).ptr
    · rw [if_pos hround] at hloop
      cases hmore : s.morecore sbrk fuel nunits with
      | none =>
        rw [hmore] at hloop
        exact nomatch hloop
      | some res =>
        obtain ⟨r1, s1⟩ := res
        rw [hmore] at hloop
        rcases h.morecore hsbrk hnu hmore with ⟨rfl, rfl⟩ | ⟨nodes1, q1, h1, rfl, -, hq1, -⟩
        · obtain ⟨rfl, rfl⟩ := Prod.mk.inj (Option.some.inj hloop)
          exact ⟨nodes, h⟩
        · exact ih h1 hq1 hloop
    · rw [if_neg hround] at hloop
      exact ih h (h.free.ring.next_mem hq) hloop

end Inv

/-! ## Runs -/

/-- The units of a request. -/
theorem nunits_spec {n : ℕ} (hn : n < 2 ^ 30) :
    0 < Heap.nunits n ∧ Heap.nunits n ≤ 2 ^ 27 + 1 ∧ n ≤ HEADER * (Heap.nunits n - 1) := by
  unfold Heap.nunits HEADER
  omega

/-- Before the first call of `malloc`, or after it. -/
def Ready (base : ℕ) (s : Heap) : Prop :=
  (s.freep = none ∧ s.live = [] ∧ s.regions = []) ∨ ∃ nodes, Inv base s nodes

/-- The first call makes a list with `base` alone. -/
theorem inv_first (hlive : s.live = []) (hregions : s.regions = []) :
    Inv base { s with mem := update s.mem base ⟨base, 0⟩, freep := some base } [base] := by
  have hbase : update s.mem base ⟨base, 0⟩ base = ⟨base, 0⟩ := update_self ..
  refine ⟨⟨⟨?_, trivial⟩, rfl, ?_, ?_, List.pairwise_singleton _ _⟩,
    ⟨base, List.mem_cons_self, rfl⟩, ?_, ?_, ?_, ?_, ?_⟩
  · show (update s.mem base ⟨base, 0⟩ base).ptr = base
    rw [hbase]
  · show (update s.mem base ⟨base, 0⟩ base).size = 0
    rw [hbase]
  · intro x hx hne
    exact absurd (List.mem_singleton.mp hx) hne
  · intro b hb
    exact absurd (hlive ▸ hb) List.not_mem_nil
  · intro b hb
    exact absurd (hlive ▸ hb) List.not_mem_nil
  · show freeCells (update s.mem base ⟨base, 0⟩) [base] + liveCells s.live = regionCells s.regions
    rw [hlive, hregions, freeCells_cons, hbase]
    rfl
  · show (regionCells s.regions).Nodup
    rw [hregions]
    exact Multiset.nodup_zero
  · intro u hu
    have hu : u ∈ regionCells s.regions := hu
    rw [hregions] at hu
    exact absurd hu (Multiset.notMem_zero u)

/-- Every step keeps the heap. -/
theorem Step.ready {e : Event} (h : Ready base s) (hstep : Step base s e s') : Ready base s' := by
  cases hstep with
  | malloc hn hsbrk hmalloc =>
    obtain ⟨hpos, hle, hroom⟩ := nunits_spec hn
    unfold Heap.malloc at hmalloc
    rcases h with ⟨hfreep, hlive, hregions⟩ | ⟨nodes, hinv⟩
    · rw [hfreep] at hmalloc
      exact .inr ((inv_first hlive hregions).mallocLoop hsbrk hpos hle hroom List.mem_cons_self
        hmalloc)
    · obtain ⟨f, hf, hfreep⟩ := hinv.freep
      rw [hfreep] at hmalloc
      exact .inr (hinv.mallocLoop hsbrk hpos hle hroom hf hmalloc)
  | free hlive hfree =>
    rcases h with ⟨-, hnone, -⟩ | ⟨nodes, hinv⟩
    · rw [hnone] at hlive
      exact absurd hlive (by simp)
    · exact .inr (hinv.freed hlive hfree)
  | store hmem =>
    rcases h with ⟨hfreep, hlive, hregions⟩ | ⟨nodes, hinv⟩
    · exact .inl ⟨hfreep, hlive, hregions⟩
    · exact .inr ⟨nodes, hinv.store hmem⟩

/-- The heap as the program sees it. -/
structure Sound (base : ℕ) (s : Heap) (fs : List ℕ) : Prop where
  /-- The free list is circular, from `base` on through the free blocks. -/
  circular : RingList (fun a => (s.mem a).ptr) (base :: fs) ∧ ∃ f ∈ base :: fs, s.freep = some f
  /-- It is in the order of addresses, and there is a gap between any two blocks. -/
  ordered : (base :: fs).Pairwise fun x y => x + (s.mem x).size < y
  /-- Free blocks and blocks of the program are disjoint. -/
  disjoint : (fs.map (fun x => (x, (s.mem x).size)) ++
    s.live.map fun b => (b.addr, b.units)).Pairwise fun x y =>
      Disjoint (cells x.1 x.2) (cells y.1 y.2)
  /-- Blocks of the program are in memory that `sbrk` has returned. -/
  inside : ∀ b ∈ s.live, ∀ u ∈ cells b.addr b.units, ∃ r ∈ s.regions, u ∈ cells r.1 r.2
  /-- They have room for what the program has asked for, after the header. -/
  room : ∀ b ∈ s.live, b.nbytes ≤ HEADER * (b.units - 1)
  /-- No unit is lost. -/
  total : (fs.map fun x => (s.mem x).size).sum + (s.live.map Live.units).sum =
    (s.regions.map Prod.snd).sum

theorem Inv.sound (h : Inv base s nodes) : ∃ fs, Sound base s fs := by
  obtain ⟨fs, rfl⟩ : ∃ fs, nodes = base :: fs := by
    have hhead := h.free.head
    cases nodes with
    | nil => exact nomatch hhead
    | cons a fs => exact ⟨fs, by rw [Option.some.inj hhead]⟩
  have hcells : freeCells s.mem (base :: fs) = freeCells s.mem fs := by
    rw [freeCells_cons, h.free.base_size, cells_zero, zero_add]
  have hconserved := h.conserved
  rw [hcells] at hconserved
  refine ⟨fs, ⟨h.free.ring, h.freep⟩, h.free.gap, ?_, ?_, h.room, ?_⟩
  · have hnodup := h.nodup
    rw [← hconserved, Multiset.nodup_add] at hnodup
    obtain ⟨hfree, hlive, hdisj⟩ := hnodup
    refine List.pairwise_append.mpr ⟨List.pairwise_map.mpr (pairwise_disjoint hfree),
      List.pairwise_map.mpr (pairwise_disjoint hlive), ?_⟩
    intro x hx y hy
    obtain ⟨a, ha, rfl⟩ := List.mem_map.mp hx
    obtain ⟨b, hb, rfl⟩ := List.mem_map.mp hy
    refine Multiset.disjoint_left.mpr fun {u} hu hu' => ?_
    exact Multiset.disjoint_left.mp hdisj (mem_covered.mpr ⟨a, ha, hu⟩)
      (mem_covered.mpr ⟨b, hb, hu'⟩)
  · intro b hb u hu
    exact mem_covered.mp (h.live_le (mem_covered.mpr ⟨b, hb, hu⟩))
  · have hcard := congrArg Multiset.card hconserved
    unfold freeCells liveCells regionCells at hcard
    rwa [Multiset.card_add, card_covered, card_covered, card_covered] at hcard

end ChronoFS.Umalloc
