import ChronoFS.Vm.Uvm

/-!
# Growing a process

`growproc` adds `n` to the size of the process and has the pages follow. Since `deallocuvm` returns the
new size and `0` counts as a failure, `sbrk(-sz)` fails after it has given all pages back; and where the
size would become negative the sum wraps around, `deallocuvm` does nothing, and `growproc` succeeds
without any change. In all other cases it does what it should (`growproc_spec`), whatever `kalloc` does.
-/

namespace ChronoFS.Vm

open Function

variable {ι : Type*} {env : ι → ℕ} {m m' : Mem} {p p' : Proc} {n r : ℤ} {pd sz v : ℕ}

/-- The byte at the user address `va`, if its page is present. -/
def Mem.byteAt (m : Mem) (pd va : ℕ) : Option UInt8 :=
  (m.view pd (va / PGSIZE)).map fun x => x.page.byte (va % PGSIZE)

/-- What `growproc(n)` should do, if it returns `r`. -/
structure Grows (p : Proc) (n : ℤ) (m : Mem) (p' : Proc) (r : ℤ) (m' : Mem) : Prop where
  /-- It returns `0` or `-1`. -/
  result : r = 0 ∨ r = -1
  /-- The rest of the process is as it was. -/
  rest : p' = { p with sz := p'.sz }
  /-- The size is exact. -/
  sz : r = 0 → (p'.sz : ℤ) = p.sz + n
  /-- So are the pages. -/
  present : r = 0 → Exactly m' p.pgdir p'.sz
  /-- The bytes that stay are the same. -/
  bytes : r = 0 → ∀ va < min p.sz p'.sz, m'.byteAt p.pgdir va = m.byteAt p.pgdir va
  /-- New pages are zero. -/
  zero : r = 0 → ∀ v, pages p.sz ≤ v → v < pages p'.sz →
    m'.view p.pgdir v = some ⟨true, .fill 0⟩
  /-- A failure changes nothing. -/
  failed : r = -1 → p'.sz = p.sz ∧ m'.view p.pgdir = m.view p.pgdir

/-- A process with its memory. -/
structure Proc.Ok (env : ι → ℕ) (m : Mem) (p : Proc) : Prop where
  /-- It has an address space. -/
  space : Space env [] m p.pgdir
  /-- Its size is that of the memory that it has. -/
  pages : Exactly m p.pgdir p.sz
  /-- The rest is the kernel's. -/
  sz : p.sz < KERNBASE

/-- A byte of a page that is the same. -/
theorem byteAt_congr {va : ℕ} (h : m'.view pd (va / PGSIZE) = m.view pd (va / PGSIZE)) :
    m'.byteAt pd va = m.byteAt pd va := congrArg _ h

theorem uint_of_lt {x : ℤ} (h0 : 0 ≤ x) (h : x < WORD) : uint x = x.toNat := by
  unfold uint
  rw [Int.emod_eq_of_lt h0 h]

/-- Unless the size would become `0` or less, `growproc` does what it should. -/
theorem growproc_ok (h : p.Ok env m) (hlow : -2 ^ 31 ≤ n) (hhigh : n < 2 ^ 31)
    (hn : 0 ≤ n ∨ p.sz = 0 ∨ 0 < p.sz + n) :
    wp (growproc p n) (fun x m' => Grows p n m x.1 x.2 m') (fun _ _ => False) m := by
  have hsz := h.sz
  unfold growproc
  dsimp only
  by_cases hpos : 0 < n
  · -- the sum does not wrap
    have hsum : uint (p.sz + n) = p.sz + n.toNat := by
      rw [uint_of_lt (by omega) (by simp only [KERNBASE, WORD] at *; omega)]
      omega
    rw [if_pos hpos, hsum, wp_bind]
    refine h.space.wp_allocuvm hsz.le (fun k hk _ => h.pages.none hk) (fun m' h' hstep => ?_)
      (fun _ hlt => by omega) fun hnew hle m' h' hstep => ?_
    · rw [if_pos rfl]
      exact ⟨.inr rfl, rfl, by nofun, by nofun, by nofun, by nofun, fun _ => ⟨rfl, hstep.view⟩⟩
    · rw [if_neg (by omega)]
      refine ⟨.inl rfl, rfl, fun _ => ?_, fun _ => h.pages.zeroed hle hstep.view, fun _ va hva => ?_,
        fun _ v hv hv' => ?_, by nofun⟩
      · show ((p.sz + n.toNat : ℕ) : ℤ) = _
        omega
      · refine byteAt_congr ?_
        have hlt := div_lt_pages (lt_of_lt_of_le hva (min_le_left ..))
        rw [hstep.view]
        exact if_neg (by omega)
      · rw [hstep.view]
        exact if_pos ⟨hv, hv'⟩
  · rw [if_neg hpos]
    by_cases hneg : n < 0
    · rw [if_pos hneg, wp_bind]
      by_cases hz : p.sz = 0
      · -- nothing to free: `deallocuvm` returns the old size, which is `0`
        unfold deallocuvm
        rw [hz, if_pos (Nat.zero_le _), wp_pure, if_pos rfl]
        exact ⟨.inr rfl, rfl, by nofun, by nofun, by nofun, by nofun, fun _ => ⟨rfl, rfl⟩⟩
      · have hleft : 0 < p.sz + n := by omega
        have hsum : uint (p.sz + n) = (p.sz + n).toNat :=
          uint_of_lt hleft.le (by simp only [KERNBASE, WORD] at *; omega)
        rw [hsum]
        refine h.space.wp_deallocuvm hsz.le (by omega) fun m' h' hstep => ?_
        rw [if_neg (by omega)]
        have hle : (p.sz + n).toNat ≤ p.sz := by omega
        refine ⟨.inl rfl, rfl, fun _ => ?_, fun _ => h.pages.cut hle hstep.view, fun _ va hva => ?_,
          fun _ v hv hv' => ?_, by nofun⟩
        · show (((p.sz + n).toNat : ℕ) : ℤ) = _
          omega
        · refine byteAt_congr ?_
          have hlt : va / PGSIZE < pages (p.sz + n).toNat :=
            div_lt_pages (lt_of_lt_of_le hva (min_le_right ..))
          rw [hstep.view]
          exact if_neg (by omega)
        · have hmono := pages_mono hle
          have hlt : v < pages (p.sz + n).toNat := hv'
          omega
    · obtain rfl : n = 0 := by omega
      rw [if_neg (by decide)]
      refine ⟨.inl rfl, rfl, fun _ => (Int.add_zero _).symm, fun _ => h.pages, fun _ _ _ => rfl,
        fun _ v hv hv' => ?_, by nofun⟩
      have hlt : v < pages p.sz := hv'
      omega

/-- If the size would become `0` or less, it does not. -/
theorem growproc_bad (h : p.Ok env m) (hlow : -2 ^ 31 ≤ n) (hpos : 0 < p.sz) (hn : p.sz + n ≤ 0) :
    ¬ wp (growproc p n) (fun x m' => Grows p n m x.1 x.2 m') (fun _ _ => False) m := by
  intro hgrows
  have hsz := h.sz
  unfold growproc at hgrows
  dsimp only at hgrows
  rw [if_neg (by omega), if_pos (by omega), wp_bind] at hgrows
  by_cases hz : p.sz + n = 0
  · -- all pages are given back, and the new size is taken for an error
    have hsum : uint (p.sz + n) = 0 := by
      rw [hz]
      rfl
    have hrun : wp (deallocuvm p.pgdir p.sz 0) (fun r m' => r = 0 ∧ m'.view p.pgdir 0 = none)
        (fun _ _ => True) m := by
      refine h.space.wp_deallocuvm hsz.le hpos fun m' h' hstep => ⟨rfl, ?_⟩
      have hfirst : pages 0 ≤ 0 ∧ 0 * PGSIZE < p.sz := ⟨by decide, by rw [Nat.zero_mul]; exact hpos⟩
      rw [hstep.view]
      exact if_pos hfirst
    rw [hsum] at hgrows
    obtain ⟨r, m', hm, hg⟩ := hgrows.returns
    obtain ⟨rfl, hnone⟩ := hrun.ok hm
    rw [if_pos rfl] at hg
    have hsame := (Grows.failed hg rfl).2
    have hfirst : (m.view p.pgdir 0).isSome := (h.pages 0).mpr (div_lt_pages (a := 0) hpos)
    rw [← hsame, hnone] at hfirst
    exact nomatch hfirst
  · -- the sum wraps, and nothing is done
    have hsum : p.sz ≤ uint (p.sz + n) := by
      unfold uint
      simp only [KERNBASE, WORD] at *
      omega
    unfold deallocuvm at hgrows
    rw [if_pos hsum, wp_pure, if_neg (by omega)] at hgrows
    have hexact := Grows.sz hgrows rfl
    have heq : (p.sz : ℤ) = p.sz + n := hexact
    omega

/-- `growproc` is exact and atomic exactly if the size stays positive, or was `0`, or does not
shrink. -/
theorem growproc_spec (h : p.Ok env m) (hlow : -2 ^ 31 ≤ n) (hhigh : n < 2 ^ 31) :
    wp (growproc p n) (fun x m' => Grows p n m x.1 x.2 m') (fun _ _ => False) m ↔
      0 ≤ n ∨ p.sz = 0 ∨ 0 < p.sz + n := by
  refine ⟨fun hgrows => ?_, growproc_ok h hlow hhigh⟩
  by_contra hn
  exact growproc_bad h hlow (by omega) (by omega) hgrows

/-! ## A small process -/

/-- A kernel of 300 pages. -/
def smallLd : Ld := ⟨257, 300, by decide, by decide, by decide⟩

/-- Memory with the pages 400 to 402, and one free page. -/
def smallBase : Mem := ⟨smallLd, fun _ => .fill 0, [403]⟩

/-- The page directory 400 has the page table 401, and page 402 is the first page of the process. -/
def smallMem : Mem := (smallBase.addTable 400 0 401).setEntry 400 0 ⟨402, true, true, true⟩

/-- A process of one page. -/
def smallProc : Proc := ⟨400, PGSIZE, 0, 0, []⟩

/-- Memory with the page directory 400, its page table 401, one user page `v`, which is page 402, and
the free list `l`. -/
def pageMem (v : ℕ) (l : List ℕ) : Mem :=
  ((⟨smallLd, fun _ => .fill 0, l⟩ : Mem).addTable 400 0 401).setEntry 400 v ⟨402, true, true, true⟩

/-- It is an address space with that one page. -/
theorem pageMem_space {l : List ℕ} (hv : v < NPTENTRIES)
    (hl : ∀ b ∈ l, 403 ≤ b ∧ b < PHYSTOP / PGSIZE) (hnodup : l.Nodup) :
    ∃ env : ℕ → ℕ, Space env [] (pageMem v l) 400 ∧
      ∀ k, ((pageMem v l).view 400 k).isSome ↔ k = v := by
  have hown : Own (fun o : Part => if o = .dir then 400 else 0) ([401, 402] ++ l)
      (fun _ => true) smallLd.Managed := by
    have hdir : ∀ o : Part, (if o = .dir then 400 else 0) ≠ 0 → o = .dir := by
      intro o ho
      by_contra hne
      exact ho (if_neg hne)
    have hrange : ∀ b ∈ [401, 402] ++ l, 401 ≤ b ∧ b < PHYSTOP / PGSIZE := by
      intro b hb
      rcases List.mem_append.mp hb with hb | hb
      · have hb' : b = 401 ∨ b = 402 := by simpa using hb
        rcases hb' with rfl | rfl
        · decide
        · decide
      · have hb' := hl b hb
        exact ⟨by omega, hb'.2⟩
    refine ⟨fun o ho => ?_, fun _ _ => rfl, fun o o' ho heq => ?_, fun b hb => ?_, ?_⟩
    · rw [hdir o ho]
      exact ⟨by decide, by decide⟩
    · exact (hdir o ho).trans (hdir o' (heq ▸ ho)).symm
    · have hb' := hrange b hb
      refine ⟨by omega, ⟨by show 300 ≤ b; omega, hb'.2⟩, rfl, fun o heq => ?_⟩
      split_ifs at heq <;> omega
    · refine List.nodup_append.mpr ⟨by decide, hnodup, fun a ha b hb heq => ?_⟩
      have hb' := hl b hb
      have ha' : a = 401 ∨ a = 402 := by simpa using ha
      omega
  have hparts := Parted.complete hown fun h0 => absurd h0.1 (by decide)
  obtain ⟨hspace, hpde, hwalk⟩ := Space.empty (m := ⟨smallLd, fun _ => .fill 0, l⟩) rfl (by decide)
    hparts
  have hlt : v < UPAGES := hv.trans (by decide)
  have hidx : v / NPTENTRIES = 0 := Nat.div_eq_of_lt hv
  obtain ⟨htable, hgrown⟩ := hspace.addTable (i := 0) (by decide) (by rw [hpde]; rfl)
  have hpresent : (((⟨smallLd, fun _ => .fill 0, l⟩ : Mem).addTable 400 0 401).pde 400
      (v / NPTENTRIES)).present := by
    rw [hspace.pde_addTable, if_pos hidx]
  have habsent : ∀ k < VPAGES, ((⟨smallLd, fun _ => .fill 0, l⟩ : Mem).addTable 400 0 401).pte 400 k =
      .zero := fun k hk => (hgrown.pte k hk).trans (pte_of_not_walk (hwalk k))
  obtain ⟨hmapped, hstep⟩ := htable.map (e := ⟨402, true, true, true⟩) hlt hpresent
    (by rw [habsent v (upages_lt_vpages hlt)]; rfl) rfl
  refine ⟨_, hmapped, fun k => ?_⟩
  have hview : (pageMem v l).view 400 = _ := hstep.view
  rw [hview]
  by_cases hk : k = v
  · rw [hk, update_self]
    exact iff_of_true rfl rfl
  · have hnone : ((⟨smallLd, fun _ => .fill 0, l⟩ : Mem).addTable 400 0 401).view 400 k = none := by
      rw [hgrown.view]
      exact view_of_not_present (by rw [pte_of_not_walk (hwalk k)]; rfl)
    rw [update_of_ne hk, hnone]
    exact iff_of_false (by decide) hk

theorem smallProc_ok : ∃ env : ℕ → ℕ, smallProc.Ok env smallMem := by
  obtain ⟨env, hspace, hview⟩ := pageMem_space (v := 0) (l := [403]) (by decide) (by decide) (by decide)
  refine ⟨env, hspace, fun v => ?_, by decide⟩
  have hone : pages PGSIZE = 1 := by decide
  show ((pageMem 0 [403]).view 400 v).isSome ↔ v < pages PGSIZE
  rw [hview, hone]
  omega

/-- One more byte for the small process. -/
theorem growproc_spec_small : ∃ env : ℕ → ℕ, smallProc.Ok env smallMem ∧
    wp (growproc smallProc 1) (fun x m' => Grows smallProc 1 smallMem x.1 x.2 m') (fun _ _ => False)
      smallMem := by
  obtain ⟨env, h⟩ := smallProc_ok
  exact ⟨env, h, (growproc_spec h (by decide) (by decide)).mpr (.inl (by decide))⟩

/-- The small process asks for a page less, and loses it although the call fails. -/
theorem growproc_minus_size : smallProc.sz = PGSIZE ∧
    ¬ wp (growproc smallProc (-4096))
      (fun x m' => Grows smallProc (-4096) smallMem x.1 x.2 m') (fun _ _ => False) smallMem := by
  obtain ⟨env, h⟩ := smallProc_ok
  exact ⟨rfl, growproc_bad h (by decide) (by decide) (by decide)⟩

/-! ## Unmapping -/

/-- What `deallocuvm` leaves of the pages. -/
def unmapped (m : Mem) (pd oldsz newsz v : ℕ) : Option UserPage :=
  if newsz < oldsz ∧ PGROUNDUP newsz ≤ v * PGSIZE ∧ v * PGSIZE < oldsz then none else m.view pd v

end ChronoFS.Vm
