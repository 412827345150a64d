import ChronoFS.Vm.Uvm

/-!
# Making and freeing a page directory

`setupkvm` takes a page for a new page directory and maps the kernel into it, in four ranges. `KernelPart`
is what `walkpgdir` finds there afterwards: there are page tables for physical memory and for the
devices, none for the addresses between them, and no entry is for the user. `freevm` gives back the user
pages, the page tables and the page directory. If `setupkvm` runs out of pages on the way, `freevm` gives
back what it had.
-/

namespace ChronoFS.Vm

open Function

variable {ι : Type*} {env : ι → ℕ} {hand : List ℕ} {m m' : Mem} {pd f i j k v va : ℕ} {e : Pte}
  {p : Page} {E : Panic → Mem → Prop}

/-! ## `freevm` -/

/-- The parts of an address space without user pages after the first `n` page tables were freed. -/
def tablesFrom (m : Mem) (pd n : ℕ) : Part → ℕ
  | .dir => pd
  | .table i => if i < n then 0 else m.part pd (.table i)
  | .user _ => 0

/-- `m'` is `m` after the first `n` page tables of `pd` were freed. -/
structure Freeing (env : ι → ℕ) (hand : List ℕ) (pd n : ℕ) (m m' : Mem) : Prop where
  /-- The rest has its places. -/
  parts : Parted (Sum.elim env (tablesFrom m pd n)) (hand ++ m'.freelist) m'.ld.Managed
  /-- The pages of others. -/
  kept : Kept env m m'
  /-- The page directory is as it was. -/
  dir : m'.page pd = m.page pd

/-- A page whose owner gives it up goes to the free list. -/
theorem partition_free {κ : Type*} {ref ref' : κ → ℕ}
    (h : Parted ref (hand ++ m.freelist) m.ld.Managed) (o : κ) (hne : ref o ≠ 0) (hz : ref' o = 0)
    (ho : ∀ o', o' ≠ o → ref' o' = ref o') :
    Parted ref' (hand ++ (m.free (ref o)).freelist) (m.free (ref o)).ld.Managed :=
  (h.detach hne hz ho).perm List.perm_middle

/-- `kfree` leaves the pages of others alone. -/
theorem Kept.free {κ : Type*} {ref : κ → ℕ} {pool : List ℕ} {area : ℕ → Prop}
    (h : Kept env m m') (hparts : Parted (Sum.elim env ref) pool area) (o : κ) :
    Kept env m (m'.free (ref o)) := by
  refine ⟨h.ld, fun x hx => ?_⟩
  have hox : env x ≠ ref o := fun heq => nomatch hparts.own.inj (.inl x) (.inr o) hx heq
  exact (page_put_of_ne hox m' _).trans (h.page x hx)

/-- One pass of the loop of `freevm`. -/
theorem Freeing.wp_table {Q : Unit → Mem → Prop} (h : Freeing env hand pd i m m') (hpd : pd ≠ 0)
    (htable : (m.pde pd i).present → (m.pde pd i).frame ≠ 0) (hi : i < NPDENTRIES)
    (hok : ∀ m'', Freeing env hand pd (i + 1) m m'' → Q () m'') :
    wp (do let dir ← getPage pd
           let pde := dir.pte i
           if pde.present then kfree pde.frame) Q E m' := by
  have hpde : (m'.page pd).pte i = m.pde pd i := congrArg (·.pte i) h.dir
  have hother : ∀ o, o ≠ Part.table i → tablesFrom m pd (i + 1) o = tablesFrom m pd i o := by
    intro o ho
    cases o with
    | dir => rfl
    | table k =>
      have hk : k ≠ i := fun heq => ho (congrArg Part.table heq)
      exact if_congr (by omega) rfl rfl
    | user v => rfl
  have hzero : tablesFrom m pd (i + 1) (.table i) = 0 := if_pos (Nat.lt_succ_self i)
  rw [wp_bind, wp_getPage]
  dsimp only
  rw [hpde]
  cases hp : (m.pde pd i).present with
  | true =>
    have hframe : tablesFrom m pd i (.table i) = (m.pde pd i).frame := by
      refine (if_neg (lt_irrefl i)).trans ?_
      exact part_table hi hp
    have hne : tablesFrom m pd i (.table i) ≠ 0 := hframe ▸ htable hp
    have hdir : pd ≠ tablesFrom m pd i (.table i) := fun heq =>
      nomatch h.parts.own.inj (.inr .dir) (.inr (.table i)) hpd heq
    have hman : m'.ld.Managed (tablesFrom m pd i (.table i)) :=
      h.parts.own.inArea (.inr (.table i)) hne
    rw [if_pos rfl, ← hframe, wp_kfree hman]
    refine hok _ ⟨partition_free h.parts (.inr (.table i)) hne hzero fun o' ho' => ?_,
      h.kept.free h.parts _, ?_⟩
    · cases o' with
      | inl x => rfl
      | inr o' => exact hother o' fun heq => ho' (congrArg Sum.inr heq)
    · exact (page_put_of_ne hdir m' _).trans h.dir
  | false =>
    rw [if_neg (by decide)]
    have hsame : tablesFrom m pd (i + 1) = tablesFrom m pd i := by
      funext o
      by_cases ho : o = .table i
      · have hnone : m.part pd (.table i) = 0 := by
          show (if i < NPDENTRIES then (m.pde pd i).ref else 0) = 0
          rw [if_pos hi]
          exact if_neg (by rw [hp]; decide)
        rw [ho, hzero]
        exact ((if_neg (lt_irrefl i)).trans hnone).symm
      · exact hother o ho
    exact hok _ ⟨hsame ▸ h.parts, h.kept, h.dir⟩

/-- `freevm` gives all pages of the address space back. -/
theorem Space.wp_freevm {Q : Unit → Mem → Prop} (h : Space env hand m pd)
    (hok : ∀ m', Parted env (hand ++ m'.freelist) m'.ld.Managed → Kept env m m' → Q () m') :
    wp (freevm pd) Q E m := by
  unfold freevm
  rw [if_neg h.dir, wp_bind]
  refine h.wp_deallocuvm le_rfl (by decide) fun m1 h1 hstep => ?_
  -- no user page is left
  have hnone : ∀ v, m1.part pd (.user v) = 0 := by
    intro v
    show (if v < UPAGES then (m1.pte pd v).ref else 0) = 0
    by_cases hv : v < UPAGES
    · have hview : m1.view pd v = none := by
        rw [hstep.view]
        refine if_pos ⟨Nat.zero_le _, ?_⟩
        simp only [UPAGES, KERNBASE, PGSIZE] at *
        omega
      rw [if_pos hv]
      exact if_neg (by rw [not_present_of_view hv hview]; decide)
    · exact if_neg hv
  have hparts : m1.part pd = tablesFrom m1 pd 0 := by
    funext o
    cases o with
    | dir => rfl
    | table i =>
      show m1.part pd (.table i) = if i < 0 then 0 else m1.part pd (.table i)
      rw [if_neg (Nat.not_lt_zero i)]
    | user v => exact hnone v
  have hstart : Freeing env hand pd 0 m1 m1 := ⟨hparts ▸ h1.parts, .refl env m1, rfl⟩
  rw [wp_bind]
  generalize hn : NPDENTRIES = n
  refine wp_forM_range (fun i m' => Freeing env hand pd i m1 m') hstart (fun i m' hi hdone => ?_)
    fun m2 h2 => ?_
  · rw [← hn] at hi
    exact hdone.wp_table h.dir (h1.table i hi) hi fun m'' h'' => h''
  · subst hn
    have hne : tablesFrom m1 pd NPDENTRIES .dir ≠ 0 := h.dir
    have hman : m2.ld.Managed (tablesFrom m1 pd NPDENTRIES .dir) := h2.parts.own.inArea (.inr .dir) hne
    show wp (kfree (tablesFrom m1 pd NPDENTRIES .dir)) Q E m2
    rw [Vm.wp_kfree hman]
    refine hok _ ?_ (hstep.kept.trans (h2.kept.free h2.parts .dir))
    have hfreed : Parted (Sum.elim env fun _ : Part => 0) (hand ++ (m2.free pd).freelist)
        (m2.free pd).ld.Managed := partition_free h2.parts (.inr .dir) hne rfl fun o' ho' => ?_
    · refine hfreed.reindex Sum.inl Sum.inl_injective (fun _ => rfl) fun o ho => ?_
      cases o with
      | inl x => exact ⟨x, rfl⟩
      | inr _ => exact absurd rfl ho
    · cases o' with
      | inl x => rfl
      | inr o' =>
        cases o' with
        | dir => exact absurd rfl ho'
        | table i =>
          show 0 = if i < NPDENTRIES then 0 else m1.part pd (.table i)
          by_cases hi : i < NPDENTRIES
          · rw [if_pos hi]
          · rw [if_neg hi]
            exact (if_neg hi).symm
        | user v => rfl

/-! ## `setupkvm` -/

/-- The pages `S` of the kernel's part are mapped. -/
structure KernelMaps (S : ℕ → Prop) (m : Mem) (pd : ℕ) : Prop where
  /-- They are present. -/
  present : ∀ k, UPAGES ≤ k → k < VPAGES → ((m.pte pd k).present = true ↔ S k)
  /-- None of them is for the user. -/
  user : ∀ k, UPAGES ≤ k → k < VPAGES → (m.pte pd k).user = false
  /-- There are page tables for them. -/
  walk : ∀ k, UPAGES ≤ k → k < VPAGES →
    ((m.walk pd k).isSome ↔ ∃ j, S j ∧ j / NPTENTRIES = k / NPTENTRIES)

/-- One pass of the loop of `mappages` for the kernel. -/
theorem KernelMaps.setEntry {S : ℕ → Prop} (h : KernelMaps S m pd)
    (hv : UPAGES ≤ v) (hv' : v < VPAGES) (hgrown : Grown env hand pd (v / NPTENTRIES) m m')
    (hspace' : Space env hand m' pd) (hp : (m'.pde pd (v / NPTENTRIES)).present)
    (he : e.frame < WORD / PGSIZE) (hpe : e.present) (hue : e.user = false) :
    KernelMaps (fun k => S k ∨ k = v) (m'.setEntry pd v e) pd := by
  have hpte : ∀ k < VPAGES, (m'.setEntry pd v e).pte pd k = if k = v then e else m.pte pd k := by
    intro k hk
    rw [hspace'.pte_setEntry hv' hp he hk, hgrown.pte k hk]
  refine ⟨fun k hk hk' => ?_, fun k hk hk' => ?_, fun k hk hk' => ?_⟩
  · rw [hpte k hk']
    by_cases hkv : k = v
    · rw [if_pos hkv]
      exact iff_of_true hpe (.inr hkv)
    · rw [if_neg hkv, h.present k hk hk', or_iff_left hkv]
  · rw [hpte k hk']
    by_cases hkv : k = v
    · rw [if_pos hkv]
      exact hue
    · rw [if_neg hkv]
      exact h.user k hk hk'
  · rw [hspace'.walk_setEntry hv' hp he hk']
    by_cases hkv : k = v
    · rw [if_pos hkv]
      exact iff_of_true rfl ⟨v, .inr rfl, by rw [hkv]⟩
    · rw [if_neg hkv]
      by_cases hdiv : k / NPTENTRIES = v / NPTENTRIES
      · have hsome : (m'.walk pd k).isSome := by
          unfold Mem.walk
          rw [hdiv, if_pos hp]
          rfl
        exact iff_of_true hsome ⟨v, .inr rfl, hdiv.symm⟩
      · rw [hgrown.walk k hk' hdiv, h.walk k hk hk']
        refine ⟨fun ⟨j, hj, heq⟩ => ⟨j, .inl hj, heq⟩, ?_⟩
        rintro ⟨j, hj | rfl, heq⟩
        · exact ⟨j, hj, heq⟩
        · exact absurd heq.symm hdiv

/-- A larger set of pages, or the same. -/
theorem KernelMaps.congr {S T : ℕ → Prop} (h : KernelMaps S m pd) (hST : ∀ k, S k ↔ T k) :
    KernelMaps T m pd := by
  obtain rfl : S = T := funext fun k => propext (hST k)
  exact h

/-- One pass of the loop of `mappages` for the kernel, and what follows it. -/
theorem Space.wp_mapPass {Q : ℤ → Mem → Prop} {S : ℕ → Prop} {perm : Perm} {pa : ℕ} {K : VmM ℤ}
    (h : Space env hand m pd) (hk : KernelMaps S m pd) (hv : UPAGES ≤ v) (hv' : v < VPAGES)
    (hpa : pa < WORD / PGSIZE) (hperm : perm.user = false) (hnew : ¬ S v)
    (hfail : ∀ m', Space env hand m' pd → Kept env m m' → Q (-1) m')
    (hnext : ∀ m', Space env hand m' pd → Kept env m m' → m'.view pd = m.view pd →
      KernelMaps (fun k => S k ∨ k = v) m' pd → wp K Q E m') :
    wp (walkpgdir pd (v * PGSIZE) true >>= fun r =>
      match r with
      | none => return -1
      | some pte => do
        let old ← getPte pte
        if old.present then throw .remap
        else
          setPte pte ⟨pa, true, perm.writable, perm.user⟩
          K) Q E m := by
  have hva : v * PGSIZE < WORD := by
    simp only [VPAGES, WORD, PGSIZE] at *
    omega
  rw [wp_bind]
  refine h.wp_walkpgdir hva (Nat.mul_div_cancel v (by decide)) (hfail m h (.refl env m))
    fun m1 h1 hgrown hp => ?_
  have hentry : (m1.page (m1.pde pd (v / NPTENTRIES)).frame).pte (v % NPTENTRIES) = m.pte pd v :=
    (pte_of_walk (if_pos hp)).symm.trans (hgrown.pte v hv')
  have hold : (m.pte pd v).present ≠ true := fun hpr => hnew ((hk.present v hv hv').mp hpr)
  obtain ⟨hspace, hview⟩ := h1.setEntry_kernel hv' hp hv (e := ⟨pa, true, perm.writable, perm.user⟩) hpa
  show wp (getPte _ >>= _) Q E m1
  rw [wp_bind, wp_getPte, hentry, if_neg hold, wp_bind, wp_setPte]
  exact hnext _ hspace (hgrown.kept.trans (h1.kept_setEntry hv' hp)) (hview.trans hgrown.view)
    (hk.setEntry hv hv' hgrown h1 hp hpa rfl hperm)

/-- The loop of `mappages` for the kernel, from page `v` on. -/
theorem Space.wp_mapLoop {Q : ℤ → Mem → Prop} {S : ℕ → Prop} {perm : Perm} {left pa : ℕ}
    (h : Space env hand m pd) (hk : KernelMaps S m pd) (hv : UPAGES ≤ v) (hend : v + left < VPAGES)
    (hpa : pa + left < WORD / PGSIZE) (hperm : perm.user = false)
    (hnew : ∀ k, v ≤ k → k ≤ v + left → ¬ S k)
    (hfail : ∀ m', Space env hand m' pd → Kept env m m' → Q (-1) m')
    (hok : ∀ m', Space env hand m' pd → Kept env m m' → m'.view pd = m.view pd →
      KernelMaps (fun k => S k ∨ v ≤ k ∧ k ≤ v + left) m' pd → Q 0 m') :
    wp (mapLoop pd perm left (v * PGSIZE) pa) Q E m := by
  induction left generalizing v pa m S with
  | zero =>
    unfold mapLoop
    refine h.wp_mapPass hk hv hend hpa hperm (hnew v le_rfl le_rfl) hfail fun m1 h1 hkept hview hk1 => ?_
    exact hok m1 h1 hkept hview (hk1.congr fun k => or_congr Iff.rfl (by omega))
  | succ left ih =>
    unfold mapLoop
    refine h.wp_mapPass hk hv (by omega) (by omega) hperm (hnew v le_rfl (by omega)) hfail
      fun m1 h1 hkept hview hk1 => ?_
    have hnext : (v * PGSIZE + PGSIZE) % WORD = (v + 1) * PGSIZE := by
      simp only [VPAGES, WORD, PGSIZE] at hend ⊢
      omega
    dsimp only
    rw [hnext]
    refine ih h1 hk1 (by omega) (by omega) (by omega) (fun k hk2 hk3 => ?_)
      (fun m2 h2 hkept2 => hfail m2 h2 (hkept.trans hkept2)) fun m2 h2 hkept2 hview2 hk2 => ?_
    · rintro (hS | rfl)
      · exact hnew k (by omega) (by omega) hS
      · omega
    · refine hok m2 h2 (hkept.trans hkept2) (hview2.trans hview) (hk2.congr fun k => ?_)
      rw [or_assoc]
      exact or_congr Iff.rfl (by omega)

/-- What `walkpgdir` finds in the kernel's part of a page directory. -/
structure KernelPart (m : Mem) (pd : ℕ) : Prop where
  /-- There are page tables for physical memory and for the devices. -/
  walk : ∀ k, UPAGES ≤ k → k < VPAGES →
    ((m.walk pd k).isSome ↔ k < (KERNBASE + PHYSTOP) / PGSIZE ∨ DEVSPACE / PGSIZE ≤ k)
  /-- No entry is for the user. -/
  user : ∀ k, UPAGES ≤ k → k < VPAGES → (m.pte pd k).user = false

theorem KernelPart.step {view : ℕ → Option UserPage} (h : KernelPart m pd)
    (hstep : Step env pd m m' view) : KernelPart m' pd := by
  refine ⟨fun k hk hk' => ?_, fun k hk hk' => ?_⟩
  · rw [hstep.kernel k hk hk']
    exact h.walk k hk hk'
  · unfold Mem.pte
    rw [hstep.kernel k hk hk']
    exact h.user k hk hk'

/-- A line of `kmap` is mapped, and then the rest of the list, or everything is given back. -/
theorem Space.wp_mapKernel_cons {Q : Option ℕ → Mem → Prop} {S : ℕ → Prop} {n pa : ℕ} {w : Bool}
    {ks : List Kmap} (h : Space env hand m pd) (hk : KernelMaps S m pd) (hv : UPAGES ≤ v)
    (hend : v + (n + 1) ≤ VPAGES) (hpa : pa + (n + 1) ≤ WORD / PGSIZE)
    (hnew : ∀ k, v ≤ k → k ≤ v + n → ¬ S k)
    (hnone : ∀ m', Parted env (hand ++ m'.freelist) m'.ld.Managed → Kept env m m' → Q none m')
    (hrest : ∀ m', Space env hand m' pd → Kept env m m' → m'.view pd = m.view pd →
      KernelMaps (fun k => S k ∨ v ≤ k ∧ k ≤ v + n) m' pd → wp (mapKernel pd ks) Q E m') :
    wp (mapKernel pd (⟨v * PGSIZE, pa, (n + 1) * PGSIZE, w⟩ :: ks)) Q E m := by
  unfold mapKernel
  dsimp only
  rw [mappages_eq hend, wp_bind]
  refine h.wp_mapLoop hk hv hend hpa rfl hnew (fun m1 h1 hkept => ?_) fun m1 h1 hkept hview hk1 => ?_
  · rw [if_pos (by decide), wp_bind]
    exact h1.wp_freevm fun m2 hparts hkept2 => hnone m2 hparts (hkept.trans hkept2)
  · rw [if_neg (by decide)]
    exact hrest m1 h1 hkept hview hk1

/-- The lines of `kmap` in pages. -/
theorem kmap_eq (ld : Ld) : kmap ld =
    [⟨0x80000 * PGSIZE, 0, (0xFF + 1) * PGSIZE, true⟩,
      ⟨0x80100 * PGSIZE, 0x100, (ld.data - 0x101 + 1) * PGSIZE, false⟩,
      ⟨(0x80000 + ld.data) * PGSIZE, ld.data, (0xDFFF - ld.data + 1) * PGSIZE, true⟩,
      ⟨0xFE000 * PGSIZE, 0xFE000, (0x1FFF + 1) * PGSIZE, true⟩] := by
  have hlow := ld.text_lt_data
  have hmid := ld.data_le_end
  have hhigh := ld.end_lt_phystop
  have htext : ld.data * PGSIZE - EXTMEM = (ld.data - 0x101 + 1) * PGSIZE := by
    simp only [EXTMEM, PGSIZE] at *
    omega
  have hvirt : KERNBASE + ld.data * PGSIZE = (0x80000 + ld.data) * PGSIZE := by
    simp only [KERNBASE, PGSIZE]
    omega
  have hdata : PHYSTOP - ld.data * PGSIZE = (0xDFFF - ld.data + 1) * PGSIZE := by
    simp only [PHYSTOP, PGSIZE] at *
    omega
  unfold kmap
  rw [htext, hvirt, hdata]
  rfl

/-- The four ranges together. -/
theorem KernelMaps.kernelPart {S : ℕ → Prop} (h : KernelMaps S m pd)
    (hS : ∀ k, S k ↔ 0x80000 ≤ k ∧ k < 0x8E000 ∨ 0xFE000 ≤ k ∧ k < 0x100000) : KernelPart m pd := by
  refine ⟨fun k hk hk' => (h.walk k hk hk').trans ?_, h.user⟩
  simp only [hS, KERNBASE, PHYSTOP, DEVSPACE, UPAGES, VPAGES, WORD, PGSIZE, NPTENTRIES] at *
  refine ⟨fun ⟨j, hj, heq⟩ => by omega, fun hk'' => ⟨k, by omega, rfl⟩⟩

/-- `setupkvm` makes an address space without user pages, or there are not enough pages. -/
theorem wp_setupkvm {Q : Option ℕ → Mem → Prop}
    (h : Parted env (hand ++ m.freelist) m.ld.Managed)
    (hnone : ∀ m', Parted env (hand ++ m'.freelist) m'.ld.Managed → Kept env m m' → Q none m')
    (hsome : ∀ pd m', Space env hand m' pd → Kept env m m' → KernelPart m' pd →
      (∀ v, m'.view pd v = none) → Q (some pd) m') : wp setupkvm Q E m := by
  unfold setupkvm
  rw [wp_bind]
  refine wp_kalloc (fun _ => hnone m h (.refl env m)) fun pd fs hfree => ?_
  -- the page directory is a page of the free list
  have hpool : Parted env (pd :: (hand ++ fs)) m.ld.Managed := by
    refine h.perm ?_
    rw [hfree]
    exact List.perm_middle.symm
  have hpd : pd ≠ 0 := hpool.pool_ne_zero List.mem_cons_self
  have hparts : Parted (Sum.elim env fun o : Part => if o = .dir then pd else 0) (hand ++ fs)
      m.ld.Managed := by
    refine hpool.sumZero.attach (o := .inr .dir) rfl (fun o' ho' => ?_) rfl
    cases o' with
    | inl x => rfl
    | inr o => exact if_neg fun heq => ho' (congrArg Sum.inr heq)
  have hkept : Kept env m ({ m with freelist := fs }.put pd (.fill 0)) :=
    ⟨rfl, fun x _ => page_put_of_ne (hpool.pool_ne List.mem_cons_self x) _ _⟩
  obtain ⟨hspace, hpde, hwalk⟩ := Space.empty (m := { m with freelist := fs }.put pd (.fill 0))
    (page_put_self ..) hpd hparts
  have hmaps : KernelMaps (fun _ => False) ({ m with freelist := fs }.put pd (.fill 0)) pd := by
    refine ⟨fun k _ _ => ?_, fun k _ _ => ?_, fun k _ _ => ?_⟩
    · rw [pte_of_not_walk (hwalk k)]
      exact iff_of_false (by decide) id
    · rw [pte_of_not_walk (hwalk k)]
      rfl
    · rw [hwalk k]
      exact iff_of_false (by decide) fun ⟨_, hf, _⟩ => hf
  have hview : ∀ v, ({ m with freelist := fs }.put pd (.fill 0)).view pd v = none := fun v =>
    view_of_not_present (by rw [pte_of_not_walk (hwalk v)]; rfl)
  show wp (setPage pd (.fill 0) >>= _) Q E _
  rw [wp_bind, wp_setPage, if_neg (by decide), wp_bind, wp_get]
  generalize { m with freelist := fs }.put pd (.fill 0) = m1 at hspace hmaps hview hkept ⊢
  have hlow := m1.ld.text_lt_data
  have hmid := m1.ld.data_le_end
  have hhigh := m1.ld.end_lt_phystop
  simp only [EXTMEM, PHYSTOP, PGSIZE] at hlow hhigh
  have hgive : ∀ m2, Kept env m1 m2 → ∀ m', Parted env (hand ++ m'.freelist) m'.ld.Managed →
      Kept env m2 m' → Q none m' := fun m2 hk2 m' hp hk' => hnone m' hp (hkept.trans (hk2.trans hk'))
  rw [kmap_eq]
  refine hspace.wp_mapKernel_cons hmaps (by decide) (by decide) (by decide) (fun _ _ _ => id)
    (hgive m1 (.refl env m1)) fun m2 h2 hkept2 hview2 hk2 => ?_
  refine h2.wp_mapKernel_cons hk2 (by decide) ?_ ?_ (fun k _ _ => ?_) (hgive m2 hkept2)
    fun m3 h3 hkept3 hview3 hk3 => ?_
  · simp only [VPAGES, WORD, PGSIZE]
    omega
  · simp only [WORD, PGSIZE]
    omega
  · simp only [false_or]
    omega
  refine h3.wp_mapKernel_cons hk3 ?_ ?_ ?_ (fun k _ _ => ?_) (hgive m3 (hkept2.trans hkept3))
    fun m4 h4 hkept4 hview4 hk4 => ?_
  · simp only [UPAGES, KERNBASE, PGSIZE]
    omega
  · simp only [VPAGES, WORD, PGSIZE]
    omega
  · simp only [WORD, PGSIZE]
    omega
  · simp only [false_or]
    omega
  have hkept' := (hkept2.trans hkept3).trans hkept4
  refine h4.wp_mapKernel_cons hk4 (by decide) (by decide) (by decide) (fun k _ _ => ?_)
    (hgive m4 hkept') fun m5 h5 hkept5 hview5 hk5 => ?_
  · simp only [false_or]
    omega
  refine hsome pd m5 h5 (hkept.trans (hkept'.trans hkept5)) (hk5.kernelPart fun k => ?_)
    fun v => ?_
  · simp only [false_or]
    omega
  · rw [hview5, hview4, hview3, hview2]
    exact hview v

end ChronoFS.Vm
