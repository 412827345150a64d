import ChronoFS.Vm.Space

/-!
# Growing, shrinking and freeing an address space

The functions of `vm.c` that change an address space, each by one rule. `deallocuvm` takes pages out and
gives them back, `allocuvm` puts zeroed pages in or leaves everything as it was, and neither fails
otherwise. `setupkvm` makes an address space without user pages, and `freevm` gives all its pages back.
-/

namespace ChronoFS.Vm

open Function

variable {ι : Type*} {env : ι → ℕ} {hand : List ℕ} {m m' : Mem} {pd f i j k v va : ℕ} {e : Pte}
  {p : Page} {E : Panic → Mem → Prop}

/-! ## Pages and entries -/

theorem wp_getPage {Q : Page → Mem → Prop} : wp (getPage f) Q E m ↔ Q (m.page f) m := Iff.rfl

theorem wp_setPage {Q : Unit → Mem → Prop} : wp (setPage f p) Q E m ↔ Q () (m.put f p) := Iff.rfl

theorem wp_getPte {Q : Pte → Mem → Prop} {x : ℕ × ℕ} :
    wp (getPte x) Q E m ↔ Q ((m.page x.1).pte x.2) m := Iff.rfl

theorem wp_setPte {Q : Unit → Mem → Prop} {x : ℕ × ℕ} :
    wp (setPte x e) Q E m ↔ Q () (m.put x.1 ((m.page x.1).setPte x.2 e)) := Iff.rfl

theorem wp_kalloc {Q : Option ℕ → Mem → Prop} (hnone : m.freelist = [] → Q none m)
    (hsome : ∀ f fs, m.freelist = f :: fs → Q (some f) { m with freelist := fs }) :
    wp kalloc Q E m := by
  unfold kalloc
  rw [wp_bind, wp_get]
  cases hfree : m.freelist with
  | nil => exact hnone hfree
  | cons f fs => exact hsome f fs hfree

theorem wp_kfree {Q : Unit → Mem → Prop} (hf : m.ld.Managed f) :
    wp (kfree f) Q E m ↔ Q () (m.free f) := by
  have hok : ¬ (f < m.ld.end ∨ PHYSTOP / PGSIZE ≤ f) := by
    have hlow := hf.1
    have hhigh := hf.2
    omega
  unfold kfree
  rw [wp_bind, wp_get, if_neg hok]
  rfl

/-- `kfree` of a page in hand. -/
theorem Space.wp_kfree {Q : Unit → Mem → Prop} (h : Space env (f :: hand) m pd)
    (hok : ∀ m', Space env hand m' pd → Step env pd m m' (m.view pd) → Q () m') :
    wp (kfree f) Q E m := by
  obtain ⟨hspace, hstep⟩ := h.free
  rw [Vm.wp_kfree (h.parts.pool_area List.mem_cons_self)]
  exact hok _ hspace hstep

/-! ## `walkpgdir` and `mappages` -/

theorem PDX_eq (hva : va < WORD) : PDX va = va / PGSIZE / NPTENTRIES := by
  unfold PDX
  rw [Nat.div_div_eq_div_mul, Nat.mod_eq_of_lt]
  simp only [WORD, PGSIZE, NPTENTRIES, NPDENTRIES] at *
  omega

/-- `walkpgdir` that does not allocate finds the entry, if there is a page table. -/
theorem wp_walkpgdir_false {Q : Option (ℕ × ℕ) → Mem → Prop} (hva : va < WORD)
    (hv : va / PGSIZE = v) (hnone : m.walk pd v = none → Q none m)
    (hsome : (m.pde pd (v / NPTENTRIES)).present → m.walk pd v =
      some ((m.page (m.pde pd (v / NPTENTRIES)).frame).pte (v % NPTENTRIES)) →
      Q (some ((m.pde pd (v / NPTENTRIES)).frame, v % NPTENTRIES)) m) :
    wp (walkpgdir pd va false) Q E m := by
  have hptx : PTX va = v % NPTENTRIES := by rw [← hv]; rfl
  unfold walkpgdir
  rw [wp_bind, wp_getPage, PDX_eq hva, hv, hptx]
  show wp (if (m.pde pd (v / NPTENTRIES)).present then _ else _) Q E m
  by_cases hp : (m.pde pd (v / NPTENTRIES)).present
  · rw [if_pos hp]
    exact hsome hp (if_pos hp)
  · rw [if_neg hp, if_pos rfl]
    exact hnone (if_neg hp)

/-- `walkpgdir` that allocates makes a page table if there is none, and fails if there is no page for
it. -/
theorem Space.wp_walkpgdir {Q : Option (ℕ × ℕ) → Mem → Prop} (h : Space env hand m pd)
    (hva : va < WORD) (hv : va / PGSIZE = v) (hnone : Q none m)
    (hsome : ∀ m', Space env hand m' pd → Grown env hand pd (v / NPTENTRIES) m m' →
      (m'.pde pd (v / NPTENTRIES)).present →
      Q (some ((m'.pde pd (v / NPTENTRIES)).frame, v % NPTENTRIES)) m') :
    wp (walkpgdir pd va true) Q E m := by
  have hptx : PTX va = v % NPTENTRIES := by rw [← hv]; rfl
  have hi : v / NPTENTRIES < NPDENTRIES := by
    simp only [WORD, PGSIZE, NPTENTRIES, NPDENTRIES] at *
    omega
  unfold walkpgdir
  rw [wp_bind, wp_getPage, PDX_eq hva, hv, hptx]
  show wp (if (m.pde pd (v / NPTENTRIES)).present then _ else _) Q E m
  by_cases hp : (m.pde pd (v / NPTENTRIES)).present
  · rw [if_pos hp]
    exact hsome m h (.refl ..) hp
  · rw [if_neg hp, if_neg (by decide), wp_bind]
    refine wp_kalloc (fun _ => hnone) fun f fs hfree => ?_
    have htaken := h.take hfree
    obtain ⟨hspace, hgrown⟩ := htaken.addTable hi (Bool.eq_false_iff.mpr hp)
    have hself := htaken.pde_addTable (i := v / NPTENTRIES) (v / NPTENTRIES)
    rw [if_pos rfl] at hself
    -- the entry that is returned is the one in the new table
    have hres := hsome _ hspace
      ⟨⟨hgrown.kept.ld, hgrown.kept.page⟩, hgrown.hand, hgrown.view, hgrown.pte, hgrown.walk⟩
      (by rw [hself])
    rw [hself] at hres
    exact hres

/-- `mappages` of whole pages is as many passes of its loop. -/
theorem mappages_eq {n : ℕ} (hn : v + (n + 1) ≤ VPAGES) (perm : Perm) :
    mappages pd (v * PGSIZE) ((n + 1) * PGSIZE) f perm = mapLoop pd perm n (v * PGSIZE) f := by
  have hdown : PGROUNDDOWN (v * PGSIZE) = v * PGSIZE := by
    unfold PGROUNDDOWN
    rw [Nat.mul_div_cancel _ (by decide)]
  have hlast : PGROUNDDOWN ((v * PGSIZE + (n + 1) * PGSIZE + WORD - 1) % WORD) = (v + n) * PGSIZE := by
    unfold PGROUNDDOWN
    simp only [VPAGES, WORD, PGSIZE] at *
    omega
  have hleft : ((v + n) * PGSIZE + WORD - v * PGSIZE) % WORD / PGSIZE = n := by
    simp only [VPAGES, WORD, PGSIZE] at *
    omega
  unfold mappages
  rw [hdown, hlast]
  show mapLoop pd perm (((v + n) * PGSIZE + WORD - v * PGSIZE) % WORD / PGSIZE) _ _ = _
  rw [hleft]

/-- `mappages` makes a page in hand a user page, or there is no page for the page table. -/
theorem Space.wp_mappages {Q : ℤ → Mem → Prop} (h : Space env (f :: hand) m pd) (hv : v < UPAGES)
    (hnew : m.view pd v = none) (perm : Perm)
    (hfail : ∀ m', Space env (f :: hand) m' pd → Step env pd m m' (m.view pd) → Q (-1) m')
    (hok : ∀ m', Space env hand m' pd →
      Step env pd m m' (update (m.view pd) v (some ⟨perm.user, m.page f⟩)) → Q 0 m') :
    wp (mappages pd (v * PGSIZE) PGSIZE f perm) Q E m := by
  have hva : v * PGSIZE < WORD := by
    simp only [UPAGES, KERNBASE, WORD, PGSIZE] at *
    omega
  have hone : mappages pd (v * PGSIZE) PGSIZE f perm = mapLoop pd perm 0 (v * PGSIZE) f :=
    mappages_eq (n := 0) (upages_lt_vpages hv) perm
  rw [hone]
  unfold mapLoop
  rw [wp_bind]
  refine h.wp_walkpgdir hva (Nat.mul_div_cancel v (by decide)) (hfail m h (.refl ..))
    fun m1 h1 hgrown hp => ?_
  have hstep := hgrown.step hv
  have hold : (m1.pte pd v).present = false := not_present_of_view hv (by rw [hstep.view, hnew])
  have hentry : (m1.page (m1.pde pd (v / NPTENTRIES)).frame).pte (v % NPTENTRIES) = m1.pte pd v :=
    (pte_of_walk (if_pos hp)).symm
  show wp (getPte _ >>= _) Q E m1
  rw [wp_bind, wp_getPte, hentry, if_neg (by rw [hold]; decide), wp_bind, wp_setPte]
  obtain ⟨hspace, hmapped⟩ := h1.map (e := ⟨f, true, perm.writable, perm.user⟩) hv hp hold rfl
  refine hok _ hspace ?_
  have hres := hstep.trans hmapped
  rw [hstep.view, hgrown.hand f List.mem_cons_self] at hres
  exact hres

/-! ## `deallocuvm` -/

/-- One page is given back: `kfree` comes before the entry is cleared. -/
theorem Space.wp_unmap {Q : Unit → Mem → Prop} (h : Space env hand m pd) (hv : v < UPAGES)
    (hp : (m.pde pd (v / NPTENTRIES)).present) (hold : (m.pte pd v).present)
    (hok : ∀ m', Space env hand m' pd → Step env pd m m' (update (m.view pd) v none) →
      (∀ k < VPAGES, k ≠ v → m'.pte pd k = m.pte pd k) →
      m'.freelist = (m.pte pd v).frame :: m.freelist → Q () m') :
    wp (do kfree (m.pte pd v).frame
           setPte ((m.pde pd (v / NPTENTRIES)).frame, v % NPTENTRIES) .zero) Q E m := by
  have hi := div_lt_npdentries (upages_lt_vpages hv)
  have hne0 := h.user v hv hold
  have hne : (m.pte pd v).frame ≠ (m.pde pd (v / NPTENTRIES)).frame :=
    h.part_ne (part_user hv hold) (part_table hi hp) hne0 (by nofun)
  obtain ⟨hspace, hstep⟩ := h.unmap hv hp hold
  obtain ⟨hspace', hstep'⟩ := hspace.free
  -- the two changes are to different pages
  have hcomm : (m.free (m.pte pd v).frame).put (m.pde pd (v / NPTENTRIES)).frame
      (((m.free (m.pte pd v).frame).page (m.pde pd (v / NPTENTRIES)).frame).setPte
        (v % NPTENTRIES) .zero) = (m.setEntry pd v .zero).free (m.pte pd v).frame := by
    have hpage : (m.free (m.pte pd v).frame).page (m.pde pd (v / NPTENTRIES)).frame =
        m.page (m.pde pd (v / NPTENTRIES)).frame := page_put_of_ne (Ne.symm hne) m _
    rw [hpage]
    exact congrArg (Mem.mk m.ld · ((m.pte pd v).frame :: m.freelist)) (Function.update_comm hne ..)
  rw [wp_bind, Vm.wp_kfree (h.part_managed (part_user hv hold) hne0), wp_setPte, hcomm]
  refine hok _ hspace' (hstep.trans (hstep.view ▸ hstep')) (fun k hk hkv => ?_) rfl
  have hfree := (hspace.put_pool List.mem_cons_self (.fill 1)).2.2 k hk
  refine (congrArg (·.getD .zero) hfree).trans ?_
  show (m.setEntry pd v .zero).pte pd k = _
  rw [h.pte_setEntry (upages_lt_vpages hv) hp (by decide) hk, if_neg hkv]

/-- The pages from `v` on below `sz` bytes are gone. -/
def cut (view : ℕ → Option UserPage) (v sz : ℕ) (k : ℕ) : Option UserPage :=
  if v ≤ k ∧ k * PGSIZE < sz then none else view k

/-- The pages of `n` bytes. -/
def pages (n : ℕ) : ℕ := (n + (PGSIZE - 1)) / PGSIZE

theorem PGROUNDUP_eq {n : ℕ} (h : n ≤ KERNBASE) : PGROUNDUP n = pages n * PGSIZE := by
  unfold PGROUNDUP pages
  rw [Nat.mod_eq_of_lt]
  simp only [KERNBASE, WORD, PGSIZE] at *
  omega

/-- What `deallocuvm` does to an entry of a page table. -/
def freeEntry (pte : ℕ × ℕ) : VmM Unit := do
  let e ← getPte pte
  if e.present then
    if e.frame = 0 then throw .kfree
    else
      kfree e.frame
      setPte pte .zero

/-- What it does to the page at `a`, if its page table is there. -/
def deallocPage (pgdir a : ℕ) : VmM Unit := do
  match ← walkpgdir pgdir a false with
  | none => return
  | some pte => freeEntry pte

/-- `deallocuvm` without the shortcut: `left` pages are visited one by one, from page `v` on. -/
def deallocEach (pgdir : ℕ) : (left v : ℕ) → VmM Unit
  | 0, _ => return
  | left + 1, v => do
    deallocPage pgdir (v * PGSIZE)
    deallocEach pgdir left (v + 1)

/-- One pass of the loop of `deallocuvm`. -/
theorem deallocLoop_succ {oldsz fuel : ℕ} (h : va < oldsz) :
    deallocLoop pd oldsz (fuel + 1) va = (do
      match ← walkpgdir pd va false with
      | none => deallocLoop pd oldsz fuel (PGADDR (PDX va + 1))
      | some pte =>
        freeEntry pte
        deallocLoop pd oldsz fuel ((va + PGSIZE) % WORD)) := by
  rw [deallocLoop, if_pos h]
  refine bind_congr fun r => ?_
  cases r with
  | none => rfl
  | some pte =>
    dsimp only
    unfold freeEntry
    rw [bind_assoc]
    refine bind_congr fun e => ?_
    by_cases hp : e.present
    · rw [if_pos hp, if_pos hp]
      by_cases hf : e.frame = 0
      · rw [if_pos hf, if_pos hf]
      · rw [if_neg hf, if_neg hf, bind_assoc]
    · rw [if_neg hp, if_neg hp, pure_bind]

/-- What `walkpgdir` returns if there is no page table. -/
theorem walkpgdir_false_none (hp : (m.pde pd (PDX va)).present = false) :
    walkpgdir pd va false m = .ok none m := by
  show (if (m.pde pd (PDX va)).present = true then _ else _ : VmM _) m = _
  rw [if_neg (by rw [hp]; decide)]
  rfl

/-- What it returns if there is one. -/
theorem walkpgdir_false_some (hp : (m.pde pd (PDX va)).present) :
    walkpgdir pd va false m = .ok (some ((m.pde pd (PDX va)).frame, PTX va)) m := by
  show (if (m.pde pd (PDX va)).present = true then _ else _ : VmM _) m = _
  rw [if_pos hp]
  rfl

/-- Without their page table nothing is done to pages. -/
theorem deallocEach_absent {n left : ℕ} (hp : (m.pde pd i).present = false)
    (hn : ∀ k, v ≤ k → k < v + n → PDX (k * PGSIZE) = i) :
    deallocEach pd (n + left) v m = deallocEach pd left (v + n) m := by
  induction n generalizing v with
  | zero => rw [Nat.zero_add, Nat.add_zero]
  | succ n ih =>
    have hfirst : (m.pde pd (PDX (v * PGSIZE))).present = false := by
      rw [hn v le_rfl (by omega)]
      exact hp
    have hskip : deallocEach pd (n + left + 1) v m = deallocEach pd (n + left) (v + 1) m := by
      show (deallocPage pd (v * PGSIZE) >>= fun _ => deallocEach pd (n + left) (v + 1)) m = _
      have hpage : deallocPage pd (v * PGSIZE) m = .ok () m := by
        show (walkpgdir pd (v * PGSIZE) false >>= _ : VmM Unit) m = _
        show EStateM.bind _ _ m = _
        unfold EStateM.bind
        rw [walkpgdir_false_none hfirst]
        rfl
      show EStateM.bind _ _ m = _
      unfold EStateM.bind
      rw [hpage]
    rw [Nat.add_right_comm, hskip, ih fun k hk hk' => hn k (by omega) (by omega), Nat.add_assoc,
      Nat.add_comm 1 n]

/-- The page that the shortcut of `deallocuvm` goes on with. -/
theorem PGADDR_PDX (hv : v < UPAGES) :
    PGADDR (PDX (v * PGSIZE) + 1) = (v / NPTENTRIES + 1) * NPTENTRIES * PGSIZE := by
  have hva : v * PGSIZE < WORD := by
    simp only [UPAGES, KERNBASE, WORD, PGSIZE] at *
    omega
  unfold PGADDR
  rw [PDX_eq hva, Nat.mul_div_cancel v (by decide)]
  simp only [UPAGES, KERNBASE, WORD, PGSIZE, NPTENTRIES] at *
  omega

theorem lt_pages_iff {sz : ℕ} : k < pages sz ↔ k * PGSIZE < sz := by
  unfold pages
  simp only [PGSIZE]
  omega

/-- Pages past the size are not visited. -/
theorem deallocEach_done {sz : ℕ} (h : sz ≤ v * PGSIZE) (m : Mem) :
    deallocEach pd (pages sz - v) v m = .ok () m := by
  have hzero : pages sz - v = 0 := by
    unfold pages
    simp only [PGSIZE] at *
    omega
  rw [hzero]
  rfl

/-- Pages without their page table may be skipped. -/
theorem deallocEach_skip {n w : ℕ} (hp : (m.pde pd i).present = false) (hvw : v ≤ w)
    (hsame : ∀ k, v ≤ k → k < w → k < n → PDX (k * PGSIZE) = i) :
    deallocEach pd (n - v) v m = deallocEach pd (n - w) w m := by
  by_cases hw : w ≤ n
  · have hleft : n - v = (w - v) + (n - w) := by omega
    have hend : v + (w - v) = w := by omega
    rw [hleft, deallocEach_absent hp fun k hk hk' => hsame k hk (by omega) (by omega), hend]
  · have hzero : n - w = 0 := by omega
    have hall : deallocEach pd (n - v + 0) v m = _ :=
      deallocEach_absent hp fun k hk hk' => hsame k hk (by omega) (by omega)
    rw [hzero, ← Nat.add_zero (n - v), hall]
    rfl

/-- The address after a user page. -/
theorem next_page (hv : v < UPAGES) : (v * PGSIZE + PGSIZE) % WORD = (v + 1) * PGSIZE := by
  simp only [UPAGES, KERNBASE, WORD, PGSIZE] at *
  omega

theorem pages_le_upages {sz : ℕ} (h : sz ≤ KERNBASE) : pages sz ≤ UPAGES := by
  unfold pages
  simp only [UPAGES, KERNBASE, PGSIZE] at *
  omega

/-- The pages of one page table have one index. -/
theorem PDX_congr {w : ℕ} (hvw : v ≤ w) (hw : w < (v / NPTENTRIES + 1) * NPTENTRIES) (hu : w < UPAGES) :
    PDX (w * PGSIZE) = PDX (v * PGSIZE) := by
  have haddr : ∀ u < UPAGES, PDX (u * PGSIZE) = u / NPTENTRIES := by
    intro u hu
    have hua : u * PGSIZE < WORD :=
      ((Nat.mul_lt_mul_right (by decide)).mpr hu).trans_le (by decide)
    rw [PDX_eq hua, Nat.mul_div_cancel _ (by decide)]
  rw [haddr w hu, haddr v (by omega)]
  exact Nat.div_eq_of_lt_le ((Nat.div_mul_le_self ..).trans hvw) hw

/-- The shortcut is exact: the loop of `deallocuvm` does what visiting the pages one by one does, and it
ends before its bound. -/
theorem deallocLoop_eq {oldsz fuel : ℕ} (hsz : oldsz ≤ KERNBASE) (hfuel : oldsz ≤ (v + fuel) * PGSIZE)
    (m : Mem) :
    deallocLoop pd oldsz fuel (v * PGSIZE) m = deallocEach pd (pages oldsz - v) v m := by
  induction fuel generalizing v m with
  | zero => exact (deallocEach_done hfuel m).symm
  | succ fuel ih =>
    by_cases hlt : v * PGSIZE < oldsz
    · have hvp : v < pages oldsz := by
        have hdiv := Nat.mul_div_cancel v (n := PGSIZE) (by decide)
        unfold pages
        simp only [PGSIZE] at hlt ⊢
        omega
      have hv : v < UPAGES := hvp.trans_le (pages_le_upages hsz)
      rw [deallocLoop_succ hlt]
      cases hp : (m.pde pd (PDX (v * PGSIZE))).present with
      | false =>
        -- no page table: all pages up to the next one have none
        have hup : v < (v / NPTENTRIES + 1) * NPTENTRIES := by
          rw [Nat.mul_comm]
          exact Nat.lt_mul_div_succ v (by decide)
        have hskip : deallocLoop pd oldsz fuel (PGADDR (PDX (v * PGSIZE) + 1)) m =
            deallocEach pd (pages oldsz - (v / NPTENTRIES + 1) * NPTENTRIES)
              ((v / NPTENTRIES + 1) * NPTENTRIES) m := by
          rw [PGADDR_PDX hv]
          refine ih (hfuel.trans (Nat.mul_le_mul_right _ ?_)) m
          rw [← Nat.add_assoc, Nat.add_right_comm]
          exact Nat.add_le_add_right hup fuel
        have hsame : ∀ k, v ≤ k → k < (v / NPTENTRIES + 1) * NPTENTRIES → k < pages oldsz →
            PDX (k * PGSIZE) = PDX (v * PGSIZE) := fun k hk hk' hk'' =>
          PDX_congr hk hk' (hk''.trans_le (pages_le_upages hsz))
        show EStateM.bind _ _ m = _
        unfold EStateM.bind
        rw [walkpgdir_false_none hp]
        refine hskip.trans ?_
        exact (deallocEach_skip hp hup.le hsame).symm
      | true =>
        have hleft : pages oldsz - v = pages oldsz - (v + 1) + 1 := by omega
        have hrest : deallocLoop pd oldsz fuel ((v * PGSIZE + PGSIZE) % WORD) =
            deallocEach pd (pages oldsz - (v + 1)) (v + 1) := by
          funext m1
          rw [next_page hv]
          refine ih ?_ m1
          rw [Nat.add_assoc, Nat.add_comm 1 fuel]
          exact hfuel
        rw [hleft, hrest]
        show EStateM.bind _ _ m = EStateM.bind (EStateM.bind _ _) _ m
        unfold EStateM.bind
        rw [walkpgdir_false_some hp]
        rfl
    · rw [deallocLoop, if_neg hlt]
      exact (deallocEach_done (Nat.not_lt.mp hlt) m).symm

/-- The frames of the pages that are present among `n` from `v` on, the last one first. -/
def frames (m : Mem) (pd : ℕ) : (n v : ℕ) → List ℕ
  | 0, _ => []
  | n + 1, v => frames m pd n (v + 1) ++ if (m.pte pd v).present then [(m.pte pd v).frame] else []

/-- One page is visited. -/
theorem Space.wp_deallocPage {Q : Unit → Mem → Prop} (h : Space env hand m pd) (hv : v < UPAGES)
    (hok : ∀ m', Space env hand m' pd → Step env pd m m' (update (m.view pd) v none) →
      (∀ k < VPAGES, k ≠ v → m'.pte pd k = m.pte pd k) →
      m'.freelist = (if (m.pte pd v).present then [(m.pte pd v).frame] else []) ++ m.freelist →
      Q () m') : wp (deallocPage pd (v * PGSIZE)) Q E m := by
  have hva : v * PGSIZE < WORD := ((Nat.mul_lt_mul_right (by decide)).mpr hv).trans_le (by decide)
  have hsame : (m.pte pd v).present = false → wp (pure () : VmM Unit) Q E m := by
    intro hold
    refine hok m h ?_ (fun _ _ _ => rfl) (by rw [hold]; rfl)
    rw [← view_of_not_present hold, Function.update_eq_self]
    exact .refl ..
  unfold deallocPage
  rw [wp_bind]
  refine wp_walkpgdir_false hva (Nat.mul_div_cancel v (by decide)) (fun hnone => ?_) fun hp hsome => ?_
  · exact hsame (by rw [pte_of_not_walk hnone]; rfl)
  · have hentry := pte_of_walk hsome
    show wp (getPte _ >>= _) Q E m
    rw [wp_bind, wp_getPte, ← hentry]
    cases hold : (m.pte pd v).present with
    | false => exact hsame hold
    | true =>
      rw [if_pos rfl, if_neg (h.user v hv hold)]
      refine h.wp_unmap hv hp hold fun m' h' hstep hpte hfree => hok m' h' hstep hpte ?_
      rw [if_pos hold, hfree]
      rfl

/-- The pages are visited one by one. -/
theorem Space.wp_deallocEach {Q : Unit → Mem → Prop} {n : ℕ} (h : Space env hand m pd)
    (hn : v + n ≤ UPAGES)
    (hok : ∀ m', Space env hand m' pd →
      Step env pd m m' (fun k => if v ≤ k ∧ k < v + n then none else m.view pd k) →
      m'.freelist = frames m pd n v ++ m.freelist → Q () m') :
    wp (deallocEach pd n v) Q E m := by
  induction n generalizing v m with
  | zero =>
    refine hok m h ?_ rfl
    have hview : (fun k => if v ≤ k ∧ k < v + 0 then none else m.view pd k) = m.view pd :=
      funext fun k => if_neg (by omega)
    rw [hview]
    exact .refl ..
  | succ n ih =>
    unfold deallocEach
    rw [wp_bind]
    refine h.wp_deallocPage (by omega) fun m1 h1 hstep hpte hfree => ?_
    refine ih h1 (by omega) fun m2 h2 hstep2 hfree2 => hok m2 h2 ?_ ?_
    · have hview : (fun k => if v + 1 ≤ k ∧ k < v + 1 + n then none else m1.view pd k) =
          fun k => if v ≤ k ∧ k < v + (n + 1) then none else m.view pd k := by
        funext k
        rw [hstep.view]
        by_cases hk : k = v
        · rw [hk, update_self, if_neg (by omega), if_pos (by omega)]
        · rw [update_of_ne hk]
          exact if_congr (by omega) rfl rfl
      have hres := hstep.trans hstep2
      rw [hview] at hres
      exact hres
    · -- the entries of the later pages are the same
      have hframes : ∀ n u, v < u → u + n ≤ UPAGES → frames m1 pd n u = frames m pd n u := by
        intro n
        induction n with
        | zero => exact fun _ _ _ => rfl
        | succ n ihn =>
          intro u hu hle
          unfold frames
          rw [ihn (u + 1) (by omega) (by omega), hpte u (upages_lt_vpages (by omega)) (by omega)]
      rw [hfree2, hfree, hframes n (v + 1) (by omega) (by omega), ← List.append_assoc]
      rfl

/-- The loop of `deallocuvm` from page `v` on. -/
theorem Space.wp_deallocLoop {Q : Unit → Mem → Prop} {oldsz fuel : ℕ} (h : Space env hand m pd)
    (hsz : oldsz ≤ KERNBASE) (hfuel : oldsz ≤ (v + fuel) * PGSIZE)
    (hok : ∀ m', Space env hand m' pd → Step env pd m m' (cut (m.view pd) v oldsz) →
      m'.freelist = frames m pd (pages oldsz - v) v ++ m.freelist → Q () m') :
    wp (deallocLoop pd oldsz fuel (v * PGSIZE)) Q E m := by
  have hrun : deallocLoop pd oldsz fuel (v * PGSIZE) = deallocEach pd (pages oldsz - v) v :=
    funext (deallocLoop_eq hsz hfuel)
  have hpages := pages_le_upages hsz
  rw [hrun]
  by_cases hv : v ≤ pages oldsz
  · refine h.wp_deallocEach (by omega) fun m' h' hstep => hok m' h' ?_
    have hcut : (fun k => if v ≤ k ∧ k < v + (pages oldsz - v) then none else m.view pd k) =
        cut (m.view pd) v oldsz := by
      funext k
      refine if_congr (and_congr_right fun _ => ?_) rfl rfl
      rw [← lt_pages_iff]
      omega
    rw [hcut] at hstep
    exact hstep
  · have hzero : pages oldsz - v = 0 := by omega
    rw [hzero] at hok ⊢
    refine hok m h ?_ rfl
    have hcut : cut (m.view pd) v oldsz = m.view pd := by
      funext k
      refine if_neg fun hk => ?_
      have hlt := lt_pages_iff.mpr hk.2
      omega
    rw [hcut]
    exact .refl ..

theorem Space.wp_deallocuvm {Q : ℕ → Mem → Prop} {oldsz newsz : ℕ} (h : Space env hand m pd)
    (hsz : oldsz ≤ KERNBASE) (hlt : newsz < oldsz)
    (hok : ∀ m', Space env hand m' pd → Step env pd m m' (cut (m.view pd) (pages newsz) oldsz) →
      Q newsz m') : wp (deallocuvm pd oldsz newsz) Q E m := by
  unfold deallocuvm
  rw [if_neg (by omega), wp_bind, PGROUNDUP_eq (by omega)]
  refine h.wp_deallocLoop hsz ?_ fun m' h' hstep _ => hok m' h' hstep
  simp only [PGSIZE] at *
  omega

/-! ## `allocuvm` -/

/-- The pages from `v` on below `n` are new. -/
def zeroed (view : ℕ → Option UserPage) (v n : ℕ) (k : ℕ) : Option UserPage :=
  if v ≤ k ∧ k < n then some ⟨true, .fill 0⟩ else view k

/-- The page after the last new one. -/
theorem zeroed_succ (view : ℕ → Option UserPage) {n : ℕ} (hv : v < n) :
    zeroed (update view v (some ⟨true, .fill 0⟩)) (v + 1) n = zeroed view v n := by
  funext k
  unfold zeroed
  by_cases hk : k = v
  · rw [hk, update_self, if_neg (by omega), if_pos ⟨le_rfl, hv⟩]
  · rw [update_of_ne hk]
    exact if_congr (by omega) rfl rfl

/-- A page among those that are cut off does not matter. -/
theorem cut_update (view : ℕ → Option UserPage) {x : Option UserPage} {n sz : ℕ} (hv : n ≤ v)
    (hlt : v * PGSIZE < sz) : cut (update view v x) n sz = cut view n sz := by
  funext k
  unfold cut
  by_cases hk : k = v
  · rw [hk, if_pos ⟨hv, hlt⟩, if_pos ⟨hv, hlt⟩]
  · rw [update_of_ne hk]

/-- Nothing is cut off where there is nothing. -/
theorem cut_eq (view : ℕ → Option UserPage) {n sz : ℕ}
    (h : ∀ k, n ≤ k → k < pages sz → view k = none) : cut view n sz = view := by
  funext k
  unfold cut
  by_cases hk : n ≤ k ∧ k * PGSIZE < sz
  · have hlt : k < pages sz := by
      unfold pages
      have hlt := hk.2
      simp only [PGSIZE] at *
      omega
    rw [if_pos hk, h k hk.1 hlt]
  · rw [if_neg hk]

/-- The loop of `allocuvm` from page `v` on. -/
theorem Space.wp_allocLoop {Q : ℕ → Mem → Prop} {oldsz newsz left : ℕ} (h : Space env hand m pd)
    (hnew : newsz < KERNBASE) (hold : pages oldsz ≤ v) (hleft : v + left = pages newsz)
    (hnone : ∀ k, v ≤ k → k < pages newsz → m.view pd k = none)
    (hfail : ∀ m', Space env hand m' pd → Step env pd m m' (cut (m.view pd) (pages oldsz) newsz) →
      Q 0 m')
    (hok : ∀ m', Space env hand m' pd → Step env pd m m' (zeroed (m.view pd) v (pages newsz)) →
      Q newsz m') : wp (allocLoop pd oldsz newsz left (v * PGSIZE)) Q E m := by
  induction left generalizing v m with
  | zero =>
    refine hok m h ?_
    have hsame : zeroed (m.view pd) v (pages newsz) = m.view pd := by
      funext k
      exact if_neg (by omega)
    rw [hsame]
    exact .refl ..
  | succ left ih =>
    have hlt : v * PGSIZE < newsz := by
      unfold pages at hleft
      simp only [PGSIZE] at *
      omega
    have hold' : oldsz < newsz := by
      unfold pages at hold
      simp only [PGSIZE] at *
      omega
    have hv : v < UPAGES := by
      simp only [UPAGES, KERNBASE, PGSIZE] at *
      omega
    unfold allocLoop
    rw [wp_bind]
    refine wp_kalloc (fun _ => ?_) fun f fs hfree => ?_
    · -- no page: what was allocated is given back
      show wp (deallocuvm pd newsz oldsz >>= _) Q E m
      rw [wp_bind]
      exact h.wp_deallocuvm hnew.le hold' fun m' h' hstep => hfail m' h' hstep
    · obtain ⟨h1, hstep1, -⟩ := (h.take hfree).put_pool List.mem_cons_self (.fill 0)
      have hstep1 : Step env pd m _ (m.view pd) := ⟨⟨hstep1.kept.ld, hstep1.kept.page⟩, hstep1.view,
        hstep1.kernel⟩
      have hpage : ({ m with freelist := fs }.put f (.fill 0)).page f = .fill 0 := page_put_self ..
      show wp (setPage f (.fill 0) >>= _) Q E _
      rw [wp_bind, wp_setPage, wp_bind]
      generalize { m with freelist := fs }.put f (.fill 0) = m1 at h1 hstep1 hpage
      refine h1.wp_mappages hv (by rw [hstep1.view]; exact hnone v le_rfl (by omega)) _
        (fun m2 h2 hstep2 => ?_) fun m2 h2 hstep2 => ?_
      · rw [if_pos (by decide), wp_bind]
        refine h2.wp_deallocuvm hnew.le hold' fun m3 h3 hstep3 => ?_
        rw [wp_bind]
        refine h3.wp_kfree fun m4 h4 hstep4 => hfail m4 h4 ?_
        have hres := ((hstep1.trans hstep2).trans hstep3).trans hstep4
        rw [hstep3.view, hstep2.view, hstep1.view] at hres
        exact hres
      · have hstep := hstep1.trans hstep2
        rw [hstep1.view, hpage] at hstep
        have hnext : (v * PGSIZE + PGSIZE) % WORD = (v + 1) * PGSIZE := by
          simp only [UPAGES, KERNBASE, WORD, PGSIZE] at *
          omega
        rw [if_neg (by decide), hnext]
        refine ih h2 (by omega) (by omega) (fun k hk hk' => ?_) (fun m3 h3 hstep3 => hfail m3 h3 ?_)
          fun m3 h3 hstep3 => hok m3 h3 ?_
        · rw [hstep.view, update_of_ne (by omega)]
          exact hnone k (by omega) hk'
        · have hres := hstep.trans hstep3
          rw [hstep.view, cut_update _ hold hlt] at hres
          exact hres
        · have hres := hstep.trans hstep3
          rw [hstep.view, zeroed_succ _ (by omega)] at hres
          exact hres

/-- `allocuvm` puts new pages in, or leaves everything as it was. -/
theorem Space.wp_allocuvm {Q : ℕ → Mem → Prop} {oldsz newsz : ℕ} (h : Space env hand m pd)
    (hold : oldsz ≤ KERNBASE)
    (hnone : ∀ k, pages oldsz ≤ k → k < pages newsz → m.view pd k = none)
    (hfail : ∀ m', Space env hand m' pd → Step env pd m m' (m.view pd) → Q 0 m')
    (hless : newsz < KERNBASE → newsz < oldsz → Q oldsz m)
    (hok : newsz < KERNBASE → oldsz ≤ newsz → ∀ m', Space env hand m' pd →
      Step env pd m m' (zeroed (m.view pd) (pages oldsz) (pages newsz)) → Q newsz m') :
    wp (allocuvm pd oldsz newsz) Q E m := by
  unfold allocuvm
  by_cases hbig : KERNBASE ≤ newsz
  · rw [if_pos hbig]
    exact hfail m h (.refl ..)
  · rw [if_neg hbig]
    by_cases hlt : newsz < oldsz
    · rw [if_pos hlt]
      exact hless (by omega) hlt
    · have hleft : pages oldsz + (newsz - pages oldsz * PGSIZE + (PGSIZE - 1)) / PGSIZE =
          pages newsz := by
        unfold pages
        simp only [PGSIZE] at *
        omega
      rw [if_neg hlt]
      show wp (allocLoop pd oldsz newsz ((newsz - PGROUNDUP oldsz + (PGSIZE - 1)) / PGSIZE)
        (PGROUNDUP oldsz)) Q E m
      rw [PGROUNDUP_eq hold]
      refine h.wp_allocLoop (by omega) le_rfl hleft hnone (fun m' h' hstep => hfail m' h' ?_)
        (hok (by omega) (by omega))
      rw [cut_eq _ hnone] at hstep
      exact hstep

/-! ## The pages that are present -/

/-- Exactly the pages of `sz` bytes are present. -/
def Exactly (m : Mem) (pd sz : ℕ) : Prop := ∀ v, (m.view pd v).isSome ↔ v < pages sz

theorem pages_mono {a b : ℕ} (h : a ≤ b) : pages a ≤ pages b :=
  Nat.div_le_div_right (Nat.add_le_add_right h _)

/-- The page of an address below `n`. -/
theorem div_lt_pages {a n : ℕ} (h : a < n) : a / PGSIZE < pages n := by
  unfold pages
  simp only [PGSIZE]
  omega

/-- Pages past the end are not present. -/
theorem Exactly.none {sz : ℕ} (h : Exactly m pd sz) (hv : pages sz ≤ v) : m.view pd v = none :=
  Option.not_isSome_iff_eq_none.mp fun hs => Nat.not_lt.mpr hv ((h v).mp hs)

/-- The pages after `allocuvm`. -/
theorem Exactly.zeroed {sz newsz : ℕ} (h : Exactly m pd sz) (hle : sz ≤ newsz)
    (hview : m'.view pd = zeroed (m.view pd) (pages sz) (pages newsz)) : Exactly m' pd newsz := by
  intro v
  have hmono := pages_mono hle
  rw [hview]
  unfold Vm.zeroed
  by_cases hv : pages sz ≤ v ∧ v < pages newsz
  · rw [if_pos hv]
    exact iff_of_true rfl hv.2
  · rw [if_neg hv, h v]
    omega

/-- The pages after `deallocuvm`. -/
theorem Exactly.cut {sz newsz : ℕ} (h : Exactly m pd sz) (hle : newsz ≤ sz)
    (hview : m'.view pd = cut (m.view pd) (pages newsz) sz) : Exactly m' pd newsz := by
  intro v
  have hmono := pages_mono hle
  rw [hview]
  unfold Vm.cut
  by_cases hv : pages newsz ≤ v ∧ v * PGSIZE < sz
  · rw [if_pos hv]
    exact iff_of_false (by decide) (Nat.not_lt.mpr hv.1)
  · have hlt : v < pages sz ↔ v * PGSIZE < sz := by
      unfold Vm.pages
      simp only [PGSIZE]
      omega
    rw [if_neg hv, h v, hlt]
    refine ⟨fun hv' => ?_, fun hv' => ?_⟩
    · by_contra hge
      exact hv ⟨Nat.not_lt.mp hge, hv'⟩
    · exact hlt.mp (by omega)

end ChronoFS.Vm
