import ChronoFS.Vm.Image
import ChronoFS.Results.Memory

/-!
# `exec`

`exec` builds the new image beside the old address space, which it frees only when nothing can fail any
more. `exec_safe` is about every file: the call fails and the process keeps what it had, or it has the
image that the program headers describe. The arguments are another matter (`pushArgs_spec`): strings so
long that `sp` wraps around to the kernel's addresses are refused there, but between physical memory and
the devices there is no page table to refuse them.
-/

namespace ChronoFS.Vm

variable {ι : Type*} {env : ι → ℕ} {hand : List ℕ} {m m' : Mem} {p p' : Proc} {pd g : ℕ}
  {argv : List (List UInt8)}

/-! ## The image -/

/-- The ELF header of a file. -/
def File.header (ip : File) : Elfhdr := .ofBytes ((readStruct ip 0 ELFHDR_SIZE).getD [])

/-- The loadable segments of a file. -/
def File.segments (ip : File) : List Proghdr :=
  Vm.segments ip ip.header.phnum.toNat ip.header.phoff.toNat

/-- The process has the image of the file. -/
structure Committed (ip : File) (m : Mem) (p : Proc) : Prop where
  /-- Exactly the pages of its size are present. -/
  present : Exactly m p.pgdir p.sz
  /-- Each segment holds the bytes of the file, but where a later one overlaps it. -/
  loaded : ∀ l₁ ph l₂, ip.segments = l₁ ++ ph :: l₂ → ∀ a, ph.Covers a → (∀ q ∈ l₂, ¬ q.Covers a) →
    ∃ b, ip.bytes[ph.index a]? = some b ∧ m.byteAt p.pgdir a = some b
  /-- The rest is zero, but for the stack page. -/
  zero : ∀ a < p.sz - PGSIZE, (∀ q ∈ ip.segments, ¬ q.Covers a) → m.byteAt p.pgdir a = some 0
  /-- The program starts at its entry. -/
  entry : p.eip = ip.header.entry

/-- What `exec` does, if it returns `r`. -/
def Execs (env : ι → ℕ) (ip : Option File) (p : Proc) (m : Mem) (p' : Proc) (r : ℤ) (m' : Mem) :
    Prop :=
  r = -1 ∧ p' = p ∧ p.Ok env m' ∧ m'.view p.pgdir = m.view p.pgdir ∨
    r = 0 ∧ p'.Ok env m' ∧ ∃ f, ip = some f ∧ Committed f m' p'

/-- The two address spaces change places: the new one is among the others. -/
theorem Space.swap {old new : ℕ} (h : Space env [] m old)
    (h' : Space (Sum.elim env (m.part old)) [] m' new)
    (hkept : Kept (Sum.elim env (m.part old)) m m') :
    Space (Sum.elim env (m'.part new)) [] m' old := by
  suffices hparts : Parted (Sum.elim (Sum.elim env (m'.part new)) (m.part old))
      ([] ++ m'.freelist) m'.ld.Managed from (h.restore hkept hparts).1
  refine h'.parts.reindex (fun o => match o with
    | .inl (.inl x) => .inl (.inl x)
    | .inl (.inr y) => .inr y
    | .inr z => .inl (.inr z)) (fun o o' heq => ?_) (fun o => ?_) fun o _ => ?_
  · rcases o with (x | x) | x <;> rcases o' with (y | y) | y <;> simp_all
  · rcases o with (x | x) | x <;> rfl
  · rcases o with (x | x) | x
    · exact ⟨.inl (.inl x), rfl⟩
    · exact ⟨.inr x, rfl⟩
    · exact ⟨.inl (.inr x), rfl⟩

/-- The image that was built is what the process should have. -/
theorem committed {ip : File} {m1 m2 : Mem} {sz esp : ℕ} {name : List UInt8}
    (hsz : sz = (g + 2) * PGSIZE) (hl : Loaded ip ip.segments m1 pd sz)
    (hlow : ∀ ph ∈ ip.segments, ph.vaddr.toNat + ph.filesz.toNat ≤ g * PGSIZE)
    (ht : Touched (m1.view pd) (m2.view pd) ((g + 1) * PGSIZE) ((g + 2) * PGSIZE))
    (hview : m'.view pd = m2.view pd) : Committed ip m' ⟨pd, sz, ip.header.entry, esp, name⟩ := by
  have hbase : sz - PGSIZE = (g + 1) * PGSIZE := by
    rw [hsz]
    simp only [PGSIZE]
    omega
  -- the segments end below the stack page, which is all that was touched since
  have hbyte : ∀ a < (g + 1) * PGSIZE, m'.byteAt pd a = some (imageByte ip ip.segments a) := by
    intro a ha
    have hin : a < pages sz * PGSIZE :=
      calc a < (g + 1) * PGSIZE := ha
        _ ≤ (g + 2) * PGSIZE := Nat.mul_le_mul_right _ (by omega)
        _ = sz := hsz.symm
        _ ≤ pages sz * PGSIZE := le_pages_mul sz
    rw [← hl.byte a hin, ← ht.byte a (.inl ha), ← hview]
    rfl
  refine ⟨fun v => ?_, fun l1 ph l2 hsegs a ha hlast => ?_, fun a ha hfree => ?_, rfl⟩
  · show (m'.view pd v).isSome ↔ _
    rw [hview, ht.isSome]
    exact hl.present v
  · have hmem : ph ∈ ip.segments := by
      rw [hsegs]
      exact List.mem_append_right _ List.mem_cons_self
    have hidx := hl.file ph hmem a ha
    have hend := hlow ph hmem
    have hlt := ha.2
    refine ⟨ip.bytes.getD (ph.index a) 0, ?_, ?_⟩
    · rw [List.getD_eq_getElem?_getD, List.getElem?_eq_getElem hidx]
      rfl
    · show m'.byteAt pd a = _
      rw [hbyte a (by rw [Nat.add_mul]; omega), imageByte_of_last hsegs ha hlast]
  · have ha' : a < (g + 1) * PGSIZE := hbase ▸ ha
    show m'.byteAt pd a = _
    rw [hbyte a ha', imageByte_of_not_covered hfree]

/-- `exec` of any file fails and leaves the process as it was, or commits the image of the file; and it
does not panic. -/
theorem exec_safe (h : p.Ok env m) (hargs : argsSize argv ≤ PGSIZE) (ip : Option File)
    (path : List UInt8) :
    wp (exec p ip path argv) (fun x m' => Execs env ip p m x.1 x.2 m') (fun _ _ => False) m := by
  have hsame : ∀ m', Parted (Sum.elim env (m.part p.pgdir)) ([] ++ m'.freelist) m'.ld.Managed →
      Kept (Sum.elim env (m.part p.pgdir)) m m' → Execs env ip p m p (-1) m' := by
    intro m' hparts hkept
    obtain ⟨hspace, hview⟩ := h.space.restore hkept hparts
    refine .inl ⟨rfl, rfl, ⟨hspace, fun v => ?_, h.sz⟩, hview⟩
    rw [hview]
    exact h.pages v
  have hunchanged : Execs env ip p m p (-1) m := .inl ⟨rfl, rfl, h, rfl⟩
  unfold exec
  cases ip with
  | none => exact hunchanged
  | some ip =>
    dsimp only
    cases hread : readStruct ip 0 ELFHDR_SIZE with
    | none => exact hunchanged
    | some bytes =>
      have hheader : Elfhdr.ofBytes bytes = ip.header := by
        unfold File.header
        rw [hread]
        rfl
      dsimp only
      rw [hheader]
      by_cases hmagic : ip.header.magic = ELF_MAGIC
      · rw [if_neg (not_not.mpr hmagic), wp_bind]
        refine wp_setupkvm h.space.parts hsame fun pd m₁ h₁ hkept₁ hk hempty => ?_
        show wp (buildImage pd ip ip.header argv >>= _) _ _ m₁
        rw [wp_bind]
        refine h₁.wp_buildImage hk hempty hargs (fun m₂ h₂ hkept₂ => ?_)
          fun g sz sp m₂ m₃ hsz h₃ hkept₃ hl hlow ht => ?_
        · -- the new address space is given up
          show wp (freevm pd >>= _) _ _ m₂
          rw [wp_bind]
          exact h₂.wp_freevm fun m₃ hparts hkept => hsame m₃ hparts ((hkept₁.trans hkept₂).trans hkept)
        · -- the old one is
          have hold := h.space.swap h₃ (hkept₁.trans hkept₃)
          show wp (freevm p.pgdir >>= _) _ _ m₃
          rw [wp_bind]
          refine hold.wp_freevm fun m₄ hparts hkept => ?_
          obtain ⟨hspace, hview⟩ := h₃.restore hkept hparts
          have hc : Committed ip m₄ ⟨pd, sz, ip.header.entry, sp, (lastComponent path).take 15⟩ :=
            committed hsz hl hlow ht hview
          exact .inr ⟨rfl, ⟨hspace, hc.present, hl.sz⟩, ip, rfl, hc⟩
      · rw [if_pos hmagic]
        exact hunchanged

/-- The small process runs an empty file. -/
theorem exec_safe_small : ∃ env : ℕ → ℕ, smallProc.Ok env smallMem ∧ argsSize [[115, 104]] ≤ PGSIZE ∧
    wp (exec smallProc (some ⟨[], by decide⟩) [115, 104] [[115, 104]])
      (fun x m' => Execs env (some ⟨[], by decide⟩) smallProc smallMem x.1 x.2 m') (fun _ _ => False)
      smallMem := by
  obtain ⟨env, h⟩ := smallProc_ok
  exact ⟨env, h, by decide, exec_safe h (by decide) _ _⟩

/-! ## The arguments -/

/-- The argument-pushing part of `exec` is exact, and reads no entry that is not there, exactly if no
string is put between physical memory and the devices. -/
theorem pushArgs_spec (h : Space env hand m pd) (hst : Stacked m pd g) (hargc : argv.length < MAXARG)
    (hlen : ∀ s ∈ argv, s.length + 1 ≤ KERNBASE) :
    wp (pushArgs pd argv ((g + 2) * PGSIZE))
        (fun r m' => ∀ sp, r = some sp →
          ArgStack (m'.view pd) ((g + 1) * PGSIZE) ((g + 2) * PGSIZE) sp argv)
        (fun _ _ => False) m ↔
      ¬ Gap ((g + 1) * PGSIZE) ((g + 2) * PGSIZE) argv := by
  refine ⟨fun hwp hgap => ?_, fun hng => ?_⟩
  · have hrun : wp (pushArgs pd argv ((g + 2) * PGSIZE)) (fun _ _ => False)
        (fun e _ => e = .nullPte) m :=
      h.wp_pushArgs hst hlen (fun _ => hargc.le) (fun _ _ => rfl) (fun hng => absurd hgap hng)
        fun hng => absurd hgap hng
    obtain ⟨r, m', hm, -⟩ := hwp.returns
    exact hrun.ok hm
  · refine h.wp_pushArgs hst hlen (fun _ => hargc.le) (fun hg => absurd hg hng)
      (fun _ m' _ _ sp hsp => nomatch hsp) fun _ sp m' _ _ _ hstack sp' hsp => ?_
    obtain rfl := Option.some.inj hsp
    exact hstack

/-- Page tables are added one after the other. -/
theorem Space.addTables {tables : List (ℕ × ℕ)} (h : Space env (tables.map (·.2) ++ hand) m pd)
    (hidx : ∀ x ∈ tables, x.1 < NPDENTRIES) (hnodup : (tables.map (·.1)).Nodup)
    (hnew : ∀ x ∈ tables, (m.pde pd x.1).present = false) :
    Space env hand (tables.foldl (fun m x => m.addTable pd x.1 x.2) m) pd ∧
      ∀ v < VPAGES, (tables.foldl (fun m x => m.addTable pd x.1 x.2) m).walk pd v =
        if v / NPTENTRIES ∈ tables.map (·.1) then some .zero else m.walk pd v := by
  induction tables generalizing m with
  | nil => exact ⟨h, fun v _ => rfl⟩
  | cons x tables ih =>
    have hx := List.mem_cons_self (a := x) (l := tables)
    have hnodup' := List.nodup_cons.mp hnodup
    obtain ⟨h1, -⟩ := Space.addTable h (hidx x hx) (hnew x hx)
    obtain ⟨hspace, hwalk⟩ := ih h1 (fun y hy => hidx y (List.mem_cons_of_mem _ hy)) hnodup'.2
      fun y hy => by
        have hne : y.1 ≠ x.1 := fun heq => hnodup'.1 (List.mem_map.mpr ⟨y, hy, heq⟩)
        rw [Space.pde_addTable h, if_neg hne]
        exact hnew y (List.mem_cons_of_mem _ hy)
    refine ⟨hspace, fun v hv => ?_⟩
    rw [List.foldl_cons, hwalk v hv, Space.walk_addTable h hv]
    rw [List.map_cons]
    by_cases hmem : v / NPTENTRIES ∈ tables.map (·.1)
    · rw [if_pos hmem, if_pos (List.mem_cons_of_mem _ hmem)]
    · rw [if_neg hmem]
      exact if_congr (by simp [hmem]) rfl rfl

/-- The guard page and the stack page of an image without other pages are mapped. -/
theorem Space.stacked {e d : Pte} (h : Space env [e.frame, d.frame] m pd)
    (hpde : (m.pde pd 0).present) (hpte : ∀ v < VPAGES, m.pte pd v = .zero)
    (hkernel : KernelPart m pd) (he : e.present ∧ e.user = false) (hd : d.present ∧ d.user) :
    Space env [] ((m.setEntry pd 0 e).setEntry pd 1 d) pd ∧
      Stacked ((m.setEntry pd 0 e).setEntry pd 1 d) pd 0 := by
  have hzero : ∀ v < 2, v / NPTENTRIES = 0 := by
    intro v hv
    simp only [NPTENTRIES]
    omega
  have hpde0 : (m.pde pd (0 / NPTENTRIES)).present := by
    rw [hzero 0 (by omega)]
    exact hpde
  have hfirst : e.frame < WORD / PGSIZE := (h.parts.pool_area List.mem_cons_self).lt
  obtain ⟨hone, hstep⟩ := h.map (v := 0) (by decide) hpde0 (by rw [hpte 0 (by decide)]; rfl) he.1
  have hpde1 : ((m.setEntry pd 0 e).pde pd (1 / NPTENTRIES)).present := by
    rw [hzero 1 (by omega), h.pde_setEntry (by decide) hpde0]
    exact hpde
  have hpte1 : (m.setEntry pd 0 e).pte pd 1 = .zero := by
    rw [h.pte_setEntry (by decide) hpde0 hfirst (by decide), if_neg (by decide), hpte 1 (by decide)]
  obtain ⟨htwo, hstep'⟩ := hone.map (v := 1) (by decide) hpde1 (by rw [hpte1]; rfl) hd.1
  refine ⟨htwo, (hkernel.step hstep).step hstep', fun u hu => absurd hu (Nat.not_lt_zero u), ?_, ?_⟩
  · rw [hstep'.view, Function.update_of_ne (by decide), hstep.view, Function.update_self]
    exact congrArg some he.2
  · rw [hstep'.view, Function.update_self]
    exact congrArg some hd.2

/-- The page tables of a small image: one for the program, and those of the kernel. -/
def stackTables : List (ℕ × ℕ) :=
  (List.range 65).map fun k => (if k = 0 then 0 else if k < 57 then 511 + k else 959 + k, 401 + k)

/-- Memory with the page directory 400 and these page tables. -/
def stackBase : Mem :=
  stackTables.foldl (fun m x => m.addTable 400 x.1 x.2) ⟨smallLd, fun _ => .fill 0, []⟩

/-- The image of two pages: page 466 is the guard page, and page 467 the stack page. -/
def stackMem : Mem :=
  (stackBase.setEntry 400 0 ⟨466, true, true, false⟩).setEntry 400 1 ⟨467, true, true, true⟩

theorem stackMem_ok : ∃ env : ℕ → ℕ, Space env [] stackMem 400 ∧ Stacked stackMem 400 0 := by
  have hown : Own (fun o : Part => if o = .dir then 400 else 0)
      (stackTables.map (·.2) ++ [466, 467] ++ []) (fun _ => true) smallLd.Managed := by
    have hdir : ∀ o : Part, (if o = .dir then 400 else 0) ≠ 0 → o = .dir := by
      intro o ho
      by_contra hne
      exact ho (if_neg hne)
    have hrange : ∀ b ∈ stackTables.map (·.2) ++ [466, 467] ++ [], 401 ≤ b ∧ b ≤ 467 := by decide
    refine ⟨fun o ho => ?_, fun _ _ => rfl, fun o o' ho heq => ?_, fun b hb => ?_, by decide⟩
    · rw [hdir o ho]
      exact ⟨by decide, by decide⟩
    · exact (hdir o ho).trans (hdir o' (heq ▸ ho)).symm
    · have hb' := hrange b hb
      refine ⟨by omega, ⟨by show 300 ≤ b; omega, by show b < 57344; omega⟩, rfl, fun o heq => ?_⟩
      split_ifs at heq <;> omega
  have hparts := Parted.complete hown fun h0 => absurd h0.1 (by decide)
  obtain ⟨hspace, hpde, hwalk⟩ := Space.empty (m := ⟨smallLd, fun _ => .fill 0, []⟩) rfl (by decide)
    hparts
  obtain ⟨hbase, hwalk'⟩ : Space _ [466, 467] stackBase 400 ∧ ∀ v < VPAGES, stackBase.walk 400 v = _ :=
    hspace.addTables (by decide) (by decide) fun x _ => by rw [hpde]; rfl
  have hpte : ∀ v < VPAGES, stackBase.pte 400 v = .zero := by
    intro v hv
    unfold Mem.pte
    rw [hwalk' v hv, hwalk v]
    split_ifs <;> rfl
  have hpde0 : (stackBase.pde 400 0).present := by
    by_contra hno
    have hfirst : stackBase.walk 400 0 = some .zero := hwalk' 0 (by decide)
    have hnone : stackBase.walk 400 0 = none := if_neg hno
    rw [hnone] at hfirst
    exact nomatch hfirst
  have hkernel : KernelPart stackBase 400 := by
    refine ⟨fun k hk hk' => ?_, fun k _ hk' => by rw [hpte k hk']; rfl⟩
    have hidx : ∀ q < 1024, 512 ≤ q → (q ∈ stackTables.map (·.1) ↔ q < 568 ∨ 1016 ≤ q) := by
      decide +kernel
    have hq := hidx (k / NPTENTRIES) (by simp only [VPAGES, WORD, PGSIZE, NPTENTRIES] at *; omega)
      (by simp only [UPAGES, KERNBASE, PGSIZE, NPTENTRIES] at *; omega)
    have hsome : (stackBase.walk 400 k).isSome ↔ k / NPTENTRIES ∈ stackTables.map (·.1) := by
      rw [hwalk' k hk', hwalk k]
      split_ifs with hmem
      · exact iff_of_true rfl hmem
      · exact iff_of_false (by decide) hmem
    rw [hsome, hq]
    simp only [KERNBASE, PHYSTOP, DEVSPACE, PGSIZE, NPTENTRIES]
    omega
  exact ⟨_, Space.stacked (e := ⟨466, true, true, false⟩) (d := ⟨467, true, true, true⟩) hbase hpde0
    hpte hkernel ⟨rfl, rfl⟩ ⟨rfl, rfl⟩⟩

/-- A string that fits on the stack of the small image. -/
theorem pushArgs_spec_small : ∃ env : ℕ → ℕ, Space env [] stackMem 400 ∧ Stacked stackMem 400 0 ∧
    wp (pushArgs 400 [[115, 104]] ((0 + 2) * PGSIZE))
      (fun r m' => ∀ sp, r = some sp →
        ArgStack (m'.view 400) ((0 + 1) * PGSIZE) ((0 + 2) * PGSIZE) sp [[115, 104]])
      (fun _ _ => False) stackMem := by
  obtain ⟨env, h, hst⟩ := stackMem_ok
  have hfit : ¬ Gap ((0 + 1) * PGSIZE) ((0 + 2) * PGSIZE) [[115, 104]] :=
    not_gap_of_fit (by decide) (by decide) (by decide)
  exact ⟨env, h, hst, (pushArgs_spec h hst (by decide) (by decide)).mpr hfit⟩

/-- There are strings of any length. -/
theorem exists_length_eq (n : ℕ) : ∃ s : List UInt8, s.length = n :=
  ⟨List.replicate n 97, List.length_replicate⟩

/-- A string that takes 64 MB is put into the gap, and `uva2ka` reads the entry of an address that has no
page table. -/
theorem pushArgs_long : ∃ s : List UInt8, s.length = 0x3FFFFFF ∧
    ¬ wp (pushArgs 400 [s] ((0 + 2) * PGSIZE))
      (fun r m' => ∀ sp, r = some sp →
        ArgStack (m'.view 400) ((0 + 1) * PGSIZE) ((0 + 2) * PGSIZE) sp [s])
      (fun _ _ => False) stackMem := by
  obtain ⟨env, h, hst⟩ := stackMem_ok
  obtain ⟨s, hlen⟩ := exists_length_eq 0x3FFFFFF
  refine ⟨s, hlen, fun hwp => ?_⟩
  have hgap : Gap ((0 + 1) * PGSIZE) ((0 + 2) * PGSIZE) [s] := by
    have hnot : ¬ s.length + 1 ≤ (0 + 2) * PGSIZE - (0 + 1) * PGSIZE := by
      rw [hlen]
      decide
    rw [gap_of_not_fit hnot]
    unfold pushed InGap
    rw [hlen]
    decide
  have hbound : ∀ s' ∈ [s], s'.length + 1 ≤ KERNBASE := by
    intro s' hs'
    rw [List.mem_singleton.mp hs', hlen]
    decide
  have hrun : wp (pushArgs 400 [s] ((0 + 2) * PGSIZE)) (fun _ _ => False) (fun e _ => e = .nullPte)
      stackMem :=
    h.wp_pushArgs hst hbound (fun _ => by rw [List.length_singleton]; decide) (fun _ _ => rfl)
      (fun hng => absurd hgap hng) fun hng => absurd hgap hng
  obtain ⟨r, m', hm, -⟩ := hwp.returns
  exact hrun.ok hm

end ChronoFS.Vm
