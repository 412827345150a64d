import ChronoFS.Vm.Args

/-!
# Building an image

The part of `exec` that fills a new page directory. The loop over the program headers keeps an invariant:
the pages of the size so far are present and no others, and each of their bytes is the one that the last
segment to cover it has in the file, or zero (`Loaded`). `allocuvm` may leave the size unchanged, so the
segments can come in any order; but its end is then below the size, and the pages that `loaduvm` looks up
are there.
-/

namespace ChronoFS.Vm

open Function

variable {ι : Type*} {env : ι → ℕ} {hand : List ℕ} {m m' : Mem} {pd v va n a g sz : ℕ}
  {E : Panic → Mem → Prop} {ip : File} {segs : List Proghdr} {ph : Proghdr}
  {argv : List (List UInt8)}

/-! ## Segments -/

/-- The address is one of those that the segment has bytes of the file for. -/
def Proghdr.Covers (ph : Proghdr) (a : ℕ) : Prop :=
  ph.vaddr.toNat ≤ a ∧ a < ph.vaddr.toNat + ph.filesz.toNat

instance (ph : Proghdr) (a : ℕ) : Decidable (ph.Covers a) := inferInstanceAs (Decidable (_ ∧ _))

/-- Where the byte is in the file. -/
def Proghdr.index (ph : Proghdr) (a : ℕ) : ℕ := ph.off.toNat + (a - ph.vaddr.toNat)

/-- The segment of a program header, if it is loadable. -/
def Proghdr.segment (ph : Proghdr) : List Proghdr := if ph.type = ELF_PROG_LOAD then [ph] else []

/-- The loadable segments of the file, of which `left` program headers are left. -/
def segments (ip : File) : (left off : ℕ) → List Proghdr
  | 0, _ => []
  | left + 1, off =>
    match readStruct ip off PROGHDR_SIZE with
    | none => []
    | some bytes => (Proghdr.ofBytes bytes).segment ++ segments ip left ((off + PROGHDR_SIZE) % WORD)

/-- The byte at `a` after the segments were loaded one after the other. -/
def imageByte (ip : File) (segs : List Proghdr) (a : ℕ) : UInt8 :=
  segs.foldl (fun b ph => if ph.Covers a then ip.bytes.getD (ph.index a) 0 else b) 0

theorem imageByte_append (ip : File) (segs : List Proghdr) (ph : Proghdr) (a : ℕ) :
    imageByte ip (segs ++ [ph]) a =
      if ph.Covers a then ip.bytes.getD (ph.index a) 0 else imageByte ip segs a := by
  unfold imageByte
  rw [List.foldl_append]
  rfl

/-- Segments that do not cover the address leave its byte. -/
theorem foldl_covers (segs : List Proghdr) (b : UInt8) (h : ∀ ph ∈ segs, ¬ ph.Covers a) :
    segs.foldl (fun b ph => if ph.Covers a then ip.bytes.getD (ph.index a) 0 else b) b = b := by
  induction segs with
  | nil => rfl
  | cons ph segs ih =>
    rw [List.foldl_cons, if_neg (h ph List.mem_cons_self)]
    exact ih fun q hq => h q (List.mem_cons_of_mem _ hq)

theorem imageByte_of_not_covered (h : ∀ ph ∈ segs, ¬ ph.Covers a) : imageByte ip segs a = 0 :=
  foldl_covers segs 0 h

/-- The last segment to cover an address gives its byte. -/
theorem imageByte_of_last {l1 l2 : List Proghdr} (h : segs = l1 ++ ph :: l2) (ha : ph.Covers a)
    (hlast : ∀ q ∈ l2, ¬ q.Covers a) : imageByte ip segs a = ip.bytes.getD (ph.index a) 0 := by
  unfold imageByte
  rw [h, List.foldl_append, List.foldl_cons, if_pos ha]
  exact foldl_covers l2 _ hlast

/-- The segments `segs` are loaded, into the pages of `sz` bytes. -/
structure Loaded (ip : File) (segs : List Proghdr) (m : Mem) (pd sz : ℕ) : Prop where
  /-- Exactly those pages are present. -/
  present : Exactly m pd sz
  /-- Their bytes. -/
  byte : ∀ a < pages sz * PGSIZE, byteOf (m.view pd) a = some (imageByte ip segs a)
  /-- The segments end below the size. -/
  low : ∀ ph ∈ segs, ph.vaddr.toNat + ph.filesz.toNat ≤ sz
  /-- The bytes of the segments are in the file. -/
  file : ∀ ph ∈ segs, ∀ a, ph.Covers a → ph.index a < ip.bytes.length
  /-- The rest is the kernel's. -/
  sz : sz < KERNBASE

theorem le_pages_mul (n : ℕ) : n ≤ pages n * PGSIZE := by
  unfold pages
  simp only [PGSIZE]
  omega

/-- The image grows by pages of zeros. -/
theorem Loaded.zeroed {newsz : ℕ} (h : Loaded ip segs m pd sz) (hle : sz ≤ newsz)
    (hnew : newsz < KERNBASE)
    (hview : m'.view pd = zeroed (m.view pd) (pages sz) (pages newsz)) :
    Loaded ip segs m' pd newsz := by
  refine ⟨h.present.zeroed hle hview, fun a ha => ?_, fun ph hph => (h.low ph hph).trans hle, h.file,
    hnew⟩
  by_cases hold : a < pages sz * PGSIZE
  · have hpage : ¬ (pages sz ≤ a / PGSIZE ∧ a / PGSIZE < pages newsz) := fun hc =>
      Nat.not_lt.mpr hc.1 (Nat.div_lt_of_lt_mul (Nat.mul_comm .. ▸ hold))
    rw [← h.byte a hold, hview]
    unfold byteOf Vm.zeroed
    rw [if_neg hpage]
  · have hpage : pages sz ≤ a / PGSIZE ∧ a / PGSIZE < pages newsz :=
      ⟨(Nat.le_div_iff_mul_le (by decide)).mpr (Nat.not_lt.mp hold),
        Nat.div_lt_of_lt_mul (Nat.mul_comm .. ▸ ha)⟩
    have hfree : ∀ ph ∈ segs, ¬ ph.Covers a := by
      intro ph hph hc
      have hlow := h.low ph hph
      have hup := le_pages_mul sz
      have hlt := hc.2
      omega
    rw [imageByte_of_not_covered hfree, hview]
    unfold byteOf Vm.zeroed
    rw [if_pos hpage]
    rfl

/-- A segment is loaded into the image. -/
theorem Loaded.wrote (h : Loaded ip segs m pd sz)
    (hlow : ph.vaddr.toNat + ph.filesz.toNat ≤ sz)
    (hfile : 0 < ph.filesz.toNat → ph.off.toNat + ph.filesz.toNat ≤ ip.bytes.length)
    (hwrote : Wrote (m.view pd) (m'.view pd) ph.vaddr.toNat ph.filesz.toNat
      fun j => ip.bytes.getD (ph.off.toNat + j) 0) : Loaded ip (segs ++ [ph]) m' pd sz := by
  refine ⟨fun v => ?_, fun a ha => ?_, fun q hq => ?_, fun q hq a hc => ?_, h.sz⟩
  · rw [hwrote.touched.isSome]
    exact h.present v
  · rw [hwrote.byte, imageByte_append, h.byte a ha]
    exact apply_ite some .. |>.symm
  · rcases List.mem_append.mp hq with hq | hq
    · exact h.low q hq
    · rw [List.mem_singleton.mp hq]
      exact hlow
  · rcases List.mem_append.mp hq with hq | hq
    · exact h.file q hq a hc
    · rw [List.mem_singleton.mp hq] at hc ⊢
      have hlo := hc.1
      have hhi := hc.2
      have hle := hfile (by omega)
      unfold Proghdr.index
      omega

/-! ## The loop over the program headers -/

/-- One program header. -/
theorem Space.wp_loadSegment {Q : Option ℕ → Mem → Prop} (h : Space env hand m pd)
    (hl : Loaded ip segs m pd sz) (ph : Proghdr)
    (hnone : ∀ m', Space env hand m' pd → Kept env m m' → Q none m')
    (hsome : ∀ sz' m', Space env hand m' pd → Step env pd m m' (m'.view pd) →
      Loaded ip (segs ++ ph.segment) m' pd sz' → Q (some sz') m') :
    wp (loadSegment pd ip ph sz) Q E m := by
  unfold loadSegment
  by_cases htype : ph.type = ELF_PROG_LOAD
  · have hseg : ph.segment = [ph] := if_pos htype
    rw [if_neg (not_not.mpr htype)]
    by_cases hmem : ph.memsz < ph.filesz
    · rw [if_pos hmem]
      exact hnone m h (.refl ..)
    · rw [if_neg hmem]
      by_cases hwrap : ph.vaddr + ph.memsz < ph.vaddr
      · rw [if_pos hwrap]
        exact hnone m h (.refl ..)
      · have hfm : ph.filesz.toNat ≤ ph.memsz.toNat := UInt32.le_iff_toNat_le.mp (UInt32.not_lt.mp hmem)
        have hend : (ph.vaddr + ph.memsz).toNat = ph.vaddr.toNat + ph.memsz.toNat := by
          have hv := ph.vaddr.toNat_lt
          have hm := ph.memsz.toNat_lt
          have hle := UInt32.le_iff_toNat_le.mp (UInt32.not_lt.mp hwrap)
          rw [UInt32.toNat_add] at hle ⊢
          omega
        rw [if_neg hwrap, wp_bind, hend]
        -- the image as `allocuvm` leaves it, which holds the segment
        have hload : ∀ sz1 m1, Space env hand m1 pd → Step env pd m m1 (m1.view pd) →
            Loaded ip segs m1 pd sz1 → ph.vaddr.toNat + ph.memsz.toNat ≤ sz1 →
            wp (if sz1 = 0 then return none
              else if ph.vaddr.toNat % PGSIZE ≠ 0 then return none
              else do
                let r ← loaduvm pd ph.vaddr.toNat ip ph.off.toNat ph.filesz.toNat
                if r < 0 then return none else return some sz1) Q E m1 := by
          intro sz1 m1 h1 hstep hl1 hle
          by_cases hz : sz1 = 0
          · rw [if_pos hz]
            exact hnone m1 h1 hstep.kept
          · rw [if_neg hz]
            by_cases halign : ph.vaddr.toNat % PGSIZE = 0
            · obtain ⟨u, hu⟩ : ∃ u, ph.vaddr.toNat = u * PGSIZE :=
                ⟨_, (Nat.div_mul_cancel (Nat.dvd_of_mod_eq_zero halign)).symm⟩
              have hsz := hl1.sz
              rw [if_neg (not_not.mpr halign), wp_bind, hu]
              refine h1.wp_loaduvm (by omega) ph.off.toNat_lt (fun w _ hw => ?_)
                (fun m2 h2 hkept => ?_) fun m2 h2 hstep2 hfile hwrote => ?_
              · refine (hl1.present w).mpr ?_
                have hlt := div_lt_pages (show w * PGSIZE < sz1 by omega)
                rw [Nat.mul_div_cancel _ (by decide)] at hlt
                exact hlt
              · rw [if_pos (by decide)]
                exact hnone m2 h2 (hstep.kept.trans hkept)
              · rw [if_neg (by decide)]
                refine hsome sz1 m2 h2 (hstep.trans hstep2) ?_
                rw [hseg]
                rw [← hu] at hwrote
                exact hl1.wrote (by omega) hfile hwrote
            · rw [if_pos halign]
              exact hnone m1 h1 hstep.kept
        refine h.wp_allocuvm hl.sz.le (fun k hk _ => hl.present.none hk) (fun m1 h1 hstep => ?_)
          (fun _ hlt => hload sz m h (.refl ..) hl hlt.le) fun hnew hle m1 h1 hstep => ?_
        · rw [if_pos rfl]
          exact hnone m1 h1 hstep.kept
        · exact hload _ m1 h1 (hstep.trans (.refl ..)) (hl.zeroed hle hnew hstep.view) le_rfl
  · have hseg : ph.segment = [] := if_neg htype
    rw [if_pos htype]
    refine hsome sz m h (.refl ..) ?_
    rw [hseg, List.append_nil]
    exact hl

/-- All program headers. -/
theorem Space.wp_loadSegments {Q : Option ℕ → Mem → Prop} {left off : ℕ} (h : Space env hand m pd)
    (hl : Loaded ip segs m pd sz)
    (hnone : ∀ m', Space env hand m' pd → Kept env m m' → Q none m')
    (hsome : ∀ sz' m', Space env hand m' pd → Step env pd m m' (m'.view pd) →
      Loaded ip (segs ++ segments ip left off) m' pd sz' → Q (some sz') m') :
    wp (loadSegments pd ip left off sz) Q E m := by
  induction left generalizing off sz segs m with
  | zero =>
    refine hsome sz m h (.refl ..) ?_
    show Loaded ip (segs ++ []) m pd sz
    rw [List.append_nil]
    exact hl
  | succ left ih =>
    unfold loadSegments
    unfold segments at hsome
    cases hread : readStruct ip off PROGHDR_SIZE with
    | none => exact hnone m h (.refl ..)
    | some bytes =>
      rw [hread] at hsome
      show wp (loadSegment pd ip (.ofBytes bytes) sz >>= _) Q E m
      rw [wp_bind]
      refine h.wp_loadSegment hl _ hnone fun sz1 m1 h1 hstep hl1 => ?_
      refine ih h1 hl1 (fun m2 h2 hkept => hnone m2 h2 (hstep.kept.trans hkept))
        fun sz2 m2 h2 hstep2 hl2 => hsome sz2 m2 h2 (hstep.trans hstep2) ?_
      rw [List.append_assoc] at hl2
      exact hl2

/-! ## The stack -/

/-- The two pages for the stack. -/
theorem Space.wp_allocStack {Q : Option ℕ → Mem → Prop} (h : Space env hand m pd)
    (hk : KernelPart m pd) (hl : Loaded ip segs m pd sz)
    (hnone : ∀ m', Space env hand m' pd → Kept env m m' → Q none m')
    (hsome : ∀ g sz' m', sz' = (g + 2) * PGSIZE → Space env hand m' pd →
      Step env pd m m' (m'.view pd) → Stacked m' pd g → Loaded ip segs m' pd sz' →
      (∀ ph ∈ segs, ph.vaddr.toNat + ph.filesz.toNat ≤ g * PGSIZE) → Q (some sz') m') :
    wp (allocStack pd sz) Q E m := by
  have hsz := hl.sz
  have hold : pages sz * PGSIZE ≤ KERNBASE := by
    unfold pages
    simp only [KERNBASE, PGSIZE] at *
    omega
  have hpages : pages (pages sz * PGSIZE) = pages sz := by
    generalize pages sz = n
    unfold pages
    simp only [PGSIZE]
    omega
  have hnew : (pages sz * PGSIZE + 2 * PGSIZE) % WORD = (pages sz + 2) * PGSIZE := by
    rw [Nat.add_mul]
    refine Nat.mod_eq_of_lt ?_
    simp only [KERNBASE, WORD, PGSIZE] at *
    omega
  have hnewpages : pages ((pages sz + 2) * PGSIZE) = pages sz + 2 := by
    generalize pages sz = n
    unfold pages
    simp only [PGSIZE]
    omega
  -- the image does not change when its size is rounded up
  have hround : Loaded ip segs m pd (pages sz * PGSIZE) ∨ pages sz * PGSIZE = KERNBASE := by
    rcases Nat.lt_or_eq_of_le hold with hlt | heq
    · refine .inl ⟨?_, ?_, fun ph hph => (hl.low ph hph).trans (le_pages_mul sz), hl.file, hlt⟩
      · unfold Exactly
        rw [hpages]
        exact hl.present
      · rw [hpages]
        exact hl.byte
    · exact .inr heq
  unfold allocStack
  dsimp only
  rw [PGROUNDUP_eq hsz.le, hnew, wp_bind]
  refine h.wp_allocuvm hold (fun k hk' _ => hl.present.none (by rw [hpages] at hk'; exact hk'))
    (fun m1 h1 hstep => ?_) (fun _ hlt => ?_) fun hlt hle m1 h1 hstep => ?_
  · rw [if_pos rfl]
    exact hnone m1 h1 hstep.kept
  · simp only [PGSIZE] at hlt
    omega
  · rcases hround with hround | heq
    · have hl1 := hround.zeroed hle hlt hstep.view
      have hview : ∀ v, pages sz ≤ v → v < pages sz + 2 → m1.view pd v = some ⟨true, .fill 0⟩ := by
        intro v hv hv'
        rw [hstep.view, hpages, hnewpages]
        exact if_pos ⟨hv, hv'⟩
      have hguard := hview (pages sz) le_rfl (by omega)
      have haddr : uint (((pages sz + 2) * PGSIZE : ℕ) - 2 * (PGSIZE : ℕ)) = pages sz * PGSIZE := by
        unfold uint
        simp only [KERNBASE, WORD, PGSIZE] at *
        omega
      have hpos : (pages sz + 2) * PGSIZE ≠ 0 := by
        simp only [PGSIZE]
        omega
      rw [if_neg hpos, wp_bind, haddr]
      refine h1.wp_clearpteu hguard fun m2 h2 hstep2 => ?_
      have hstep2' : Step env pd m1 m2 (m2.view pd) := hstep2.trans (.refl ..)
      refine hsome (pages sz) _ m2 rfl h2 (hstep.trans hstep2') ⟨?_, fun u hu => ?_, ?_, ?_⟩
        ⟨fun v => ?_, fun a ha => ?_, hl1.low, hl1.file, hl1.sz⟩ hround.low
      · exact (hk.step hstep).step hstep2
      · rw [hstep2.view, update_of_ne (by omega), hstep.view]
        have hlow : ¬ (pages (pages sz * PGSIZE) ≤ u ∧ u < pages ((pages sz + 2) * PGSIZE)) := by
          rw [hpages]
          omega
        unfold zeroed
        rw [if_neg hlow]
        exact (hl.present u).mpr hu
      · rw [hstep2.view, update_self]
        rfl
      · rw [hstep2.view, update_of_ne (by omega), hview _ (by omega) (by omega)]
        rfl
      · rw [hstep2.view]
        by_cases hv : v = pages sz
        · rw [hv, update_self, hnewpages]
          exact iff_of_true rfl (by omega)
        · rw [update_of_ne hv]
          exact hl1.present v
      · rw [← hl1.byte a ha, hstep2.view]
        unfold byteOf
        by_cases hv : a / PGSIZE = pages sz
        · rw [hv, update_self, hguard]
          rfl
        · rw [update_of_ne hv]
    · simp only [KERNBASE, PGSIZE] at hlt heq
      omega

/-! ## Arguments that fit -/

/-- The room that the arguments take on the stack. -/
def argsSize (argv : List (List UInt8)) : ℕ :=
  (argv.map fun s => (s.length + 1 + 3) / 4 * 4).sum + 4 * (argv.length + 4)

/-- Strings that fit are not put into the gap. -/
theorem not_gap_of_fit {base sp : ℕ} (hsp : sp % 4 = 0) (hword : sp < WORD)
    (h : (argv.map fun s => (s.length + 1 + 3) / 4 * 4).sum ≤ sp - base) : ¬ Gap base sp argv := by
  induction argv generalizing sp with
  | nil => exact id
  | cons s argv ih =>
    rw [List.map_cons, List.sum_cons] at h
    have hfit : s.length + 1 ≤ sp - base := by omega
    have hpushed := pushed_of_le (s := s) (by omega) hword
    rw [gap_of_fit hfit]
    refine ih ?_ ?_ ?_
    all_goals
      rw [hpushed]
      omega

/-- The length of one of the strings. -/
theorem length_lt_argsSize {s : List UInt8} (h : s ∈ argv) : s.length + 1 ≤ argsSize argv := by
  have hle := List.single_le_sum (fun _ _ => Nat.zero_le _) _
    (List.mem_map_of_mem (f := fun s : List UInt8 => (s.length + 1 + 3) / 4 * 4) h)
  unfold argsSize
  omega

/-- The image of the file is built, or something is missing. -/
theorem Space.wp_buildImage {Q : Option (ℕ × ℕ) → Mem → Prop} {elf : Elfhdr}
    (h : Space env hand m pd) (hk : KernelPart m pd) (hempty : ∀ v, m.view pd v = none)
    (hargs : argsSize argv ≤ PGSIZE)
    (hnone : ∀ m', Space env hand m' pd → Kept env m m' → Q none m')
    (hsome : ∀ g sz sp m1 m', sz = (g + 2) * PGSIZE → Space env hand m' pd → Kept env m m' →
      Loaded ip (segments ip elf.phnum.toNat elf.phoff.toNat) m1 pd sz →
      (∀ ph ∈ segments ip elf.phnum.toNat elf.phoff.toNat,
        ph.vaddr.toNat + ph.filesz.toNat ≤ g * PGSIZE) →
      Touched (m1.view pd) (m'.view pd) ((g + 1) * PGSIZE) ((g + 2) * PGSIZE) →
      Q (some (sz, sp)) m') :
    wp (buildImage pd ip elf argv) Q E m := by
  have hstart : Loaded ip [] m pd 0 := by
    refine ⟨fun v => ?_, fun a ha => ?_, fun ph hph => (nomatch hph), fun ph hph => (nomatch hph),
      by decide⟩
    · rw [hempty v]
      exact iff_of_false (by decide) (Nat.not_lt_zero v)
    · exact absurd ha (Nat.not_lt_zero a)
  have hsum : (argv.map fun s => (s.length + 1 + 3) / 4 * 4).sum ≤ PGSIZE :=
    (Nat.le_add_right ..).trans hargs
  unfold buildImage
  rw [wp_bind]
  refine h.wp_loadSegments hstart hnone fun sz m1 h1 hstep hl => ?_
  show wp (allocStack pd sz >>= _) Q E m1
  rw [wp_bind]
  refine h1.wp_allocStack (hk.step hstep) hl
    (fun m2 h2 hkept => hnone m2 h2 (hstep.kept.trans hkept)) fun g sz2 m2 hsz2 h2 hstep2 hst hl2 hlow => ?_
  subst hsz2
  have hword : (g + 2) * PGSIZE < WORD := hl2.sz.trans (by decide)
  have hng : ¬ Gap ((g + 1) * PGSIZE) ((g + 2) * PGSIZE) argv := by
    refine not_gap_of_fit ?_ hword (hsum.trans ?_)
    · simp only [PGSIZE]
      omega
    · simp only [PGSIZE]
      omega
  show wp (pushArgs pd argv ((g + 2) * PGSIZE) >>= _) Q E m2
  rw [wp_bind]
  have hkept2 := hstep.kept.trans hstep2.kept
  refine h2.wp_pushArgs hst (fun s hs => ?_) (fun hg => absurd hg hng) (fun hg => absurd hg hng)
    (fun _ m3 h3 hkept => hnone m3 h3 (hkept2.trans hkept)) fun _ sp m3 h3 hstep3 ht _ => ?_
  · exact (length_lt_argsSize hs).trans (hargs.trans (by decide))
  · exact hsome g _ sp m2 m3 rfl h3 (hkept2.trans hstep3.kept) hl2 hlow ht

end ChronoFS.Vm
