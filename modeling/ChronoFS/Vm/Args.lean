import ChronoFS.Vm.Load

/-!
# The arguments on the stack

The part of `exec` that pushes the argument strings, from the top of the stack page down, and below them
the words that the program is started with. Only `copyout` bounds it: a string that does not fit into the
stack page runs into the guard page below, or, if it is longer than all of the image, is put at an address
of the kernel, where no page is for the user. `InGap` are the addresses there that have no page table.
`uva2ka` reads the entry of such an address nonetheless (`Gap`).
-/

namespace ChronoFS.Vm

open Bytes
open Function

variable {ι : Type*} {env : ι → ℕ} {hand : List ℕ} {m m' : Mem} {pd i j k v va n a g sp lo hi : ℕ}
  {E : Panic → Mem → Prop} {view view' view'' : ℕ → Option UserPage} {f : ℕ → UInt8}
  {s l : List UInt8} {argv : List (List UInt8)} {ptrs : List ℕ}

/-! ## Reading user memory -/

/-- From `view` to `view'` only bytes from `lo` on below `hi` were written. -/
structure Touched (view view' : ℕ → Option UserPage) (lo hi : ℕ) : Prop where
  /-- The same pages are present, with the same permissions. -/
  user : ∀ k, (view' k).map (·.user) = (view k).map (·.user)
  /-- The other bytes. -/
  byte : ∀ a, a < lo ∨ hi ≤ a → byteOf view' a = byteOf view a

theorem Touched.refl (view : ℕ → Option UserPage) (lo hi : ℕ) : Touched view view lo hi :=
  ⟨fun _ => rfl, fun _ _ => rfl⟩

theorem Touched.trans (h : Touched view view' lo hi) (h' : Touched view' view'' lo hi) :
    Touched view view'' lo hi :=
  ⟨fun k => (h'.user k).trans (h.user k), fun a ha => (h'.byte a ha).trans (h.byte a ha)⟩

theorem Touched.mono {lo' hi' : ℕ} (h : Touched view view' lo hi) (hlo : lo' ≤ lo) (hhi : hi ≤ hi') :
    Touched view view' lo' hi' := ⟨h.user, fun a ha => h.byte a (by omega)⟩

theorem Touched.isSome (h : Touched view view' lo hi) (k : ℕ) : (view' k).isSome = (view k).isSome := by
  have huser := congrArg Option.isSome (h.user k)
  rw [Option.isSome_map, Option.isSome_map] at huser
  exact huser

theorem Wrote.touched (h : Wrote view view' va n f) : Touched view view' va (va + n) :=
  ⟨h.user, fun a ha => by rw [h.byte, if_neg (by omega)]⟩

/-- The bytes `l` are at `a`. -/
def StrAt (view : ℕ → Option UserPage) (a : ℕ) (l : List UInt8) : Prop :=
  ∀ j < l.length, byteOf view (a + j) = some (l.getD j 0)

theorem StrAt.touched (h : StrAt view a l) (ht : Touched view view' lo hi)
    (ha : a + l.length ≤ lo ∨ hi ≤ a) : StrAt view' a l :=
  fun j hj => (ht.byte _ (by omega)).trans (h j hj)

/-- Bytes that were written to a page that is present are there. -/
theorem Wrote.strAt (h : Wrote view view' va l.length fun j => l.getD j 0)
    (hpresent : ∀ j < l.length, (view ((va + j) / PGSIZE)).isSome) : StrAt view' va l := by
  intro j hj
  obtain ⟨x, hx⟩ := Option.isSome_iff_exists.mp (hpresent j hj)
  rw [h.byte, if_pos (by omega), Nat.add_sub_cancel_left]
  unfold byteOf
  rw [hx]
  rfl

/-- The word at `a`, if it is present. -/
def wordOf (view : ℕ → Option UserPage) (a : ℕ) : Option UInt32 :=
  ((List.range 4).mapM fun j => byteOf view (a + j)).map fun l => le32 (fun j => l.getD j 0) 0

theorem wordOf_eq {w : UInt32} (h : ∀ j < 4, byteOf view (a + j) = some (byte32 w j)) :
    wordOf view a = some w := by
  have hfirst : byteOf view a = some (byte32 w 0) := h 0 (by omega)
  have hread : (List.range 4).mapM (fun j => byteOf view (a + j)) =
      some ((List.range 4).map (byte32 w)) := by
    simp [List.range, List.range.loop, hfirst, h]
  have hword : le32 (fun j => ((List.range 4).map (byte32 w)).getD j 0) 0 = w := by
    refine le32_byte32 _ _ w fun j hj => ?_
    rw [Nat.zero_add, List.getD_eq_getElem?_getD, List.getElem?_map, List.getElem?_range hj]
    rfl
  unfold wordOf
  rw [hread, Option.map_some, hword]

theorem length_wordBytes (l : List ℕ) : (wordBytes l).length = 4 * l.length := by
  induction l with
  | nil => rfl
  | cons w l ih =>
    show ((List.range 4).map _ ++ wordBytes l).length = _
    rw [List.length_append, ih, List.length_map, List.length_range, List.length_cons]
    omega

/-- The bytes of each word of an array. -/
theorem wordBytes_getD {l : List ℕ} (hi : i < l.length) (hj : j < 4) :
    (wordBytes l).getD (4 * i + j) 0 = byte32 (.ofNat (l.getD i 0)) j := by
  induction l generalizing i with
  | nil => exact nomatch hi
  | cons w l ih =>
    show ((List.range 4).map (byte32 (.ofNat w)) ++ wordBytes l).getD _ 0 = _
    have hlen : ((List.range 4).map (byte32 (.ofNat w))).length = 4 := by simp
    cases i with
    | zero =>
      rw [List.getD_append _ _ _ _ (by omega), List.getD_eq_getElem?_getD, List.getElem?_map,
        List.getElem?_range (by omega)]
      show byte32 (.ofNat w) (4 * 0 + j) = byte32 (.ofNat w) j
      rw [Nat.mul_zero, Nat.zero_add]
    | succ i =>
      have hidx : 4 * (i + 1) + j - 4 = 4 * i + j := by omega
      rw [List.getD_append_right _ _ _ _ (by omega), hlen, hidx,
        ih (Nat.lt_of_succ_lt_succ hi)]
      rfl

/-- The words of an array that is in memory. -/
theorem StrAt.wordOf {l : List ℕ} (h : StrAt view a (wordBytes l)) (hi : i < l.length) :
    wordOf view (a + 4 * i) = some (.ofNat (l.getD i 0)) := by
  refine wordOf_eq fun j hj => ?_
  have hbyte := h (4 * i + j) (by rw [length_wordBytes]; omega)
  rw [wordBytes_getD hi hj, ← Nat.add_assoc] at hbyte
  exact hbyte

/-! ## `copyout` to the stack -/

/-- The kernel's addresses without a page table, between physical memory and the devices. -/
def InGap (a : ℕ) : Prop := KERNBASE + PHYSTOP ≤ a ∧ a < DEVSPACE

instance (a : ℕ) : Decidable (InGap a) := inferInstanceAs (Decidable (_ ∧ _))

/-- An image with the guard page `g` below the stack page, which is the last one. -/
structure Stacked (m : Mem) (pd g : ℕ) : Prop where
  /-- The kernel is mapped. -/
  kernel : KernelPart m pd
  /-- The pages below are present. -/
  below : ∀ u < g, (m.view pd u).isSome
  /-- The program may not use the guard page. -/
  guard : (m.view pd g).map (·.user) = some false
  /-- It may use the stack page. -/
  stack : (m.view pd (g + 1)).map (·.user) = some true

theorem Stacked.step (h : Stacked m pd g) (hstep : Step env pd m m' (m'.view pd))
    (ht : Touched (m.view pd) (m'.view pd) lo hi) : Stacked m' pd g :=
  ⟨h.kernel.step hstep, fun u hu => by rw [ht.isSome]; exact h.below u hu,
    (ht.user g).trans h.guard, (ht.user (g + 1)).trans h.stack⟩

/-- The stack page is user memory. -/
theorem Stacked.lt (h : Stacked m pd g) : g + 1 < UPAGES := by
  obtain ⟨x, hx, -⟩ := Option.map_eq_some_iff.mp h.stack
  exact (exists_of_view hx).1

/-- `copyout` to an address of the kernel. -/
theorem wp_copyout_kernel {Q : ℤ → Mem → Prop} {buf : List UInt8} (h : KernelPart m pd)
    (hva : KERNBASE ≤ va) (hva' : va < WORD) (hbuf : buf ≠ []) (hgap : InGap va → E .nullPte m)
    (hfail : ¬ InGap va → Q (-1) m) : wp (copyout pd va buf) Q E m := by
  obtain ⟨fuel, hfuel⟩ := Nat.exists_eq_succ_of_ne_zero
    (Nat.pos_iff_ne_zero.mp (List.length_pos_iff.mpr hbuf))
  have hlow : UPAGES ≤ va / PGSIZE := Nat.div_le_div_right hva
  have hhigh : va / PGSIZE < VPAGES := by
    simp only [VPAGES, WORD, PGSIZE] at *
    omega
  have hdown : PGROUNDDOWN va < WORD := (Nat.div_mul_le_self ..).trans_lt hva'
  have hdiv : PGROUNDDOWN va / PGSIZE = va / PGSIZE := Nat.mul_div_cancel _ (by decide)
  have hwalk := h.walk _ hlow hhigh
  have huser := h.user _ hlow hhigh
  unfold copyout
  rw [hfuel]
  unfold copyoutLoop
  rw [if_neg hbuf, wp_bind]
  refine wp_uva2ka hdown hdiv (fun hnone => hgap ?_) (fun hthere _ => hfail ?_) fun _ hu => ?_
  · rw [hnone] at hwalk
    have hno := mt hwalk.mpr (by decide)
    unfold InGap
    simp only [KERNBASE, PHYSTOP, DEVSPACE, PGSIZE] at *
    omega
  · have hyes := hwalk.mp hthere
    unfold InGap
    simp only [KERNBASE, PHYSTOP, DEVSPACE, PGSIZE] at *
    omega
  · rw [huser] at hu
    cases hu

/-- Where a string goes that is not longer than the rest of the image. -/
theorem pushed_of_le (h : s.length + 1 ≤ sp) (hsp : sp < WORD) :
    pushed sp s = (sp - (s.length + 1)) / 4 * 4 := by
  have huint : uint (sp - (s.length + 1)) = sp - (s.length + 1) := by
    unfold uint
    simp only [WORD] at *
    omega
  unfold pushed
  rw [huint]

/-- Where a longer string goes. -/
theorem pushed_of_lt (h : sp < s.length + 1) (hlen : s.length + 1 ≤ KERNBASE) :
    KERNBASE ≤ pushed sp s ∧ pushed sp s < WORD := by
  unfold pushed uint
  simp only [KERNBASE, WORD] at *
  omega

/-- `copyout` of a string to where it is pushed. -/
theorem Space.wp_push {Q : ℤ → Mem → Prop} (h : Space env hand m pd) (hst : Stacked m pd g)
    (hlow : (g + 1) * PGSIZE ≤ sp) (hhigh : sp ≤ (g + 2) * PGSIZE) (hlen : s.length + 1 ≤ KERNBASE)
    (hok : s.length + 1 ≤ sp - (g + 1) * PGSIZE → ∀ m', Space env hand m' pd →
      Step env pd m m' (m'.view pd) →
      Wrote (m.view pd) (m'.view pd) (pushed sp s) (s.length + 1) (fun j => (s ++ [0]).getD j 0) →
      Q 0 m')
    (hfail : ¬ s.length + 1 ≤ sp - (g + 1) * PGSIZE → ¬ InGap (pushed sp s) →
      ∀ m', Space env hand m' pd → Kept env m m' → Q (-1) m')
    (hgap : ¬ s.length + 1 ≤ sp - (g + 1) * PGSIZE → InGap (pushed sp s) → E .nullPte m) :
    wp (copyout pd (pushed sp s) (s ++ [0])) Q E m := by
  have hgv := hst.lt
  have hbuf : s ++ [0] ≠ [] := by simp
  have hbuflen : (s ++ [0]).length = s.length + 1 := by simp
  have hword : sp < WORD := by
    simp only [UPAGES, KERNBASE, PGSIZE, WORD] at *
    omega
  by_cases hle : s.length + 1 ≤ sp
  · have hpushed := pushed_of_le hle hword
    by_cases hfit : s.length + 1 ≤ sp - (g + 1) * PGSIZE
    · -- it fits into the stack page
      obtain ⟨x, hx, hxu⟩ := Option.map_eq_some_iff.mp hst.stack
      have hin : (g + 1) * PGSIZE ≤ pushed sp s ∧ pushed sp s + (s.length + 1) ≤ sp := by
        rw [hpushed]
        simp only [PGSIZE] at *
        omega
      obtain ⟨off, hoff⟩ := Nat.exists_eq_add_of_le hin.1
      rw [hoff]
      refine h.wp_copyout hx hxu ?_ fun m' h' hstep hwrote => hok hfit m' h' hstep ?_
      · rw [hbuflen]
        simp only [PGSIZE] at *
        omega
      · rw [hbuflen, ← hoff] at hwrote
        exact hwrote
    · -- it starts below the stack page and reaches at least the guard page
      obtain ⟨y, hy, hyu⟩ := Option.map_eq_some_iff.mp hst.guard
      have hng : ¬ InGap (pushed sp s) := by
        unfold InGap
        rw [hpushed]
        simp only [UPAGES, KERNBASE, PHYSTOP, PGSIZE] at *
        omega
      refine h.wp_copyoutLoop_guard hy hyu hst.below ?_ hbuf ?_ le_rfl (hfail hfit hng)
      · rw [hpushed]
        simp only [PGSIZE] at *
        omega
      · rw [hpushed, hbuflen]
        simp only [PGSIZE] at *
        omega
  · obtain ⟨hk, hk'⟩ := pushed_of_lt (Nat.not_le.mp hle) hlen
    have hfit : ¬ s.length + 1 ≤ sp - (g + 1) * PGSIZE := by omega
    exact wp_copyout_kernel hst.kernel hk hk' hbuf (hgap hfit)
      fun hng => hfail hfit hng m h (.refl ..)

/-! ## The strings -/

/-- The first string that does not fit into the stack page, which starts at `base`, is so long that it
is put where there is no page table. -/
def Gap (base : ℕ) : (sp : ℕ) → (argv : List (List UInt8)) → Prop
  | _, [] => False
  | sp, s :: argv =>
    if s.length + 1 ≤ sp - base then Gap base (pushed sp s) argv else InGap (pushed sp s)

theorem gap_of_fit {base : ℕ} (h : s.length + 1 ≤ sp - base) :
    Gap base sp (s :: argv) ↔ Gap base (pushed sp s) argv := by
  rw [Gap, if_pos h]

theorem gap_of_not_fit {base : ℕ} (h : ¬ s.length + 1 ≤ sp - base) :
    Gap base sp (s :: argv) ↔ InGap (pushed sp s) := by
  rw [Gap, if_neg h]

/-- The strings `argv` are at `ptrs`, from `lo` on below `hi`. -/
def Strings (view : ℕ → Option UserPage) (lo hi : ℕ) (ptrs : List ℕ) (argv : List (List UInt8)) :
    Prop :=
  List.Forall₂ (fun a s => lo ≤ a ∧ a + (s.length + 1) ≤ hi ∧ StrAt view a (s ++ [0])) ptrs argv

/-- Writes below the strings leave them. -/
theorem Strings.touched {lo' hi' : ℕ} (h : Strings view lo hi ptrs argv)
    (ht : Touched view view' lo' hi') (hhi : hi' ≤ lo) (hlo : lo' ≤ lo) :
    Strings view' lo' hi ptrs argv :=
  List.Forall₂.imp (fun _ _ ⟨h1, h2, h3⟩ => ⟨hlo.trans h1, h2, h3.touched ht (.inr (hhi.trans h1))⟩) h

/-- `pushStrings` puts copies of the strings on the stack, or one does not fit. -/
theorem Space.wp_pushStrings {Q : Option (ℕ × List ℕ) → Mem → Prop} {done : List (List UInt8)}
    (h : Space env hand m pd) (hst : Stacked m pd g) (hlow : (g + 1) * PGSIZE ≤ sp)
    (hhigh : sp ≤ (g + 2) * PGSIZE) (hlen : ∀ s ∈ argv, s.length + 1 ≤ KERNBASE)
    (hmax : Gap ((g + 1) * PGSIZE) sp argv → ptrs.length + argv.length ≤ MAXARG)
    (hcount : ptrs.length ≤ MAXARG)
    (hstrings : Strings (m.view pd) sp ((g + 2) * PGSIZE) ptrs done)
    (hgap : Gap ((g + 1) * PGSIZE) sp argv → ∀ m', E .nullPte m')
    (hnone : ¬ Gap ((g + 1) * PGSIZE) sp argv → ∀ m', Space env hand m' pd → Kept env m m' → Q none m')
    (hsome : ¬ Gap ((g + 1) * PGSIZE) sp argv → ∀ sp' ptrs' m', Space env hand m' pd →
      Step env pd m m' (m'.view pd) →
      Touched (m.view pd) (m'.view pd) ((g + 1) * PGSIZE) ((g + 2) * PGSIZE) →
      (g + 1) * PGSIZE ≤ sp' → sp' ≤ (g + 2) * PGSIZE → ptrs'.length ≤ MAXARG →
      Strings (m'.view pd) sp' ((g + 2) * PGSIZE) ptrs' (done ++ argv) → Q (some (sp', ptrs')) m') :
    wp (pushStrings pd argv sp ptrs) Q E m := by
  induction argv generalizing sp ptrs done m with
  | nil =>
    refine hsome id sp ptrs m h (.refl ..) (.refl ..) hlow hhigh hcount ?_
    rw [List.append_nil]
    exact hstrings
  | cons s argv ih =>
    have hfirst := hlen s List.mem_cons_self
    unfold pushStrings
    by_cases hfull : MAXARG ≤ ptrs.length
    · rw [if_pos hfull]
      refine hnone (fun hg => ?_) m h (.refl ..)
      have hle := hmax hg
      rw [List.length_cons] at hle
      omega
    · rw [if_neg hfull, wp_bind]
      refine h.wp_push hst hlow hhigh hfirst (fun hfit m1 h1 hstep hwrote => ?_)
        (fun hfit hng m1 h1 hkept => ?_) fun hfit hg => hgap ((gap_of_not_fit hfit).mpr hg) m
      · have hgv := hst.lt
        have hword : sp < WORD := by
          simp only [UPAGES, KERNBASE, PGSIZE, WORD] at hgv hhigh ⊢
          omega
        have hin : (g + 1) * PGSIZE ≤ pushed sp s ∧ pushed sp s + (s.length + 1) ≤ sp := by
          rw [pushed_of_le (by omega) hword]
          simp only [PGSIZE] at hfit hlow ⊢
          omega
        have hstr : StrAt (m1.view pd) (pushed sp s) (s ++ [0]) := by
          have hbuflen : (s ++ [0]).length = s.length + 1 := by simp
          refine Wrote.strAt (hbuflen ▸ hwrote) fun j hj => ?_
          have hpage : (pushed sp s + j) / PGSIZE = g + 1 := by
            rw [hbuflen] at hj
            simp only [PGSIZE] at hin hhigh ⊢
            omega
          rw [hpage, ← Option.isSome_map (f := (·.user)), hst.stack]
          rfl
        have htouched : Touched (m.view pd) (m1.view pd) ((g + 1) * PGSIZE) ((g + 2) * PGSIZE) :=
          hwrote.touched.mono hin.1 (hin.2.trans hhigh)
        have hstrings1 : Strings (m1.view pd) (pushed sp s) ((g + 2) * PGSIZE) (ptrs ++ [pushed sp s])
            (done ++ [s]) :=
          List.rel_append (hstrings.touched hwrote.touched hin.2 (by omega))
            (.cons ⟨le_rfl, hin.2.trans hhigh, hstr⟩ .nil)
        have hdone : done ++ [s] ++ argv = done ++ s :: argv := by simp
        have hiff : Gap ((g + 1) * PGSIZE) sp (s :: argv) ↔ Gap ((g + 1) * PGSIZE) (pushed sp s) argv :=
          gap_of_fit hfit
        rw [if_neg (by decide)]
        refine ih h1 (hst.step hstep htouched) hin.1 (by omega)
          (fun s' hs' => hlen s' (List.mem_cons_of_mem _ hs')) (fun hg => ?_) ?_ hstrings1
          (fun hg => hgap (hiff.mpr hg))
          (fun hng m2 h2 hkept => hnone (mt hiff.mp hng) m2 h2 (hstep.kept.trans hkept))
          fun hng sp' ptrs' m2 h2 hstep2 ht2 hlow2 hhigh2 hlen2 hstrings2 => ?_
        · have hle := hmax (hiff.mpr hg)
          rw [List.length_cons] at hle
          rw [List.length_append, List.length_singleton]
          omega
        · rw [List.length_append, List.length_singleton]
          omega
        · rw [hdone] at hstrings2
          exact hsome (mt hiff.mp hng) sp' ptrs' m2 h2 (hstep.trans hstep2) (htouched.trans ht2) hlow2
            hhigh2 hlen2 hstrings2
      · rw [if_pos (by decide)]
        exact hnone (fun hg => hng ((gap_of_not_fit hfit).mp hg)) m1 h1 hkept

/-! ## The stack that the program starts with -/

/-- What one reads from `esp` on, in the stack page from `base` to `top`. -/
structure ArgStack (view : ℕ → Option UserPage) (base top esp : ℕ) (argv : List (List UInt8)) :
    Prop where
  /-- It is in the stack page. -/
  low : base ≤ esp
  /-- The fake return address. -/
  pc : wordOf view esp = some 0xffffffff
  /-- `argc`. -/
  argc : wordOf view (esp + 4) = some (.ofNat argv.length)
  /-- A pointer to an array in the stack page, which holds the addresses of the strings and `0`. -/
  array : ∃ av ptrs, wordOf view (esp + 8) = some (.ofNat av) ∧ base ≤ av ∧
    av + 4 * (argv.length + 1) ≤ top ∧ ptrs.length = argv.length ∧
    (∀ i < argv.length, wordOf view (av + 4 * i) = some (.ofNat (ptrs.getD i 0))) ∧
    wordOf view (av + 4 * argv.length) = some 0 ∧ Strings view base top ptrs argv

/-- The words of `ustack` after the first three. -/
theorem ustackWords_getD (sp : ℕ) (ptrs : List ℕ) (i : ℕ) :
    (ustackWords sp ptrs).getD (3 + i) 0 = (ptrs ++ [0]).getD i 0 := by
  have hle : [0xffffffff, ptrs.length, uint (sp - (ptrs.length + 1) * 4)].length ≤ 3 + i :=
    Nat.le_add_right 3 i
  unfold ustackWords
  rw [List.append_assoc, List.getD_append_right _ _ _ _ hle]
  exact congrArg ((ptrs ++ [0]).getD · 0) (Nat.add_sub_cancel_left 3 i)

/-- The words and the strings are read as they should be. -/
theorem argStack_of_strAt (hstr : StrAt view sp (wordBytes (ustackWords lo ptrs)))
    (hlo : lo = sp + 4 * (ptrs.length + 4)) (hword : lo < WORD) (hlow : a ≤ sp) (hhigh : lo ≤ hi)
    (hstrings : Strings view a hi ptrs argv) : ArgStack view a hi sp argv := by
  have hlen : ptrs.length = argv.length := List.Forall₂.length_eq hstrings
  have hwords : (ustackWords lo ptrs).length = 4 + ptrs.length := by
    simp [ustackWords]
    omega
  have hword_at : ∀ i < 4 + ptrs.length, wordOf view (sp + 4 * i) =
      some (.ofNat ((ustackWords lo ptrs).getD i 0)) := fun i hi => hstr.wordOf (by omega)
  have hav : uint (lo - (ptrs.length + 1) * 4) = sp + 12 := by
    unfold uint
    simp only [WORD] at *
    omega
  refine ⟨hlow, hword_at 0 (by omega), ?_, sp + 12, ptrs, ?_, by omega, by omega, hlen,
    fun i hi => ?_, ?_, hstrings⟩
  · rw [← hlen]
    exact hword_at 1 (by omega)
  · rw [← hav]
    exact hword_at 2 (by omega)
  · have hat := hword_at (3 + i) (by omega)
    rw [ustackWords_getD, List.getD_append _ _ _ _ (by omega)] at hat
    rw [← hat]
    congr 1
    omega
  · have hat := hword_at (3 + ptrs.length) (by omega)
    rw [ustackWords_getD, List.getD_append_right _ _ _ _ le_rfl, Nat.sub_self] at hat
    rw [← hlen]
    refine Eq.trans ?_ hat
    congr 1
    omega

/-- The argument-pushing part of `exec` leaves the stack as it should be, or fails with `-1`; it reads
an entry that is not there exactly if a string is put into the gap. -/
theorem Space.wp_pushArgs {Q : Option ℕ → Mem → Prop} (h : Space env hand m pd) (hst : Stacked m pd g)
    (hlen : ∀ s ∈ argv, s.length + 1 ≤ KERNBASE)
    (hmax : Gap ((g + 1) * PGSIZE) ((g + 2) * PGSIZE) argv → argv.length ≤ MAXARG)
    (hgap : Gap ((g + 1) * PGSIZE) ((g + 2) * PGSIZE) argv → ∀ m', E .nullPte m')
    (hnone : ¬ Gap ((g + 1) * PGSIZE) ((g + 2) * PGSIZE) argv →
      ∀ m', Space env hand m' pd → Kept env m m' → Q none m')
    (hsome : ¬ Gap ((g + 1) * PGSIZE) ((g + 2) * PGSIZE) argv → ∀ sp m', Space env hand m' pd →
      Step env pd m m' (m'.view pd) →
      Touched (m.view pd) (m'.view pd) ((g + 1) * PGSIZE) ((g + 2) * PGSIZE) →
      ArgStack (m'.view pd) ((g + 1) * PGSIZE) ((g + 2) * PGSIZE) sp argv → Q (some sp) m') :
    wp (pushArgs pd argv ((g + 2) * PGSIZE)) Q E m := by
  have hgv := hst.lt
  unfold pushArgs
  rw [wp_bind]
  have hstart : Strings (m.view pd) ((g + 2) * PGSIZE) ((g + 2) * PGSIZE) [] [] := .nil
  refine h.wp_pushStrings hst (Nat.mul_le_mul_right _ (by omega)) le_rfl hlen
    (fun hg => ?_) (by decide) hstart hgap hnone fun hng sp ptrs m1 h1 hstep ht hlow hhigh hcount hstrings => ?_
  · rw [List.length_nil, Nat.zero_add]
    exact hmax hg
  · have hword : sp < WORD := by
      simp only [UPAGES, KERNBASE, PGSIZE, WORD] at *
      omega
    have hroom : 4 * (ptrs.length + 4) ≤ sp := by
      simp only [PGSIZE, MAXARG] at *
      omega
    have hsp : uint (sp - (3 + ptrs.length + 1) * 4) = sp - 4 * (ptrs.length + 4) := by
      unfold uint
      simp only [WORD] at *
      omega
    have hbuflen : (wordBytes (ustackWords sp ptrs)).length = 4 * (ptrs.length + 4) := by
      rw [length_wordBytes]
      simp [ustackWords]
    have hst1 := hst.step hstep ht
    show wp (copyout pd (uint (sp - (3 + ptrs.length + 1) * 4)) _ >>= _) Q E m1
    rw [wp_bind, hsp]
    by_cases hfit : (g + 1) * PGSIZE ≤ sp - 4 * (ptrs.length + 4)
    · -- the words fit below the strings
      obtain ⟨x, hx, hxu⟩ := Option.map_eq_some_iff.mp hst1.stack
      obtain ⟨off, hoff⟩ := Nat.exists_eq_add_of_le hfit
      rw [hoff]
      refine h1.wp_copyout hx hxu ?_ fun m2 h2 hstep2 hwrote => ?_
      · rw [hbuflen]
        simp only [PGSIZE] at *
        omega
      · rw [← hoff] at hwrote ⊢
        have hstr : StrAt (m2.view pd) (sp - 4 * (ptrs.length + 4))
            (wordBytes (ustackWords sp ptrs)) := by
          refine hwrote.strAt fun j hj => ?_
          have hpage : (sp - 4 * (ptrs.length + 4) + j) / PGSIZE = g + 1 := by
            rw [hbuflen] at hj
            simp only [PGSIZE] at *
            omega
          rw [hpage, ← Option.isSome_map (f := (·.user)), hst1.stack]
          rfl
        have ht2 := hwrote.touched
        rw [hbuflen] at ht2
        rw [if_neg (by decide)]
        refine hsome hng _ m2 h2 (hstep.trans hstep2) (ht.trans (ht2.mono hfit (by omega)))
          (argStack_of_strAt hstr (by omega) hword hfit hhigh ?_)
        exact List.Forall₂.imp (fun _ _ hs => ⟨hfit.trans hs.1, hs.2⟩)
          (hstrings.touched ht2 (by omega) (by omega))
    · obtain ⟨y, hy, hyu⟩ := Option.map_eq_some_iff.mp hst1.guard
      refine h1.wp_copyoutLoop_guard hy hyu hst1.below ?_ ?_ ?_ le_rfl fun m2 h2 hkept => ?_
      · simp only [PGSIZE] at *
        omega
      · refine List.length_pos_iff.mp ?_
        omega
      · rw [hbuflen]
        simp only [PGSIZE, MAXARG] at *
        omega
      · rw [if_pos (by decide)]
        exact hnone hng m2 h2 (hstep.kept.trans hkept)

end ChronoFS.Vm
