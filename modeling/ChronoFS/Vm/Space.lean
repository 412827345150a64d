import ChronoFS.Vm.Exec
import ChronoFS.Lib.Wp
import ChronoFS.Lib.Partition

/-!
# Address spaces

A page directory with its page tables and the user pages that they list is an address space.
`Space env hand m pd` says that the pages that `kalloc` manages are parted among the address space of
`pd`, the free list, the pages `hand` that a function has taken from it and not used yet, and `env`: all
others, which a function that works on this address space leaves alone (`Kept`). What the program sees
is `Mem.view`: which pages are present, with their contents, and if it may use them. This module has the
small steps: an entry of a page table or of the page directory is set, and the contents of a page are
changed.
-/

namespace ChronoFS.Vm

open Bytes
open Function

variable {ι : Type*} {env : ι → ℕ} {hand : List ℕ} {m m' m'' : Mem} {pd f i j k v : ℕ} {e : Pte}
  {p : Page}

/-! ## Entries -/

namespace Pte

/-- An entry is read back from its word. -/
theorem ofWord_toWord (h : e.frame < WORD / PGSIZE) : ofWord e.toWord = e := by
  obtain ⟨f, a, b, c⟩ := e
  have hw : (toWord ⟨f, a, b, c⟩).toNat = f * PGSIZE + a.toNat + 2 * b.toNat + 4 * c.toNat := by
    have ha := a.toNat_lt
    have hb := b.toNat_lt
    have hc := c.toNat_lt
    refine (UInt32.toNat_ofNat' ..).trans (Nat.mod_eq_of_lt ?_)
    simp only [WORD, PGSIZE] at *
    omega
  unfold ofWord
  rw [hw]
  simp only [PGSIZE, Nat.testBit, Nat.shiftRight_eq_div_pow]
  cases a <;> cases b <;> cases c <;> simp <;> omega

/-- The page of an entry that is present, or `0`. -/
def ref (e : Pte) : ℕ := if e.present then e.frame else 0

end Pte

namespace Page

theorem pte_setPte_self (p : Page) (k : ℕ) (h : e.frame < WORD / PGSIZE) :
    (p.setPte k e).pte k = e := by
  have hword : le32 (p.setPte k e).byte (4 * k) = e.toWord := by
    refine le32_byte32 _ _ _ fun j hj => ?_
    show (if 4 * k ≤ 4 * k + j ∧ 4 * k + j < 4 * k + 4 then _ else _) = _
    rw [if_pos (by omega), Nat.add_sub_cancel_left]
  unfold pte
  rw [hword, Pte.ofWord_toWord h]

theorem pte_setPte_of_ne (p : Page) (e : Pte) (h : j ≠ k) : (p.setPte k e).pte j = p.pte j := by
  unfold pte
  refine congrArg _ (le32_congr fun i hi => ?_)
  show (if 4 * k ≤ 4 * j + i ∧ 4 * j + i < 4 * k + 4 then _ else _) = _
  rw [if_neg (by omega)]

theorem pte_fill_zero (k : ℕ) : (fill 0).pte k = .zero := by
  unfold pte
  have hword : le32 (fill 0).byte (4 * k) = 0 := rfl
  rw [hword]
  rfl

end Page

/-! ## What a page directory lists -/

/-- Pages of user memory. -/
abbrev UPAGES : ℕ := KERNBASE / PGSIZE

/-- Pages of the address space. -/
abbrev VPAGES : ℕ := WORD / PGSIZE

namespace Mem

/-- The memory with a page changed. -/
def put (m : Mem) (f : ℕ) (p : Page) : Mem := { m with page := update m.page f p }

/-- The memory after `kfree`. -/
def free (m : Mem) (f : ℕ) : Mem := { m.put f (.fill 1) with freelist := f :: m.freelist }

/-- Entry `i` of the page directory. -/
def pde (m : Mem) (pd i : ℕ) : Pte := (m.page pd).pte i

/-- What `walkpgdir` finds for page `v` of the address space: nothing if there is no page table. -/
def walk (m : Mem) (pd v : ℕ) : Option Pte :=
  if (m.pde pd (v / NPTENTRIES)).present then
    some ((m.page (m.pde pd (v / NPTENTRIES)).frame).pte (v % NPTENTRIES))
  else none

/-- The entry for page `v`, or `0`. -/
def pte (m : Mem) (pd v : ℕ) : Pte := (m.walk pd v).getD .zero

end Mem

/-- A page as a program has it. -/
structure UserPage where
  /-- The program may use it. -/
  user : Bool
  /-- Its contents. -/
  page : Page

/-- The user pages that are present. -/
def Mem.view (m : Mem) (pd v : ℕ) : Option UserPage :=
  if v < UPAGES ∧ (m.pte pd v).present then some ⟨(m.pte pd v).user, m.page (m.pte pd v).frame⟩
  else none

/-- The parts of an address space. -/
inductive Part
  /-- The page directory. -/
  | dir
  /-- The page table of entry `i`. -/
  | table (i : ℕ)
  /-- The user page `v`. -/
  | user (v : ℕ)
  deriving DecidableEq

/-- The page of each part, or `0`. -/
def Mem.part (m : Mem) (pd : ℕ) : Part → ℕ
  | .dir => pd
  | .table i => if i < NPDENTRIES then (m.pde pd i).ref else 0
  | .user v => if v < UPAGES then (m.pte pd v).ref else 0

/-- The pages that `kalloc` and `kfree` manage. -/
def Ld.Managed (ld : Ld) (f : ℕ) : Prop := ld.end ≤ f ∧ f < PHYSTOP / PGSIZE

/-- The managed pages are parted among the address space of `pd`, the free list, the pages in hand and
the others. -/
structure Space (env : ι → ℕ) (hand : List ℕ) (m : Mem) (pd : ℕ) : Prop where
  /-- Each page has one place. -/
  parts : Parted (Sum.elim env (m.part pd)) (hand ++ m.freelist) m.ld.Managed
  /-- There is a page directory. -/
  dir : pd ≠ 0
  /-- A page table that is listed is there. -/
  table : ∀ i < NPDENTRIES, (m.pde pd i).present → (m.pde pd i).frame ≠ 0
  /-- So is a user page. -/
  user : ∀ v < UPAGES, (m.pte pd v).present → (m.pte pd v).frame ≠ 0

/-- The pages of others are as they were. -/
structure Kept (env : ι → ℕ) (m m' : Mem) : Prop where
  /-- The kernel is where it was. -/
  ld : m'.ld = m.ld
  /-- Their contents are the same. -/
  page : ∀ o, env o ≠ 0 → m'.page (env o) = m.page (env o)

theorem Kept.refl (env : ι → ℕ) (m : Mem) : Kept env m m := ⟨rfl, fun _ _ => rfl⟩

theorem Kept.trans (h : Kept env m m') (h' : Kept env m' m'') : Kept env m m'' :=
  ⟨h'.ld.trans h.ld, fun o ho => (h'.page o ho).trans (h.page o ho)⟩

/-! ## Reading an address space -/

/-- An entry of the address space depends on the page directory and its page table. -/
theorem walk_congr (hdir : m'.page pd = m.page pd)
    (htab : (m.pde pd (v / NPTENTRIES)).present →
      m'.page (m.pde pd (v / NPTENTRIES)).frame = m.page (m.pde pd (v / NPTENTRIES)).frame) :
    m'.walk pd v = m.walk pd v := by
  have hpde : m'.pde pd (v / NPTENTRIES) = m.pde pd (v / NPTENTRIES) := by
    unfold Mem.pde
    rw [hdir]
  unfold Mem.walk
  rw [hpde]
  by_cases hp : (m.pde pd (v / NPTENTRIES)).present
  · rw [if_pos hp, if_pos hp, htab hp]
  · rw [if_neg hp, if_neg hp]

theorem pte_of_walk (h : m.walk pd v = some e) : m.pte pd v = e := by
  unfold Mem.pte
  rw [h]
  rfl

theorem pte_of_not_walk (h : m.walk pd v = none) : m.pte pd v = .zero := by
  unfold Mem.pte
  rw [h]
  rfl

/-- The table index of a page of the address space. -/
theorem div_lt_npdentries (hv : v < VPAGES) : v / NPTENTRIES < NPDENTRIES := by
  simp only [VPAGES, WORD, PGSIZE, NPTENTRIES, NPDENTRIES] at *
  omega

theorem upages_lt_vpages (hv : v < UPAGES) : v < VPAGES := hv.trans (by decide)

theorem view_of_present (hv : v < UPAGES) (hp : (m.pte pd v).present) :
    m.view pd v = some ⟨(m.pte pd v).user, m.page (m.pte pd v).frame⟩ := if_pos ⟨hv, hp⟩

theorem view_of_not_present (hp : (m.pte pd v).present = false) : m.view pd v = none :=
  if_neg fun h => by rw [hp] at h; exact nomatch h.2

theorem view_of_le (hv : UPAGES ≤ v) : m.view pd v = none := if_neg fun h => Nat.not_lt.mpr hv h.1

/-- A user page that is present. -/
theorem exists_of_view {x : UserPage} (h : m.view pd v = some x) :
    v < UPAGES ∧ (m.pte pd v).present ∧ x = ⟨(m.pte pd v).user, m.page (m.pte pd v).frame⟩ := by
  unfold Mem.view at h
  split at h
  · rename_i hc
    exact ⟨hc.1, hc.2, (Option.some.inj h).symm⟩
  · exact nomatch h

/-- A page that is not present, of user memory. -/
theorem not_present_of_view (hv : v < UPAGES) (h : m.view pd v = none) :
    (m.pte pd v).present = false := by
  cases hp : (m.pte pd v).present with
  | false => rfl
  | true =>
    rw [view_of_present hv hp] at h
    exact nomatch h

/-- What the program sees depends on the entries and on the pages that they list. -/
theorem view_congr (hpte : ∀ v < UPAGES, m'.pte pd v = m.pte pd v)
    (hpage : ∀ v < UPAGES, (m.pte pd v).present →
      m'.page (m.pte pd v).frame = m.page (m.pte pd v).frame) : m'.view pd = m.view pd := by
  funext v
  by_cases hv : v < UPAGES
  · cases hp : (m.pte pd v).present with
    | true =>
      rw [view_of_present hv hp, view_of_present hv ((hpte v hv).symm ▸ hp), hpte v hv, hpage v hv hp]
    | false => rw [view_of_not_present hp, view_of_not_present ((hpte v hv).symm ▸ hp)]
  · rw [view_of_le (Nat.not_lt.mp hv), view_of_le (Nat.not_lt.mp hv)]

/-- One page of what the program sees has changed. -/
theorem view_update {x : Option UserPage} (hpte : ∀ v' < UPAGES, v' ≠ v → m'.pte pd v' = m.pte pd v')
    (hpage : ∀ v' < UPAGES, v' ≠ v → (m.pte pd v').present →
      m'.page (m.pte pd v').frame = m.page (m.pte pd v').frame) (hx : m'.view pd v = x) :
    m'.view pd = update (m.view pd) v x := by
  funext v'
  by_cases hvv : v' = v
  · rw [hvv, update_self, hx]
  · rw [update_of_ne hvv]
    by_cases hv : v' < UPAGES
    · have heq := hpte v' hv hvv
      cases hp : (m.pte pd v').present with
      | true => rw [view_of_present hv hp, view_of_present hv (heq ▸ hp), heq, hpage v' hv hvv hp]
      | false => rw [view_of_not_present hp, view_of_not_present (heq ▸ hp)]
    · rw [view_of_le (Nat.not_lt.mp hv), view_of_le (Nat.not_lt.mp hv)]

theorem page_put_self (m : Mem) (f : ℕ) (p : Page) : (m.put f p).page f = p := by
  show update m.page f p f = p
  rw [update_self]

theorem page_put_of_ne (h : k ≠ f) (m : Mem) (p : Page) : (m.put f p).page k = m.page k :=
  update_of_ne h ..

theorem part_dir : m.part pd .dir = pd := rfl

theorem part_table (hi : i < NPDENTRIES) (hp : (m.pde pd i).present) :
    m.part pd (.table i) = (m.pde pd i).frame := by
  show (if i < NPDENTRIES then (m.pde pd i).ref else 0) = _
  rw [if_pos hi]
  exact if_pos hp

theorem part_user (hv : v < UPAGES) (hp : (m.pte pd v).present) :
    m.part pd (.user v) = (m.pte pd v).frame := by
  show (if v < UPAGES then (m.pte pd v).ref else 0) = _
  rw [if_pos hv]
  exact if_pos hp

/-- The parts depend on the entries. -/
theorem part_congr (hpde : ∀ i < NPDENTRIES, m'.pde pd i = m.pde pd i)
    (hpte : ∀ v < UPAGES, m'.pte pd v = m.pte pd v) : m'.part pd = m.part pd := by
  funext o
  cases o with
  | dir => rfl
  | table i =>
    show (if i < NPDENTRIES then _ else _) = if i < NPDENTRIES then _ else _
    by_cases hi : i < NPDENTRIES
    · rw [if_pos hi, if_pos hi, hpde i hi]
    · rw [if_neg hi, if_neg hi]
  | user v =>
    show (if v < UPAGES then _ else _) = if v < UPAGES then _ else _
    by_cases hv : v < UPAGES
    · rw [if_pos hv, if_pos hv, hpte v hv]
    · rw [if_neg hv, if_neg hv]

/-- The number of a managed page fits into an entry. -/
theorem Ld.Managed.lt {ld : Ld} (hf : ld.Managed f) : f < WORD / PGSIZE := hf.2.trans (by decide)

namespace Space

variable {a b : ℕ} {o o' : Part} (h : Space env hand m pd)
include h

/-- Two parts have different pages. -/
theorem part_ne (ho : m.part pd o = a) (ho' : m.part pd o' = b) (ha : a ≠ 0) (hne : o ≠ o') : a ≠ b := by
  subst ho ho'
  exact fun heq => hne (Sum.inr.inj (h.parts.own.inj (.inr o) (.inr o') ha heq))

/-- Others have other pages. -/
theorem env_ne {x : ι} (hx : env x ≠ 0) (ho : m.part pd o = a) : env x ≠ a := by
  subst ho
  exact fun heq => nomatch (h.parts.own.inj (.inl x) (.inr o) hx heq)

/-- The pages of the parts are managed. -/
theorem part_managed (ho : m.part pd o = a) (ha : a ≠ 0) : m.ld.Managed a := by
  subst ho
  exact h.parts.own.inArea (.inr o) ha

/-- The pages of the pool belong to no part. -/
theorem pool_ne (hf : f ∈ hand ++ m.freelist) (ho : m.part pd o = a) : a ≠ f :=
  ho ▸ h.parts.pool_ne hf (.inr o)

/-- They do not belong to others either. -/
theorem pool_ne_env (hf : f ∈ hand ++ m.freelist) (x : ι) : env x ≠ f := h.parts.pool_ne hf (.inl x)

/-- A memory with the same entries, in which the pages have their places. -/
theorem of_entries {κ : Type*} {env' : κ → ℕ} {hand' : List ℕ}
    (hpde : ∀ i < NPDENTRIES, m'.pde pd i = m.pde pd i)
    (hpte : ∀ v < UPAGES, m'.pte pd v = m.pte pd v)
    (hparts : Parted (Sum.elim env' (m.part pd)) (hand' ++ m'.freelist) m'.ld.Managed) :
    Space env' hand' m' pd := by
  refine ⟨?_, h.dir, fun i hi => ?_, fun v hv => ?_⟩
  · rw [part_congr hpde hpte]
    exact hparts
  · rw [hpde i hi]
    exact h.table i hi
  · rw [hpte v hv]
    exact h.user v hv

/-- A memory with the same entries and the same free list. -/
theorem congr (hpde : ∀ i < NPDENTRIES, m'.pde pd i = m.pde pd i)
    (hpte : ∀ v < UPAGES, m'.pte pd v = m.pte pd v) (hfree : m'.freelist = m.freelist)
    (hld : m'.ld = m.ld) : Space env hand m' pd := by
  refine h.of_entries hpde hpte ?_
  rw [hfree, hld]
  exact h.parts

/-- An address space whose pages were all left alone has the same entries. -/
theorem entries_of_kept {κ : Type*} {env' : κ → ℕ} (hkept : Kept (Sum.elim env' (m.part pd)) m m') :
    (∀ i < NPDENTRIES, m'.pde pd i = m.pde pd i) ∧ (∀ v < UPAGES, m'.pte pd v = m.pte pd v) ∧
      m'.view pd = m.view pd := by
  have hdir : m'.page pd = m.page pd := hkept.page (.inr .dir) h.dir
  have hpte : ∀ v < UPAGES, m'.pte pd v = m.pte pd v := by
    intro v hv
    refine congrArg (·.getD .zero) (walk_congr hdir fun hp => ?_)
    have hi := div_lt_npdentries (upages_lt_vpages hv)
    have hpart := part_table hi hp
    have hpage := hkept.page (.inr (.table (v / NPTENTRIES)))
    rw [Sum.elim_inr, hpart] at hpage
    exact hpage (h.table _ hi hp)
  refine ⟨fun i _ => congrArg (·.pte i) hdir, hpte, view_congr hpte fun v hv hp => ?_⟩
  have hpage := hkept.page (.inr (.user v))
  rw [Sum.elim_inr, part_user hv hp] at hpage
  exact hpage (h.user v hv hp)

/-- An address space that others have left alone. -/
theorem restore {κ κ' : Type*} {env' : κ → ℕ} {env'' : κ' → ℕ} {hand' : List ℕ}
    (hkept : Kept (Sum.elim env'' (m.part pd)) m m')
    (hparts : Parted (Sum.elim env' (m.part pd)) (hand' ++ m'.freelist) m'.ld.Managed) :
    Space env' hand' m' pd ∧ m'.view pd = m.view pd := by
  obtain ⟨hpde, hpte, hview⟩ := h.entries_of_kept hkept
  exact ⟨h.of_entries hpde hpte hparts, hview⟩

end Space

/-! ## Small steps -/

/-- From `m` to `m'` the program's pages become `view`, and all else stays as it is. -/
structure Step (env : ι → ℕ) (pd : ℕ) (m m' : Mem) (view : ℕ → Option UserPage) : Prop where
  /-- The pages of others. -/
  kept : Kept env m m'
  /-- What the program sees. -/
  view : m'.view pd = view
  /-- The kernel's part of the address space. -/
  kernel : ∀ v, UPAGES ≤ v → v < VPAGES → m'.walk pd v = m.walk pd v

theorem Step.refl (env : ι → ℕ) (pd : ℕ) (m : Mem) : Step env pd m m (m.view pd) :=
  ⟨.refl env m, rfl, fun _ _ _ => rfl⟩

theorem Step.trans {view view' : ℕ → Option UserPage} (h : Step env pd m m' view)
    (h' : Step env pd m' m'' view') : Step env pd m m'' view' :=
  ⟨h.kept.trans h'.kept, h'.view, fun v hv hv' => (h'.kernel v hv hv').trans (h.kernel v hv hv')⟩

/-- The contents of a page that is no page table do not matter for the entries. -/
theorem walk_put (hdir : f ≠ pd) (htab : ∀ i < NPDENTRIES, (m.pde pd i).present → (m.pde pd i).frame ≠ f)
    (p : Page) (hv : v < VPAGES) : (m.put f p).walk pd v = m.walk pd v :=
  walk_congr (page_put_of_ne (Ne.symm hdir) m p) fun hp =>
    page_put_of_ne (htab _ (div_lt_npdentries hv) hp) m p

namespace Space

variable (h : Space env hand m pd)
include h

/-- The contents of a page of the pool are changed. -/
theorem put_pool (hf : f ∈ hand ++ m.freelist) (p : Page) :
    Space env hand (m.put f p) pd ∧ Step env pd m (m.put f p) (m.view pd) ∧
      ∀ v < VPAGES, (m.put f p).walk pd v = m.walk pd v := by
  have hdir : f ≠ pd := (h.pool_ne hf part_dir).symm
  have hwalk : ∀ v < VPAGES, (m.put f p).walk pd v = m.walk pd v := fun v hv =>
    walk_put hdir (fun i hi hp => h.pool_ne hf (part_table hi hp)) p hv
  have hpte : ∀ v < UPAGES, (m.put f p).pte pd v = m.pte pd v := fun v hv =>
    congrArg (·.getD .zero) (hwalk v (upages_lt_vpages hv))
  refine ⟨h.congr (fun i _ => ?_) hpte rfl rfl, ⟨⟨rfl, fun x _ => ?_⟩, ?_, fun v _ => hwalk v⟩, hwalk⟩
  · exact congrArg (·.pte i) (page_put_of_ne (Ne.symm hdir) m p)
  · exact page_put_of_ne (h.pool_ne_env hf x) m p
  · exact view_congr hpte fun v hv hp => page_put_of_ne (h.pool_ne hf (part_user hv hp)) m p

/-- The contents of a user page are changed. -/
theorem put_user {x : UserPage} (hx : m.view pd v = some x) (p : Page) :
    Space env hand (m.put (m.pte pd v).frame p) pd ∧
      Step env pd m (m.put (m.pte pd v).frame p) (update (m.view pd) v (some { x with page := p })) ∧
      ∀ v' < VPAGES, (m.put (m.pte pd v).frame p).walk pd v' = m.walk pd v' := by
  obtain ⟨hv, hp, hxe⟩ := exists_of_view hx
  have hne0 := h.user v hv hp
  have hdir : (m.pte pd v).frame ≠ pd := h.part_ne (part_user hv hp) part_dir hne0 (by nofun)
  have hwalk : ∀ v' < VPAGES, (m.put (m.pte pd v).frame p).walk pd v' = m.walk pd v' := fun v' hv' =>
    walk_put hdir (fun i hi hp' => (h.part_ne (part_user hv hp) (part_table hi hp') hne0
      (by nofun)).symm) p hv'
  have hpte : ∀ v' < UPAGES, (m.put (m.pte pd v).frame p).pte pd v' = m.pte pd v' := fun v' hv' =>
    congrArg (·.getD .zero) (hwalk v' (upages_lt_vpages hv'))
  refine ⟨h.congr (fun i _ => ?_) hpte rfl rfl, ⟨⟨rfl, fun y hy => ?_⟩, ?_, fun v' _ => hwalk v'⟩, hwalk⟩
  · exact congrArg (·.pte i) (page_put_of_ne (Ne.symm hdir) m p)
  · exact page_put_of_ne (h.env_ne hy (part_user hv hp)) m p
  · refine view_update (fun v' hv' _ => hpte v' hv') (fun v' hv' hvv hp' => ?_) ?_
    · exact page_put_of_ne (h.part_ne (part_user hv' hp') (part_user hv hp) (h.user v' hv' hp')
        fun heq => hvv (Part.user.inj heq)) m p
    · rw [view_of_present hv (by rw [hpte v hv]; exact hp), hpte v hv, page_put_self, hxe]

end Space

/-- The memory with the entry for page `v` set, where there is a page table for it. -/
def Mem.setEntry (m : Mem) (pd v : ℕ) (e : Pte) : Mem :=
  m.put (m.pde pd (v / NPTENTRIES)).frame
    ((m.page (m.pde pd (v / NPTENTRIES)).frame).setPte (v % NPTENTRIES) e)

namespace Space

section Entry

variable (h : Space env hand m pd) (hv : v < VPAGES) (hp : (m.pde pd (v / NPTENTRIES)).present)
include h hv hp

theorem pde_setEntry (i : ℕ) : (m.setEntry pd v e).pde pd i = m.pde pd i := by
  have hi := div_lt_npdentries hv
  have hne := h.part_ne (part_table hi hp) part_dir (h.table _ hi hp) (by nofun)
  exact congrArg (·.pte i) (page_put_of_ne (Ne.symm hne) m _)

/-- Setting an entry changes that one. -/
theorem walk_setEntry (he : e.frame < WORD / PGSIZE) (hk : k < VPAGES) :
    (m.setEntry pd v e).walk pd k = if k = v then some e else m.walk pd k := by
  have hi := div_lt_npdentries hv
  have hpde := h.pde_setEntry hv hp (e := e)
  by_cases hkv : k / NPTENTRIES = v / NPTENTRIES
  · -- the two entries are in one page table
    unfold Mem.walk
    rw [hpde, hkv, if_pos hp, if_pos hp]
    by_cases heq : k = v
    · rw [if_pos heq, heq]
      show some (((m.setEntry pd v e).page _).pte _) = _
      unfold Mem.setEntry
      rw [page_put_self, Page.pte_setPte_self _ _ he]
    · have hmod : k % NPTENTRIES ≠ v % NPTENTRIES := by
        intro hmod
        have h1 := Nat.div_add_mod k NPTENTRIES
        have h2 := Nat.div_add_mod v NPTENTRIES
        rw [hkv, hmod] at h1
        omega
      rw [if_neg heq]
      unfold Mem.setEntry
      rw [page_put_self, Page.pte_setPte_of_ne _ _ hmod]
  · have hne : k ≠ v := by
      rintro rfl
      exact hkv rfl
    rw [if_neg hne]
    refine walk_congr (page_put_of_ne ?_ m _) fun hp' => page_put_of_ne ?_ m _
    · exact (h.part_ne (part_table hi hp) part_dir (h.table _ hi hp) (by nofun)).symm
    · exact h.part_ne (part_table (div_lt_npdentries hk) hp') (part_table hi hp)
        (h.table _ (div_lt_npdentries hk) hp') fun heq => hkv (Part.table.inj heq)

theorem pte_setEntry (he : e.frame < WORD / PGSIZE) (hk : k < VPAGES) :
    (m.setEntry pd v e).pte pd k = if k = v then e else m.pte pd k := by
  unfold Mem.pte
  rw [h.walk_setEntry hv hp he hk]
  by_cases hkv : k = v
  · rw [if_pos hkv, if_pos hkv]
    rfl
  · rw [if_neg hkv, if_neg hkv]

theorem kept_setEntry : Kept env m (m.setEntry pd v e) :=
  ⟨rfl, fun _ hx => page_put_of_ne (h.env_ne hx (part_table (div_lt_npdentries hv) hp)) m _⟩

/-- The pages other than the page table keep their contents. -/
theorem page_setEntry_user (hk : k < UPAGES) (hp' : (m.pte pd k).present) :
    (m.setEntry pd v e).page (m.pte pd k).frame = m.page (m.pte pd k).frame :=
  page_put_of_ne (h.part_ne (part_user hk hp') (part_table (div_lt_npdentries hv) hp)
    (h.user k hk hp') (by nofun)) m _

theorem page_setEntry_pool (hf : f ∈ hand ++ m.freelist) :
    (m.setEntry pd v e).page f = m.page f :=
  page_put_of_ne (h.pool_ne hf (part_table (div_lt_npdentries hv) hp)).symm m _

/-- An entry of the kernel's part is set. -/
theorem setEntry_kernel (hk : UPAGES ≤ v) (he : e.frame < WORD / PGSIZE) :
    Space env hand (m.setEntry pd v e) pd ∧ (m.setEntry pd v e).view pd = m.view pd := by
  have hpte : ∀ k < UPAGES, (m.setEntry pd v e).pte pd k = m.pte pd k := by
    intro k hk'
    rw [h.pte_setEntry hv hp he (upages_lt_vpages hk'), if_neg (by omega)]
  exact ⟨h.congr (fun i _ => h.pde_setEntry hv hp i) hpte rfl rfl,
    view_congr hpte fun k hk' hp' => h.page_setEntry_user hv hp hk' hp'⟩

end Entry

/-- The parts after the entry of a user page was set. -/
theorem part_setEntry (h : Space env hand m pd) (hv : v < UPAGES)
    (hp : (m.pde pd (v / NPTENTRIES)).present) (he : e.frame < WORD / PGSIZE) :
    (m.setEntry pd v e).part pd = update (m.part pd) (.user v) e.ref := by
  have hv' := upages_lt_vpages hv
  funext o
  cases o with
  | dir => rfl
  | table i =>
    rw [update_of_ne (by nofun)]
    show (if i < NPDENTRIES then _ else _) = if i < NPDENTRIES then _ else _
    rw [h.pde_setEntry hv' hp i]
  | user k =>
    by_cases hkv : k = v
    · rw [hkv, update_self]
      show (if v < UPAGES then _ else _) = _
      rw [if_pos hv, h.pte_setEntry hv' hp he hv', if_pos rfl]
    · rw [update_of_ne fun heq => hkv (Part.user.inj heq)]
      show (if k < UPAGES then _ else _) = if k < UPAGES then _ else _
      by_cases hk : k < UPAGES
      · rw [if_pos hk, if_pos hk, h.pte_setEntry hv' hp he (upages_lt_vpages hk), if_neg hkv]
      · rw [if_neg hk, if_neg hk]

/-- What holds after the entry of a user page was set, but for the place of the page. -/
theorem step_setEntry (h : Space env hand m pd) (hv : v < UPAGES)
    (hp : (m.pde pd (v / NPTENTRIES)).present) (he : e.frame < WORD / PGSIZE)
    (hpage : e.present → (m.setEntry pd v e).page e.frame = m.page e.frame) :
    Step env pd m (m.setEntry pd v e) (update (m.view pd) v
      (if e.present then some ⟨e.user, m.page e.frame⟩ else none)) := by
  have hv' := upages_lt_vpages hv
  have hself : (m.setEntry pd v e).pte pd v = e := by rw [h.pte_setEntry hv' hp he hv', if_pos rfl]
  refine ⟨h.kept_setEntry hv' hp, view_update (fun k hk hkv => ?_)
    (fun k hk _ hp' => h.page_setEntry_user hv' hp hk hp') ?_, fun k hk hk' => ?_⟩
  · rw [h.pte_setEntry hv' hp he (upages_lt_vpages hk), if_neg hkv]
  · cases hpe : e.present with
    | true => rw [view_of_present hv (hself.symm ▸ hpe), hself, hpage hpe, if_pos rfl]
    | false =>
      rw [view_of_not_present (hself.symm ▸ hpe), if_neg (by decide)]
  · rw [h.walk_setEntry hv' hp he hk', if_neg (by omega)]

/-- The entry of a user page is set, and its page has a place before and after. -/
theorem of_setEntry {hand' : List ℕ} (h : Space env hand m pd) (hv : v < UPAGES)
    (hp : (m.pde pd (v / NPTENTRIES)).present) (he : e.frame < WORD / PGSIZE)
    (hne : e.present → e.frame ≠ 0)
    (hparts : Parted (Sum.elim env (update (m.part pd) (.user v) e.ref)) (hand' ++ m.freelist)
      m.ld.Managed) : Space env hand' (m.setEntry pd v e) pd := by
  have hv' := upages_lt_vpages hv
  refine ⟨?_, h.dir, fun i hi => ?_, fun k hk => ?_⟩
  · rw [h.part_setEntry hv hp he]
    exact hparts
  · rw [h.pde_setEntry hv' hp]
    exact h.table i hi
  · rw [h.pte_setEntry hv' hp he (upages_lt_vpages hk)]
    by_cases hkv : k = v
    · rw [if_pos hkv]
      exact hne
    · rw [if_neg hkv]
      exact h.user k hk

/-- The other owners, when one part changes. -/
theorem elim_update (x : ℕ) {o : Part} {o' : ι ⊕ Part} (ho : o' ≠ .inr o) :
    Sum.elim env (update (m.part pd) o x) o' = Sum.elim env (m.part pd) o' := by
  cases o' with
  | inl y => rfl
  | inr o' => exact update_of_ne (fun heq => ho (congrArg Sum.inr heq)) ..

/-- A page in hand becomes the user page `v`. -/
theorem map (h : Space env (e.frame :: hand) m pd) (hv : v < UPAGES)
    (hp : (m.pde pd (v / NPTENTRIES)).present) (hnew : (m.pte pd v).present = false)
    (hpe : e.present) : Space env hand (m.setEntry pd v e) pd ∧
      Step env pd m (m.setEntry pd v e) (update (m.view pd) v (some ⟨e.user, m.page e.frame⟩)) := by
  have hmem : e.frame ∈ e.frame :: hand ++ m.freelist := List.mem_cons_self
  have he : e.frame < WORD / PGSIZE := (h.parts.pool_area hmem).lt
  have hz : m.part pd (.user v) = 0 := by
    show (if v < UPAGES then (m.pte pd v).ref else 0) = 0
    rw [if_pos hv]
    exact if_neg (by rw [hnew]; decide)
  have hstep := h.step_setEntry hv hp he fun _ =>
    h.page_setEntry_pool (upages_lt_vpages hv) hp hmem
  rw [if_pos hpe] at hstep
  refine ⟨h.of_setEntry hv hp he (fun _ => h.parts.pool_ne_zero hmem) ?_, hstep⟩
  refine h.parts.attach (o := .inr (.user v)) hz (fun o' ho' => elim_update _ ho') ?_
  show update (m.part pd) (.user v) e.ref (.user v) = _
  rw [update_self]
  exact if_pos hpe

/-- The user page `v` is taken out. -/
theorem unmap (h : Space env hand m pd) (hv : v < UPAGES) (hp : (m.pde pd (v / NPTENTRIES)).present)
    (hold : (m.pte pd v).present) :
    Space env ((m.pte pd v).frame :: hand) (m.setEntry pd v .zero) pd ∧
      Step env pd m (m.setEntry pd v .zero) (update (m.view pd) v none) := by
  have he : Pte.zero.frame < WORD / PGSIZE := by decide
  have hpv : Sum.elim env (m.part pd) (.inr (.user v)) = (m.pte pd v).frame := part_user hv hold
  refine ⟨h.of_setEntry hv hp he (fun hc => nomatch hc) ?_, h.step_setEntry hv hp he fun hc => nomatch hc⟩
  have hz : Sum.elim env (update (m.part pd) (.user v) Pte.zero.ref) (.inr (.user v)) = 0 :=
    update_self ..
  have hdet := h.parts.detach (hpv ▸ h.user v hv hold) hz fun o' ho' => elim_update _ ho'
  rw [hpv] at hdet
  exact hdet

/-- The permissions of the user page `v` are changed. -/
theorem protect (h : Space env hand m pd) (hv : v < UPAGES)
    (hp : (m.pde pd (v / NPTENTRIES)).present) (hold : (m.pte pd v).present) (hpe : e.present)
    (hframe : e.frame = (m.pte pd v).frame) : Space env hand (m.setEntry pd v e) pd ∧
      Step env pd m (m.setEntry pd v e)
        (update (m.view pd) v (some ⟨e.user, m.page (m.pte pd v).frame⟩)) := by
  have hne := h.user v hv hold
  have he : e.frame < WORD / PGSIZE := hframe ▸ (h.part_managed (part_user hv hold) hne).lt
  have hstep := h.step_setEntry hv hp he fun _ =>
    hframe ▸ h.page_setEntry_user (upages_lt_vpages hv) hp hv hold
  rw [if_pos hpe, hframe] at hstep
  refine ⟨h.of_setEntry hv hp he (fun _ => hframe ▸ hne) ?_, hstep⟩
  have href : e.ref = m.part pd (.user v) := (if_pos hpe).trans (hframe.trans (part_user hv hold).symm)
  rw [href, Function.update_eq_self]
  exact h.parts

end Space

/-- The memory with the empty page table `f` for entry `i` of the page directory. -/
def Mem.addTable (m : Mem) (pd i f : ℕ) : Mem :=
  (m.put f (.fill 0)).put pd (((m.put f (.fill 0)).page pd).setPte i ⟨f, true, true, true⟩)

/-- From `m` to `m'` page tables were added: every entry is the same, where one that is not there
counts as `0`. -/
structure Grown (env : ι → ℕ) (hand : List ℕ) (pd i : ℕ) (m m' : Mem) : Prop where
  /-- The pages of others. -/
  kept : Kept env m m'
  /-- The pages in hand. -/
  hand : ∀ f ∈ hand, m'.page f = m.page f
  /-- What the program sees. -/
  view : m'.view pd = m.view pd
  /-- The entries. -/
  pte : ∀ v < VPAGES, m'.pte pd v = m.pte pd v
  /-- The other page tables. -/
  walk : ∀ v < VPAGES, v / NPTENTRIES ≠ i → m'.walk pd v = m.walk pd v

theorem Grown.refl (env : ι → ℕ) (hand : List ℕ) (pd i : ℕ) (m : Mem) : Grown env hand pd i m m :=
  ⟨.refl env m, fun _ _ => rfl, rfl, fun _ _ => rfl, fun _ _ _ => rfl⟩

/-- Page tables of user memory do not matter for the kernel. -/
theorem Grown.step (h : Grown env hand pd (v / NPTENTRIES) m m') (hv : v < UPAGES) :
    Step env pd m m' (m.view pd) := by
  refine ⟨h.kept, h.view, fun k hk hk' => h.walk k hk' ?_⟩
  simp only [UPAGES, KERNBASE, PGSIZE, NPTENTRIES] at *
  omega

theorem page_addTable (hkf : k ≠ f) (hkd : k ≠ pd) : (m.addTable pd i f).page k = m.page k := by
  unfold Mem.addTable
  rw [page_put_of_ne hkd, page_put_of_ne hkf]

namespace Space

section Table

variable (h : Space env (f :: hand) m pd)
include h

theorem pde_addTable (k : ℕ) :
    (m.addTable pd i f).pde pd k = if k = i then ⟨f, true, true, true⟩ else m.pde pd k := by
  have hmem : f ∈ f :: hand ++ m.freelist := List.mem_cons_self
  have hne : pd ≠ f := h.pool_ne hmem part_dir
  have hpage : (m.addTable pd i f).page pd = (m.page pd).setPte i ⟨f, true, true, true⟩ := by
    unfold Mem.addTable
    rw [page_put_self, page_put_of_ne hne]
  unfold Mem.pde
  rw [hpage]
  by_cases hk : k = i
  · rw [if_pos hk, hk, Page.pte_setPte_self _ _ (h.parts.pool_area hmem).lt]
  · rw [if_neg hk, Page.pte_setPte_of_ne _ _ hk]

theorem walk_addTable (hv : v < VPAGES) : (m.addTable pd i f).walk pd v =
    if v / NPTENTRIES = i then some .zero else m.walk pd v := by
  have hmem : f ∈ f :: hand ++ m.freelist := List.mem_cons_self
  have hne : pd ≠ f := h.pool_ne hmem part_dir
  unfold Mem.walk
  rw [h.pde_addTable]
  by_cases hvi : v / NPTENTRIES = i
  · have hpage : (m.addTable pd i f).page f = .fill 0 := by
      unfold Mem.addTable
      rw [page_put_of_ne (Ne.symm hne), page_put_self]
    rw [if_pos hvi, if_pos rfl, if_pos hvi, hpage, Page.pte_fill_zero]
  · rw [if_neg hvi, if_neg hvi]
    by_cases hp : (m.pde pd (v / NPTENTRIES)).present
    · have hlt := div_lt_npdentries hv
      have hpart := part_table hlt hp
      rw [if_pos hp, if_pos hp, page_addTable (h.pool_ne hmem hpart)
        (h.part_ne hpart part_dir (h.table _ hlt hp) (by nofun))]
    · rw [if_neg hp, if_neg hp]

/-- A page in hand becomes a page table. -/
theorem addTable (hi : i < NPDENTRIES) (hnew : (m.pde pd i).present = false) : Space env hand (m.addTable pd i f) pd ∧
    Grown env hand pd i m (m.addTable pd i f) := by
  have hmem : f ∈ f :: hand ++ m.freelist := List.mem_cons_self
  have hf0 := h.parts.pool_ne_zero hmem
  have hpd : pd ≠ f := h.pool_ne hmem part_dir
  have hpte : ∀ v < VPAGES, (m.addTable pd i f).pte pd v = m.pte pd v := by
    intro v hv
    unfold Mem.pte
    rw [h.walk_addTable hv]
    by_cases hvi : v / NPTENTRIES = i
    · have hnone : m.walk pd v = none := if_neg (by rw [hvi, hnew]; decide)
      rw [if_pos hvi, hnone]
      rfl
    · rw [if_neg hvi]
  have hz : m.part pd (.table i) = 0 := by
    show (if i < NPDENTRIES then (m.pde pd i).ref else 0) = 0
    rw [if_pos hi]
    exact if_neg (by rw [hnew]; decide)
  have hpart : (m.addTable pd i f).part pd = update (m.part pd) (.table i) f := by
    funext o
    cases o with
    | dir => rfl
    | table k =>
      by_cases hk : k = i
      · rw [hk, update_self]
        show (if i < NPDENTRIES then _ else _) = _
        rw [if_pos hi, h.pde_addTable, if_pos rfl]
        rfl
      · rw [update_of_ne fun heq => hk (Part.table.inj heq)]
        show (if k < NPDENTRIES then _ else _) = if k < NPDENTRIES then _ else _
        rw [h.pde_addTable, if_neg hk]
    | user v =>
      rw [update_of_ne (by nofun)]
      show (if v < UPAGES then _ else _) = if v < UPAGES then _ else _
      by_cases hv : v < UPAGES
      · rw [if_pos hv, if_pos hv, hpte v (upages_lt_vpages hv)]
      · rw [if_neg hv, if_neg hv]
  refine ⟨⟨?_, h.dir, fun k hk hp => ?_, fun v hv => ?_⟩, ⟨⟨rfl, fun x hx => ?_⟩, fun g hg => ?_, ?_,
    hpte, fun v hv hvi => ?_⟩⟩
  · refine h.parts.attach (o := .inr (.table i)) hz (fun o' ho' => ?_) ?_
    · rw [hpart]
      exact elim_update _ ho'
    · rw [hpart]
      exact update_self ..
  · rw [h.pde_addTable] at hp ⊢
    by_cases hki : k = i
    · rw [if_pos hki]
      exact hf0
    · rw [if_neg hki] at hp ⊢
      exact h.table k hk hp
  · rw [hpte v (upages_lt_vpages hv)]
    exact h.user v hv
  · exact page_addTable (h.pool_ne_env hmem x) (h.env_ne hx part_dir)
  · have hnd := (List.nodup_cons.mp (List.nodup_append.mp h.parts.own.nodup).1).1
    refine page_addTable ?_ ?_
    · rintro rfl
      exact hnd hg
    · exact (h.pool_ne (List.mem_append_left _ (List.mem_cons_of_mem _ hg)) part_dir).symm
  · refine view_congr (fun v hv => hpte v (upages_lt_vpages hv)) fun v hv hp => ?_
    exact page_addTable (h.pool_ne hmem (part_user hv hp))
      (h.part_ne (part_user hv hp) part_dir (h.user v hv hp) (by nofun))
  · rw [h.walk_addTable hv, if_neg hvi]

end Table

/-- `kalloc` hands out a page. -/
theorem take (h : Space env hand m pd) {fs : List ℕ} (hfree : m.freelist = f :: fs) :
    Space env (f :: hand) { m with freelist := fs } pd := by
  refine ⟨h.parts.perm ?_, h.dir, h.table, h.user⟩
  rw [hfree]
  exact List.perm_middle.symm

/-- `kfree` takes a page back. -/
theorem free (h : Space env (f :: hand) m pd) :
    Space env hand (m.free f) pd ∧ Step env pd m (m.free f) (m.view pd) := by
  obtain ⟨hspace, hstep, -⟩ := h.put_pool (List.mem_append_left _ List.mem_cons_self) (.fill 1)
  exact ⟨⟨hspace.parts.perm List.perm_middle, hspace.dir, hspace.table, hspace.user⟩,
    ⟨⟨hstep.kept.ld, hstep.kept.page⟩, hstep.view, hstep.kernel⟩⟩

/-- A page directory of zeroes is an address space. -/
theorem empty (hzero : m.page pd = .fill 0) (hpd : pd ≠ 0)
    (hparts : Parted (Sum.elim env fun o : Part => if o = .dir then pd else 0)
      (hand ++ m.freelist) m.ld.Managed) :
    Space env hand m pd ∧ (∀ i, m.pde pd i = .zero) ∧ ∀ v, m.walk pd v = none := by
  have hpde : ∀ i, m.pde pd i = .zero := by
    intro i
    unfold Mem.pde
    rw [hzero, Page.pte_fill_zero]
  have hwalk : ∀ v, m.walk pd v = none := fun v => if_neg (by rw [hpde]; decide)
  have hpart : m.part pd = fun o => if o = .dir then pd else 0 := by
    funext o
    cases o with
    | dir => rfl
    | table i =>
      show (if i < NPDENTRIES then (m.pde pd i).ref else 0) = 0
      rw [hpde]
      exact ite_self 0
    | user v =>
      show (if v < UPAGES then (m.pte pd v).ref else 0) = 0
      rw [pte_of_not_walk (hwalk v)]
      exact ite_self 0
  refine ⟨⟨hpart ▸ hparts, hpd, fun i _ hp => ?_, fun v _ hp => ?_⟩, hpde, hwalk⟩
  · rw [hpde] at hp
    exact nomatch hp
  · rw [pte_of_not_walk (hwalk v)] at hp
    exact nomatch hp

end Space

end ChronoFS.Vm
