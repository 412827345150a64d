import ChronoFS.Vm.Kvm

/-!
# Writing to user memory

`loaduvm` reads a segment of a file into the pages of an address space, and `copyout` copies bytes of the
kernel there. Both go page by page; together the passes write one range of addresses (`Wrote`).
-/

namespace ChronoFS.Vm

open Function

variable {ι : Type*} {env : ι → ℕ} {hand : List ℕ} {m m' : Mem} {pd i j k v va n : ℕ}
  {p : Page} {E : Panic → Mem → Prop} {view view' view'' : ℕ → Option UserPage} {f : ℕ → UInt8}

/-! ## Bytes -/

/-- The byte at the user address `a`, if its page is present. -/
def byteOf (view : ℕ → Option UserPage) (a : ℕ) : Option UInt8 :=
  (view (a / PGSIZE)).map fun x => x.page.byte (a % PGSIZE)

/-- From `view` to `view'` the `n` bytes `f` were written to `va`. -/
structure Wrote (view view' : ℕ → Option UserPage) (va n : ℕ) (f : ℕ → UInt8) : Prop where
  /-- The same pages are present, with the same permissions. -/
  user : ∀ k, (view' k).map (·.user) = (view k).map (·.user)
  /-- The bytes. -/
  byte : ∀ a, byteOf view' a =
    if va ≤ a ∧ a < va + n then (byteOf view a).map fun _ => f (a - va) else byteOf view a

theorem Wrote.refl (view : ℕ → Option UserPage) (va : ℕ) (f : ℕ → UInt8) : Wrote view view va 0 f :=
  ⟨fun _ => rfl, fun _ => (if_neg (by omega)).symm⟩

/-- Two ranges that follow each other. -/
theorem Wrote.append (h : Wrote view view' va n f)
    (h' : Wrote view' view'' (va + n) k fun j => f (n + j)) : Wrote view view'' va (n + k) f := by
  refine ⟨fun k => (h'.user k).trans (h.user k), fun a => ?_⟩
  rw [h'.byte, h.byte]
  by_cases h1 : va ≤ a ∧ a < va + n
  · rw [if_neg (by omega), if_pos h1, if_pos (by omega)]
  · rw [if_neg h1]
    by_cases h2 : va + n ≤ a ∧ a < va + n + k
    · have hidx : n + (a - (va + n)) = a - va := by omega
      rw [if_pos h2, if_pos (by omega), hidx]
    · rw [if_neg h2, if_neg (by omega)]

theorem Wrote.congr {g : ℕ → UInt8} (h : Wrote view view' va n f) (hfg : ∀ j < n, f j = g j) :
    Wrote view view' va n g := by
  refine ⟨h.user, fun a => ?_⟩
  rw [h.byte]
  by_cases ha : va ≤ a ∧ a < va + n
  · rw [if_pos ha, if_pos ha, hfg _ (by omega)]
  · rw [if_neg ha, if_neg ha]

/-- Bytes of one page are written. -/
theorem wrote_put {x : UserPage} {off : ℕ} (hx : view v = some x) (hoff : off + n ≤ PGSIZE)
    (f : ℕ → UInt8) :
    Wrote view (update view v (some { x with page := x.page.put off n f })) (v * PGSIZE + off) n f := by
  refine ⟨fun k => ?_, fun a => ?_⟩
  · by_cases hk : k = v
    · rw [hk, update_self, hx]
      rfl
    · rw [update_of_ne hk]
  · have hdiv := Nat.div_add_mod a PGSIZE
    have hmod := Nat.mod_lt a (y := PGSIZE) (by decide)
    unfold byteOf
    by_cases ha : a / PGSIZE = v
    · rw [ha, update_self, hx]
      show some (if off ≤ a % PGSIZE ∧ a % PGSIZE < off + n then f (a % PGSIZE - off) else _) = _
      rw [ha] at hdiv
      by_cases hr : off ≤ a % PGSIZE ∧ a % PGSIZE < off + n
      · have hidx : a % PGSIZE - off = a - (v * PGSIZE + off) := by
          rw [Nat.mul_comm] at hdiv
          omega
        rw [if_pos hr, if_pos (by rw [Nat.mul_comm] at hdiv; omega), hidx]
        rfl
      · rw [if_neg hr, if_neg (by rw [Nat.mul_comm] at hdiv; omega)]
        rfl
    · rw [update_of_ne ha, if_neg]
      simp only [PGSIZE] at *
      omega

/-! ## `loaduvm` and `clearpteu` -/

/-- `walkpgdir` finds the entry of a page that is present. -/
theorem wp_walkpgdir_user {Q : Option (ℕ × ℕ) → Mem → Prop} {x : UserPage} (hx : m.view pd v = some x)
    (hv : va / PGSIZE = v)
    (hsome : (m.pde pd (v / NPTENTRIES)).present →
      (m.page (m.pde pd (v / NPTENTRIES)).frame).pte (v % NPTENTRIES) = m.pte pd v →
      Q (some ((m.pde pd (v / NPTENTRIES)).frame, v % NPTENTRIES)) m) :
    wp (walkpgdir pd va false) Q E m := by
  obtain ⟨hlt, hp, -⟩ := exists_of_view hx
  have hva : va < WORD := by
    simp only [UPAGES, KERNBASE, PGSIZE, WORD] at *
    omega
  refine wp_walkpgdir_false hva hv (fun hnone => ?_) fun hpde hwalk => ?_
  · rw [pte_of_not_walk hnone] at hp
    exact nomatch hp
  · exact hsome hpde (pte_of_walk hwalk).symm

/-- What `readi` copies, if it is all that was asked for. -/
theorem readi_all {ip : File} {off : ℕ} {bytes : List UInt8} (h : readi ip off n = some bytes)
    (hlen : bytes.length = n) :
    off + n ≤ ip.bytes.length ∧ ∀ j < n, bytes.getD j 0 = ip.bytes.getD (off + j) 0 := by
  unfold readi at h
  split at h
  · exact nomatch h
  · rename_i hoff
    obtain rfl := Option.some.inj h
    rw [List.length_take, List.length_drop] at hlen
    refine ⟨by omega, fun j hj => ?_⟩
    rw [List.getD_eq_getElem?_getD, List.getD_eq_getElem?_getD, List.getElem?_take_of_lt hj,
      List.getElem?_drop]

/-- The loop of `loaduvm`, for a segment at page `v`, after `k` pages. -/
theorem Space.wp_loadLoop {Q : ℤ → Mem → Prop} {ip : File} {offset sz left : ℕ}
    (h : Space env hand m pd) (hend : v * PGSIZE + sz ≤ KERNBASE) (hoff : offset < WORD)
    (hleft : left = pages (sz - k * PGSIZE))
    (hread : k * PGSIZE < sz → k = 0 ∨ offset + k * PGSIZE ≤ ip.bytes.length)
    (hpresent : ∀ u, v + k ≤ u → u * PGSIZE < v * PGSIZE + sz → (m.view pd u).isSome)
    (hfail : ∀ m', Space env hand m' pd → Kept env m m' → Q (-1) m')
    (hok : ∀ m', Space env hand m' pd → Step env pd m m' (m'.view pd) →
      (k * PGSIZE < sz → offset + sz ≤ ip.bytes.length) →
      Wrote (m.view pd) (m'.view pd) ((v + k) * PGSIZE) (sz - k * PGSIZE)
        (fun j => ip.bytes.getD (offset + k * PGSIZE + j) 0) → Q 0 m') :
    wp (loadLoop pd (v * PGSIZE) ip offset sz left (k * PGSIZE)) Q E m := by
  induction left generalizing k m with
  | zero =>
    have hdone : sz - k * PGSIZE = 0 := by
      unfold pages at hleft
      simp only [PGSIZE] at *
      omega
    refine hok m h (.refl ..) (fun hlt => by omega) ?_
    rw [hdone]
    exact .refl ..
  | succ left ih =>
    have hlt : k * PGSIZE < sz := by
      by_contra hge
      have hz : sz - k * PGSIZE = 0 := by omega
      rw [hz] at hleft
      exact nomatch hleft
    have hva : (v * PGSIZE + k * PGSIZE) % WORD = (v + k) * PGSIZE := by
      simp only [KERNBASE, WORD, PGSIZE] at hend hlt ⊢
      omega
    have hidx : (offset + k * PGSIZE) % WORD = offset + k * PGSIZE := by
      refine Nat.mod_eq_of_lt ?_
      rcases hread hlt with rfl | hle
      · rw [Nat.zero_mul]
        exact hoff
      · exact hle.trans_lt ip.small
    obtain ⟨x, hx⟩ := Option.isSome_iff_exists.mp (hpresent (v + k) le_rfl (by
      rw [Nat.add_mul]
      exact Nat.add_lt_add_left hlt _))
    obtain ⟨-, -, hxe⟩ := exists_of_view hx
    unfold loadLoop
    rw [hva, hidx, wp_bind]
    refine wp_walkpgdir_user hx (Nat.mul_div_cancel _ (by decide)) fun _ hentry => ?_
    show wp (getPte _ >>= _) Q E m
    rw [wp_bind, wp_getPte, hentry]
    dsimp only
    cases hbytes : readi ip (offset + k * PGSIZE) (min (sz - k * PGSIZE) PGSIZE) with
    | none => exact hfail m h (.refl ..)
    | some bytes =>
      have hmin : bytes.length ≤ PGSIZE := by
        unfold readi at hbytes
        split at hbytes
        · exact nomatch hbytes
        · obtain rfl := Option.some.inj hbytes
          exact (List.length_take_le ..).trans (min_le_right ..)
      obtain ⟨h1, hstep, -⟩ := h.put_user hx ((m.page (m.pte pd (v + k)).frame).put 0 bytes.length
        fun j => bytes.getD j 0)
      show wp (getPage _ >>= _) Q E m
      rw [wp_bind, wp_getPage, wp_bind, wp_setPage]
      generalize m.put (m.pte pd (v + k)).frame _ = m1 at h1 hstep
      by_cases hlen : bytes.length = min (sz - k * PGSIZE) PGSIZE
      · obtain ⟨hfile, hget⟩ := readi_all hbytes hlen
        have hwrote : Wrote (m.view pd) (m1.view pd) ((v + k) * PGSIZE) bytes.length
            (fun j => ip.bytes.getD (offset + k * PGSIZE + j) 0) := by
          have hput := wrote_put hx (show 0 + bytes.length ≤ PGSIZE by omega) fun j => bytes.getD j 0
          rw [hstep.view]
          rw [hxe, Nat.add_zero] at hput
          rw [hxe]
          exact hput.congr fun j hj => hget j (hlen ▸ hj)
        have hsame : ∀ u, (m1.view pd u).isSome = (m.view pd u).isSome := fun u => by
          have huser := congrArg Option.isSome (hwrote.user u)
          rw [Option.isSome_map, Option.isSome_map] at huser
          exact huser
        have hnext : k * PGSIZE + PGSIZE = (k + 1) * PGSIZE := by
          simp only [PGSIZE]
          omega
        rw [if_neg (not_not.mpr hlen), hnext]
        refine ih h1 ?_ (fun hlt' => .inr ?_) (fun u hu hu' => ?_)
          (fun m2 h2 hkept => hfail m2 h2 (hstep.kept.trans hkept)) fun m2 h2 hstep2 hfile2 hwrote2 => ?_
        · unfold pages at hleft ⊢
          simp only [PGSIZE] at *
          omega
        · simp only [PGSIZE] at *
          omega
        · rw [hsame u]
          exact hpresent u (by omega) hu'
        · refine hok m2 h2 (hstep.trans hstep2) (fun _ => ?_) ?_
          · by_cases hlast : (k + 1) * PGSIZE < sz
            · exact hfile2 hlast
            · simp only [PGSIZE] at *
              omega
          · -- the two ranges follow each other, or the second one is empty
            by_cases hlast : (k + 1) * PGSIZE < sz
            · have hn : bytes.length = PGSIZE := by
                simp only [PGSIZE] at *
                omega
              have hrest : sz - k * PGSIZE = bytes.length + (sz - (k + 1) * PGSIZE) := by
                simp only [PGSIZE] at *
                omega
              have hstart : (v + (k + 1)) * PGSIZE = (v + k) * PGSIZE + bytes.length := by
                simp only [PGSIZE] at *
                omega
              rw [hstart] at hwrote2
              rw [hrest]
              refine hwrote.append (hwrote2.congr fun j _ => congrArg (ip.bytes.getD · 0) ?_)
              simp only [PGSIZE] at *
              omega
            · have hrest : sz - (k + 1) * PGSIZE = 0 := by omega
              have hn : bytes.length = sz - k * PGSIZE := by
                simp only [PGSIZE] at *
                omega
              rw [hrest] at hwrote2
              rw [← hn]
              exact hwrote.append (k := 0) ⟨hwrote2.user, fun a => by
                rw [hwrote2.byte, if_neg (by omega), if_neg (by omega)]⟩
      · rw [if_pos hlen]
        exact hfail m1 h1 hstep.kept

/-- `loaduvm` of a segment whose pages are present loads it, or the file is too short. -/
theorem Space.wp_loaduvm {Q : ℤ → Mem → Prop} {ip : File} {offset sz : ℕ}
    (h : Space env hand m pd) (hend : v * PGSIZE + sz ≤ KERNBASE) (hoff : offset < WORD)
    (hpresent : ∀ u, v ≤ u → u * PGSIZE < v * PGSIZE + sz → (m.view pd u).isSome)
    (hfail : ∀ m', Space env hand m' pd → Kept env m m' → Q (-1) m')
    (hok : ∀ m', Space env hand m' pd → Step env pd m m' (m'.view pd) →
      (0 < sz → offset + sz ≤ ip.bytes.length) →
      Wrote (m.view pd) (m'.view pd) (v * PGSIZE) sz (fun j => ip.bytes.getD (offset + j) 0) →
      Q 0 m') : wp (loaduvm pd (v * PGSIZE) ip offset sz) Q E m := by
  have haligned : ¬ (v * PGSIZE % PGSIZE ≠ 0) := not_not.mpr (Nat.mul_mod_left ..)
  have hstart : (0 : ℕ) = 0 * PGSIZE := (Nat.zero_mul _).symm
  unfold loaduvm
  rw [if_neg haligned, hstart]
  refine h.wp_loadLoop hend hoff ?_ (fun _ => .inl rfl) hpresent hfail fun m' h' hstep hfile hwrote => ?_
  · rw [Nat.zero_mul]
    rfl
  · rw [Nat.zero_mul] at hfile hwrote
    exact hok m' h' hstep hfile hwrote

/-- `clearpteu` makes a page inaccessible. -/
theorem Space.wp_clearpteu {Q : Unit → Mem → Prop} {x : UserPage} (h : Space env hand m pd)
    (hx : m.view pd v = some x)
    (hok : ∀ m', Space env hand m' pd →
      Step env pd m m' (update (m.view pd) v (some { x with user := false })) → Q () m') :
    wp (clearpteu pd (v * PGSIZE)) Q E m := by
  obtain ⟨hv, hp, hxe⟩ := exists_of_view hx
  unfold clearpteu
  rw [wp_bind]
  refine wp_walkpgdir_user hx (Nat.mul_div_cancel _ (by decide)) fun hpde hentry => ?_
  show wp (getPte _ >>= _) Q E m
  rw [wp_bind, wp_getPte, wp_setPte, hentry]
  obtain ⟨h', hstep⟩ := h.protect (e := { m.pte pd v with user := false }) hv hpde hp hp rfl
  refine hok _ h' ?_
  rw [hxe]
  exact hstep

/-! ## `copyout` -/

/-- `uva2ka` follows the entry of the address, and reads it even if there is none. -/
theorem wp_uva2ka {Q : Option ℕ → Mem → Prop} (hva : va < WORD) (hv : va / PGSIZE = v)
    (hmissing : m.walk pd v = none → E .nullPte m)
    (hnone : (m.walk pd v).isSome → (m.pte pd v).present = false ∨ (m.pte pd v).user = false →
      Q none m)
    (hsome : (m.pte pd v).present → (m.pte pd v).user → Q (some (m.pte pd v).frame) m) :
    wp (uva2ka pd va) Q E m := by
  unfold uva2ka
  rw [wp_bind]
  refine wp_walkpgdir_false hva hv (fun hwalk => hmissing hwalk) fun hpde hwalk => ?_
  have hentry := (pte_of_walk hwalk).symm
  have hthere : (m.walk pd v).isSome := by
    rw [hwalk]
    rfl
  show wp (getPte _ >>= _) Q E m
  rw [wp_bind, wp_getPte, hentry]
  cases hp : (m.pte pd v).present with
  | false => exact hnone hthere (.inl hp)
  | true =>
    rw [if_neg (by decide)]
    cases hu : (m.pte pd v).user with
    | false => exact hnone hthere (.inr hu)
    | true => exact hsome hp hu

/-- One pass of `copyout` on a page that the program may use. -/
theorem Space.wp_copyPass {Q : ℤ → Mem → Prop} {x : UserPage} {fuel off : ℕ} {buf : List UInt8}
    (h : Space env hand m pd) (hx : m.view pd v = some x) (hu : x.user) (hoff : off < PGSIZE)
    (hbuf : buf ≠ [])
    (hnext : ∀ m', Space env hand m' pd → Step env pd m m' (m'.view pd) →
      Wrote (m.view pd) (m'.view pd) (v * PGSIZE + off) (min (PGSIZE - off) buf.length)
        (fun j => buf.getD j 0) →
      wp (copyoutLoop pd fuel ((v + 1) * PGSIZE) (buf.drop (min (PGSIZE - off) buf.length))) Q E m') :
    wp (copyoutLoop pd (fuel + 1) (v * PGSIZE + off) buf) Q E m := by
  obtain ⟨hv, hp, hxe⟩ := exists_of_view hx
  have hdown : PGROUNDDOWN (v * PGSIZE + off) = v * PGSIZE := by
    unfold PGROUNDDOWN
    simp only [PGSIZE] at *
    omega
  have hva : v * PGSIZE < WORD := by
    simp only [UPAGES, KERNBASE, PGSIZE, WORD] at *
    omega
  have hsucc : (v * PGSIZE + PGSIZE) % WORD = (v + 1) * PGSIZE := by
    simp only [UPAGES, KERNBASE, PGSIZE, WORD] at *
    omega
  have hmiss : ¬ m.walk pd v = none := fun hnone => by
    rw [pte_of_not_walk hnone] at hp
    exact nomatch hp
  have huser : (m.pte pd v).user := by
    rw [hxe] at hu
    exact hu
  unfold copyoutLoop
  rw [if_neg hbuf, hdown, wp_bind]
  refine wp_uva2ka hva (Nat.mul_div_cancel _ (by decide)) (fun hnone => absurd hnone hmiss)
    (fun _ hno => ?_) fun _ _ => ?_
  · rw [hp, huser] at hno
    exact hno.elim (nomatch ·) (nomatch ·)
  · obtain ⟨h1, hstep, -⟩ := h.put_user hx ((m.page (m.pte pd v).frame).put off
      (min (PGSIZE - off) buf.length) fun j => buf.getD j 0)
    show wp (getPage _ >>= _) Q E m
    rw [wp_bind, wp_getPage, wp_bind, wp_setPage, hsucc, Nat.add_sub_cancel_left]
    refine hnext _ h1 (hstep.trans (.refl ..)) ?_
    have hput := wrote_put hx (show off + min (PGSIZE - off) buf.length ≤ PGSIZE by omega)
      fun j => buf.getD j 0
    rw [hstep.view]
    rw [hxe] at hput ⊢
    exact hput

/-- `copyout` within a page that the program may use. -/
theorem Space.wp_copyout {Q : ℤ → Mem → Prop} {x : UserPage} {off : ℕ} {buf : List UInt8}
    (h : Space env hand m pd) (hx : m.view pd v = some x) (hu : x.user)
    (hlen : off + buf.length ≤ PGSIZE)
    (hok : ∀ m', Space env hand m' pd → Step env pd m m' (m'.view pd) →
      Wrote (m.view pd) (m'.view pd) (v * PGSIZE + off) buf.length (fun j => buf.getD j 0) →
      Q 0 m') : wp (copyout pd (v * PGSIZE + off) buf) Q E m := by
  unfold copyout
  cases buf with
  | nil => exact hok m h (.refl ..) (.refl ..)
  | cons b bs =>
    rw [List.length_cons] at hlen
    have hmin : min (PGSIZE - off) (b :: bs).length = (b :: bs).length := by
      rw [List.length_cons]
      omega
    refine h.wp_copyPass hx hu (by omega) (by nofun) fun m' h' hstep hwrote => ?_
    rw [hmin] at hwrote
    rw [hmin, List.drop_length]
    -- nothing is left to copy, whatever the number of passes
    have hdone : ∀ fuel va, copyoutLoop pd fuel va [] = pure 0 := by
      intro fuel va
      cases fuel with
      | zero => rfl
      | succ fuel => exact if_pos rfl
    rw [hdone]
    exact hok m' h' hstep hwrote

/-- `copyout` that comes to a page that the program may not use fails. -/
theorem Space.wp_copyoutLoop_guard {Q : ℤ → Mem → Prop} {y : UserPage} {fuel g : ℕ} {buf : List UInt8}
    (h : Space env hand m pd) (hg : m.view pd g = some y) (hy : y.user = false)
    (hbelow : ∀ u < g, (m.view pd u).isSome) (hva : va / PGSIZE ≤ g) (hbuf : buf ≠ [])
    (hend : g * PGSIZE < va + buf.length) (hfuel : buf.length ≤ fuel)
    (hfail : ∀ m', Space env hand m' pd → Kept env m m' → Q (-1) m') :
    wp (copyoutLoop pd fuel va buf) Q E m := by
  induction fuel generalizing va buf m y with
  | zero => exact absurd (List.length_eq_zero_iff.mp (by omega)) hbuf
  | succ fuel ih =>
    have hpos : 0 < buf.length := List.length_pos_iff.mpr hbuf
    have hdiv : va = va / PGSIZE * PGSIZE + va % PGSIZE := by
      rw [Nat.mul_comm]
      exact (Nat.div_add_mod ..).symm
    have hmod : va % PGSIZE < PGSIZE := Nat.mod_lt _ (by decide)
    obtain ⟨hgv, hgp, hge⟩ := exists_of_view hg
    have hguser : (m.pte pd g).user = false := by
      rw [hge] at hy
      exact hy
    obtain ⟨x, hx⟩ : ∃ x, m.view pd (va / PGSIZE) = some x := by
      rcases Nat.lt_or_eq_of_le hva with hlt | heq
      · exact Option.isSome_iff_exists.mp (hbelow _ hlt)
      · exact ⟨y, heq ▸ hg⟩
    cases hxu : x.user with
    | false =>
      -- the first page is one of those
      obtain ⟨hv, hp, hxe⟩ := exists_of_view hx
      have huser : (m.pte pd (va / PGSIZE)).user = false := by
        rw [hxe] at hxu
        exact hxu
      have hva0 : va / PGSIZE * PGSIZE < WORD :=
        ((Nat.mul_lt_mul_right (by decide)).mpr hv).trans_le (by decide)
      unfold copyoutLoop
      rw [if_neg hbuf, wp_bind]
      refine wp_uva2ka hva0 (Nat.mul_div_cancel _ (by decide)) (fun hnone => ?_)
        (fun _ _ => hfail m h (.refl ..)) fun _ hu => ?_
      · rw [pte_of_not_walk hnone] at hp
        exact nomatch hp
      · rw [huser] at hu
        exact nomatch hu
    | true =>
      have hlt : va / PGSIZE < g := by
        refine Nat.lt_of_le_of_ne hva fun heq => ?_
        rw [heq, hg] at hx
        obtain rfl := Option.some.inj hx
        rw [hy] at hxu
        exact nomatch hxu
      rw [hdiv]
      refine h.wp_copyPass hx hxu hmod hbuf fun m' h' hstep hwrote => ?_
      have hmin : min (PGSIZE - va % PGSIZE) buf.length = PGSIZE - va % PGSIZE := by
        simp only [PGSIZE] at *
        omega
      have huser := hwrote.user
      obtain ⟨y', hy', hyu⟩ : ∃ y', m'.view pd g = some y' ∧ y'.user = y.user := by
        have hgu := huser g
        rw [hg] at hgu
        exact Option.map_eq_some_iff.mp hgu
      rw [hmin]
      refine ih h' hy' (hyu.trans hy) (fun u hu => ?_) ?_ ?_ ?_ ?_
        fun m2 h2 hkept => hfail m2 h2 (hstep.kept.trans hkept)
      · have hsome := congrArg Option.isSome (huser u)
        rw [Option.isSome_map, Option.isSome_map] at hsome
        rw [hsome]
        exact hbelow u hu
      · rw [Nat.mul_div_cancel _ (by decide)]
        exact hlt
      · refine List.length_pos_iff.mp ?_
        rw [List.length_drop]
        simp only [PGSIZE] at *
        omega
      · rw [List.length_drop]
        simp only [PGSIZE] at *
        omega
      · rw [List.length_drop]
        omega

end ChronoFS.Vm
