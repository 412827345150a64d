import ChronoFS.Spec.Files

/-!
# Reading and writing open files

`fileread` and `filewrite` move the offset of one file by what they read or wrote, so that it stays within
the file. `filewrite` writes a few blocks per operation; `Streamed` is what holds after any number of
passes of its loop.
-/

namespace ChronoFS

open Function

variable {st : Bool} {leak : List Slot} {s s' s'' : Kernel} {m t t' t₀ : Fs} {k : Slot} {f : FileNo}
  {p : ProcNo} {T : ℤ} {lg : ℕ → Dinode} {H : Slot → ℤ × ℤ} {o : UInt32}

/-- Only the offset of a file changes. -/
def Kernel.setOff (s : Kernel) (f : FileNo) (o : UInt32) : Kernel :=
  s.withFile f { s.ftable f with off := o }

theorem setOff_self (s : Kernel) (f : FileNo) : s.setOff f (s.ftable f).off = s := by
  unfold Kernel.setOff Kernel.withFile
  rw [Function.update_eq_self]

theorem setOff_off (s : Kernel) (f : FileNo) (o : UInt32) : ((s.setOff f o).ftable f).off = o := by
  unfold Kernel.setOff
  rw [withFile_self]

theorem setOff_file (s : Kernel) (f f' : FileNo) (o : UInt32) :
    ((s.setOff f o).ftable f').type = (s.ftable f').type ∧
      ((s.setOff f o).ftable f').ref = (s.ftable f').ref ∧
      ((s.setOff f o).ftable f').writable = (s.ftable f').writable ∧
      (f' ≠ f → ((s.setOff f o).ftable f').off = (s.ftable f').off) := by
  by_cases hf : f' = f
  · rw [hf]
    unfold Kernel.setOff
    rw [withFile_self]
    exact ⟨rfl, rfl, rfl, fun h => absurd rfl h⟩
  · unfold Kernel.setOff
    rw [withFile_of_ne _ _ hf]
    exact ⟨rfl, rfl, rfl, fun _ => rfl⟩

theorem KInv.setOff (h : KInv st leak s) (f : FileNo) (o : UInt32) : KInv st leak (s.setOff f o) := by
  refine h.next h.inv h.quiet ?_ (fun f' => ?_) (fun _ _ _ => .refl _) (fun f' k hf => ?_) h.cwd
  · unfold Kernel.setOff
    rw [withFile_fs, withFile_users]
    have : File.holds { s.ftable f with off := o } = (s.ftable f).holds := rfl
    rw [this, sub_add_cancel]
    exact h.hold
  · obtain ⟨htype, href, -, -⟩ := setOff_file s f f' o
    rw [htype, href]
    exact ⟨h.ref f', h.closed f'⟩
  · obtain ⟨htype, -, hw, -⟩ := setOff_file s f f' o
    rw [htype] at hf
    exact .inl ⟨hf, hw⟩

/-- A call that reads or writes file `f`. -/
structure Streamed (st : Bool) (leak : List Slot) (f : FileNo) (s s' : Kernel) : Prop where
  /-- The file system gives everything back. -/
  ran : Ran st [] s.fs s'.fs
  /-- Nothing out of the ordinary happens. -/
  ordinary : Ordinary s.fs.hold s.fs s'.fs
  /-- Only the offset of the file changes. -/
  file : ∃ o, s' = (s.withFs s'.fs).setOff f o
  /-- It stays, or it is within the file. -/
  offs : Offs s s'
  /-- The invariant holds. -/
  inv : KInv st leak s'

namespace Streamed

theorem of_off (h : KInv st leak s) (hr : Ran st [] s.fs t) (hord : Ordinary s.fs.hold s.fs t)
    (ho : ∀ k, (s.ftable f).type = .inode k → (t.icache k).din.type ≠ T_DEV →
      o = (s.ftable f).off ∨ o ≤ (t.icache k).din.size) :
    Streamed st leak f s ((s.withFs t).setOff f o) := by
  refine ⟨hr, hord, ⟨o, rfl⟩, fun f' k hf hdev => ?_, (h.ran hr).setOff f o⟩
  obtain ⟨htype, -, -, hoff⟩ := setOff_file (s.withFs t) f f' o
  rw [htype] at hf
  by_cases hff : f' = f
  · subst hff
    have hself : ((s.withFs t).setOff f' o).ftable f' = { s.ftable f' with off := o } := withFile_self ..
    rw [hself]
    exact (ho k hf hdev).imp (fun heq => ⟨hf, heq⟩) id
  · exact .inl ⟨hf, hoff hff⟩

theorem refl (h : KInv st leak s) (f : FileNo) : Streamed st leak f s s := by
  have hs := of_off (f := f) h (.refl h.inv h.quiet) (.refl _ _) fun _ _ _ => .inl rfl
  have hself : (s.withFs s.fs).setOff f (s.ftable f).off = s := setOff_self s f
  rwa [hself] at hs

theorem plain (h : Streamed st leak f s s') : Plain st leak s s' where
  inv := h.inv
  sb := h.ran.sb
  logSize := h.ran.logSize
  versions := h.ran.versions
  offs := h.offs
  slot := fun k hk _ => h.ran.slot k hk
  unlocked := h.ran.unlocked rfl
  usual := .inl (h.ordinary.anti (common_le_left _ _))

theorem hold (h : Streamed st leak f s s') : s'.fs.hold = s.fs.hold := by
  rw [h.ran.hold, holds_nil, add_zero]

theorem trans (h : Streamed st leak f s s') (h' : Streamed st leak f s' s'') (hs : KInv st leak s) :
    Streamed st leak f s s'' := by
  have hhold := h.hold
  have hr := h.ran
  have hr' := h'.ran
  have hord' := h'.ordinary
  have hslot' := hr'.slot
  rw [hhold] at hord' hslot'
  obtain ⟨o, ho⟩ := h.file
  obtain ⟨o', ho'⟩ := h'.file
  refine ⟨⟨hr'.inv, ?_, hr'.sb.trans hr.sb, hr'.logSize.trans hr.logSize, hr'.quiet,
    hr.versions.trans hr'.versions, fun k hk => (hr.slot k hk).trans (hslot' k hk),
    fun _ => (hr'.unlocked rfl).trans (hr.unlocked rfl)⟩, h.ordinary.trans hord', ⟨o', ?_⟩, ?_, h'.inv⟩
  · rw [h'.hold, hhold, holds_nil, add_zero]
  · rw [ho']
    conv_lhs => rw [ho]
    unfold Kernel.setOff Kernel.withFile Kernel.withFs
    simp
  · -- an offset that the first part moved is within the file, which does not shrink
    intro f' k hf hdev
    have hf' : (s'.ftable f').type = .inode k := by
      rw [ho', (setOff_file ..).1] at hf
      exact hf
    have hf0 : (s.ftable f').type = .inode k := by
      rw [ho, (setOff_file ..).1] at hf'
      exact hf'
    have hlive' := h.inv.live hf'
    have hpos : 0 < (s.fs.hold k).1 := hs.file_pos hf0
    have hdev' : (s'.fs.icache k).din.type ≠ T_DEV := by
      rw [← ((hslot' k hpos).type hlive'.2).2]
      exact hdev
    rcases h'.offs f' k hf hdev with ⟨-, hsame⟩ | hin
    · rw [hsame]
      rcases h.offs f' k hf' hdev' with hfirst | hin
      · exact .inl hfirst
      · exact .inr (UInt32.le_trans hin (hord'.size k hpos hlive'.2).2)
    · exact .inr hin

end Streamed

/-! ## Looking at an inode outside of an operation -/

/-- A call that has given everything back, and logged nothing. -/
theorem At.ran (h : At st none t m [] [] t') (hq : t.Quiet) (hlh : t'.lh = []) : Ran st [] t t' := by
  obtain ⟨lg, hcore⟩ := h.core
  exact ⟨⟨lg, hcore⟩, h.hold, h.calm.sb, h.calm.logSize, ⟨h.calm.outstanding.trans hq.outstanding, hlh⟩,
    h.calm.versions, h.calm.slot, fun _ => h.calm.unlocked⟩

theorem filestat_spec (h : KInv st leak s) :
    wp (filestat f) (fun _ s' => Plain st leak s s') (KHalts T) s := by
  obtain ⟨lg, hcore⟩ := h.inv
  have hself : Plain st leak s s := (Streamed.refl h f).plain
  unfold filestat
  rw [wp_bind, wp_file]
  cases hf : (s.ftable f).type with
  | inode k =>
    have hat := At.start hcore
    dsimp only
    rw [wp_bind, wp_fs]
    refine wp_mono (hat.ilock (T := T) (h.file_pos hf)) ?_ fun _ _ => id
    rintro _ t1 ⟨h1, hpeek1, -⟩
    rw [wp_bind, wp_fs, withFs_fs]
    unfold stati
    rw [wp_bind, wp_uses (h1.audited List.mem_cons_self), wp_bind, wp_inode, wp_pure, wp_bind, wp_fs]
    refine wp_mono (h1.iunlock (T := T)) ?_ fun _ _ => id
    rintro _ t2 ⟨h2, hpeek2⟩
    rw [wp_pure]
    have hran := h2.ran h.quiet (by rw [hpeek2.lh, hpeek1.lh, h.quiet.lh])
    exact h.plain hran (.inl h2.since)
  | pipe | none => exact hself

/-! ## `fileread` -/

/-- The invariant does not depend on the input that is to come. -/
theorem KInv.setIo (h : KInv st leak s) (io : List (Option (List UInt8))) :
    Plain st leak s (s.withFs { s.fs with io }) := by
  obtain ⟨lg, hcore⟩ := h.inv
  refine h.plain ⟨⟨lg, hcore.setIo io⟩, ?_, rfl, rfl, ⟨h.quiet.outstanding, h.quiet.lh⟩,
    List.prefix_rfl, fun _ _ => .refl _, fun _ => rfl⟩ (.inl ⟨fun _ => .inr ⟨rfl, rfl⟩,
    fun _ _ hv => ⟨hv, UInt32.le_refl _⟩, rfl⟩)
  rw [holds_nil, add_zero]
  rfl

theorem pipeIO_spec {Q : Option (List UInt8) → Kernel → Prop} (h : KInv st leak s)
    (hok : ∀ x io, Plain st leak s (s.withFs { s.fs with io }) → Q x (s.withFs { s.fs with io })) :
    wp (liftM pipeIO : KM _) Q (KHalts T) s := by
  rw [wp_fs]
  unfold pipeIO
  rw [wp_bind, wp_get]
  split
  · exact Halt.Benign.khalts ⟨by decide, by decide⟩
  · rw [wp_bind, wp_modify, wp_pure]
    exact hok _ _ (h.setIo _)

/-- The offset after bytes are read or written. -/
theorem toNat_add_ofNat {a b : ℕ} (h : o.toNat + a ≤ b) (hb : b < 2 ^ 32) :
    (o + UInt32.ofNat a).toNat = o.toNat + a := by
  rw [UInt32.toNat_add, UInt32.toNat_ofNat_of_lt' (show a < 2 ^ 32 by omega)]
  exact Nat.mod_eq_of_lt (by omega)

theorem wp_advance {Q : Unit → Kernel → Prop} {E : Halt → Kernel → Prop} {r : Option ℕ}
    (hok : ∀ o, (r = none → o = (s.ftable f).off) →
      (∀ n, r = some n → o = (s.ftable f).off + .ofNat n) → Q () (s.setOff f o)) :
    wp (advance f r) Q E s := by
  cases r with
  | none =>
    have := hok (s.ftable f).off (fun _ => rfl) (by nofun)
    rw [setOff_self] at this
    exact this
  | some n => exact hok _ (by nofun) (by rintro _ ⟨⟩; rfl)

/-- A call can be watched from any point of it. -/
theorem At.mark {refs locks : List Slot} (h : At st none t₀ m refs locks t) :
    At st none t₀ t refs locks t :=
  h.step h.core rfl (Steady.refl _ _).calm

theorem fileread_spec (h : KInv st leak s) (n : UInt32) :
    wp (fileread f n) (fun _ s' => Plain st leak s s') (KHalts T) s := by
  obtain ⟨lg, hcore⟩ := h.inv
  unfold fileread
  rw [wp_bind, wp_file, wp_ite]
  refine ⟨fun _ => (Streamed.refl h f).plain, fun _ => ?_⟩
  cases hf : (s.ftable f).type with
  | pipe =>
    dsimp only
    rw [wp_bind]
    exact pipeIO_spec h fun _ _ hp => hp
  | none => exact Halt.Benign.khalts ⟨by decide, by decide⟩
  | inode k =>
    have hat := At.start hcore
    dsimp only
    rw [wp_bind, wp_fs]
    refine wp_mono (hat.ilock (T := T) (h.file_pos hf)) ?_ fun _ _ => id
    rintro _ t1 ⟨h1, hpeek1, -⟩
    have haud := h1.audited List.mem_cons_self
    have hlh1 : t1.lh = [] := by rw [hpeek1.lh, h.quiet.lh]
    have hout1 : t1.outstanding = 0 := h1.calm.outstanding.trans h.quiet.outstanding
    rw [wp_bind, wp_fs, withFs_fs]
    refine wp_mono (wp_and (h1.mark.readi (T := T) List.mem_cons_self (s.ftable f).off n)
      (wp_and (unlogged_readi k _ _ t1) (readi_length haud))) ?_ fun _ _ he => he.1
    rintro r t2 ⟨⟨h2, hcalm2⟩, hquiet2, hlen⟩
    have hlh2 := (hquiet2 hout1).2
    rw [wp_bind]
    refine wp_advance fun o hnone hsome => ?_
    rw [wp_bind, wp_fs]
    refine wp_mono (h2.iunlock (T := T)) ?_ fun _ _ => id
    rintro _ t3 ⟨h3, hpeek3⟩
    rw [wp_pure]
    have hran := h3.ran h.quiet (by rw [hpeek3.lh, hlh2, hlh1])
    have hlive1 := h1.live k List.mem_cons_self
    have hsize := h3.since.size k (h.file_pos hf) hlive1.2
    refine (Streamed.of_off (f := f) (o := o) h hran (h1.since.trans h3.since) fun k' hk' hdev => ?_).plain
    obtain rfl : k = k' := FdType.inode.inj (hf.symm.trans hk')
    cases r with
    | none => exact .inl (hnone rfl)
    | some bytes =>
      right
      have hdev1 : (t1.icache k).din.type ≠ T_DEV := by
        have hlive2 := h2.live k List.mem_cons_self
        rw [← hcalm2.type hlive1.1 hlive1, ← hpeek3.calm.type hlive2.1 hlive2]
        exact hdev
      have hle := hlen hdev1 bytes rfl
      rw [hsome _ rfl, UInt32.le_iff_toNat_le]
      show ((s.ftable f).off + UInt32.ofNat bytes.length).toNat ≤ _
      rw [toNat_add_ofNat hle (UInt32.toNat_lt _)]
      exact hle.trans (UInt32.le_iff_toNat_le.mp hsize.2)

/-! ## `filewrite` -/

/-- The bytes fit into the file that `f` is for, and the offset is within it. -/
structure Fits (s : Kernel) (f : FileNo) (k : Slot) (len : ℕ) : Prop where
  /-- It is not a device. -/
  type : (s.fs.icache k).din.type ≠ T_DEV
  /-- The offset is within the file. -/
  off : (s.ftable f).off ≤ (s.fs.icache k).din.size
  /-- The end is within the largest file. -/
  le : (s.ftable f).off.toNat + len ≤ MAXFILE * BSIZE

/-- What is left of the bytes fits after a part of them was written. -/
theorem Streamed.fits (hs : Streamed st leak f s s') (h : KInv st leak s)
    (hf : (s.ftable f).type = .inode k) {len rest : ℕ} (hfits : Fits s f k len)
    (hoff : (s'.ftable f).off = (s.ftable f).off + .ofNat len)
    (hrest : (s.ftable f).off.toNat + len + rest ≤ MAXFILE * BSIZE) : Fits s' f k rest := by
  have hlive := h.live hf
  have hslot := (hs.ran.slot k hlive.1).type hlive.2
  have htype : (s'.fs.icache k).din.type ≠ T_DEV := by
    rw [hslot.2]
    exact hfits.type
  obtain ⟨o, ho⟩ := hs.file
  have hf' : (s'.ftable f).type = .inode k := by
    rw [ho, (setOff_file ..).1]
    exact hf
  refine ⟨htype, ?_, ?_⟩
  · rcases hs.offs f k hf' htype with ⟨-, hsame⟩ | hle
    · rw [hsame]
      exact UInt32.le_trans hfits.off (hs.ordinary.size k hlive.1 hlive.2).2
    · exact hle
  · rw [hoff, toNat_add_ofNat hfits.le (by decide)]
    exact hrest

/-- A `writei` that does not start past the end of the file, and does not end past that of the largest,
writes all bytes. -/
theorem writei_some {src : List UInt8} {off : UInt32} (ha : t.Audited k)
    (hdev : (t.icache k).din.type ≠ T_DEV) (hoff : off ≤ (t.icache k).din.size)
    (hle : off.toNat + src.length ≤ MAXFILE * BSIZE) :
    wp (writei k src off) (fun r _ => r = some src.length) (fun _ _ => True) t := by
  have hmax : MAXFILE * BSIZE < 2 ^ 32 := by decide
  have hn : (UInt32.ofNat src.length).toNat = src.length :=
    UInt32.toNat_ofNat_of_lt' (show src.length < 2 ^ 32 by omega)
  have hend : (off + UInt32.ofNat src.length).toNat = off.toNat + src.length :=
    toNat_add_ofNat hle hmax
  have hgood : ¬ (off > (t.icache k).din.size ∨ off + UInt32.ofNat src.length < off) := by
    rw [gt_iff_lt, UInt32.lt_iff_toNat_lt, UInt32.lt_iff_toNat_lt, hend]
    rw [UInt32.le_iff_toNat_le] at hoff
    omega
  unfold writei
  dsimp only
  rw [wp_bind, wp_uses ha, wp_bind, wp_inode, if_neg hdev, if_neg hgood, hend,
    if_neg (Nat.not_lt.mpr hle), wp_bind]
  refine wp_mono wp_true (fun _ _ _ => ?_) fun _ _ _ => trivial
  rw [wp_bind]
  refine wp_mono wp_true (fun _ _ _ => ?_) fun _ _ _ => trivial
  rw [wp_pure, hn]

/-- One pass of the loop of `filewrite`. -/
theorem filewritePass_spec {Q : Bool → Kernel → Prop} {next : Option ℕ → KM Bool} (h : KInv st leak s)
    (hf : (s.ftable f).type = .inode k) (hw : (s.ftable f).writable = true) {src : List UInt8}
    (hlen : src.length < 2 ^ 32)
    (hok : ∀ r s', Streamed st leak f s s' → (Fits s f k src.length → r = some src.length ∧
      (s'.ftable f).off = (s.ftable f).off + .ofNat src.length) → wp (next r) Q (KHalts T) s') :
    wp (do
      liftM beginOp
      liftM (ilock k)
      let ff ← file f
      let r ← liftM (writei k src ff.off)
      advance f r
      liftM (iunlock k)
      liftM endOp
      next r) Q (KHalts T) s := by
  obtain ⟨lg, hcore⟩ := h.inv
  have hat := At.begin hcore
  have hpos := h.file_pos hf
  rw [wp_bind, wp_fs]
  refine wp_beginOp h.quiet ?_
  rw [wp_bind, wp_fs, withFs_fs]
  refine wp_mono (hat.ilock (T := T) hpos) ?_ fun _ _ => id
  rintro _ t1 ⟨h1, hpeek1, -⟩
  have hlive1 := h1.live k List.mem_cons_self
  obtain ⟨lg1, hcore1⟩ := h1.core
  have hdir : (t1.icache k).din.type ≠ T_DIR := by
    have hlive := h.live hf
    rw [hpeek1.calm.type (k := k) hpos hlive]
    exact (h.opened f k hf).2 hw
  rw [wp_bind, wp_file, wp_bind, wp_fs]
  simp only [withFs_fs, withFs_withFs, withFs_ftable]
  have haud := h1.audited List.mem_cons_self
  -- `writei` succeeds if the bytes fit
  have hall : wp (writei k src (s.ftable f).off) (fun r _ => Fits s f k src.length →
      r = some src.length) (fun _ _ => True) t1 := by
    by_cases hfits : Fits s f k src.length
    · obtain ⟨-, hsize⟩ := hpeek1.ordinary.size k hpos (h.live hf).2
      refine wp_mono (writei_some haud ?_ (UInt32.le_trans hfits.off hsize) hfits.le)
        (fun _ _ hr _ => hr) fun _ _ => id
      rw [hpeek1.calm.type (k := k) hpos (h.live hf)]
      exact hfits.type
    · exact wp_mono wp_true (fun _ _ _ hf' => absurd hf' hfits) fun _ _ => id
  refine wp_mono (wp_and (writei_spec (E := Halts T) hcore1 hlive1 haud (fun e s' he => he.halts) hlen
    fun heq => absurd heq hdir) hall) ?_ fun _ _ he => he.1
  rintro r t2 ⟨⟨hkept, hres⟩, hall⟩
  have h2 := h1.mark.kept hkept
  have hlive2 := h2.live k List.mem_cons_self
  rw [wp_bind]
  refine wp_advance fun o hnone hsome => ?_
  rw [wp_bind, wp_fs]
  refine wp_mono (h2.mark.iunlock (T := T)) ?_ fun _ _ => id
  rintro _ t3 ⟨h3, hpeek3⟩
  rw [wp_bind, wp_fs]
  refine h3.endOp fun hran hord => ?_
  have hsize := hord.size k hpos hlive2.2
  refine hok r _ (Streamed.of_off (f := f) (o := o) h hran
    (h1.since.of_setOp.trans (h2.since.trans hord)) fun k' hk' hdev => ?_) fun hfits => ?_
  · obtain rfl : k = k' := FdType.inode.inj (hf.symm.trans hk')
    have hdev1 : (t1.icache k).din.type ≠ T_DEV := by
      rw [← hkept.steady.calm.type hlive1.1 hlive1, ← hpeek3.calm.type hlive2.1 hlive2]
      exact hdev
    rcases hres hdev1 with ⟨hr, -⟩ | ⟨hr, lg2, hwrote⟩
    · exact .inl (hnone hr)
    · right
      have hle := hwrote.size
      have hlt := UInt32.toNat_lt (t2.icache k).din.size
      have hend : (s.ftable f).off.toNat + src.length ≤ (t2.icache k).din.size.toNat := by omega
      rw [hsome _ hr, UInt32.le_iff_toNat_le]
      show ((s.ftable f).off + UInt32.ofNat src.length).toNat ≤ _
      rw [toNat_add_ofNat hend hlt]
      exact hend.trans (UInt32.le_iff_toNat_le.mp hsize.2)
  · have hr := hall hfits
    refine ⟨hr, ?_⟩
    show ((s.setOff f o).ftable f).off = _
    rw [setOff_off, hsome _ hr]
    rfl

theorem filewriteLoop_spec (h : KInv st leak s) (hf : (s.ftable f).type = .inode k)
    (hw : (s.ftable f).writable = true) (bound : ℕ) (src : List UInt8) :
    wp (filewriteLoop f k bound src) (fun done s' => Streamed st leak f s s' ∧
      (Fits s f k src.length → src.length ≤ bound → done = true)) (KHalts T) s := by
  induction bound generalizing s src with
  | zero =>
    cases src with
    | nil => exact ⟨.refl h f, fun _ _ => rfl⟩
    | cons => exact ⟨.refl h f, fun _ hlen => absurd hlen (Nat.not_succ_le_zero _)⟩
  | succ bound ih =>
    cases src with
    | nil => exact ⟨.refl h f, fun _ _ => rfl⟩
    | cons b src =>
      have hlen : ((b :: src).take WRITE_MAX).length < 2 ^ 32 := by
        rw [List.length_take]
        exact lt_of_le_of_lt (Nat.min_le_left ..) (by decide)
      refine filewritePass_spec h hf hw hlen fun r s' hs hpass => ?_
      obtain ⟨o, ho⟩ := hs.file
      obtain ⟨htype, -, hw', -⟩ := setOff_file (s.withFs s'.fs) f f o
      rw [← ho] at htype hw'
      -- a part of the bytes fits if they all do
      have hpart : Fits s f k (b :: src).length → Fits s f k ((b :: src).take WRITE_MAX).length := by
        intro hfits
        refine ⟨hfits.type, hfits.off, le_trans ?_ hfits.le⟩
        exact Nat.add_le_add_left (List.length_take_le' _ _) _
      cases r with
      | none => exact ⟨hs, fun hfits _ => nomatch (hpass (hpart hfits)).1⟩
      | some n =>
        rw [wp_ite]
        refine ⟨fun _ => Halt.Benign.khalts ⟨by decide, by decide⟩, fun _ => ?_⟩
        refine wp_mono (ih hs.inv (htype.trans hf) (hw'.trans hw) _) ?_ fun _ _ => id
        rintro done s'' ⟨hs', hdone⟩
        refine ⟨hs.trans hs' h, fun hfits hbound => hdone ?_ ?_⟩
        · exact hs.fits h hf (hpart hfits) (hpass (hpart hfits)).2 (by
            have hsum := congrArg List.length (List.take_append_drop WRITE_MAX (b :: src))
            rw [List.length_append] at hsum
            have := hfits.le
            omega)
        · rw [List.length_drop]
          rw [List.length_cons] at hbound ⊢
          have : 0 < WRITE_MAX := by decide
          omega

theorem filewrite_spec (h : KInv st leak s) (src : List UInt8) :
    wp (filewrite f src) (fun r s' => Plain st leak s s' ∧ ∀ k, (s.ftable f).type = .inode k →
      (s'.ftable f).type = .inode k ∧ ((s.ftable f).writable = true → Fits s f k src.length →
        r = some src.length)) (KHalts T) s := by
  unfold filewrite
  rw [wp_bind, wp_file, wp_ite]
  constructor
  · intro hr
    refine ⟨(Streamed.refl h f).plain, fun k hf => ⟨hf, fun hw => ?_⟩⟩
    rw [hw] at hr
    nomatch hr
  intro hw
  rw [Bool.not_eq_true, Bool.not_eq_false'] at hw
  cases hf : (s.ftable f).type with
  | pipe =>
    dsimp only
    rw [wp_bind]
    exact pipeIO_spec h fun _ _ hp => ⟨hp, by nofun⟩
  | none => exact Halt.Benign.khalts ⟨by decide, by decide⟩
  | inode k =>
    dsimp only
    rw [wp_bind]
    refine wp_mono (filewriteLoop_spec h hf hw _ src) ?_ fun _ _ => id
    rintro done s' ⟨hs, hdone⟩
    rw [wp_pure]
    refine ⟨hs.plain, fun k' hk' => ⟨?_, fun _ hfits => ?_⟩⟩
    · obtain ⟨o, ho⟩ := hs.file
      rw [ho, (setOff_file ..).1]
      exact hf.trans hk'
    · obtain rfl := FdType.inode.inj hk'
      rw [hdone hfits (le_refl _), if_pos rfl]

end ChronoFS
