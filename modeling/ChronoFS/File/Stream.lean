import ChronoFS.File.Write
import ChronoFS.Spec.Fileio

/-!
# The transactions of `filewrite`

`filewrite` cuts the bytes into pieces of `WRITE_MAX` and writes each in a transaction of its own. One
pass of its loop is `filewritePass`. `Streamable` is what a pass needs: the file is open on a regular
inode whose blocks are its own, nobody holds its lock, no transaction is running, and the offset is
within the file. A pass then writes its piece and leaves the file like that (`Streamable.wp_pass`), unless
the piece does not fit or the blocks run out. What a sequence of passes does is `Streams`, which
composes.

A piece touches four blocks at most. In a file without holes, the first of them is there unless the
piece begins with it. So at most seven blocks are logged for the data and the free map, two for the
indirect block and one for the inode (`logCost_le`): this is where `MAXOPBLOCKS` comes from.
-/

namespace ChronoFS

open Function

variable {s s' s'' : Kernel} {t t' : Fs} {f : FileNo} {k : Slot} {off n : ℕ} {src src' : List UInt8}
  {E : Halt → Kernel → Prop}

/-- One pass of the loop of `filewrite`: a transaction. -/
def filewritePass (f : FileNo) (ip : Slot) (src : List UInt8) : KM (Option ℕ) := do
  beginOp
  ilock ip
  let ff ← file f
  let r ← writei ip src ff.off
  advance f r
  iunlock ip
  endOp
  return r

theorem filewriteLoop_cons (f : FileNo) (ip : Slot) (bound : ℕ) (b : UInt8) (src : List UInt8) :
    filewriteLoop f ip (bound + 1) (b :: src) = (do
      let r ← filewritePass f ip ((b :: src).take WRITE_MAX)
      match r with
      | none => return false
      | some r =>
        if r ≠ ((b :: src).take WRITE_MAX).length then throw (.panic .shortFilewrite)
        else filewriteLoop f ip bound ((b :: src).drop WRITE_MAX)) := by
  unfold filewritePass
  simp only [bind_assoc, pure_bind]
  rfl

/-! ## The log -/

/-- A piece touches few blocks, and few of those have to be allocated if there are no holes. -/
theorem logCost_le (hn : n ≤ WRITE_MAX) :
    t.logCost k off n ≤ MAXOPBLOCKS ∧
      (t.NoHoles k → off ≤ (t.icache k).din.size.toNat → t.logCost k off n + 1 ≤ MAXOPBLOCKS) := by
  have hind := indirectCost_le_two t k
  have hdiv := Nat.div_add_mod off BSIZE
  have hmod : off % BSIZE < BSIZE := Nat.mod_lt _ (by decide)
  have hmax : WRITE_MAX = 1536 := rfl
  have hsub : t.unmapped k off n ⊆ touched off n := Finset.filter_subset ..
  have hfour : touched off n ⊆ Finset.Ico (off / BSIZE) (off / BSIZE + 4) := by
    intro bn hbn
    have ht := mem_touched.mp hbn
    unfold Touched at ht
    rw [Finset.mem_Ico]
    simp only [BSIZE] at *
    omega
  have hcard := Finset.card_le_card hfour
  have hcard' := Finset.card_le_card hsub
  rw [Nat.card_Ico] at hcard
  unfold Fs.logCost
  refine ⟨by simp only [MAXOPBLOCKS]; omega, fun hno hoff => ?_⟩
  by_cases hzero : off % BSIZE = 0
  · -- the piece begins with a block
    have hthree : touched off n ⊆ Finset.Ico (off / BSIZE) (off / BSIZE + 3) := by
      intro bn hbn
      have ht := mem_touched.mp hbn
      unfold Touched at ht
      rw [Finset.mem_Ico]
      simp only [BSIZE] at *
      omega
    have hcard := Finset.card_le_card hthree
    rw [Nat.card_Ico] at hcard
    simp only [MAXOPBLOCKS]
    omega
  · -- the first block is there
    have hthree : t.unmapped k off n ⊆ Finset.Ico (off / BSIZE + 1) (off / BSIZE + 4) := by
      intro bn hbn
      have hin := Finset.mem_Ico.mp (hfour (hsub hbn))
      have hz := (mem_unmapped.mp hbn).2
      rw [Finset.mem_Ico]
      refine ⟨?_, hin.2⟩
      by_contra hfirst
      refine hno bn ?_ hz
      simp only [BSIZE] at *
      omega
    have hcard' := Finset.card_le_card hthree
    rw [Nat.card_Ico] at hcard'
    simp only [MAXOPBLOCKS]
    omega

/-! ## One pass -/

/-- A file that `filewrite` can write to: file `f` is open on the inode in slot `k`. -/
structure Streamable (f : FileNo) (k : Slot) (s : Kernel) : Prop where
  /-- It is open on the inode. -/
  type : (s.ftable f).type = .inode k
  /-- No transaction is running. -/
  quiet : s.fs.Quiet
  /-- The log has as many blocks as a transaction may need. -/
  logSize : LOGSIZE ≤ s.fs.logSize
  /-- The slot is in use. -/
  ref : 0 < (s.fs.icache k).ref
  /-- The inode is loaded. -/
  valid : (s.fs.icache k).valid = true
  /-- Nobody has locked it. -/
  unlocked : (s.fs.icache k).locked = false
  /-- It is a regular file. -/
  regular : (s.fs.icache k).din.type = T_FILE
  /-- Its blocks are its own. -/
  ok : FileOk k s.fs
  /-- The offset is within the file. -/
  off : (s.ftable f).off ≤ (s.fs.icache k).din.size

/-- From `s` to `s'`, passes of `filewrite` have written `src`. -/
structure Streams (f : FileNo) (k : Slot) (src : List UInt8) (s s' : Kernel) : Prop where
  /-- There can be another pass. -/
  next : Streamable f k s'
  /-- The bytes are stored at the offset. -/
  stored : BytesStored k src (s.ftable f).off.toNat src.length s.fs s'.fs
  /-- The size covers them. -/
  size : (s'.fs.icache k).din.size.toNat =
    max (s.fs.icache k).din.size.toNat ((s.ftable f).off.toNat + src.length)
  /-- The offset is at their end. -/
  off : (s'.ftable f).off.toNat = (s.ftable f).off.toNat + src.length
  /-- There are no new holes. -/
  noHoles : s.fs.NoHoles k → s'.fs.NoHoles k
  /-- The transactions kept to their budget, if there are no holes. -/
  ops : ∃ ls, s'.fs.ops = ls ++ s.fs.ops ∧ (s.fs.NoHoles k → ∀ l ∈ ls, l.length ≤ MAXOPBLOCKS)

theorem Streams.refl (h : Streamable f k s) : Streams f k [] s s := by
  have hoff := UInt32.le_iff_toNat_le.mp h.off
  exact ⟨h, .refl .., by rw [List.length_nil]; omega, rfl, id, [], rfl, by nofun⟩

/-- Only the bytes that are stored matter. -/
theorem BytesStored.src_congr (h : BytesStored k src off n t t')
    (hsrc : ∀ j < n, src'.getD j 0 = src.getD j 0) : BytesStored k src' off n t t' := by
  refine { h with byteAt := fun x => ?_ }
  rw [h.byteAt]
  by_cases hx : off ≤ x ∧ x < off + n
  · rw [if_pos hx, if_pos hx, hsrc _ (by omega)]
  · rw [if_neg hx, if_neg hx]

theorem Streams.append (h : Streams f k src s s') (h' : Streams f k src' s' s'') :
    Streams f k (src ++ src') s s'' := by
  have hoff := h.off
  have hstored : BytesStored k (src ++ src') (s.ftable f).off.toNat src.length s.fs s'.fs :=
    h.stored.src_congr fun j hj => List.getD_append _ _ _ _ hj
  have hstored' := h'.stored
  rw [hoff, ← @List.drop_left _ src src'] at hstored'
  have hall := hstored.append hstored'
  obtain ⟨ls, hops, hls⟩ := h.ops
  obtain ⟨ls', hops', hls'⟩ := h'.ops
  refine ⟨h'.next, ?_, ?_, ?_, fun hno => h'.noHoles (h.noHoles hno), ls' ++ ls, ?_, fun hno l hl => ?_⟩
  · rw [List.length_append]
    rwa [List.drop_left] at hall
  · rw [h'.size, h.size, hoff, List.length_append]
    omega
  · rw [h'.off, hoff, List.length_append]
    omega
  · rw [hops', hops, List.append_assoc]
  · rcases List.mem_append.mp hl with hl | hl
    · exact hls' (h.noHoles hno) l hl
    · exact hls hno l hl

/-- `ilock` of a loaded inode takes the lock. -/
theorem wp_ilock_valid {Q : Unit → Fs → Prop} {E : Halt → Fs → Prop} (href : 0 < (t.icache k).ref)
    (hvalid : (t.icache k).valid = true) (hfree : (t.icache k).locked = false)
    (hok : Q () (t.setSlot k { t.icache k with locked := true })) : wp (ilock k) Q E t := by
  unfold ilock
  rw [wp_bind, wp_inode, if_neg (by omega), wp_bind]
  refine wp_acquiresleep (fun hl => ?_) fun _ => ?_
  · rw [hfree] at hl
    nomatch hl
  · rw [wp_bind, wp_get, wp_bind, wp_inode, setSlot_self, if_pos hvalid]
    exact hok

theorem wp_iunlock_locked {Q : Unit → Fs → Prop} {E : Halt → Fs → Prop}
    (href : 0 < (t.icache k).ref) (hlocked : (t.icache k).locked = true)
    (hok : Q () (t.setSlot k { t.icache k with locked := false })) : wp (iunlock k) Q E t := by
  have hgood : ¬ ((!(t.icache k).locked || decide ((t.icache k).ref < 1)) = true) := by
    rw [hlocked, Bool.not_true, Bool.false_or, decide_eq_true_eq]
    omega
  unfold iunlock
  rw [wp_bind, wp_inode, if_neg hgood]
  exact hok

/-- Taking the lock and beginning a transaction leave the file alone. -/
theorem sameFile_lock (t : Fs) (k : Slot) (outstanding : ℕ) (lh : List ℕ) (ops : List (List ℕ))
    (locked : Bool) :
    SameFile k t ((t.setOp outstanding lh ops).setSlot k { t.icache k with locked }) := by
  refine ⟨by rw [view_setSlot]; rfl, rfl, ?_, ?_⟩
  · rw [setSlot_self]
  · rw [setSlot_self]

/-- The end of a pass: the lock is released and the transaction ends. -/
theorem Streamable.close (h : Streamable f k s) {t : Fs} {o : UInt32}
    (hwithin : Within k ((s.fs.setOp 1 [] s.fs.ops).setSlot k { s.fs.icache k with locked := true }) t)
    (hok : FileOk k t) (htype : (t.icache k).din.type = T_FILE) (ho : o ≤ (t.icache k).din.size)
    {t' : Fs}
    (ht' : t' = (t.setSlot k { t.icache k with locked := false }).setOp 0 [] (t.lh :: s.fs.ops)) :
    SameFile k t t' ∧ Streamable f k ((s.setOff f o).withFs t') := by
  have hself : t'.icache k = { t.icache k with locked := false } := by
    rw [ht']
    exact setSlot_self ..
  have hsame : SameFile k t t' := by
    refine ⟨?_, by rw [ht']; rfl, by rw [hself], by rw [hself]⟩
    rw [ht']
    exact view_setSlot t k { t.icache k with locked := false }
  have hlog : t'.logSize = s.fs.logSize := by
    rw [ht']
    exact (congrArg Fs.logSize hwithin.rest :)
  refine ⟨hsame, ?_, ?_, ?_, ?_, ?_, ?_, ?_, hsame.fileOk hok, ?_⟩
  · exact (setOff_file s f f o).1.trans h.type
  · rw [withFs_fs, ht']
    exact ⟨rfl, rfl⟩
  · rw [withFs_fs, hlog]
    exact h.logSize
  · rw [withFs_fs, hself]
    show 0 < (t.icache k).ref
    rw [hwithin.ref, setSlot_self]
    exact h.ref
  · rw [withFs_fs, hself]
    show (t.icache k).valid = true
    rw [hwithin.valid, setSlot_self]
    exact h.valid
  · rw [withFs_fs, hself]
  · rw [withFs_fs, hself]
    exact htype
  · rw [withFs_ftable, setOff_off, withFs_fs, hself]
    exact ho

/-- A pass writes its piece if it fits and there are blocks. -/
theorem Streamable.wp_pass {Q : Option ℕ → Kernel → Prop} (h : Streamable f k s)
    (hlen : src.length ≤ WRITE_MAX)
    (hout : ∀ s', s.fs.freeBlocks.card < s.fs.lacks k (s.ftable f).off.toNat src.length →
      s'.fs.ops = s.fs.ops → (s.fs.NoHoles k → s'.fs.lh.length ≤ MAXOPBLOCKS) →
      E (.panic .ballocOut) s')
    (hno : ∀ s', MAXFILE * BSIZE < (s.ftable f).off.toNat + src.length → Streams f k [] s s' →
      Q none s')
    (hok : ∀ s', Streams f k src s s' → Q (some src.length) s') :
    wp (filewritePass f k src) Q E s := by
  generalize hoff : (s.ftable f).off = off at *
  generalize ht1 : (s.fs.setOp 1 [] s.fs.ops).setSlot k { s.fs.icache k with locked := true } = t1
  have hsame : SameFile k s.fs t1 := ht1 ▸ sameFile_lock ..
  have hself : t1.icache k = { s.fs.icache k with locked := true } := by
    rw [← ht1, setSlot_self]
  have hlh : t1.lh = [] := by
    rw [← ht1]
    rfl
  have haud : t1.Audited k := by
    left
    rw [hself]
  have hdev : (t1.icache k).din.type ≠ T_DEV := by
    rw [hsame.din, h.regular]
    decide
  have hin : off ≤ (t1.icache k).din.size := by
    rw [hsame.din, ← hoff]
    exact h.off
  obtain ⟨hcost, hcost'⟩ : t1.logCost k off.toNat src.length ≤ MAXOPBLOCKS ∧ _ := logCost_le hlen
  -- the log is empty, so there is room
  have hroom : t1.Room (t1.logCost k off.toNat src.length + 1) := by
    have hsize := h.logSize
    have hlog : t1.logSize = s.fs.logSize := by
      rw [← ht1]
      rfl
    have hone : t1.outstanding = 1 := by
      rw [← ht1]
      rfl
    refine ⟨?_, ?_, by omega⟩
    · rw [hlh]
      simp only [LOGSIZE, MAXOPBLOCKS, List.length_nil] at *
      omega
    · rw [hlh, hlog]
      simp only [LOGSIZE, MAXOPBLOCKS, List.length_nil] at *
      omega
  -- what remains to be done after `writei`
  have hclose : ∀ (r : Option ℕ) (t : Fs) (o : UInt32), Within k t1 t → FileOk k t →
      (t.icache k).din.type = T_FILE → o ≤ (t.icache k).din.size →
      (∀ t', t'.ops = t.lh :: s.fs.ops → SameFile k t t' →
        Streamable f k ((s.setOff f o).withFs t') → Q r ((s.setOff f o).withFs t')) →
      wp (do liftM (iunlock k); liftM endOp; return r : KM (Option ℕ)) Q E
        ((s.setOff f o).withFs t) := by
    intro r t o hwithin hfile htype ho hq
    have hone : t.outstanding = 1 := by
      have : t.outstanding = t1.outstanding := (congrArg Fs.outstanding hwithin.rest :)
      rw [this, ← ht1]
      rfl
    have hops : t.ops = s.fs.ops := by
      have : t.ops = t1.ops := (congrArg Fs.ops hwithin.rest :)
      rw [this, ← ht1]
      rfl
    rw [wp_bind, wp_fs, withFs_fs]
    refine wp_iunlock_locked ?_ ?_ ?_
    · rw [hwithin.ref, hself]
      exact h.ref
    · rw [hwithin.self, hself]
    rw [wp_bind, wp_fs, withFs_fs]
    refine wp_endOp hone ?_
    rw [wp_pure]
    obtain ⟨hsame', hnext⟩ := h.close (ht1 ▸ hwithin) hfile htype ho rfl
    rw [← hops] at hsame' hnext
    exact hq _ (by rw [← hops]; rfl) hsame' hnext
  unfold filewritePass
  rw [wp_bind, wp_fs]
  refine wp_beginOp h.quiet ?_
  rw [wp_bind, wp_fs, withFs_fs]
  refine wp_ilock_valid h.ref h.valid h.unlocked ?_
  rw [show (s.fs.setOp 1 [] s.fs.ops).setSlot k
    { (s.fs.setOp 1 [] s.fs.ops).icache k with locked := true } = t1 from ht1]
  rw [wp_bind, wp_file, wp_bind, wp_fs]
  simp only [withFs_fs, withFs_withFs, withFs_ftable, hoff]
  refine (hsame.fileOk h.ok).wp_writei haud hdev hin (lt_of_le_of_lt hlen (by decide))
    (fun e t hfull => absurd hroom hfull) (fun t hlack hwithin hle => ?_) (fun hbig => ?_)
    fun t hw => ?_
  · -- there are no blocks left
    rw [hsame.freeBlocks, hsame.lacks] at hlack
    refine hout _ hlack ?_ fun hholes => ?_
    · have : t.ops = t1.ops := (congrArg Fs.ops hwithin.rest :)
      rw [withFs_fs, this, ← ht1]
      rfl
    · have := hcost' (hsame.noHoles hholes) (UInt32.le_iff_toNat_le.mp hin)
      rw [hlh, List.length_nil] at hle
      rw [withFs_fs]
      omega
  · -- the piece does not fit
    rw [wp_bind]
    have hstay : s.withFs t1 = (s.setOff f off).withFs t1 := by
      rw [← hoff, setOff_self]
    show wp (do liftM (iunlock k); liftM endOp; return none : KM (Option ℕ)) Q E (s.withFs t1)
    rw [hstay]
    refine hclose none t1 off (.refl k t1) (hsame.fileOk h.ok) ?_ hin fun t' hops hsame' hnext => ?_
    · rw [hsame.din]
      exact h.regular
    · refine hno _ hbig ⟨hnext, ?_, ?_, ?_, fun hholes => ?_, [t1.lh], hops, fun _ l hl => ?_⟩
      · exact (BytesStored.refl k [] _ s.fs).congr (.refl k s.fs) (hsame.trans hsame')
      · rw [withFs_fs, hsame'.din, hsame.din, List.length_nil, hoff]
        rw [hsame.din, UInt32.le_iff_toNat_le] at hin
        omega
      · rw [withFs_ftable, setOff_off, hoff]
        rfl
      · exact hsame'.noHoles (hsame.noHoles hholes)
      · rw [List.mem_singleton.mp hl, hlh]
        exact Nat.zero_le _
  · -- the piece is written
    rw [wp_bind]
    have hnew : (off + UInt32.ofNat src.length).toNat = off.toNat + src.length := by
      have hlt := UInt32.toNat_lt (t.icache k).din.size
      have hsize := hw.size
      exact toNat_add_ofNat (b := (t.icache k).din.size.toNat) (by omega) hlt
    show wp (do liftM (iunlock k); liftM endOp; return some src.length : KM (Option ℕ)) Q E
      ((s.setOff f ((s.ftable f).off + .ofNat src.length)).withFs t)
    rw [hoff]
    refine hclose _ t _ hw.within hw.ok ?_ ?_ fun t' hops hsame' hnext => ?_
    · rw [hw.type, hsame.din]
      exact h.regular
    · rw [UInt32.le_iff_toNat_le, hnew, hw.size]
      exact Nat.le_max_right ..
    · refine hok _ ⟨hnext, ?_, ?_, ?_, fun hholes => ?_, [t.lh], hops, fun hholes l hl => ?_⟩
      · rw [hoff]
        exact hw.toBytesStored.congr hsame.symm hsame'
      · rw [withFs_fs, hsame'.din, hw.size, hsame.din, hoff]
      · rw [withFs_ftable, setOff_off, hnew, hoff]
      · exact hsame'.noHoles (hw.noHoles (hsame.noHoles hholes))
      · have hle := hw.cost
        have := hcost' (hsame.noHoles hholes) (UInt32.le_iff_toNat_le.mp hin)
        rw [hlh, List.length_nil] at hle
        rw [List.mem_singleton.mp hl]
        omega

/-! ## The loop -/

/-- What is left of the bytes after a pass needs what is left of the blocks. -/
theorem Streams.short_rest (h : Streams f k src s s')
    (hlack : s'.fs.freeBlocks.card < s'.fs.lacks k (s'.ftable f).off.toNat n) :
    s.fs.freeBlocks.card < s.fs.lacks k (s.ftable f).off.toNat (src.length + n) := by
  have hfree := h.stored.free
  rw [h.stored.lacks_add, ← h.off]
  omega

theorem Streamable.wp_filewriteLoop {Q : Bool → Kernel → Prop} (h : Streamable f k s) (bound : ℕ)
    (hbound : src.length ≤ bound)
    (hout : ∀ ls s', s.fs.freeBlocks.card < s.fs.lacks k (s.ftable f).off.toNat src.length →
      s'.fs.ops = ls ++ s.fs.ops →
      (s.fs.NoHoles k → (∀ l ∈ ls, l.length ≤ MAXOPBLOCKS) ∧ s'.fs.lh.length ≤ MAXOPBLOCKS) →
      E (.panic .ballocOut) s')
    (hno : ∀ done s', MAXFILE * BSIZE < (s.ftable f).off.toNat + src.length →
      Streams f k done s s' → Q false s')
    (hok : ∀ s', Streams f k src s s' → Q true s') :
    wp (filewriteLoop f k bound src) Q E s := by
  induction bound generalizing s src with
  | zero =>
    obtain rfl : src = [] := List.length_eq_zero_iff.mp (by omega)
    exact hok s (.refl h)
  | succ bound ih =>
    cases src with
    | nil => exact hok s (.refl h)
    | cons b src =>
      rw [filewriteLoop_cons]
      generalize hsrc : b :: src = bytes at *
      have hcut := List.take_append_drop WRITE_MAX bytes
      have hlen := congrArg List.length hcut
      rw [List.length_append] at hlen
      have hpos : 0 < (bytes.take WRITE_MAX).length := by
        rw [List.length_take, ← hsrc, List.length_cons]
        exact Nat.lt_min.mpr ⟨by decide, by omega⟩
      rw [wp_bind]
      refine h.wp_pass (List.length_take_le _ _) (fun s' hlack hops hlh => ?_)
        (fun s' hbig hs => hno [] s' (by omega) hs) fun s' hs => ?_
      · refine hout [] s' (lt_of_lt_of_le hlack ?_) hops fun hholes => ⟨by nofun, hlh hholes⟩
        rw [← hlen]
        exact lacks_le_add
      · dsimp only
        rw [if_neg (not_not.mpr rfl)]
        have hoff := hs.off
        obtain ⟨ls, hops, hls⟩ := hs.ops
        refine ih hs.next (by omega) (fun ls' s'' hlack hops' hls' => ?_)
          (fun done s'' hbig hs' => hno _ s'' (by omega) (hs.append hs')) fun s'' hs' => ?_
        · have hshort := hs.short_rest hlack
          rw [hlen] at hshort
          refine hout (ls' ++ ls) s'' hshort ?_ fun hholes => ⟨fun l hl => ?_, ?_⟩
          · rw [hops', hops, List.append_assoc]
          · exact (List.mem_append.mp hl).elim ((hls' (hs.noHoles hholes)).1 l) (hls hholes l)
          · exact (hls' (hs.noHoles hholes)).2
        · have hall := hs.append hs'
          rw [hcut] at hall
          exact hok s'' hall

end ChronoFS
