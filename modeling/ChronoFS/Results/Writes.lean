import ChronoFS.File.Shared
import ChronoFS.Spec.Boot
import ChronoFS.Spec.Returns

/-!
# Writing to open files

What `filewrite` logs, and what it writes, alone and with others. The results are about any state in
which the file can be written to (`Streamable`). In a reachable state that is every regular file that is
open with its offset within the file (`Reached.streamable`).
-/

namespace ChronoFS

open Function

variable {s s' : Kernel} {f : FileNo} {k : Slot} {st : Bool} {leak : List Slot} {sb : Superblock}

theorem Reached.streamable (h : Reached st leak sb s) (hf : (s.ftable f).type = .inode k)
    (htype : (s.fs.icache k).din.type = T_FILE) (hoff : (s.ftable f).off ≤ (s.fs.icache k).din.size) :
    Streamable f k s := by
  obtain ⟨lg, hcore⟩ := h.inv.inv
  have hlive := h.inv.live hf
  exact ⟨hf, h.inv.quiet, h.logSize.ge, hlive.1, hlive.2, h.inv.not_locked rfl k, htype,
    hcore.fileOk hlive, hoff⟩

/-- In a reachable state without holes, the file has none. -/
theorem Reached.noHoles (h : Reached true leak sb s) (hf : (s.ftable f).type = .inode k) :
    s.fs.NoHoles k := by
  obtain ⟨lg, hcore⟩ := h.inv.inv
  exact (hcore.node_of_live (h.inv.live hf)).noHoles (.inl rfl)

/-- Every transaction of `filewrite` logs at most `MAXOPBLOCKS` blocks, also the one in which the disk
turns out to be full. -/
theorem filewrite_budget (h : Streamable f k s) (hno : s.fs.NoHoles k) (src : List UInt8) :
    wp (filewrite f src)
      (fun _ s' => s'.fs.lh = [] ∧ ∃ ls, s'.fs.ops = ls ++ s.fs.ops ∧
        ∀ l ∈ ls, l.length ≤ MAXOPBLOCKS)
      (fun e s' => e = .panic .ballocOut ∧ s'.fs.lh.length ≤ MAXOPBLOCKS ∧
        ∃ ls, s'.fs.ops = ls ++ s.fs.ops ∧ ∀ l ∈ ls, l.length ≤ MAXOPBLOCKS) s := by
  have hdone : ∀ done s', Streams f k done s s' → s'.fs.lh = [] ∧
      ∃ ls, s'.fs.ops = ls ++ s.fs.ops ∧ ∀ l ∈ ls, l.length ≤ MAXOPBLOCKS := by
    intro done s' hs
    obtain ⟨ls, hops, hls⟩ := hs.ops
    exact ⟨hs.next.quiet.lh, ls, hops, hls hno⟩
  unfold filewrite
  rw [wp_bind, wp_file, wp_ite]
  refine ⟨fun _ => hdone [] s (.refl h), fun _ => ?_⟩
  rw [h.type]
  dsimp only
  rw [wp_bind]
  refine h.wp_filewriteLoop _ le_rfl (fun ls s' _ hops hle => ?_) (fun done s' _ hs => hdone done s' hs)
    fun s' hs => hdone src s' hs
  exact ⟨rfl, (hle hno).2, ls, hops, (hle hno).1⟩

/-- The file `g` of the image is opened for reading and writing. It is empty, and there are blocks. -/
theorem fileImage_opened : ∃ s, (boot .mkfs fileImage).calls [(0, .open (some ([103], O_RDWR)))] = some s ∧
    ∃ f k, Streamable f k s ∧ s.fs.NoHoles k ∧ (s.ftable f).writable = true ∧
      (s.ftable f).off.toNat + 3 ≤ MAXFILE * BSIZE ∧
      s.fs.lacks k (s.ftable f).off.toNat 3 ≤ s.fs.freeBlocks.card := by
  have heval : ((boot .mkfs fileImage).calls [(0, .open (some ([103], O_RDWR)))]).map (fun s =>
      decide (∃ k, (s.ftable 0).type = .inode k ∧ (s.fs.icache k).din.type = T_FILE ∧
        (s.ftable 0).off ≤ (s.fs.icache k).din.size ∧ (s.ftable 0).writable = true ∧
        (s.ftable 0).off.toNat + 3 ≤ MAXFILE * BSIZE ∧
        s.fs.lacks k (s.ftable 0).off.toNat 3 ≤ s.fs.freeBlocks.card)) = some true := by
    decide +kernel
  obtain ⟨s, hs, hdec⟩ := Option.map_eq_some_iff.mp heval
  obtain ⟨k, hf, htype, hoff, hrest⟩ := of_decide_eq_true hdec
  refine ⟨s, hs, 0, k, ?_⟩
  cases run_of_calls hs with
  | cons hstep hrun =>
    cases hrun
    have hboot : Reached true [] .mkfs (boot .mkfs fileImage) := fileImage_image.reached
    obtain ⟨leak, hr⟩ := hboot.step hstep (by nofun)
    exact ⟨hr.streamable hf htype hoff, hr.noHoles hf, hrest⟩

/-- Writing to `g` keeps to the budget. -/
theorem filewrite_budget_fileImage : ∃ s f, (boot .mkfs fileImage).calls
    [(0, .open (some ([103], O_RDWR)))] = some s ∧ ∀ src, wp (filewrite f src)
      (fun _ s' => s'.fs.lh = [] ∧ ∃ ls, s'.fs.ops = ls ++ s.fs.ops ∧
        ∀ l ∈ ls, l.length ≤ MAXOPBLOCKS)
      (fun e s' => e = .panic .ballocOut ∧ s'.fs.lh.length ≤ MAXOPBLOCKS ∧
        ∃ ls, s'.fs.ops = ls ++ s.fs.ops ∧ ∀ l ∈ ls, l.length ≤ MAXOPBLOCKS) s := by
  obtain ⟨s, hs, f, k, h, hno, -⟩ := fileImage_opened
  exact ⟨s, f, hs, filewrite_budget h hno⟩

/-! ## What is written -/

/-- `filewrite` returns, and what it writes is what one `writei` would write. -/
theorem filewrite_returns (h : Streamable f k s) (hw : (s.ftable f).writable = true)
    {src : List UInt8} (hfits : (s.ftable f).off.toNat + src.length ≤ MAXFILE * BSIZE)
    (hfree : s.fs.lacks k (s.ftable f).off.toNat src.length ≤ s.fs.freeBlocks.card) :
    ∃ s', filewrite f src s = .ok (some src.length) s' ∧ Streams f k src s s' := by
  have hwp : wp (filewrite f src) (fun r s' => r = some src.length ∧ Streams f k src s s')
      (fun _ _ => False) s := by
    unfold filewrite
    rw [wp_bind, wp_file, hw, h.type]
    show wp (filewriteLoop f k src.length src >>= _) _ _ s
    rw [wp_bind]
    refine h.wp_filewriteLoop _ le_rfl (fun ls s' hlack _ _ => ?_) (fun done s' hbig _ => ?_)
      fun s' hs => ⟨rfl, hs⟩
    · exact absurd hfree (Nat.not_le.mpr hlack)
    · exact absurd hfits (Nat.not_le.mpr hbig)
  obtain ⟨r, s', hrun, hr, hs⟩ := hwp.returns
  rw [hr] at hrun
  exact ⟨s', hrun, hs⟩

/-- A `writei` that returns has written the bytes. -/
theorem writei_written {t t' : Fs} {off : UInt32} {src : List UInt8} {r : Option ℕ} (h : FileOk k t)
    (ha : t.Audited k) (htype : (t.icache k).din.type ≠ T_DEV) (hoff : off ≤ (t.icache k).din.size)
    (hfits : off.toNat + src.length ≤ MAXFILE * BSIZE) (hrun : writei k src off t = .ok r t') :
    r = some src.length ∧ FileWritten k src off.toNat src.length t t' := by
  have hwp : wp (writei k src off) (fun r t' => r = some src.length ∧
      FileWritten k src off.toNat src.length t t') (fun _ _ => True) t := by
    refine h.wp_writei ha htype hoff ?_ (fun _ _ _ => trivial) (fun _ _ _ _ => trivial) (fun hbig => ?_)
      fun t' hw => ⟨rfl, hw⟩
    · simp only [MAXFILE, NDIRECT, NINDIRECT, BSIZE] at hfits
      omega
    · exact absurd hfits (Nat.not_le.mpr hbig)
  exact hwp.ok hrun

/-- A write that is cut into transactions writes what one `writei` would write. Writers that share the
file, with passes in any order, write all their pieces one after the other, each writer's in its
order. -/
theorem chunked_writes (h : Streamable f k s) (hw : (s.ftable f).writable = true) :
    (∀ src : List UInt8, (s.ftable f).off.toNat + src.length ≤ MAXFILE * BSIZE →
      s.fs.lacks k (s.ftable f).off.toNat src.length ≤ s.fs.freeBlocks.card →
      ∃ s', filewrite f src s = .ok (some src.length) s' ∧
        (s'.ftable f).off.toNat = (s.ftable f).off.toNat + src.length ∧
        (s'.fs.icache k).din.size.toNat =
          max (s.fs.icache k).din.size.toNat ((s.ftable f).off.toNat + src.length) ∧
        (∀ x, s'.fs.byteAt k x = if (s.ftable f).off.toNat ≤ x ∧
          x < (s.ftable f).off.toNat + src.length then src.getD (x - (s.ftable f).off.toNat) 0
          else s.fs.byteAt k x) ∧
        ∀ t r t', SameFile k s.fs t → t.Audited k → writei k src (s.ftable f).off t = .ok r t' →
          r = some src.length ∧ (t'.icache k).din.size = (s'.fs.icache k).din.size ∧
            ∀ x, t'.byteAt k x = s'.fs.byteAt k x) ∧
    ∀ {ι : Type} [Fintype ι] [DecidableEq ι] (src : ι → List UInt8) (is : List ι) (w : Writers ι),
      (s.ftable f).off = (s.fs.icache k).din.size →
      (s.ftable f).off.toNat + ∑ i, (src i).length ≤ MAXFILE * BSIZE →
      s.fs.lacks k (s.ftable f).off.toNat (∑ i, (src i).length) ≤ s.fs.freeBlocks.card →
      Run (Writers.Pass f k) ⟨s, src⟩ is w →
      (∀ i, w.rest i ≠ [] → ∃ w', Writers.Pass f k w i w') ∧
        ∃ ps : List (ι × List UInt8), ps.map Prod.fst = is ∧
          (∀ i, (ps.filter fun p => p.1 = i).map Prod.snd =
            (List.range (is.count i)).map (piece (src i))) ∧
          (∀ i, w.rest i = (src i).drop (is.count i * WRITE_MAX)) ∧
          (ps.map Prod.snd).flatten.length + ∑ i, (w.rest i).length = ∑ i, (src i).length ∧
          (w.kernel.ftable f).off.toNat =
            (s.ftable f).off.toNat + (ps.map Prod.snd).flatten.length ∧
          (w.kernel.fs.icache k).din.size = (w.kernel.ftable f).off ∧
          ∀ x, w.kernel.fs.byteAt k x = if (s.ftable f).off.toNat ≤ x ∧
            x < (s.ftable f).off.toNat + (ps.map Prod.snd).flatten.length
            then (ps.map Prod.snd).flatten.getD (x - (s.ftable f).off.toNat) 0
            else s.fs.byteAt k x := by
  constructor
  · intro src hfits hfree
    obtain ⟨s', hrun, hs⟩ := filewrite_returns h hw hfits hfree
    refine ⟨s', hrun, hs.off, hs.size, hs.stored.byteAt, fun t r t' hsame ha hwritei => ?_⟩
    have hdev : (t.icache k).din.type ≠ T_DEV := by
      rw [hsame.din, h.regular]
      decide
    obtain ⟨hr, hwritten⟩ := writei_written (hsame.fileOk h.ok) ha hdev
      (by rw [hsame.din]; exact h.off) hfits hwritei
    refine ⟨hr, UInt32.toNat_inj.mp ?_, fun x => ?_⟩
    · rw [hwritten.size, hs.size, hsame.din]
    · rw [hwritten.byteAt, hs.stored.byteAt, hsame.byteAt]
  · intro ι _ _ src is w hend hfits hfree hrun
    obtain ⟨⟨ps, hps⟩, hgo⟩ := Writers.run_shared h hfits hfree hrun
    refine ⟨hgo, ps, hps.order, hps.pieces, hps.rest, hps.total, hps.streams.off,
      UInt32.toNat_inj.mp ?_, hps.streams.stored.byteAt⟩
    rw [hps.streams.size, hps.streams.off, hend]
    exact Nat.max_eq_right (Nat.le_add_right ..)

/-- Three bytes are written to `g`. -/
theorem chunked_writes_fileImage : ∃ s f s', (boot .mkfs fileImage).calls
    [(0, .open (some ([103], O_RDWR)))] = some s ∧
      filewrite f [1, 2, 3] s = .ok (some 3) s' ∧
      (s'.ftable f).off.toNat = (s.ftable f).off.toNat + 3 := by
  obtain ⟨s, hs, f, k, h, -, hw, hfits, hfree⟩ := fileImage_opened
  obtain ⟨s', hrun, hoff, -⟩ := (chunked_writes h hw).1 [1, 2, 3] hfits hfree
  exact ⟨s, f, s', hs, hrun, hoff⟩

/-- Three bytes are written to the file `g`, and a version of it from before is restored. The offset of the
open file is then past the end of the file, and the next write fails. -/
theorem filewrite_past_end : ∃ s, (boot .mkfs fileImage).calls
    [(0, .open (some ([103], O_RDWR))), (0, .versionCreate (some ([103], []))),
      (0, .write (some (0, [1, 2, 3]))), (0, .versionRestore (some ([103], 0)))] = some s ∧
    (∃ k, (s.ftable 0).type = .inode k ∧ (s.fs.icache k).din.type = T_FILE ∧
      (s.ftable 0).writable = true ∧ (s.ftable 0).off.toNat + 1 ≤ MAXFILE * BSIZE ∧
      s.fs.lacks k (s.ftable 0).off.toNat 1 ≤ s.fs.freeBlocks.card) ∧
    ∃ s', filewrite 0 [7] s = .ok none s' := by
  have heval : ((boot .mkfs fileImage).calls
      [(0, .open (some ([103], O_RDWR))), (0, .versionCreate (some ([103], []))),
        (0, .write (some (0, [1, 2, 3]))), (0, .versionRestore (some ([103], 0)))]).map (fun s =>
      decide (∃ k, (s.ftable 0).type = .inode k ∧ (s.fs.icache k).din.type = T_FILE ∧
        (s.ftable 0).writable = true ∧ (s.ftable 0).off.toNat + 1 ≤ MAXFILE * BSIZE ∧
        s.fs.lacks k (s.ftable 0).off.toNat 1 ≤ s.fs.freeBlocks.card) &&
      decide (wp (filewrite 0 [7]) (fun r _ => r = none) (fun _ _ => False) s)) =
        some true := by
    decide +kernel
  obtain ⟨s, hs, hdec⟩ := Option.map_eq_some_iff.mp heval
  rw [Bool.and_eq_true] at hdec
  obtain ⟨r, s', hrun, rfl⟩ := (of_decide_eq_true hdec.2).returns
  exact ⟨s, hs, of_decide_eq_true hdec.1, s', hrun⟩

end ChronoFS
