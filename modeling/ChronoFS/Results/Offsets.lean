import ChronoFS.Spec.Boot
import ChronoFS.Spec.Returns

/-!
# The offsets of open files

A file's offset is advanced by what was read or written, so it does not get past the end of the file
unless the file shrinks. Only `version_restore` makes a file smaller: if the version is smaller than the
offset of a file that is open, that offset is past the end, and the next `read` or `write` fails. In every
run in which no restored version is that small, all offsets stay within their files.
-/

namespace ChronoFS

open Function

variable {sb : Superblock} {disk : ℕ → Block} {st : Bool} {leak leak' : List Slot} {s s' : Kernel}
  {es : List Event} {e : Event} {t : Fs} {p : ProcNo} {c : Call} {r : Reply} {k : Slot} {f : FileNo}

/-- Every open file that is not a device has its offset within the file. -/
def OffsetsWithin (s : Kernel) : Prop :=
  ∀ f k, (s.ftable f).type = .inode k → (s.fs.icache k).din.type ≠ T_DEV →
    (s.ftable f).off ≤ (s.fs.icache k).din.size

/-- The version `v` of inode `i` covers the offsets of the files that are open for `i`. -/
def Covers (s : Kernel) (i : ℕ) (v : Version) : Prop :=
  ∀ f k, (s.ftable f).type = .inode k → (s.fs.icache k).inum.toNat = i →
    (s.fs.icache k).din.type ≠ T_DEV → (s.ftable f).off ≤ v.vnode.fileSize

/-- A step in which every version that is restored covers the offsets of its file. -/
def CoveringStep (s : Kernel) (e : Event) (s' : Kernel) : Prop :=
  Step s e s' ∧ ∀ p path num i chain v, e = .call p (.versionRestore (some (path, num))) →
    s.fs.names (s.proc p).cwd path = some i →
    Chain s.fs.versions (s.fs.inodes i).versionHead chain → 0 ≤ num → chain[num.toNat]? = some v →
    Covers s i v

theorem Usual.size {H : Slot → ℤ × ℤ} {t t' : Fs} (h : Usual H t t') (hk : 0 < (H k).1)
    (hv : (t.icache k).valid = true) : (t.icache k).din.size ≤ (t'.icache k).din.size := by
  rcases h with hord | ⟨i, m, hmake, hord⟩
  · exact (hord.size k hk hv).2
  · obtain ⟨hv', hle⟩ := hmake.size k hk hv
    exact UInt32.le_trans hle (hord.size k hk hv').2

/-- Offsets stay within their files if those that are not moved do. -/
theorem Done.within (h : KInv st leak s) (hd : Done st leak' s s') (hw : OffsetsWithin s)
    (hsize : ∀ f k, (s.ftable f).type = .inode k → (s.fs.icache k).Live → (s'.fs.icache k).Live →
      SameSlot (s.fs.icache k) (s'.fs.icache k) → (s.fs.icache k).din.type ≠ T_DEV →
      (s.ftable f).off ≤ (s.fs.icache k).din.size → (s.ftable f).off ≤ (s'.fs.icache k).din.size) :
    OffsetsWithin s' := by
  intro f k hf' hdev'
  rcases hd.offs f k hf' hdev' with ⟨hf, hoff⟩ | hle
  · have hlive := h.live hf
    have hlive' := hd.inv.live hf'
    have hslot := hd.slot k hlive.1 hlive'.1
    have hdev : (s.fs.icache k).din.type ≠ T_DEV := by
      rw [← (hslot.type hlive.2).2]
      exact hdev'
    rw [hoff]
    exact hsize f k hf hlive hlive' hslot hdev (hw f k hf hdev)
  · exact hle

/-- The size of a cached inode, if the inodes are known. -/
theorem Inv.size (h : Inv st t) (hk : (t.icache k).Live) :
    (t.icache k).din.size = (t.inodes (t.icache k).inum.toNat).size := by
  obtain ⟨lg, hcore⟩ := h
  rw [hcore.din hk]

theorem Plain.within (h : KInv st leak s) (hp : Plain st leak s s') (hw : OffsetsWithin s) : OffsetsWithin s' := by
  refine hp.toDone.within h hw fun f k hf hlive hlive' _ _ hle => UInt32.le_trans hle ?_
  exact hp.usual.size (lt_min hlive.1 hlive'.1) hlive.2

theorem Effect.within (h : KInv st leak s) (he : Effect st leak p s c r s' leak')
    (hs : CoveringStep s (.call p c) s') (hw : OffsetsWithin s) : OffsetsWithin s' := by
  have hd := he.done h
  cases he with
  | plain _ hp => exact hp.within h hw
  | watched hran hwatch => exact (hwatch.plain h hran).within h hw
  | @saved path desc i v t hran hnames hsaved =>
    -- only the head of the version chain changes
    refine hd.within h hw fun f k hf hlive hlive' hslot _ hle => ?_
    rw [h.inv.size hlive] at hle
    rw [hd.inv.inv.size hlive', hslot.inum, withFs_fs, hsaved.inodes]
    by_cases hi : (s.fs.icache k).inum.toNat = i
    · rw [hi, update_self]
      exact hi ▸ hle
    · rw [update_of_ne hi]
      exact hle
  | @reverted path num i c v new t hran hnames hc hnum hv hrev =>
    refine hd.within h hw fun f k hf hlive hlive' hslot hdev hle => ?_
    rw [h.inv.size hlive] at hle
    rw [hd.inv.inv.size hlive', hslot.inum, withFs_fs, hrev.inodes]
    by_cases hi : (s.fs.icache k).inum.toNat = i
    · -- the file gets the size of the version
      rw [hi, update_self]
      exact hs.2 p path num i c v rfl hnames hc hnum hv f k hf hi hdev
    · rw [update_of_ne hi]
      exact hle
  | unlinked hran htarget hord =>
    refine hd.within h hw fun f k hf hlive _ _ _ hle => UInt32.le_trans hle ?_
    rw [track_eq] at hord
    exact (hord.size k hlive.1 hlive.2).2
  | forgot => exact hd.within h hw fun f k hf hlive _ _ _ hle => hle
  | recovered he hv hcwd hran hout =>
    obtain ⟨m, hmake, hord⟩ := hout.made
    refine hd.within h hw fun f k hf hlive _ _ _ hle => UInt32.le_trans hle ?_
    exact Usual.size (t := s.fs.takeDeleted _) (.inr ⟨_, m, hmake, hord⟩) hlive.1 hlive.2

theorem CoveringStep.within (h : Reached false leak sb s) (hw : OffsetsWithin s) (hs : CoveringStep s e s') :
    (∃ leak', Reached false leak' sb s') ∧ OffsetsWithin s' := by
  rcases hs.1.effect h.inv (by nofun) with ⟨p, c, r, leak', rfl, heff⟩ | ⟨-, hp⟩
  · exact ⟨⟨leak', h.done (heff.done h.inv)⟩, heff.within h.inv hs hw⟩
  · exact ⟨⟨leak, h.done hp.toDone⟩, hp.within h.inv hw⟩

theorem CoveringStep.run (hI : Image sb disk) (hrun : Run CoveringStep (boot sb disk) es s) :
    (∃ leak, Reached false leak sb s) ∧ OffsetsWithin s :=
  hrun.invariant (I := fun s => (∃ leak, Reached false leak sb s) ∧ OffsetsWithin s)
    (fun _ _ _ ⟨⟨_, hr⟩, hw⟩ hs => hs.within hr hw) ⟨⟨[], hI.reached⟩, by nofun⟩

/-- A `read` through a descriptor whose offset is within the file does not fail: it returns what there is,
up to the number of bytes that it is asked for. -/
theorem OpenAt.read {fd : Fin NOFILE} (ho : OpenAt s p fd f k) (h : KInv st leak s) (hw : OffsetsWithin s)
    (hreadable : (s.ftable f).readable = true) {n : UInt32} (hn : n.toNat < 2 ^ 31) :
    wp (syscall p (.read (some (fd.val, n)))) (fun r _ => ∃ bytes, r = .bytes (some bytes) ∧
      bytes.length = min n.toNat ((s.fs.icache k).din.size.toNat - (s.ftable f).off.toNat))
      (fun _ _ => True) s := by
  have hlive := h.live ho.type
  obtain ⟨lg, hcore⟩ := h.inv
  have hoff := UInt32.le_iff_toNat_le.mp (hw f k ho.type ho.dev)
  -- the end of the file is far from where the offset would wrap around
  have hgood : ¬ ((s.ftable f).off > (s.fs.icache k).din.size ∨
      (s.ftable f).off + n < (s.ftable f).off) := by
    have hbound := (hcore.node_of_live hlive).bound
    have hmax : MAXFILE * BSIZE < 2 ^ 31 := by decide
    rw [gt_iff_lt, UInt32.lt_iff_toNat_lt, UInt32.lt_iff_toNat_lt, UInt32.toNat_add]
    omega
  unfold syscall
  rw [wp_bind, wp_proc]
  dsimp only
  rw [wp_bind]
  unfold sysRead
  rw [wp_bind]
  refine wp_argfd_of_open ho.fd ?_
  unfold fileread
  rw [wp_bind, wp_file, hreadable, if_neg (by decide), ho.type]
  dsimp only
  rw [wp_bind, wp_fs]
  refine wp_mono ((At.start hcore).ilock (T := 0) hlive.1) ?_ fun _ _ _ => trivial
  rintro _ t1 ⟨h1, hpeek, -⟩
  have hdin : (t1.icache k).din = (s.fs.icache k).din := by
    obtain ⟨lg1, hcore1⟩ := h1.core
    have hlive1 := h1.live k List.mem_cons_self
    rw [hcore1.din hlive1, hcore.din hlive, hpeek.inodes, (hpeek.calm.slot k hlive.1).inum]
  rw [wp_bind, wp_fs, withFs_fs]
  refine wp_mono (readi_some (h1.audited List.mem_cons_self) (hdin ▸ ho.dev) (hdin ▸ hgood)) ?_
    fun _ _ => id
  rintro r t2 ⟨bytes, rfl, hlen⟩
  rw [hdin] at hlen
  rw [wp_bind]
  refine wp_mono wp_true (fun _ _ _ => ?_) fun _ _ => id
  rw [wp_bind]
  refine wp_mono wp_true (fun _ _ _ => ?_) fun _ _ => id
  exact ⟨bytes, rfl, hlen⟩

/-- A `write` through such a descriptor fails only if it would make the file too large. -/
theorem OpenAt.write {fd : Fin NOFILE} (ho : OpenAt s p fd f k) (h : KInv st leak s) (hw : OffsetsWithin s)
    (hwritable : (s.ftable f).writable = true) {src : List UInt8}
    (hle : (s.ftable f).off.toNat + src.length ≤ MAXFILE * BSIZE) :
    wp (syscall p (.write (some (fd.val, src)))) (fun r _ => r = .count (some src.length))
      (fun _ _ => True) s := by
  have hfits : Fits s f k src.length := ⟨ho.dev, hw f k ho.type ho.dev, hle⟩
  unfold syscall
  rw [wp_bind, wp_proc]
  dsimp only
  rw [wp_bind]
  unfold sysWrite
  rw [wp_bind]
  refine wp_argfd_of_open ho.fd ?_
  refine wp_mono (filewrite_spec (T := 0) h src) ?_ fun _ _ _ => trivial
  rintro r s' ⟨-, hr⟩
  rw [(hr k ho.type).2 hwritable hfits]
  rfl

/-- In a run in which every restored version covers the offsets of its file, the offsets of open files
stay within the files. So a `read` that returns returns what there is, nothing at the end of the file, and
a `write` that returns has written everything, if the file does not get too large. -/
theorem offsets_within (hI : Image sb disk) (hrun : Run CoveringStep (boot sb disk) es s) :
    (∀ f k, (s.ftable f).type = .inode k → (s.fs.icache k).din.type ≠ T_DEV →
        (s.ftable f).off ≤ (s.fs.icache k).din.size) ∧
      (∀ p fd f k (n : UInt32) r s', OpenAt s p fd f k → (s.ftable f).readable = true →
        n.toNat < 2 ^ 31 → syscall p (.read (some (fd.val, n))) s = .ok r s' →
          ∃ bytes, r = .bytes (some bytes) ∧ ((s.ftable f).off = (s.fs.icache k).din.size →
            bytes = [])) ∧
      ∀ p fd f k src r s', OpenAt s p fd f k → (s.ftable f).writable = true →
        (s.ftable f).off.toNat + src.length ≤ MAXFILE * BSIZE →
          syscall p (.write (some (fd.val, src))) s = .ok r s' → r = .count (some src.length) := by
  obtain ⟨⟨leak, hr⟩, hw⟩ := CoveringStep.run hI hrun
  refine ⟨hw, ?_, ?_⟩
  · intro p fd f k n r s' ho hreadable hn hok
    obtain ⟨bytes, hbytes, hlen⟩ := (ho.read hr.inv hw hreadable hn).ok hok
    refine ⟨bytes, hbytes, fun heof => List.length_eq_zero_iff.mp ?_⟩
    rw [hlen, heof]
    omega
  · intro p fd f k src r s' ho hwritable hle hok
    exact (ho.write hr.inv hw hwritable hle).ok hok

/-- A version of the empty file `g` is made, then ten bytes are written to `g`. -/
def fileImage.grow : List (ProcNo × Call) :=
  [(0, .versionCreate (some ([103], []))), (0, .open (some ([103], O_RDWR))),
    (0, .write (some (0, List.replicate 10 7)))]

/-- The version is restored while the file is open. -/
def fileImage.shrink : List (ProcNo × Call) := [(0, .versionRestore (some ([103], 0)))]

/-- The file has the offset 10; once the version is restored, it has the size 0. -/
theorem fileImage_grow : ∃ s s', (boot .mkfs fileImage).calls fileImage.grow = some s ∧
    s.calls fileImage.shrink = some s' ∧ (s.ftable 0).off = 10 ∧
    ∃ k : Slot, (s'.ftable 0).type = .inode k ∧ (s'.fs.icache k).din.type = T_FILE ∧
      (s'.ftable 0).off = 10 ∧ (s'.fs.icache k).din.size = 0 := by
  have heval : ((boot .mkfs fileImage).calls fileImage.grow).bind (fun s =>
      (s.calls fileImage.shrink).map fun s' => decide ((s.ftable 0).off = 10 ∧
        ∃ k : Slot, (s'.ftable 0).type = .inode k ∧ (s'.fs.icache k).din.type = T_FILE ∧
          (s'.ftable 0).off = 10 ∧ (s'.fs.icache k).din.size = 0)) = some true := by
    decide +kernel
  obtain ⟨s, hs, hmap⟩ := Option.bind_eq_some_iff.mp heval
  obtain ⟨s', hs', heq⟩ := Option.map_eq_some_iff.mp hmap
  exact ⟨s, s', hs, hs', of_decide_eq_true heq⟩

theorem offsets_within_fileImage : ∃ s, (boot .mkfs fileImage).calls fileImage.grow = some s ∧
    (s.ftable 0).off = 10 ∧ ∀ f k, (s.ftable f).type = .inode k →
      (s.fs.icache k).din.type ≠ T_DEV → (s.ftable f).off ≤ (s.fs.icache k).din.size := by
  obtain ⟨s, -, hs, -, hoff, -⟩ := fileImage_grow
  have hrun : Run CoveringStep _ _ s := (run_of_calls hs).mono_mem fun _ _ e he hstep => by
    refine ⟨hstep, ?_⟩
    rintro p path num i chain v rfl
    simp [fileImage.grow] at he
  exact ⟨s, hs, hoff, (offsets_within fileImage_image hrun).1⟩

/-- A restored version can leave an offset past the end of its file. -/
theorem restore_leaves_offset : ∃ s, (boot .mkfs fileImage).calls
    (fileImage.grow ++ fileImage.shrink) = some s ∧ ∃ k : Slot, (s.ftable 0).type = .inode k ∧
      (s.fs.icache k).din.type ≠ T_DEV ∧ ¬ (s.ftable 0).off ≤ (s.fs.icache k).din.size := by
  obtain ⟨s, s', hs, hs', -, k, hf, htype, hoff, hsize⟩ := fileImage_grow
  refine ⟨s', ?_, k, hf, ?_, ?_⟩
  · rw [calls_append, hs, Option.bind_some, hs']
  · rw [htype]
    decide
  · rw [hoff, hsize]
    decide

end ChronoFS
