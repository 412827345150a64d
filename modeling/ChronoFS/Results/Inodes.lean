import ChronoFS.Spec.Boot
import ChronoFS.Spec.Returns

/-!
# The inode cache

Inode references, inode locks, holes and the agreement of the cache with the disk, over all sequences of
system calls. `recover_file` is the one call that breaks them: it makes a file with a hole if the version
it recovers is larger than the direct blocks, it writes to the current directory without the lock, and it
does not give back its reference to it. The results below hold in every run in which no such call is made.
-/

namespace ChronoFS

open Function

variable {sb : Superblock} {disk : ℕ → Block} {st : Bool} {leak leak' : List Slot} {s s' : Kernel}
  {es : List Event} {e : Event} {t : Fs} {lg : ℕ → Dinode} {p : ProcNo} {c : Call} {r : Reply} {k : Slot}

/-! ## References and locks -/

/-- The step recovers no file: no `recover_file` finds a deleted file that has a version. -/
def NoRecovery (s : Kernel) (e : Event) : Prop :=
  ∀ p name, e = .call p (.recoverFile (some name)) → s.fs.recovers name = none

/-- A step without a recovery. -/
def PlainStep (s : Kernel) (e : Event) (s' : Kernel) : Prop := Step s e s' ∧ NoRecovery s e

/-- A call that recovers no file keeps no reference, and uses no inode without its lock. -/
theorem Effect.balanced (he : Effect st leak p s c r s' leak') (hno : NoRecovery s (.call p c)) :
    leak' = leak ∧ s'.fs.unlocked = s.fs.unlocked := by
  cases he with
  | plain _ hp => exact ⟨rfl, hp.unlocked⟩
  | watched hran | saved hran | reverted hran | unlinked hran => exact ⟨rfl, hran.unlocked rfl⟩
  | forgot => exact ⟨rfl, rfl⟩
  | recovered _ hv =>
    rw [hno _ _ rfl] at hv
    nomatch hv

theorem PlainStep.reached (h : Reached false leak sb s) (hs : PlainStep s e s') :
    Reached false leak sb s' ∧ s'.fs.unlocked = s.fs.unlocked := by
  rcases hs.1.effect h.inv (by nofun) with ⟨p, c, r, leak', rfl, heff⟩ | ⟨-, hp⟩
  · obtain ⟨rfl, hunlocked⟩ := heff.balanced hs.2
    exact ⟨h.done (heff.done h.inv), hunlocked⟩
  · exact ⟨h.done hp.toDone, hp.unlocked⟩

/-- Without a recovery, every reference is held by a file or by a process, and no inode is used without
its lock. -/
theorem PlainStep.run (hI : Image sb disk) (hrun : Run PlainStep (boot sb disk) es s) :
    Reached false [] sb s ∧ s.fs.unlocked = false :=
  hrun.invariant (I := fun s => Reached false [] sb s ∧ s.fs.unlocked = false)
    (fun _ _ _ h hs => ⟨(hs.reached h.1).1, (hs.reached h.1).2.trans h.2⟩) ⟨hI.reached, rfl⟩

/-- In a run without a recovery, the reference count of every slot is the number of places that hold it,
and `iget` panics only if every slot is in use for another inode, with no more references than those
places and two that the call has. -/
theorem references_balanced (hI : Image sb disk) (hrun : Run PlainStep (boot sb disk) es s) :
    (∀ k, (s.fs.icache k).ref = s.holders k) ∧
      ∀ p c t, syscall p c s = .error (.panic .igetNoInodes) t →
        Crowded (∑ k, (s.holders k : ℤ) + 2) t.fs := by
  obtain ⟨hr, -⟩ := PlainStep.run hI hrun
  have hhold : ∀ k, (s.fs.icache k).ref = s.holders k := by
    intro k
    have hk : s.fs.hold k = s.users k := by rw [hr.inv.hold, holds_nil, add_zero]
    rw [hr.inv.users_eq] at hk
    exact congrArg Prod.fst hk
  constructor
  · exact hhold
  · intro p c t herr
    have hcrowd := ((syscall_spec hr.inv (le_refl _) (by nofun)).error herr).crowd rfl
    have htotal : total s.fs.hold = ∑ k, (s.holders k : ℤ) := Finset.sum_congr rfl fun k _ => hhold k
    rwa [htotal] at hcrowd

/-- A version of the file `g` is made, and nothing is recovered. -/
theorem fileImage_plainRun : ∃ s, (boot .mkfs fileImage).calls
    [(0, .versionCreate (some ([103], [])))] = some s ∧
      Run PlainStep (boot .mkfs fileImage) [.call 0 (.versionCreate (some ([103], [])))] s := by
  have hsome : ((boot .mkfs fileImage).calls [(0, .versionCreate (some ([103], [])))]).isSome = true := by
    decide +kernel
  obtain ⟨s, hs⟩ := Option.isSome_iff_exists.mp hsome
  refine ⟨s, hs, ?_⟩
  cases run_of_calls hs with
  | cons hstep hrest =>
    cases hrest
    exact .cons ⟨hstep, by nofun⟩ (.nil s)

theorem references_balanced_fileImage : ∃ s, (boot .mkfs fileImage).calls
    [(0, .versionCreate (some ([103], [])))] = some s ∧ ∀ k, (s.fs.icache k).ref = s.holders k := by
  obtain ⟨s, hs, hrun⟩ := fileImage_plainRun
  exact ⟨s, hs, (references_balanced fileImage_image hrun).1⟩

/-- In a run without a recovery, no inode is ever used without its lock, and no call returns with an
inode locked. -/
theorem locking_discipline (hI : Image sb disk) (hrun : Run PlainStep (boot sb disk) es s) :
    s.fs.unlocked = false ∧ ∀ k, (s.fs.icache k).locked = false := by
  obtain ⟨hr, hunlocked⟩ := PlainStep.run hI hrun
  exact ⟨hunlocked, hr.inv.not_locked rfl⟩

theorem locking_discipline_fileImage : ∃ s, (boot .mkfs fileImage).calls
    [(0, .versionCreate (some ([103], [])))] = some s ∧ s.fs.unlocked = false := by
  obtain ⟨s, hs, hrun⟩ := fileImage_plainRun
  exact ⟨s, hs, (locking_discipline fileImage_image hrun).1⟩

/-- The file `g` is removed and recovered: the slot of the root directory then has two references, although
only the first process holds it, and the directory was written without its lock. -/
theorem fileImage_recovery : ∃ s, (boot .mkfs fileImage).calls
    [(0, .versionCreate (some ([103], []))), (0, .unlink (some [103])), (0, .recoverFile (some [103]))] =
      some s ∧ (s.fs.icache 0).ref = 2 ∧ s.holders 0 = 1 ∧ s.fs.unlocked = true := by
  have heval : ((boot .mkfs fileImage).calls [(0, .versionCreate (some ([103], []))),
      (0, .unlink (some [103])), (0, .recoverFile (some [103]))]).map (fun s =>
        decide ((s.fs.icache 0).ref = 2 ∧ s.holders 0 = 1 ∧ s.fs.unlocked = true)) = some true := by
    decide +kernel
  obtain ⟨s, hs, heq⟩ := Option.map_eq_some_iff.mp heval
  exact ⟨s, hs, of_decide_eq_true heq⟩

/-- A recovery leaves a reference that nothing holds. -/
theorem recover_leaks_reference : ∃ s, (boot .mkfs fileImage).calls
    [(0, .versionCreate (some ([103], []))), (0, .unlink (some [103])), (0, .recoverFile (some [103]))] =
      some s ∧ (s.fs.icache 0).ref ≠ s.holders 0 := by
  obtain ⟨s, hs, href, hholders, -⟩ := fileImage_recovery
  refine ⟨s, hs, ?_⟩
  rw [href, hholders]
  decide

/-- A recovery uses an inode without its lock. -/
theorem recover_without_lock : ∃ s, (boot .mkfs fileImage).calls
    [(0, .versionCreate (some ([103], []))), (0, .unlink (some [103])), (0, .recoverFile (some [103]))] =
      some s ∧ s.fs.unlocked = true := by
  obtain ⟨s, hs, -, -, hunlocked⟩ := fileImage_recovery
  exact ⟨s, hs, hunlocked⟩

/-! ## Holes, and the disk's copies of the inodes -/

/-- A step in which every file that is recovered fits into the direct blocks. -/
def SmallStep (s : Kernel) (e : Event) (s' : Kernel) : Prop :=
  Step s e s' ∧ ∀ p c, e = .call p c → Recoverable s.fs c

theorem SmallStep.run (hI : Image sb disk) (hrun : Run SmallStep (boot sb disk) es s) :
    ∃ leak, Reached true leak sb s :=
  hrun.invariant (I := fun s => ∃ leak, Reached true leak sb s)
    (fun _ _ _ ⟨_, hr⟩ hs => hr.step hs.1 fun _ => hs.2) ⟨[], hI.reached⟩

/-- Nothing is written. -/
def Unwritten (t t' : Fs) : Prop := t'.disk = t.disk ∧ t'.lh = t.lh

theorem unwritten_blind : Blind Unwritten where
  refl := fun _ => ⟨rfl, rfl⟩
  trans := fun _ _ _ h h' => ⟨h'.1.trans h.1, h'.2.trans h.2⟩
  icache := fun _ _ => ⟨rfl, rfl⟩
  unlocked := fun _ => ⟨rfl, rfl⟩
  io := fun _ _ => ⟨rfl, rfl⟩

/-- Reading a file without holes does not get to `log_write`. -/
theorem readi_unwritten (h : Core true none none lg [] t) (hk : (t.icache k).Live) (ha : t.Audited k)
    (off n : UInt32) : wp (readi k off n) (fun _ t' => Unwritten t t') (fun e _ => ¬ e.Log) t := by
  by_cases hdev : (t.icache k).din.type = T_DEV
  · unfold readi
    rw [wp_bind, wp_uses ha, wp_bind, wp_inode, if_pos hdev, wp_ite]
    constructor
    · exact fun _ => unwritten_blind.refl t
    · exact fun _ => unwritten_blind.consoleread (fun _ he => he) k _ t
  · have hnode := h.node_of_live hk
    exact wp_readi_full (h.openWin hk ha).owns hdev (hnode.noHoles (.inl rfl)) (unwritten_blind.refl t)

theorem fileread_unwritten (h : KInv true leak s) (f : FileNo) (n : UInt32) :
    wp (fileread f n) (fun _ s' => Unwritten s.fs s'.fs) (fun e _ => ¬ e.Log) s := by
  have hR := unwritten_blind
  obtain ⟨lg, hcore⟩ := h.inv
  unfold fileread
  rw [wp_bind, wp_file, wp_ite]
  constructor
  · exact fun _ => hR.refl _
  · intro _
    cases hf : (s.ftable f).type with
    | pipe =>
      dsimp only
      rw [wp_bind, wp_fs]
      unfold pipeIO
      rw [wp_bind, wp_get]
      split
      · show ¬ Halt.sleep.Log
        decide
      · rw [wp_bind, wp_modify, wp_pure]
        exact hR.io _ _
    | none =>
      show ¬ (Halt.panic .fileread).Log
      decide
    | inode k =>
      have hlock : wp (ilock k) (fun _ t => At true none s.fs s.fs [] [k] t ∧ Peeked s.fs.hold s.fs t)
          (fun e _ => ¬ e.Log) s.fs := by
        refine (At.start hcore).wp_ilock (h.file_pos hf) (fun _ => by decide) (fun _ _ => by decide) ?_
        exact fun t hat hpeek _ => ⟨hat, hpeek⟩
      dsimp only
      rw [wp_bind, wp_fs]
      refine wp_mono hlock ?_ fun _ _ => id
      rintro _ t1 ⟨h1, hpeek⟩
      obtain ⟨lg1, hcore1⟩ := h1.core
      have hfirst : Unwritten s.fs t1 := by
        rw [hpeek.only]
        exact hR.icache _ _
      rw [wp_bind, wp_fs, withFs_fs]
      refine wp_mono (readi_unwritten hcore1 (h1.live k List.mem_cons_self)
        (h1.audited List.mem_cons_self) _ n) ?_ fun _ _ => id
      intro r t2 hread
      rw [wp_bind]
      refine wp_advance fun o _ _ => ?_
      rw [wp_bind, wp_fs]
      refine wp_mono (hR.iunlock (E := fun e => ¬ e.Log) (fun _ he => he) k t2) ?_ fun _ _ => id
      intro _ t3 hunlock
      rw [wp_pure]
      exact hR.trans _ _ _ hfirst (hR.trans _ _ _ hread hunlock)

theorem sysRead_unwritten (h : KInv true leak s) (args : Option (ℤ × UInt32)) :
    wp (syscall p (.read args)) (fun _ s' => Unwritten s.fs s'.fs) (fun e _ => ¬ e.Log) s := by
  have hself : Unwritten s.fs s.fs := unwritten_blind.refl _
  unfold syscall
  rw [wp_bind, wp_proc]
  dsimp only
  rw [wp_bind]
  rcases args with _ | ⟨fd, n⟩
  · exact hself
  · unfold sysRead
    rw [wp_bind]
    refine wp_argfd fun r => ?_
    rcases r with _ | ⟨i, f⟩
    · exact hself
    · exact fileread_unwritten h f n

/-- In a run in which every file that is recovered fits into the direct blocks, no file has a hole; so a
`read` writes nothing, and does not get to `log_write`. -/
theorem no_holes (hI : Image sb disk) (hrun : Run SmallStep (boot sb disk) es s) :
    (∀ i, (s.fs.inodes i).type = T_FILE ∨ (s.fs.inodes i).type = T_DIR →
        (s.fs.inodes i).NoHoles s.fs.view.block) ∧
      (∀ p args r s', syscall p (.read args) s = .ok r s' → s'.fs.disk = s.fs.disk) ∧
      ∀ p args e s', syscall p (.read args) s = .error e s' →
        e ≠ .panic .tooBig ∧ e ≠ .panic .outsideTrans := by
  obtain ⟨leak, hr⟩ := SmallStep.run hI hrun
  obtain ⟨lg, hcore⟩ := hr.inv.inv
  refine ⟨fun i htype => ?_, fun p args r s' hok => ?_, fun p args e s' herr => ?_⟩
  · rw [hcore.inodes] at htype ⊢
    have hne : (lg i).type ≠ 0 := by
      rcases htype with htype | htype <;> rw [htype] <;> decide
    exact (hcore.node i (by nofun) hne).noHoles (.inl rfl)
  · exact ((sysRead_unwritten hr.inv args).ok hok).1
  · have hlog : ¬ e.Log := (sysRead_unwritten hr.inv args).error herr
    exact not_or.mp hlog

/-- The inode in slot `k` leaves the cache: it has to be read from disk again. -/
def Fs.evict (t : Fs) (k : Slot) : Fs := t.setSlot k { t.icache k with valid := false }

/-- A cached inode is on disk as it is in memory. -/
theorem Core.disk_eq (h : Core true none none lg [] t) (hk : (t.icache k).Live) :
    (t.icache k).din = t.view.dinode (t.icache k).inum.toNat := by
  obtain ⟨-, hsync, -⟩ := h.cache.cached k hk (by nofun)
  exact (hsync.exact (.inl rfl)).symm

/-- What `ilock` finds: the cached inode, or else the disk's. -/
def Fs.loaded (t : Fs) (k : Slot) : Dinode :=
  if (t.icache k).valid then (t.icache k).din else t.dinode (t.icache k).inum.toNat

theorem ilock_eq (hk : 0 < (t.icache k).ref) (hfree : (t.icache k).locked = false)
    (htype : (t.icache k).valid = false → (t.loaded k).type ≠ 0) :
    ilock k t = .ok () (t.setSlot k { t.icache k with
      locked := true, valid := true, din := t.loaded k }) := by
  have hwp : wp (ilock k) (fun _ t' => t' = t.setSlot k { t.icache k with
      locked := true, valid := true, din := t.loaded k }) (fun _ _ => False) t := by
    unfold ilock
    rw [wp_bind, wp_inode, if_neg (by omega), wp_bind]
    refine wp_acquiresleep (fun hl => ?_) fun _ => ?_
    · rw [hfree] at hl
      nomatch hl
    · rw [wp_bind, wp_get, wp_bind, wp_inode, setSlot_self]
      by_cases hv : (t.icache k).valid = true
      · rw [if_pos hv, wp_pure]
        unfold Fs.loaded
        rw [if_pos hv, ← hv]
      · rw [if_neg hv, wp_bind, wp_setInode, setSlot_setSlot, setSlot_self]
        have hload : t.loaded k = t.dinode (t.icache k).inum.toNat := if_neg hv
        rw [hload] at htype ⊢
        rw [Bool.not_eq_true] at hv
        rw [wp_ite]
        exact ⟨fun h0 => absurd h0 (htype hv), fun _ => rfl⟩
  obtain ⟨_, t', ht', rfl⟩ := hwp.returns
  exact ht'

/-- So it may leave the cache: `ilock` gets it back as it was. -/
theorem Core.ilock_evict (h : Core true none none lg [] t) (hk : (t.icache k).Live)
    (hfree : (t.icache k).locked = false) : ilock k (t.evict k) = ilock k t := by
  have hload : t.loaded k = (t.icache k).din := if_pos hk.2
  have hevict : (t.evict k).loaded k = (t.icache k).din := by
    unfold Fs.loaded Fs.evict
    rw [setSlot_self, if_neg (by nofun), h.disk_eq hk]
    exact dinode_eq_view (h.cache.inum k hk.1)
  have htype : (t.icache k).din.type ≠ 0 := (h.cache.cached k hk (by nofun)).2.2
  rw [ilock_eq hk.1 hfree fun _ => hload ▸ htype,
    ilock_eq (t := t.evict k) (by unfold Fs.evict; rw [setSlot_self]; exact hk.1)
      (by unfold Fs.evict; rw [setSlot_self]; exact hfree) fun _ => hevict ▸ htype, hload, hevict]
  unfold Fs.evict
  rw [setSlot_setSlot, setSlot_self]

/-- One pass of `filewrite`. -/
def writeOp (k : Slot) (src : List UInt8) (off : UInt32) : FsM (Option ℕ) := do
  beginOp
  ilock k
  let r ← writei k src off
  iunlock k
  endOp
  return r

/-- `ilock` and `readi` on a file without holes. -/
theorem Core.wp_lock_readi (h : Core true none none lg [] t) (hk : (t.icache k).Live)
    (hfree : (t.icache k).locked = false) (hdev : (t.icache k).din.type ≠ T_DEV) (off n : UInt32) :
    wp (do ilock k; readi k off n) (fun r _ => r =
      if off > (t.icache k).din.size ∨ off + n < off then none else
        some (t.bytes k off.toNat (min n.toNat ((t.icache k).din.size.toNat - off.toNat))))
      (fun _ _ => False) t := by
  rw [wp_bind]
  refine wp_ilock h hk.1 (fun hl => ?_) (fun _ hv => ?_) fun t1 hlook hhold _ hlive1 _ _ => ?_
  · rw [hfree] at hl
    nomatch hl
  · rw [hk.2] at hv
    nomatch hv
  · obtain ⟨-, -, hload⟩ := hlook.slot k hk.1
    have hdin := (hload hk.2).2
    have hnode := hlook.core.node_of_live hlive1
    refine wp_readi_full (hlook.core.openWin hlive1 (audited_of_lock hhold hfree)).owns (hdin ▸ hdev)
      (hnode.noHoles (.inl rfl)) ?_
    have hbytes : t1.bytes k = t.bytes k := by
      unfold Fs.bytes Fs.byteAt Fs.content
      rw [hdin, hlook.view]
    rw [hdin, hbytes]

/-- The state after a write that succeeded. -/
structure Stored (k : Slot) (src : List UInt8) (off : UInt32) (n : ℕ) (t : Fs) : Prop where
  /-- The invariant holds. -/
  core : ∃ lg, Core true none none lg [] t
  /-- The inode is loaded. -/
  live : (t.icache k).Live
  /-- It is not a device. -/
  type : (t.icache k).din.type ≠ T_DEV
  /-- It is not locked. -/
  free : (t.icache k).locked = false
  /-- All bytes were written. -/
  length : n = src.length
  /-- They are within the file. -/
  size : off.toNat + src.length ≤ (t.icache k).din.size.toNat
  /-- They are what the file has there. -/
  bytes : t.bytes k off.toNat src.length = src

theorem writeOp_spec (h : KInv true leak s) {f : FileNo} (hf : (s.ftable f).type = .inode k)
    (hw : (s.ftable f).writable = true) (hdev : (s.fs.icache k).din.type ≠ T_DEV) {src : List UInt8}
    {off : UInt32} (hlen : src.length < 2 ^ 32) :
    wp (writeOp k src off) (fun r t => ∀ n, r = some n → Stored k src off n t) (fun _ _ => True) s.fs := by
  obtain ⟨lg, hcore⟩ := h.inv
  have hlive := h.live hf
  have hat := At.begin hcore
  unfold writeOp
  rw [wp_bind]
  refine wp_beginOp h.quiet ?_
  refine wp_of_spec (hat.ilock (T := 0) hlive.1) (fun _ _ _ => trivial) ?_
  rintro _ t1 ⟨h1, hpeek1, -⟩
  obtain ⟨lg1, hcore1⟩ := h1.core
  have hlive1 := h1.live k List.mem_cons_self
  have htype1 := hpeek1.calm.type (k := k) hlive.1 hlive
  have hdir1 : (t1.icache k).din.type ≠ T_DIR := htype1 ▸ (h.opened f k hf).2 hw
  have hdev1 : (t1.icache k).din.type ≠ T_DEV := htype1 ▸ hdev
  refine wp_of_spec (writei_spec (E := fun _ _ => True) hcore1 hlive1 (h1.audited List.mem_cons_self)
    (fun _ _ _ => trivial) hlen fun heq => absurd heq hdir1) (fun _ _ _ => trivial) ?_
  rintro r t2 ⟨hkept, hres⟩
  have h2 := h1.mark.kept hkept
  have hlive2 := h2.live k List.mem_cons_self
  obtain ⟨lg2, hcore2⟩ := h2.core
  refine wp_of_spec (h2.iunlock (T := 0)) (fun _ _ _ => trivial) ?_
  rintro _ t3 ⟨h3, hpeek3⟩
  rw [wp_bind]
  refine h3.endOp fun hran _ => ?_
  rw [wp_pure]
  intro n hn
  rcases hres hdev1 with ⟨hnone, -⟩ | ⟨hsome, lg', hwrote⟩
  · rw [hnone] at hn
    nomatch hn
  · obtain rfl : src.length = n := Option.some.inj (hsome.symm.trans hn)
    -- the inode is the same once it is unlocked
    obtain ⟨lg3, hcore3⟩ := h3.core
    have hlive3 : (t3.icache k).Live :=
      hpeek3.calm.live hlive2.1 hlive2 (h3.pos_of_base hlive.1)
    have hdin3 : (t3.icache k).din = (t2.icache k).din := by
      rw [hcore3.din hlive3, hcore2.din hlive2, hpeek3.inodes, (hpeek3.calm.slot k hlive2.1).inum]
    have hbytes3 : t3.bytes k = t2.bytes k := by
      unfold Fs.bytes Fs.byteAt Fs.content
      rw [hdin3, hpeek3.view]
    refine ⟨hran.inv, hlive3, ?_, ?_, rfl, ?_, ?_⟩
    · show (t3.icache k).din.type ≠ T_DEV
      rw [hdin3, hwrote.type]
      exact hdev1
    · exact h.not_locked (by rw [hran.hold, holds_nil, add_zero]) k
    · show _ ≤ (t3.icache k).din.size.toNat
      rw [hdin3, hwrote.size]
      exact le_max_right _ _
    · show t3.bytes k off.toNat src.length = src
      rw [hbytes3]
      unfold Fs.bytes
      refine List.ext_getElem (by simp) fun j hj hj' => ?_
      rw [List.getElem_map, List.getElem_range, hwrote.byteAt, if_pos ⟨by omega, by omega⟩,
        Nat.add_sub_cancel_left, List.getD_eq_getElem _ _ hj']

/-- What is written and read again is what was written, even if the inode leaves the cache in between. -/
theorem Stored.readBack {src : List UInt8} {off : UInt32} {n : ℕ} (h : Stored k src off n t) :
    ∃ t', (do ilock k; readi k off (.ofNat n)) (t.evict k) = .ok (some src) t' := by
  obtain ⟨lg, hcore⟩ := h.core
  have hsize := h.size
  have hlt := UInt32.toNat_lt (t.icache k).din.size
  have hn : (UInt32.ofNat n).toNat = src.length := by
    rw [h.length]
    exact UInt32.toNat_ofNat_of_lt' (show src.length < 2 ^ 32 by omega)
  have hread := hcore.wp_lock_readi h.live h.free h.type off (.ofNat n)
  have hgood : ¬ (off > (t.icache k).din.size ∨ off + .ofNat n < off) := by
    rw [gt_iff_lt, UInt32.lt_iff_toNat_lt, UInt32.lt_iff_toNat_lt, UInt32.toNat_add, hn]
    omega
  have hmin : min (UInt32.ofNat n).toNat ((t.icache k).din.size.toNat - off.toNat) = src.length := by
    omega
  rw [if_neg hgood, hmin, h.bytes] at hread
  obtain ⟨r, t', hrun, rfl⟩ := hread.returns
  refine ⟨t', ?_⟩
  rw [← hrun]
  show EStateM.bind (ilock k) _ (t.evict k) = EStateM.bind (ilock k) _ t
  unfold EStateM.bind
  rw [hcore.ilock_evict h.live h.free]

/-- In a run in which every file that is recovered fits into the direct blocks, the inode cache agrees with
the disk. So an inode may leave the cache and be read from disk again, and what was written to it is
then read back. -/
theorem write_through (hI : Image sb disk) (hrun : Run SmallStep (boot sb disk) es s) :
    (∀ k, 0 < (s.fs.icache k).ref → (s.fs.icache k).valid = true →
        (s.fs.icache k).din = s.fs.view.dinode (s.fs.icache k).inum.toNat ∧
          ilock k (s.fs.evict k) = ilock k s.fs) ∧
      ∀ f k, (s.ftable f).type = .inode k → (s.ftable f).writable = true →
        (s.fs.icache k).din.type ≠ T_DEV → ∀ (src : List UInt8) (off : UInt32) (n : ℕ) (t : Fs),
          src.length < 2 ^ 32 → writeOp k src off s.fs = .ok (some n) t →
            ∃ t', (do ilock k; readi k off (.ofNat n)) (t.evict k) = .ok (some src) t' := by
  obtain ⟨leak, hr⟩ := SmallStep.run hI hrun
  obtain ⟨lg, hcore⟩ := hr.inv.inv
  constructor
  · intro k hk hv
    exact ⟨hcore.disk_eq ⟨hk, hv⟩, hcore.ilock_evict ⟨hk, hv⟩ (hr.inv.not_locked rfl k)⟩
  · intro f k hf hw hdev src off n t hlen hok
    exact ((writeOp_spec hr.inv hf hw hdev hlen).ok hok n rfl).readBack

/-- Both hold on the image after a version of `g` was made. -/
theorem fileImage_smallRun : ∃ s, (boot .mkfs fileImage).calls
    [(0, .versionCreate (some ([103], [])))] = some s ∧
      Run SmallStep (boot .mkfs fileImage) [.call 0 (.versionCreate (some ([103], [])))] s := by
  obtain ⟨s, hs, hrun⟩ := fileImage_plainRun
  refine ⟨s, hs, hrun.mono fun s1 e s2 hstep => ⟨hstep.1, ?_⟩⟩
  rintro p c rfl name v rfl hv
  rw [hstep.2 p name rfl] at hv
  nomatch hv

theorem no_holes_fileImage : ∃ s, (boot .mkfs fileImage).calls
    [(0, .versionCreate (some ([103], [])))] = some s ∧
      ∀ i, (s.fs.inodes i).type = T_FILE ∨ (s.fs.inodes i).type = T_DIR →
        (s.fs.inodes i).NoHoles s.fs.view.block := by
  obtain ⟨s, hs, hrun⟩ := fileImage_smallRun
  exact ⟨s, hs, (no_holes fileImage_image hrun).1⟩

theorem write_through_fileImage : ∃ s, (boot .mkfs fileImage).calls
    [(0, .versionCreate (some ([103], [])))] = some s ∧
      ∀ k, 0 < (s.fs.icache k).ref → (s.fs.icache k).valid = true →
        (s.fs.icache k).din = s.fs.view.dinode (s.fs.icache k).inum.toNat := by
  obtain ⟨s, hs, hrun⟩ := fileImage_smallRun
  exact ⟨s, hs, fun k hk hv => ((write_through fileImage_image hrun).1 k hk hv).1⟩

/-- A version of `f`, which has eleven blocks, is made, and `f` is removed and recovered. -/
def fileImage.recovery : List (ProcNo × Call) :=
  [(0, .versionCreate (some ([102], []))), (0, .unlink (some [102])), (0, .recoverFile (some [102]))]

/-- A byte is written to the eleventh block of `f`. -/
def fileImage.fill : List (ProcNo × Call) :=
  [(0, .open (some ([102], O_RDWR))), (0, .read (some (0, 5120))), (0, .write (some (0, [7])))]

/-- The recovered file has its size, but no eleventh block; once one is allocated, the disk's copy of the
inode does not have it. -/
theorem fileImage_hole : ∃ s s', (boot .mkfs fileImage).calls fileImage.recovery = some s ∧
    s.calls fileImage.fill = some s' ∧
    ((s.fs.inodes 2).type = T_FILE ∧ (s.fs.inodes 2).size = 5632 ∧
      (s.fs.inodes 2).map s.fs.view.block 10 = 0) ∧
    ∃ k : Slot, 0 < (s'.fs.icache k).ref ∧ (s'.fs.icache k).valid = true ∧
      (s'.fs.icache k).din.indirect ≠ (s'.fs.view.dinode (s'.fs.icache k).inum.toNat).indirect := by
  have heval : ((boot .mkfs fileImage).calls fileImage.recovery).bind (fun s =>
      (s.calls fileImage.fill).map fun s' => decide (((s.fs.inodes 2).type = T_FILE ∧
        (s.fs.inodes 2).size = 5632 ∧ (s.fs.inodes 2).map s.fs.view.block 10 = 0) ∧
        ∃ k : Slot, 0 < (s'.fs.icache k).ref ∧ (s'.fs.icache k).valid = true ∧
          (s'.fs.icache k).din.indirect ≠ (s'.fs.view.dinode (s'.fs.icache k).inum.toNat).indirect)) =
      some true := by
    decide +kernel
  obtain ⟨s, hs, hmap⟩ := Option.bind_eq_some_iff.mp heval
  obtain ⟨s', hs', heq⟩ := Option.map_eq_some_iff.mp hmap
  exact ⟨s, s', hs, hs', of_decide_eq_true heq⟩

/-- A recovered file can have a hole. -/
theorem recover_makes_hole : ∃ s, (boot .mkfs fileImage).calls fileImage.recovery = some s ∧
    (s.fs.inodes 2).type = T_FILE ∧ ¬ (s.fs.inodes 2).NoHoles s.fs.view.block := by
  obtain ⟨s, -, hs, -, ⟨htype, hsize, hmap⟩, -⟩ := fileImage_hole
  refine ⟨s, hs, htype, fun hno => hno 10 ?_ hmap⟩
  rw [hsize]
  decide

/-- A write to a recovered file can leave the disk's copy of its inode behind. -/
theorem recover_breaks_writeThrough : ∃ s, (boot .mkfs fileImage).calls
    (fileImage.recovery ++ fileImage.fill) = some s ∧ ∃ k : Slot, 0 < (s.fs.icache k).ref ∧
      (s.fs.icache k).valid = true ∧
      (s.fs.icache k).din ≠ s.fs.view.dinode (s.fs.icache k).inum.toNat := by
  obtain ⟨s, s', hs, hs', -, k, hk, hv, hne⟩ := fileImage_hole
  refine ⟨s', ?_, k, hk, hv, fun heq => hne (congrArg Dinode.indirect heq)⟩
  rw [calls_append, hs, Option.bind_some, hs']

end ChronoFS
