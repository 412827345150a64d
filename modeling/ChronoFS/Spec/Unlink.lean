import ChronoFS.Spec.Syscall

/-!
# `sys_unlink`

Before it removes the last name of a file that has versions, `sys_unlink` notes the file in the table
of deleted files (`Fs.track`). The entry that it clears is never the first of its directory: that one is
`.`, which `sys_unlink` refuses to remove. So the directory stays one.
-/

namespace ChronoFS

open Function

variable {st : Bool} {w fr : Option ℕ} {lg lg' : ℕ → Dinode} {hand : List ℕ} {s₀ m s s' s'' : Fs}
  {k dp ip : Slot} {refs locks leak : List Slot} {i : ℕ} {T : ℤ} {E : Halt → Fs → Prop}
  {H H' : Slot → ℤ × ℤ} {cwd : Option Slot} {name : List UInt8}

/-! ## The table of deleted files -/

/-- The file system after `add_deleted_file`. -/
def Fs.addDeleted (s : Fs) (name : List UInt8) (inum head : UInt32) : Fs :=
  match (List.finRange MAX_DELETED_FILES).find? fun e => !(s.deleted e).valid with
  | none => s
  | some e => { s with deleted := update s.deleted e ⟨name, inum, head, s.ticks, true⟩ }

theorem wp_addDeletedFile {Q : Unit → Fs → Prop} {inum head : UInt32}
    (hok : Q () (s.addDeleted name inum head)) : wp (addDeletedFile name inum head) Q E s := by
  unfold addDeletedFile
  rw [wp_bind, wp_get]
  unfold Fs.addDeleted at hok
  cases hfind : (List.finRange MAX_DELETED_FILES).find? fun e => !(s.deleted e).valid with
  | none =>
    rw [hfind] at hok
    exact hok
  | some e =>
    rw [hfind] at hok
    exact hok

/-- What `add_deleted_file` leaves alone. -/
theorem addDeleted_eq (s : Fs) (name : List UInt8) (inum head : UInt32) :
    s.addDeleted name inum head =
      { s with deleted := (s.addDeleted name inum head).deleted } := by
  unfold Fs.addDeleted
  cases (List.finRange MAX_DELETED_FILES).find? fun e => !(s.deleted e).valid with
  | none => rfl
  | some e => rfl

/-- An entry that was valid stays; a new one has the chain. -/
theorem addDeleted_deleted (s : Fs) (name : List UInt8) (inum head : UInt32)
    (e : Fin MAX_DELETED_FILES) :
    (s.addDeleted name inum head).deleted e = s.deleted e ∨
      (s.deleted e).valid = false ∧
        (s.addDeleted name inum head).deleted e = ⟨name, inum, head, s.ticks, true⟩ := by
  unfold Fs.addDeleted
  cases hfind : (List.finRange MAX_DELETED_FILES).find? fun e => !(s.deleted e).valid with
  | none => exact .inl rfl
  | some e' =>
    by_cases he : e = e'
    · have hinvalid := List.find?_some hfind
      subst he
      exact .inr ⟨by simpa using hinvalid, update_self ..⟩
    · exact .inl (update_of_ne he ..)

theorem Core.addDeleted (h : Core st w fr lg hand s) {inum head : UInt32} {c : List Version}
    (hc : Chain s.versions head c) : Core st w fr lg hand (s.addDeleted name inum head) := by
  have hcases := addDeleted_deleted s name inum head
  rw [addDeleted_eq]
  refine { h with deleted := fun e he => ?_, found := fun v hv => ?_ }
  · rcases hcases e with hsame | ⟨-, hnew⟩
    · rw [hsame] at he ⊢
      exact h.deleted e he
    · refine ⟨c, ?_⟩
      show Chain s.versions ((s.addDeleted name inum head).deleted e).versionHead c
      rw [hnew]
      exact hc
  · refine (h.found v hv).imp_right (Or.imp_left ?_)
    rintro ⟨e, he, hreach⟩
    rcases hcases e with hsame | ⟨hinvalid, -⟩
    · refine ⟨e, ?_⟩
      show ((s.addDeleted name inum head).deleted e).valid ∧
        Reaches s.versions ((s.addDeleted name inum head).deleted e).versionHead v
      rw [hsame]
      exact ⟨he, hreach⟩
    · rw [hinvalid] at he
      cases he

/-- The file system after `sys_unlink` has noted the inode `i`, if it is a file with versions. -/
def Fs.track (s : Fs) (name : List UInt8) (i : ℕ) : Fs :=
  if (s.inodes i).type = T_FILE ∧ (s.inodes i).versionHead ≠ 0 then
    s.addDeleted name (.ofNat i) (s.inodes i).versionHead
  else s

theorem track_eq (s : Fs) (name : List UInt8) (i : ℕ) :
    s.track name i = { s with deleted := (s.track name i).deleted } := by
  unfold Fs.track
  split
  · exact addDeleted_eq ..
  · rfl

/-- The table depends on the table, the time and the inode alone. -/
theorem track_deleted (hd : s'.deleted = s.deleted) (ht : s'.ticks = s.ticks)
    (hi : s'.inodes = s.inodes) (name : List UInt8) (i : ℕ) :
    (s'.track name i).deleted = (s.track name i).deleted := by
  unfold Fs.track Fs.addDeleted
  rw [hi, hd, ht]
  split
  · cases (List.finRange MAX_DELETED_FILES).find? fun e => !(s.deleted e).valid with
    | none => exact hd
    | some e => rfl
  · exact hd

theorem trackDeleted_spec (h : At st none s₀ m refs locks s) (hip : ip ∈ locks) :
    wp (trackDeleted ip name) (fun _ s' => s' = s.track name (s.icache ip).inum.toNat ∧
      At st none s₀ s' refs locks s') E s := by
  obtain ⟨lg, hcore⟩ := h.core
  have hlive := h.live ip hip
  obtain ⟨hlg, -⟩ := hcore.cache.cached ip hlive (by nofun)
  have hnode : s.inodes (s.icache ip).inum.toNat = (s.icache ip).din := by rw [hcore.inodes, hlg]
  have hinum : UInt32.ofNat (s.icache ip).inum.toNat = (s.icache ip).inum := UInt32.ofNat_toNat
  unfold trackDeleted Fs.track
  rw [wp_bind, wp_inode, wp_ite, hnode, hinum]
  refine ⟨fun hc => ?_, fun hc => ?_⟩
  · rw [if_pos hc]
    refine wp_addDeletedFile ⟨rfl, ?_⟩
    obtain ⟨c, hchain, -⟩ := (hcore.node_of_live hlive).chain
    have hcore' : Core _ _ _ _ _ (s.addDeleted name (s.icache ip).inum _) :=
      hcore.addDeleted hchain
    have heq := addDeleted_eq s name (s.icache ip).inum (s.icache ip).din.versionHead
    refine h.step ⟨lg, hcore'⟩ ?_ ?_
    · rw [heq]
      rfl
    · rw [heq]
      exact ⟨rfl, rfl, rfl, rfl, rfl, List.prefix_rfl, fun _ _ => .refl _⟩
  · rw [if_neg hc]
    exact ⟨rfl, { h with since := .refl _ _ }⟩

/-! ## `isdirempty` -/

theorem canUnlink_spec (h : At st fr s₀ m refs locks s) (hip : ip ∈ locks) :
    wp (canUnlink ip) (fun _ s' => s' = s) (Halts T) s := by
  obtain ⟨lg, hcore⟩ := h.core
  have hsize := (s.icache ip).din.size.toNat_lt
  unfold canUnlink
  rw [wp_bind, wp_inode, wp_ite]
  refine ⟨fun hdir => ?_, fun _ => rfl⟩
  unfold isdirempty
  rw [wp_bind, wp_inode]
  refine wp_of_spec (direntScan_spec (hcore.openWin (h.live ip hip) (h.audited hip)).owns hdir
    (hcore.noHoles_dir (h.live ip hip) hdir) _ _
    (fun off hoff => (direntOffsets_lt _ (by decide) hsize hoff).1)
    fun _ => Halt.Benign.halts (e := .panic .isdiremptyReadi) ⟨by decide, by decide⟩)
    (fun _ _ => id) ?_
  rintro r s1 ⟨rfl, -, -, -⟩
  rfl

/-! ## Removing an entry -/

/-- A name that is not `.` is not that of the first entry. -/
theorem Core.lookup_pos (h : Core st none none lg hand s) (hk : (s.icache dp).Live)
    (hdir : (s.icache dp).din.type = T_DIR) {off : ℕ} (hoff : s.lookup dp name = some off)
    (hname : ¬ namecmp name DOT) : DIRENT_SIZE ≤ off := by
  have hsize := (s.icache dp).din.size.toNat_lt
  have hal := (direntOffsets_lt 0 (by decide) hsize (List.mem_of_find?_eq_some hoff)).2
  have htest : nameTest name (s.dirent dp off) = true :=
    List.find?_some (p := fun off => nameTest name (s.dirent dp off)) hoff
  obtain ⟨-, -, -, hdot⟩ := h.dot hk hdir (by nofun)
  have htest0 : nameTest DOT (s.dirent dp 0) = true :=
    List.find?_some (p := fun off => nameTest DOT (s.dirent dp off)) hdot
  have hne : off ≠ 0 := by
    rintro rfl
    refine hname ?_
    unfold nameTest namecmp at htest htest0
    rw [Bool.and_eq_true, beq_iff_eq] at htest htest0
    unfold namecmp
    rw [beq_iff_eq, htest.2, ← htest0.2]
  simp only [DIRENT_SIZE] at *
  omega

/-- An entry of zeroes is a free entry. -/
theorem dirWrite_clear (h : s.sb.Valid) {off : ℕ} (hal : off % DIRENT_SIZE = 0)
    (hoff : DIRENT_SIZE ≤ off) :
    DirWrite s.sb.ninodes fr i (List.replicate DIRENT_SIZE 0) off := by
  refine ⟨List.length_replicate, hal, ?_, fun _ => hoff⟩
  have hzero : (Dirent.read (fun j => (List.replicate DIRENT_SIZE (0 : UInt8)).getD j 0) 0).inum = 0 := by
    decide
  rw [hzero]
  exact ninodes_pos h

theorem unlinkEntry_spec (h : At st none (s₀.setOp 1 [] s₀.ops) m [ip, dp] [ip, dp] s) {off : ℕ}
    (hal : off % DIRENT_SIZE = 0) (hoff : DIRENT_SIZE ≤ off) (hlt : off < 2 ^ 32) :
    wp (unlinkEntry dp ip name off) (fun r s' => r = 0 ∧ Ran st [] s₀ s' ∧
      Ordinary s₀.hold (s.track name (s.icache ip).inum.toNat) s') (Halts T) s := by
  unfold unlinkEntry
  refine wp_of_spec (trackDeleted_spec h List.mem_cons_self) (fun _ _ => id) ?_
  rintro _ s1 ⟨rfl, h1⟩
  generalize s.track name (s.icache ip).inum.toNat = s1 at h1 ⊢
  obtain ⟨lg1, hcore1⟩ := h1.core
  have htoNat : (UInt32.ofNat off).toNat = off := UInt32.toNat_ofNat_of_lt hlt
  refine wp_of_spec (h1.writei (List.mem_cons_of_mem _ List.mem_cons_self)
    (by rw [List.length_replicate]; decide)
    fun _ => by rw [htoNat]; exact dirWrite_clear hcore1.layout hal hoff) (fun _ _ => id) ?_
  rintro wrote s2 ⟨h2, -⟩
  rw [wp_ite]
  refine ⟨fun _ => Halt.Benign.halts ⟨by decide, by decide⟩, fun _ => ?_⟩
  -- a directory takes its `..` with it
  have hdrop : wp (dropDotDot dp ip) (fun _ s' => At st none (s₀.setOp 1 [] s₀.ops) s1 [ip, dp]
      [ip, dp] s') (Halts T) s2 := by
    unfold dropDotDot
    rw [wp_bind, wp_inode, wp_ite]
    refine ⟨fun _ => ?_, fun _ => h2⟩
    exact wp_mono (h2.addLinks (List.mem_cons_of_mem _ List.mem_cons_self) (-1))
      (fun _ _ hp => hp.1) fun _ _ => id
  refine wp_of_spec hdrop (fun _ _ => id) fun _ s3 h3 => ?_
  have h3' : At st none (s₀.setOp 1 [] s₀.ops) s1 [dp, ip] [dp, ip] s3 :=
    h3.perm (List.Perm.swap ..) (List.Perm.swap ..)
  refine wp_of_spec h3'.iunlockput (fun _ _ => id) ?_
  rintro _ s4 ⟨h4, -⟩
  refine wp_of_spec (h4.addLinks List.mem_cons_self (-1)) (fun _ _ => id) ?_
  rintro _ s5 ⟨h5, -, -⟩
  refine wp_of_spec h5.iunlockput (fun _ _ => id) ?_
  rintro _ s6 ⟨h6, -⟩
  rw [wp_bind]
  exact h6.endOp fun hran hord => ⟨rfl, hran, hord⟩

/-! ## The call -/

/-- The name that `sys_unlink` removes, and the inode that it names. -/
def Fs.target (s : Fs) (cwd : Option Slot) (path : List UInt8) : Option (List UInt8 × ℕ) :=
  match s.resolve cwd path true with
  | none => none
  | some (dp, name) => ((s.inodes dp).lookup s.view.block name).map fun off =>
    (name, ((s.inodes dp).dirent s.view.block off).inum.toNat)

/-- What a call has noted after it has looked at inodes it could have noted at once. -/
theorem Peeked.track (hp : Peeked H s s') (h : Ordinary H (s'.track name i) s'') :
    Ordinary H (s.track name i) s'' := by
  have hticks : s'.ticks = s.ticks := by rw [hp.only]
  have htrack := track_deleted hp.ordinary.deleted hticks hp.inodes name i
  have heq := track_eq s name i
  have heq' := track_eq s' name i
  have hnode := h.node
  have hsize := h.size
  rw [heq'] at hnode hsize
  refine ⟨fun j => ?_, fun k hk hv => ?_, h.deleted.trans htrack⟩
  · rw [heq]
    have hj := hnode j
    have hsee : s'.inodes j = s.inodes j := congrFun hp.inodes j
    show _ ∨ (s''.inodes j).type = (s.inodes j).type ∧
      (s''.inodes j).versionHead = (s.inodes j).versionHead
    rw [← hsee]
    exact hj
  · rw [heq] at hv ⊢
    obtain ⟨hv', hle⟩ := hp.ordinary.size k hk hv
    obtain ⟨hv'', hle'⟩ := hsize k hk hv'
    exact ⟨hv'', UInt32.le_trans hle hle'⟩

theorem sysUnlink_spec (h : Inv st s) (hq : s.Quiet)
    (hcwd : ∀ k, cwd = some k → 0 < (s.icache k).ref) (hT : total s.hold + 2 ≤ T)
    (path : Option (List UInt8)) :
    wp (sysUnlink cwd path) (fun r s' => Ran st [] s s' ∧
      (r = -1 ∧ Ordinary s.hold s s' ∨ r = 0 ∧ ∃ p name i, path = some p ∧
        s.target cwd p = some (name, i) ∧ Ordinary s.hold (s.track name i) s')) (Halts T) s := by
  obtain ⟨lg, hcore⟩ := h
  unfold sysUnlink
  split
  · exact ⟨.refl ⟨lg, hcore⟩ hq, .inl ⟨rfl, .refl _ _⟩⟩
  rename_i path
  -- every way to give up leaves the same
  have hfail : ∀ {p : FsM ℤ} {s1 : Fs}, wp p (fun r s' => r = -1 ∧ Ran st [] s s' ∧
      Ordinary s.hold (s.setOp 1 [] s.ops) s') (Halts T) s1 →
      wp p (fun r s' => Ran st [] s s' ∧ (r = -1 ∧ Ordinary s.hold s s' ∨ r = 0 ∧
        ∃ p name i, some path = some p ∧ s.target cwd p = some (name, i) ∧
          Ordinary s.hold (s.track name i) s')) (Halts T) s1 := fun hp =>
    wp_mono hp (fun _ _ hq => ⟨hq.2.1, .inl ⟨hq.1, hq.2.2.of_setOp⟩⟩) fun _ _ => id
  rw [wp_bind]
  refine wp_beginOp hq ?_
  unfold nameiparent
  refine wp_of_spec ((At.begin hcore).namex hcwd (by simp [hold_setOp]; omega) path true)
    (fun _ _ => id) ?_
  rintro r s1 ⟨h1, hpeek1, hres, -⟩
  rcases r with _ | ⟨dp, name⟩
  · rw [wp_bind]
    exact h1.endOp fun hran hord => ⟨hran, .inl ⟨rfl, hord.of_setOp⟩⟩
  · have h1' : At st none (s.setOp 1 [] s.ops) (s.setOp 1 [] s.ops) [dp] [] s1 := h1
    refine wp_of_spec (h1'.ilock h1'.pos) (fun _ _ => id) ?_
    rintro _ s2 ⟨h2, hpeek2, -⟩
    rw [wp_ite]
    refine ⟨fun _ => hfail h2.putFail, fun hname => ?_⟩
    rw [not_or] at hname
    refine wp_of_spec (h2.dirlookup List.mem_cons_self (by simp [hold_setOp]; omega) name)
      (fun _ _ => id) ?_
    rintro found s3 ⟨h3, hpeek3, hdir, hlookup, hfound⟩
    rcases found with _ | ⟨ip, off⟩
    · exact hfail h3.putFail
    · have h3' : At st none (s.setOp 1 [] s.ops) (s.setOp 1 [] s.ops) [ip, dp] [dp] s3 := h3
      refine wp_of_spec (h3'.ilock h3'.pos) (fun _ _ => id) ?_
      rintro _ s4 ⟨h4, hpeek4, -⟩
      rw [wp_bind, wp_inode, wp_ite]
      refine ⟨fun _ => Halt.Benign.halts ⟨by decide, by decide⟩, fun _ => ?_⟩
      refine wp_of_spec (canUnlink_spec h4 List.mem_cons_self) (fun _ _ => id) ?_
      rintro ok s5 rfl
      rw [wp_ite]
      refine ⟨fun _ => ?_, fun _ => ?_⟩
      · -- the entry is removed
        obtain ⟨lg2, hcore2⟩ := h2.core
        have hlive2 := h2.live dp List.mem_cons_self
        have hoff : s2.lookup dp name = some off := hlookup.symm
        obtain ⟨hal, hinum⟩ := hfound ip off rfl
        have hlt := (direntOffsets_lt 0 (by decide) (s2.icache dp).din.size.toNat_lt
          (List.mem_of_find?_eq_some hoff)).1
        refine wp_mono (unlinkEntry_spec h4 hal (hcore2.lookup_pos hlive2 hdir hoff hname.1) hlt)
          ?_ fun _ _ => id
        rintro r s' ⟨rfl, hran, hord⟩
        -- what the call has seen is what was there when it began
        have hpeek : Peeked s.hold (s.setOp 1 [] s.ops) s5 :=
          ((hpeek1.trans (hpeek2.anti h1.le)).trans (hpeek3.anti h2.le)).trans (hpeek4.anti h3.le)
        have hpeek12 : Peeked s.hold (s.setOp 1 [] s.ops) s2 := hpeek1.trans (hpeek2.anti h1.le)
        have hview2 : s2.view = s.view := hpeek12.view
        have hsee2 : s.inodes (s2.icache dp).inum.toNat = (s2.icache dp).din := by
          obtain ⟨hlg, -⟩ := hcore2.cache.cached dp hlive2 (by nofun)
          have := congrFun hpeek12.inodes (s2.icache dp).inum.toNat
          rw [hcore2.inodes, hlg] at this
          exact this.symm
        have hdp : (s2.icache dp).inum = (s1.icache dp).inum :=
          (hpeek2.calm.slot dp h1'.pos).inum
        have hip : (s5.icache ip).inum = (s3.icache ip).inum :=
          (hpeek4.calm.slot ip h3'.pos).inum
        have hresolve : s.resolve cwd path true = some ((s2.icache dp).inum.toNat, name) := by
          rw [hdp]
          exact hres.symm
        refine ⟨hran, .inr ⟨rfl, path, name, (s5.icache ip).inum.toNat, rfl, ?_, ?_⟩⟩
        · unfold Fs.target
          rw [hresolve]
          dsimp only
          rw [hsee2, ← hview2, hip, hinum]
          exact congrArg (Option.map _) hoff
        · have hord' : Ordinary _ (_ : Fs) _ := hpeek.track hord
          have heq := track_eq (s.setOp 1 [] s.ops) name (s5.icache ip).inum.toNat
          have heq' := track_eq s name (s5.icache ip).inum.toNat
          have hsame := track_deleted (show (s.setOp 1 [] s.ops).deleted = s.deleted from rfl)
            rfl rfl name (s5.icache ip).inum.toNat
          rw [heq, hsame] at hord'
          rw [heq']
          exact ⟨hord'.node, hord'.size, hord'.deleted⟩
      · -- a directory with entries
        refine wp_of_spec h4.iunlockput (fun _ _ => id) ?_
        rintro _ s6 ⟨h6, -⟩
        exact hfail h6.putFail

end ChronoFS
