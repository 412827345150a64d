import ChronoFS.Results.History

/-!
# Putting a file back to a version

`version_create` keeps the size of a file and copies of its direct blocks. However the file is edited
afterwards, by writes, by further versions and by restored versions, `version_restore` with the number
that the version now has gives the file its size and its direct blocks back. It does nothing about the
blocks of the indirect block. So the file is what it was exactly if there are enough blocks for the copies
and the bytes past the direct blocks are as they were.
-/

namespace ChronoFS

open Function

variable {sb : Superblock} {disk : ℕ → Block} {st : Bool} {leak leak' : List Slot}
  {s s' s₀ s₁ : Kernel} {es es' : List Event} {e : Event} {t t' : Fs} {p : ProcNo} {i n : ℕ}
  {f : FileNo} {k : Slot} {v : Version} {c : List Version}

/-! ## Editing a file -/

/-- The event works on inode `i` and on nothing else, or is the passing of time. -/
inductive Edit (i : ℕ) (s : Kernel) : Event → Prop
  /-- A write to a file that is open for it. -/
  | write {p : ProcNo} {fd : Fin NOFILE} {f : FileNo} {k : Slot} {src : List UInt8}
      (hfd : (s.proc p).ofile fd = some f) (hf : (s.ftable f).type = .inode k)
      (hinum : (s.fs.icache k).inum.toNat = i) : Edit i s (.call p (.write (some (fd.val, src))))
  /-- A version is made. -/
  | create {p : ProcNo} {path desc : List UInt8} (hnames : s.fs.names (s.proc p).cwd path = some i) :
      Edit i s (.call p (.versionCreate (some (path, desc))))
  /-- A version is restored. -/
  | restore {p : ProcNo} {path : List UInt8} {num : ℤ}
      (hnames : s.fs.names (s.proc p).cwd path = some i) :
      Edit i s (.call p (.versionRestore (some (path, num))))
  /-- Time passes. -/
  | world (ticks : UInt32) (io : List (Option (List UInt8))) : Edit i s (.world ticks io)

/-- A step that edits inode `i`. -/
def EditStep (i : ℕ) (s : Kernel) (e : Event) (s' : Kernel) : Prop := Step s e s' ∧ Edit i s e

/-- The event makes a version. -/
def Event.creates : Event → Bool
  | .call _ (.versionCreate _) => true
  | _ => false

/-- A write leaves the file open. -/
theorem write_open {fd : Fin NOFILE} {src : List UInt8} {r : Reply} (h : KInv st leak s)
    (hfd : (s.proc p).ofile fd = some f) (hf : (s.ftable f).type = .inode k)
    (hok : syscall p (.write (some (fd.val, src))) s = .ok r s') :
    Plain st leak s s' ∧ (s'.ftable f).type = .inode k := by
  have hwp : wp (syscall p (.write (some (fd.val, src))))
      (fun _ s' => Plain st leak s s' ∧ (s'.ftable f).type = .inode k) (KHalts 0) s := by
    unfold syscall
    rw [wp_bind, wp_proc]
    dsimp only
    rw [wp_bind]
    unfold sysWrite
    rw [wp_bind]
    apply wp_argfd_of_open hfd
    refine wp_mono (filewrite_spec h src) ?_ fun _ _ => id
    exact fun r s' hspec => ⟨hspec.1, (hspec.2 k hf).1⟩
  exact hwp.ok hok

/-- An edit does not free the inode, nor does it change its type. -/
theorem EditStep.type (h : KInv false leak s) (hs : EditStep i s e s') :
    (s'.fs.inodes i).type = (s.fs.inodes i).type := by
  obtain ⟨hstep, hedit⟩ := hs
  cases hedit with
  | @write p fd f k src hfd hf hinum =>
    obtain ⟨-, r, hok⟩ := hstep
    obtain ⟨hplain, hf'⟩ := write_open h hfd hf hok
    -- the slot stays in use, so it is for the same inode
    have hlive := h.live hf
    have hlive' := hplain.inv.live hf'
    have hslot := hplain.slot k hlive.1 hlive'.1
    obtain ⟨lg, hcore⟩ := h.inv
    obtain ⟨lg', hcore'⟩ := hplain.inv.inv
    calc (s'.fs.inodes i).type = (s'.fs.icache k).din.type := by
          rw [hcore'.din hlive', hslot.inum, hinum]
      _ = (s.fs.icache k).din.type := (hslot.type hlive.2).2
      _ = (s.fs.inodes i).type := by rw [hcore.din hlive, hinum]
  | create hnames =>
    rcases hstep.effect h (by nofun) with ⟨p', c, r, leak', heq, heff⟩ | ⟨⟨_, _, heq⟩, -⟩
    · obtain ⟨rfl, rfl⟩ := Event.call.inj heq
      cases heff with
      | plain hc => exact absurd trivial hc
      | watched hran hw => rw [withFs_fs, hw.inodes]
      | @saved path desc j v t hran hnames' hsaved =>
        rw [withFs_fs, hsaved.inodes]
        by_cases hij : i = j
        · rw [hij, update_self]
        · rw [update_of_ne hij]
    · nomatch heq
  | restore hnames =>
    rcases hstep.effect h (by nofun) with ⟨p', c, r, leak', heq, heff⟩ | ⟨⟨_, _, heq⟩, -⟩
    · obtain ⟨rfl, rfl⟩ := Event.call.inj heq
      cases heff with
      | plain hc => exact absurd trivial hc
      | watched hran hw => rw [withFs_fs, hw.inodes]
      | @reverted path num j c v new t hran hnames' hc hnum hv hrev =>
        rw [withFs_fs, hrev.inodes]
        by_cases hij : i = j
        · rw [hij, update_self]
          rfl
        · rw [update_of_ne hij]
    · nomatch heq
  | world ticks io =>
    obtain rfl : s' = { s with fs := { s.fs with ticks, io } } := hstep
    rfl

/-- The version `v` of inode `i` has the number `n`, and `c` are the versions before it. -/
def Numbered (t : Fs) (i n : ℕ) (v : Version) (c : List Version) : Prop :=
  ∃ newer, newer.length = n ∧ Chain t.versions (t.inodes i).versionHead (newer ++ v :: c)

/-- An edit that makes a version raises the number of each version before it by one, and no other edit
changes it. -/
theorem EditStep.numbered (h : KInv false leak s) (hs : EditStep i s e s')
    (htype : (s.fs.inodes i).type ≠ 0) (hnum : Numbered s.fs i n v c) :
    Numbered s'.fs i (n + if e.creates then 1 else 0) v c := by
  obtain ⟨newer, hlen, hchain⟩ := hnum
  have htype' : (s'.fs.inodes i).type ≠ 0 := by
    rw [hs.type h]
    exact htype
  obtain ⟨_, hdone⟩ := hs.1.done h (by simp)
  cases hs.1.heads h htype' with
  | fresh hzero => exact absurd hzero htype
  | same _ hhead hnot =>
    have hfalse : e.creates = false := by
      cases hs.2 with
      | write | restore | world => rfl
      | @create p path desc hnames =>
        refine absurd ?_ (hnot desc)
        simp [Kernel.versioned, hnames]
    refine ⟨newer, ?_, ?_⟩
    · rw [hfalse, hlen]
      rfl
    · rw [hhead]
      exact hchain.mono hdone.versions
  | @saved desc v' he hsaved =>
    have htrue : e.creates = true := by
      unfold Kernel.versioned at he
      split at he
      · rfl
      · cases he
    refine ⟨v' :: newer, ?_, ?_⟩
    · rw [htrue, List.length_cons, hlen]
      rfl
    · rw [hsaved.inodes, update_self, hsaved.versions]
      rw [← hsaved.prev] at hchain
      exact hchain.cons

/-- So the number of a version is the count of versions made since. -/
theorem EditStep.run (hrun : Run (EditStep i) s es s') (hr : ∃ leak, Reached false leak sb s)
    (htype : (s.fs.inodes i).type ≠ 0) (hnum : Numbered s.fs i n v c) :
    (∃ leak, Reached false leak sb s') ∧ (s'.fs.inodes i).type = (s.fs.inodes i).type ∧
      Numbered s'.fs i (n + es.countP Event.creates) v c := by
  induction hrun generalizing n with
  | nil s => exact ⟨hr, rfl, hnum⟩
  | @cons s s₁ s2 e es hstep _ ih =>
    obtain ⟨leak, hr⟩ := hr
    have htype1 := hstep.type hr.inv
    obtain ⟨hr2, htype2, hnum2⟩ := ih (hr.step hstep.1 (by nofun)) (htype1 ▸ htype)
      (hstep.numbered hr.inv htype hnum)
    refine ⟨hr2, htype2.trans htype1, ?_⟩
    rw [List.countP_cons]
    rw [Nat.add_assoc, Nat.add_comm (if e.creates then 1 else 0)] at hnum2
    exact hnum2

/-! ## The bytes of a file -/

/-- A version just made has the number `0`. -/
theorem Saved.numbered {desc : List UInt8} {lg : ℕ → Dinode} (h : Saved i desc v t t')
    (hcore : Core st none none lg [] t) : ∃ c, Numbered t' i 0 v c := by
  have htype := h.type
  rw [hcore.inodes] at htype
  obtain ⟨c, hchain, -⟩ := (hcore.node i (by nofun) htype).chain
  refine ⟨c, [], rfl, ?_⟩
  rw [h.inodes, update_self, h.versions]
  rw [← hcore.inodes, ← h.prev] at hchain
  exact hchain.cons

theorem Numbered.mem (h : Numbered t i n v c) : v ∈ t.versions := by
  obtain ⟨newer, -, hchain⟩ := h
  exact hchain.mem (List.mem_append_right _ List.mem_cons_self)

section Number

variable {lg : ℕ → Dinode} (h : Numbered t i n v c) (hcore : Core st none none lg [] t)

include h hcore

/-- It is the one version with its number. -/
theorem Numbered.get {c' : List Version} (hc : Chain t.versions (t.inodes i).versionHead c') :
    c'[(n : ℤ).toNat]? = some v := by
  obtain ⟨newer, rfl, hchain⟩ := h
  obtain rfl := hcore.chain_unique hchain hc
  rw [Int.toNat_natCast, List.getElem?_append_right (le_refl _), Nat.sub_self]
  rfl

/-- Restoring its number restores it. -/
theorem Numbered.reverted {r : ℤ} (hout : RestoreOutcome i n r t t') :
    r = 0 ∧ ∃ new, Reverted i v new t t' := by
  obtain ⟨c', hc, ⟨-, -, hnot⟩ | ⟨rfl, v', new, -, hv', hrev⟩⟩ := hout
  · have hlt := (List.getElem?_eq_some_iff.mp (h.get hcore hc)).1
    omega
  · obtain rfl := Option.some.inj ((h.get hcore hc).symm.trans hv')
    exact ⟨rfl, new, hrev⟩

end Number

set_option linter.constructorNameAsVariable false in
/-- A version of the empty file `g` is made, and `namei` finds the file. -/
theorem fileImage_saved : ∃ s, syscall 0 (.versionCreate (some ([103], []))) (boot .mkfs fileImage) =
    .ok (.int 0) s ∧ s.fs.Resolves (s.proc 0).cwd [103] 3 ∧
      ((boot .mkfs fileImage).fs.inodes 3).type = T_FILE ∧
      ((boot .mkfs fileImage).fs.inodes 3).size = 0 ∧
      ((boot .mkfs fileImage).fs.inodes 3).present.length = 0 ∧
      (boot .mkfs fileImage).fs.names ((boot .mkfs fileImage).proc 0).cwd [103] = some 3 := by
  have hfile : ((boot .mkfs fileImage).fs.inodes 3).type = T_FILE ∧
      ((boot .mkfs fileImage).fs.inodes 3).size = 0 ∧
      ((boot .mkfs fileImage).fs.inodes 3).present.length = 0 ∧
      (boot .mkfs fileImage).fs.names ((boot .mkfs fileImage).proc 0).cwd [103] = some 3 := by
    decide +kernel
  have heval : wp (syscall 0 (.versionCreate (some ([103], [])))) (fun r s => r = .int 0 ∧
      wp (do beginOp; namei (s.proc 0).cwd [103]) (fun r t => ∃ k, r = some k ∧
        (t.icache k).inum.toNat = 3) (fun _ _ => False) s.fs) (fun _ _ => False)
      (boot .mkfs fileImage) := by
    decide +kernel
  obtain ⟨r, s, hok, rfl, hwp⟩ := heval.returns
  exact ⟨s, hok, .of_wp hwp, hfile⟩

/-- A version is made, a byte is written, and the version is restored. -/
def fileImage.revert : List (ProcNo × Call) :=
  [(0, .write (some (0, [7]))), (0, .versionRestore (some ([102], 0)))]

/-- `version_create` logs three blocks and one for each direct block of the file, so it keeps to
`MAXOPBLOCKS` with at most seven of these; `version_restore` does with a version of at most eight. -/
theorem version_budget {path : List UInt8} (hI : Image sb disk) (hbits : sb.size ≤ BPB)
    (hrun : Run Step (boot sb disk) es s) (hnames : s.fs.names (s.proc p).cwd path = some i) :
    (∀ desc r s', syscall p (.versionCreate (some (path, desc))) s = .ok r s' →
      ∃ lh, s'.fs.ops = lh :: s.fs.ops ∧ lh.length = 3 + (s.fs.inodes i).present.length ∧
        (lh.length ≤ MAXOPBLOCKS ↔ (s.fs.inodes i).present.length ≤ 7)) ∧
    ∀ num s', syscall p (.versionRestore (some (path, num))) s = .ok (.int 0) s' →
      ∃ lh c v, s'.fs.ops = lh :: s.fs.ops ∧ Chain s.fs.versions (s.fs.inodes i).versionHead c ∧
        (c)[num.toNat]? = some v ∧ (lh.length ≤ MAXOPBLOCKS ↔ v.nblocks ≤ 8) := by
  obtain ⟨leak, hr⟩ := Reached.run ⟨[], hI.reached⟩ hrun
  have hsb : s.fs.sb.size ≤ BPB := by rwa [hr.sb]
  constructor
  · intro desc r s' hok
    obtain ⟨-, v, hsaved⟩ := hr.inv.saved hnames hok
    obtain ⟨lh, hops, hlen⟩ := hsaved.ops
    have hl := hlen hsb
    rw [hsaved.nblocks] at hl
    refine ⟨lh, hops, hl, ?_⟩
    rw [hl, MAXOPBLOCKS]
    omega
  · intro num s' hok
    obtain ⟨x, hx, c, hchain, ⟨rfl, -⟩ | ⟨-, v, new, -, hv, hrev⟩⟩ := hr.inv.restoreOutcome hnames hok
    · cases hx
    · obtain ⟨lh, hops, hlen⟩ := hrev.ops
      refine ⟨lh, c, v, hops, hchain, hv, ?_⟩
      rw [hlen hsb, MAXOPBLOCKS]
      split <;> omega

theorem version_budget_fileImage : ∃ s lh, syscall 0 (.versionCreate (some ([103], [])))
    (boot .mkfs fileImage) = .ok (.int 0) s ∧ s.fs.ops = lh :: (boot .mkfs fileImage).fs.ops ∧
      lh.length = 3 := by
  obtain ⟨s, hok, -, -, -, hpresent, hnames⟩ := fileImage_saved
  have hspec := (version_budget fileImage_image (by decide) (.nil _) hnames).1
  obtain ⟨lh, hops, hlen, -⟩ := hspec _ _ _ hok
  exact ⟨s, lh, hok, hops, by rw [hlen, hpresent]⟩

end ChronoFS
