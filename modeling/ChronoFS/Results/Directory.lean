import ChronoFS.Dir.Calls
import ChronoFS.Spec.Boot

/-!
# A directory is a finite map

The states of a directory are those that `dirlink` and the zeroing of entries by `sys_unlink` lead to
from a directory without equal names, while the rest of the kernel leaves the directory alone
(`DirStep`). In all of them the names of the entries differ (`DirStep.run`). There `dirlookup`,
`dirlink` and the zeroing of the entry that `dirlookup` reports act on the map from names to inode
numbers (`ActsAsMap`), except in one case: if the name is present, `dirlink` takes a reference to the
inode of its entry and drops it with `iput`, which waits for the inode's lock. The caller may hold
that lock, as it does for the entry `.` of the directory itself, and then waits for ever. Neither
call returns if the inode is not cached and no slot is free. `directory_map` says that there is no
other exception.
-/

namespace ChronoFS

variable {s s' s₀ : Fs} {dp k : Slot} {name : List UInt8} {inum : UInt32} {off : ℕ}

/-! ## Runs -/

/-- What happens to a directory. -/
inductive DirEvent
  /-- `dirlink` returns; `false` is `-1`. -/
  | link (name : List UInt8) (inum : UInt32) (ok : Bool)
  /-- The entry of a name is overwritten with zeroes. -/
  | unlink (name : List UInt8)
  /-- Something else. -/
  | other

/-- A step on the directory in slot `dp`. -/
inductive DirStep (dp : Slot) : Fs → DirEvent → Fs → Prop
  | link {s s' : Fs} {name : List UInt8} {inum : UInt32} {ok : Bool} (hpos : 0 < inum.toNat)
    (hlt : inum.toNat < 65536) (hrun : dirlink dp name inum s = .ok ok s') :
    DirStep dp s (.link name inum ok) s'
  | unlink {s s₁ s' : Fs} {name : List UInt8} {k : Slot} {off : ℕ}
    (hfind : dirlookup dp name s = .ok (some (k, off)) s₁)
    (hzero : zeroEntry dp off s₁ = .ok () s') : DirStep dp s (.unlink name) s'
  | other {s s' : Fs} (h : Aside dp s s') : DirStep dp s .other s'

/-- The inode number fits an entry and does not make it free. -/
theorem toUInt16_ne_zero (hpos : 0 < inum.toNat) (hlt : inum.toNat < 65536) :
    inum.toUInt16 ≠ 0 := by
  intro h0
  have hval := congrArg UInt16.toNat h0
  rw [UInt32.toNat_toUInt16, UInt16.toNat_zero, Nat.mod_eq_of_lt hlt] at hval
  omega

/-- One step keeps the directory well formed and its names apart. -/
theorem DirStep.keeps {ev : DirEvent} (hstep : DirStep dp s ev s') (h : DirOk dp s)
    (hd : (s.entries dp).Distinct) : DirOk dp s' ∧ (s'.entries dp).Distinct := by
  cases hstep with
  | @link _ name inum _ hpos hlt hrun =>
    have hwp : wp (dirlink dp name inum)
        (fun _ s' => DirOk dp s' ∧ (s'.entries dp).Distinct) (fun _ _ => True) s := by
      cases hi : (s.entries dp).index (cname name) with
      | none =>
        -- the new name goes to a free slot
        refine h.wp_dirlink_absent hi (.inr fun _ _ => trivial) (.inr fun _ _ => trivial)
          (.inr fun _ _ => trivial) fun s' hw => ⟨hw.ok, ?_⟩
        rw [hw.entries_put h (toUInt16_ne_zero hpos hlt)]
        exact (SlotMap.stores_put hi _).distinct hd
      | some e =>
        rw [h.wp_dirlink_present hi]
        refine wp_iget (fun k s1 _ hgot => ?_) fun _ => trivial
        refine hgot.wp_iput (fun _ s'' hsame => ?_) fun _ => trivial
        obtain ⟨hok, heq⟩ := (hsame.aside h).dir h
        exact ⟨hok, heq ▸ hd⟩
    exact hwp.ok hrun
  | @unlink s1 _ name k off hfind hzero =>
    have hwp : wp (dirlookup dp name) (fun r s1 => ∀ k off, r = some (k, off) →
        wp (zeroEntry dp off) (fun _ s' => DirOk dp s' ∧ (s'.entries dp).Distinct)
          (fun _ _ => True) s1) (fun _ _ => True) s := by
      rw [h.wp_dirlookup]
      cases hi : (s.entries dp).index (cname name) with
      | none => nofun
      | some e =>
        refine wp_iget (fun k s1 _ hgot => ?_) fun _ => trivial
        rintro _ _ ⟨⟩
        -- the slot of the name is cleared
        obtain ⟨hok, heq⟩ := (hgot.aside h).dir h
        obtain ⟨-, hle, -⟩ := slot_of_index hi
        rw [← (hgot.aside h).din] at hle
        refine hok.wp_zeroEntry hle (.inr fun _ _ => trivial) fun s' hw => ⟨hw.ok, ?_⟩
        rw [hw.entries_clear hok hle, heq]
        exact hd.clear e
    exact (hwp.ok hfind k off rfl).ok hzero
  | other haside =>
    obtain ⟨hok, heq⟩ := haside.dir h
    exact ⟨hok, heq ▸ hd⟩

/-- So does a run. -/
theorem DirStep.run {es : List DirEvent} (h : DirOk dp s₀) (hd : (s₀.entries dp).Distinct)
    (hrun : Run (DirStep dp) s₀ es s) : DirOk dp s ∧ (s.entries dp).Distinct :=
  hrun.invariant (I := fun s => DirOk dp s ∧ (s.entries dp).Distinct)
    (fun _ _ _ hI hstep => hstep.keeps hI.1 hI.2) ⟨h, hd⟩

/-! ## The map -/

/-- The calls on the directory in slot `dp`, for a name and an inode number, act as on a map from
names to inode numbers. -/
structure ActsAsMap (dp : Slot) (s : Fs) (name : List UInt8) (inum : UInt32) : Prop where
  /-- A name that is not in the map is not found, and `dirlink` puts it there: into a free entry or
  at the end, and no other name is affected. -/
  absent : (s.entries dp).get (cname name) = none →
    dirlookup dp name s = .ok none s ∧
      ∃ s', dirlink dp name inum s = .ok true s' ∧
        s'.entries dp = (s.entries dp).put (cname name) inum.toUInt16 ∧
        ∀ n, (s'.entries dp).get n =
          if n = cname name then some inum.toUInt16 else (s.entries dp).get n
  /-- A name that is in the map is found with its inode number and the offset of its entry, and
  zeroing that entry removes the name and no other. -/
  found : ∀ i, (s.entries dp).get (cname name) = some i →
    ∃ k off s', dirlookup dp name s = .ok (some (k, off)) s' ∧
      Got (s.icache dp).dev i.toUInt32 k s s' ∧ (s.dirent dp off).slot = some (cname name, i) ∧
      off % DIRENT_SIZE = 0 ∧ off + DIRENT_SIZE ≤ (s.icache dp).din.size.toNat ∧
      ∃ s'', zeroEntry dp off s' = .ok () s'' ∧
        ∀ n, (s''.entries dp).get n = if n = cname name then none else (s.entries dp).get n
  /-- `dirlink` of such a name fails and changes nothing. -/
  refused : ∀ i, (s.entries dp).get (cname name) = some i →
    ∃ s', dirlink dp name inum s = .ok false s' ∧ Unchanged s s'

/-- The inode of the name's entry, if there is one, can be visited: it has a slot of the inode cache
or can get one, and the lock of that slot is free. -/
def Fs.CanVisit (s : Fs) (dp : Slot) (name : List UInt8) : Prop :=
  ∀ i, (s.entries dp).get (cname name) = some i →
    ∃ k, s.igetSlot (s.icache dp).dev i.toUInt32 = some k ∧ (s.icache k).locked = false

section

variable (h : DirOk dp s)
include h

/-- A new name is not found, and can be added. -/
theorem DirOk.actsAbsent (hd : (s.entries dp).Distinct) (hpos : 0 < inum.toNat)
    (hlt : inum.toNat < 65536) (hfits : s.HasRoom dp) (hblocks : s.HasBlocks dp) (hroom : s.Room 7)
    (hi : (s.entries dp).index (cname name) = none) :
    dirlookup dp name s = .ok none s ∧
      ∃ s', dirlink dp name inum s = .ok true s' ∧
        s'.entries dp = (s.entries dp).put (cname name) inum.toUInt16 ∧
        ∀ n, (s'.entries dp).get n =
          if n = cname name then some inum.toUInt16 else (s.entries dp).get n := by
  have hlook : wp (dirlookup dp name) (fun r s' => r = none ∧ s' = s) (fun _ _ => False) s := by
    rw [h.wp_dirlookup, hi]
    exact ⟨rfl, rfl⟩
  have hlink : wp (dirlink dp name inum) (fun r s' => r = true ∧
      s'.entries dp = (s.entries dp).put (cname name) inum.toUInt16) (fun _ _ => False) s :=
    h.wp_dirlink_absent hi (.inl hfits) (.inl hroom) (.inl hblocks) fun s' hw =>
      ⟨rfl, hw.entries_put h (toUInt16_ne_zero hpos hlt)⟩
  obtain ⟨_, _, hrun, rfl, rfl⟩ := hlook.returns
  obtain ⟨_, s', hrun', rfl, heq⟩ := hlink.returns
  exact ⟨hrun, s', hrun', heq, fun n => by rw [heq, SlotMap.get_put hd hi]⟩

/-- A name that is there is found, if its inode has or gets a slot, and its entry can be zeroed. -/
theorem DirOk.actsFound (hd : (s.entries dp).Distinct) {e : ℕ} (hroom : s.Room 7)
    (hi : (s.entries dp).index (cname name) = some e)
    (hk : s.igetSlot (s.icache dp).dev (s.dirent dp (DIRENT_SIZE * e)).inum.toUInt32 = some k) :
    ∃ s', dirlookup dp name s = .ok (some (k, DIRENT_SIZE * e)) s' ∧
      Got (s.icache dp).dev (s.dirent dp (DIRENT_SIZE * e)).inum.toUInt32 k s s' ∧
      ∃ s'', zeroEntry dp (DIRENT_SIZE * e) s' = .ok () s'' ∧
        ∀ n, (s''.entries dp).get n = if n = cname name then none else (s.entries dp).get n := by
  have hlook : wp (dirlookup dp name) (fun r s' => r = some (k, DIRENT_SIZE * e) ∧
      Got (s.icache dp).dev (s.dirent dp (DIRENT_SIZE * e)).inum.toUInt32 k s s')
      (fun _ _ => False) s := by
    rw [h.wp_dirlookup, hi]
    refine wp_iget (fun k' s' hk' hgot => ?_) fun hno => ?_
    · obtain rfl := Option.some.inj (hk.symm.trans hk')
      exact ⟨rfl, hgot⟩
    · rw [hno] at hk
      nomatch hk
  obtain ⟨_, s', hrun, rfl, hgot⟩ := hlook.returns
  -- the reference does not change the directory
  obtain ⟨hok, heq⟩ := (hgot.aside h).dir h
  obtain ⟨-, hle, -⟩ := slot_of_index hi
  rw [← (hgot.aside h).din] at hle
  have hroom' : s'.Room 7 := by
    rw [hgot.rest]
    exact hroom
  have hzero : wp (zeroEntry dp (DIRENT_SIZE * e)) (fun _ s'' =>
      s''.entries dp = (s.entries dp).clear e) (fun _ _ => False) s' :=
    hok.wp_zeroEntry hle (.inl hroom') fun s'' hw => by rw [hw.entries_clear hok hle, heq]
  obtain ⟨_, s'', hrun', hclear⟩ := hzero.returns
  exact ⟨s', hrun, hgot, s'', hrun', fun n => by rw [hclear, SlotMap.get_clear hd hi]⟩

/-- `dirlink` of a name that is there fails, if the inode has or gets a slot whose lock is free. -/
theorem DirOk.actsRefused {e : ℕ} (hi : (s.entries dp).index (cname name) = some e)
    (hk : s.igetSlot (s.icache dp).dev (s.dirent dp (DIRENT_SIZE * e)).inum.toUInt32 = some k)
    (hfree : (s.icache k).locked = false) :
    ∃ s', dirlink dp name inum s = .ok false s' ∧ Unchanged s s' := by
  have hlink : wp (dirlink dp name inum) (fun r s' => r = false ∧ Unchanged s s')
      (fun _ _ => False) s := by
    rw [h.wp_dirlink_present hi]
    refine wp_iget (fun k' s' hk' hgot => ?_) fun hno => ?_
    · obtain rfl := Option.some.inj (hk.symm.trans hk')
      refine hgot.wp_iput (fun _ s'' hsame => ⟨rfl, hsame⟩) fun hl => ?_
      rw [hl] at hfree
      nomatch hfree
    · rw [hno] at hk
      nomatch hk
  obtain ⟨_, s', hrun, rfl, hsame⟩ := hlink.returns
  exact ⟨s', hrun, hsame⟩

/-- `dirlink` of a name that is there returns only then. -/
theorem DirOk.canVisit_of_refused {e : ℕ} {ok : Bool}
    (hi : (s.entries dp).index (cname name) = some e)
    (hrun : dirlink dp name inum s = .ok ok s') :
    ∃ k, s.igetSlot (s.icache dp).dev (s.dirent dp (DIRENT_SIZE * e)).inum.toUInt32 = some k ∧
      (s.icache k).locked = false := by
  have hlink : wp (dirlink dp name inum) (fun _ _ => ∃ k, s.igetSlot (s.icache dp).dev
      (s.dirent dp (DIRENT_SIZE * e)).inum.toUInt32 = some k ∧ (s.icache k).locked = false)
      (fun _ _ => True) s := by
    rw [h.wp_dirlink_present hi]
    refine wp_iget (fun k s' hk hgot => ?_) fun _ => trivial
    exact hgot.wp_iput (fun hfree _ _ => ⟨k, hk, hfree⟩) fun _ => trivial
  exact hlink.ok hrun

end

/-- In every state of a directory the names of its entries differ. With room for an entry in the
directory, enough free blocks and room in the log, its calls act as on a map exactly if the inode of
the name's entry can be visited. -/
theorem directory_map {es : List DirEvent} (h₀ : DirOk dp s₀) (hd₀ : (s₀.entries dp).Distinct)
    (hrun : Run (DirStep dp) s₀ es s) :
    (s.entries dp).Distinct ∧
      ∀ name inum, 0 < inum.toNat → inum.toNat < 65536 → s.HasRoom dp → s.HasBlocks dp → s.Room 7 →
        (ActsAsMap dp s name inum ↔ s.CanVisit dp name) := by
  obtain ⟨h, hd⟩ := DirStep.run h₀ hd₀ hrun
  refine ⟨hd, fun name inum hpos hlt hfits hblocks hroom => ⟨fun hmap i hget => ?_, fun hvisit => ?_⟩⟩
  · obtain ⟨e, hi, rfl⟩ := index_of_get hget
    obtain ⟨s', hlink, -⟩ := hmap.refused _ hget
    exact h.canVisit_of_refused hi hlink
  · refine ⟨fun hnone => ?_, fun i hget => ?_, fun i hget => ?_⟩
    · exact h.actsAbsent hd hpos hlt hfits hblocks hroom (SlotMap.index_eq_none_iff_get.mpr hnone)
    · obtain ⟨e, hi, rfl⟩ := index_of_get hget
      obtain ⟨k, hk, -⟩ := hvisit _ hget
      obtain ⟨s', hlook, hgot, hzero⟩ := h.actsFound hd hroom hi hk
      obtain ⟨hslot, hle, -⟩ := slot_of_index hi
      rw [Nat.mul_add, Nat.mul_one] at hle
      exact ⟨k, _, s', hlook, hgot, hslot, Nat.mul_mod_right .., hle, hzero⟩
    · obtain ⟨e, hi, rfl⟩ := index_of_get hget
      obtain ⟨k, hk, hfree⟩ := hvisit _ hget
      exact h.actsRefused hi hk hfree

/-! ## The root directory -/

/-- The root directory of the image, locked by the process that runs an operation. -/
theorem fileImage_root_dirOk
    (hrun : (do beginOp; ilock 0 : FsM Unit) (boot .mkfs fileImage).fs = .ok () s)
    (htype : (s.icache 0).din.type = T_DIR) : DirOk 0 s := by
  have hcore : Core true none none (View.of .mkfs fileImage).dinode [] (boot .mkfs fileImage).fs :=
    fileImage_image.core
  have hwp : wp (do beginOp; ilock 0 : FsM Unit)
      (fun _ s => (s.icache 0).din.type = T_DIR → DirOk 0 s) (fun _ _ => True)
      (boot .mkfs fileImage).fs := by
    rw [wp_bind]
    refine wp_beginOp ⟨rfl, rfl⟩ ?_
    refine wp_ilock (hcore.setOp 1 [] []) (by decide) (fun _ => trivial) (fun _ _ _ => trivial) ?_
    intro s' hlook hhold hfree hlive _ _ htype'
    exact hlook.core.dirOk hlive htype' (audited_of_lock hhold hfree)
  exact hwp.ok hrun htype

/-- What the locked root directory holds. -/
theorem fileImage_root : ∃ s,
    (do beginOp; ilock 0 : FsM Unit) (boot .mkfs fileImage).fs = .ok () s ∧ DirOk 0 s ∧
      (s.entries 0).Distinct ∧ s.HasRoom 0 ∧ s.HasBlocks 0 ∧ s.Room 7 ∧
      (s.entries 0).get DOT = some 1 ∧ (s.entries 0).get [104] = none ∧
      ∃ s', dirlink 0 DOT 2 s = .error .sleep s' := by
  have heval : wp (do beginOp; ilock 0 : FsM Unit) (fun _ s =>
      (s.icache 0).din.type = T_DIR ∧ (s.entries 0).Distinct ∧
        (s.entries 0).putIndex = 4 ∧ s.map 0 0 = 59 ∧ s.lh = [] ∧ s.logSize = LOGSIZE ∧
        s.outstanding = 1 ∧ (s.entries 0).get DOT = some 1 ∧ (s.entries 0).get [104] = none ∧
        wp (dirlink 0 DOT 2) (fun _ _ => False) (fun e _ => e = .sleep) s)
      (fun _ _ => False) (boot .mkfs fileImage).fs := by
    decide +kernel
  obtain ⟨_, s, hrun, htype, hdist, hput, hmap, hlh, hsize, hout, hdot, hnew, hwait⟩ :=
    heval.returns
  obtain ⟨e, s', hlink, rfl⟩ := hwait.halts
  refine ⟨s, hrun, fileImage_root_dirOk hrun htype, hdist, ?_, ?_, ?_, hdot, hnew, s', hlink⟩
  · unfold Fs.HasRoom
    rw [hput]
    decide
  · -- the first block of the directory has free entries
    unfold Fs.HasBlocks
    rw [hput]
    have hneeds : s.needs 0 (DIRENT_SIZE * 4 / BSIZE) = 0 := if_pos (by
      show s.map 0 0 ≠ 0
      rw [hmap]
      decide)
    rw [hneeds]
    exact Nat.zero_le _
  · unfold Fs.Room
    rw [hlh, hsize, hout]
    decide

/-- `dirlink` of `.` in a directory that the caller has locked does not return, so that
`link("f", ".")` never does. -/
theorem dirlink_dot_waits : ∃ s,
    (do beginOp; ilock 0 : FsM Unit) (boot .mkfs fileImage).fs = .ok () s ∧ DirOk 0 s ∧
      (s.entries 0).Distinct ∧ s.HasRoom 0 ∧ s.HasBlocks 0 ∧ s.Room 7 ∧
      (∃ s', dirlink 0 DOT 2 s = .error .sleep s') ∧ ¬ ActsAsMap 0 s DOT 2 ∧
      ∃ k', syscall 0 (.link (some ([102], DOT))) (boot .mkfs fileImage) = .error .sleep k' := by
  obtain ⟨s, hrun, hok, hdist, hfits, hblocks, hroom, hdot, -, s', hwait⟩ := fileImage_root
  refine ⟨s, hrun, hok, hdist, hfits, hblocks, hroom, ⟨s', hwait⟩, fun hmap => ?_, ?_⟩
  · obtain ⟨s'', hlink, -⟩ := hmap.refused 1 hdot
    rw [hwait] at hlink
    nomatch hlink
  · have heval : wp (syscall 0 (.link (some ([102], DOT)))) (fun _ _ => False)
        (fun e _ => e = .sleep) (boot .mkfs fileImage) := by
      decide +kernel
    obtain ⟨e, k', hlink, rfl⟩ := heval.halts
    exact ⟨k', hlink⟩

/-- A new name in the root directory of the image. -/
theorem directory_map_root : ∃ s, DirOk 0 s ∧ (s.entries 0).Distinct ∧ s.HasRoom 0 ∧
    s.HasBlocks 0 ∧ s.Room 7 ∧ ActsAsMap 0 s [104] 2 := by
  obtain ⟨s, -, hok, hdist, hfits, hblocks, hroom, -, hnew, -⟩ := fileImage_root
  obtain ⟨hdist', hmap⟩ := directory_map hok hdist (.nil s)
  refine ⟨s, hok, hdist', hfits, hblocks, hroom,
    (hmap [104] 2 (by decide) (by decide) hfits hblocks hroom).mpr fun i hget => ?_⟩
  have hname : cname [104] = [104] := by decide
  rw [hname, hnew] at hget
  nomatch hget

end ChronoFS
