import ChronoFS.Spec.Boot
import ChronoFS.Spec.Returns

/-!
# The history of a file

A run of system calls is recorded: for every inode, the states in which `version_create` was called for
it since it was allocated, newest first (`Recorded`). The version chain of an inode is this history, with
one version for each call (`Faithful`): a step either leaves the head of a chain alone, or allocates the
inode, which then has no versions, or adds one version at the head (`Step.heads`).

Two loops walk the chain, that of `version_list` and that of `version_restore`, and they number its
versions alike.
-/

namespace ChronoFS

open Function

variable {sb : Superblock} {disk : ℕ → Block} {st : Bool} {leak leak' : List Slot} {s s' s₀ : Kernel}
  {es : List Event} {e : Event} {t t' : Fs} {p : ProcNo} {i : ℕ}

/-! ## Recording a run -/

/-- The inode that the event makes a version of, if it is a `version_create`, and the description. -/
def Kernel.versioned (s : Kernel) : Event → Option (ℕ × List UInt8)
  | .call p (.versionCreate (some (path, desc))) =>
    (s.fs.names (s.proc p).cwd path).map fun i => (i, desc)
  | _ => none

/-- For each inode, the states in which versions were made and the descriptions, newest first. -/
abbrev History : Type := ℕ → List (Fs × List UInt8)

/-- The history after a step. An inode that is free before or after the step has none. -/
def History.record (H : History) (s : Kernel) (e : Event) (s' : Kernel) : History := fun i =>
  if (s.fs.inodes i).type = 0 ∨ (s'.fs.inodes i).type = 0 then []
  else
    match s.versioned e with
    | some (j, desc) => if j = i then (s.fs, desc) :: H i else H i
    | none => H i

/-- The events lead from `s₀` to the state, with that history. -/
inductive Recorded (s₀ : Kernel) : List Event → Kernel → History → Prop
  /-- The history is empty at first. -/
  | nil : Recorded s₀ [] s₀ fun _ => []
  /-- Each step is recorded. -/
  | snoc {es : List Event} {s s' : Kernel} {H : History} {e : Event} (h : Recorded s₀ es s H)
      (hstep : Step s e s') : Recorded s₀ (es ++ [e]) s' (H.record s e s')

/-- Every run has its history. -/
theorem Recorded.of_run (h : Run Step s₀ es s) : ∃ H, Recorded s₀ es s H := by
  induction es using List.reverseRecOn generalizing s with
  | nil =>
    cases h
    exact ⟨_, .nil⟩
  | append_singleton es e ih =>
    obtain ⟨s1, h1, h2⟩ := h.split
    cases h2 with
    | cons hstep hrest =>
      cases hrest
      obtain ⟨H, hrec⟩ := ih h1
      exact ⟨_, hrec.snoc hstep⟩

theorem Recorded.run {H : History} (h : Recorded s₀ es s H) : Run Step s₀ es s := by
  induction h with
  | nil => exact .nil s₀
  | snoc _ hstep ih => exact ih.append (.cons hstep (.nil _))

/-! ## What a step does to a chain -/

/-- A call that does nothing special to inodes leaves the heads alone, but for that of a new inode. -/
theorem Usual.head {H : Slot → ℤ × ℤ} (h : Usual H t t') (htype : (t'.inodes i).type ≠ 0) :
    (t.inodes i).type = 0 ∧ (t'.inodes i).versionHead = 0 ∨
      (t'.inodes i).type = (t.inodes i).type ∧
        (t'.inodes i).versionHead = (t.inodes i).versionHead := by
  rcases h with hord | ⟨j, m, hmake, hord⟩
  · exact .inr ((hord.node i).resolve_left htype)
  · obtain ⟨htype', hhead'⟩ := (hord.node i).resolve_left htype
    by_cases hi : i = j
    · subst hi
      exact .inl ⟨hmake.free, hhead'.trans hmake.head⟩
    · rw [hmake.node i hi] at htype' hhead'
      exact .inr ⟨htype', hhead'⟩

/-- What a step does to the chain of inode `i`. -/
inductive HeadStep (s : Kernel) (e : Event) (s' : Kernel) (i : ℕ) : Prop
  /-- The inode is allocated. -/
  | fresh (htype : (s.fs.inodes i).type = 0) (hhead : (s'.fs.inodes i).versionHead = 0)
  /-- The chain is the same. -/
  | same (htype : (s'.fs.inodes i).type = (s.fs.inodes i).type)
      (hhead : (s'.fs.inodes i).versionHead = (s.fs.inodes i).versionHead)
      (hnot : ∀ desc, s.versioned e ≠ some (i, desc))
  /-- A version is made. -/
  | saved {desc : List UInt8} {v : Version} (he : s.versioned e = some (i, desc))
      (h : Saved i desc v s.fs s'.fs)

theorem HeadStep.of_usual {H : Slot → ℤ × ℤ} (h : Usual H t s'.fs) (ht : t.inodes = s.fs.inodes)
    (htype : (s'.fs.inodes i).type ≠ 0) (hnot : ∀ desc, s.versioned e ≠ some (i, desc)) :
    HeadStep s e s' i := by
  have hcases := h.head htype
  rw [ht] at hcases
  rcases hcases with ⟨hzero, hhead⟩ | ⟨hsame, hhead⟩
  · exact .fresh hzero hhead
  · exact .same hsame hhead hnot

theorem Effect.heads {c : Call} {r : Reply} (he : Effect st leak p s c r s' leak')
    (htype : (s'.fs.inodes i).type ≠ 0) : HeadStep s (.call p c) s' i := by
  cases he with
  | plain hc hp =>
    apply HeadStep.of_usual hp.usual rfl htype
    intro desc heq
    -- a call that makes a version is not a plain one
    unfold Kernel.versioned at heq
    split at heq
    · rename_i heq'
      rw [(Event.call.inj heq').2] at hc
      exact hc trivial
    · nomatch heq
  | watched hran hw hcreate =>
    apply HeadStep.same
    · rw [withFs_fs, hw.inodes]
    · rw [withFs_fs, hw.inodes]
    · intro desc heq
      unfold Kernel.versioned at heq
      split at heq
      · rename_i heq'
        obtain ⟨rfl, hc⟩ := Event.call.inj heq'
        rw [hcreate _ _ hc] at heq
        nomatch heq
      · nomatch heq
  | @saved path desc j v t hran hnames hsaved =>
    have hver : s.versioned (.call p (.versionCreate (some (path, desc)))) = some (j, desc) := by
      simp [Kernel.versioned, hnames]
    by_cases hi : i = j
    · subst hi
      exact .saved hver hsaved
    · have hother : t.inodes i = s.fs.inodes i := by
        rw [hsaved.inodes, update_of_ne hi]
      apply HeadStep.same
      · rw [withFs_fs, hother]
      · rw [withFs_fs, hother]
      · intro desc' heq
        rw [hver] at heq
        exact hi (Prod.mk.inj (Option.some.inj heq)).1.symm
  | @reverted path num j c v new t hran hnames hc hnum hv hrev =>
    have hkept : (t.inodes i).type = (s.fs.inodes i).type ∧
        (t.inodes i).versionHead = (s.fs.inodes i).versionHead := by
      rw [hrev.inodes]
      by_cases hi : i = j
      · rw [hi, update_self]
        exact ⟨rfl, rfl⟩
      · rw [update_of_ne hi]
        exact ⟨rfl, rfl⟩
    exact .same hkept.1 hkept.2 (by nofun)
  | unlinked hran htarget hord =>
    have hinodes : ∀ name j, (s.fs.track name j).inodes = s.fs.inodes := by
      intro name j
      rw [track_eq]
      rfl
    exact .of_usual (.inl hord) (hinodes _ _) htype (by nofun)
  | forgot => exact .same rfl rfl (by nofun)
  | recovered hd hv hcwd hran hout =>
    obtain ⟨m, hmake, hord⟩ := hout.made
    exact .of_usual (.inr ⟨_, m, hmake, hord⟩) rfl htype (by nofun)

theorem Step.heads (h : KInv false leak s) (hs : Step s e s') (htype : (s'.fs.inodes i).type ≠ 0) :
    HeadStep s e s' i := by
  rcases hs.effect h (by nofun) with ⟨p, c, r, leak', rfl, heff⟩ | ⟨⟨ticks, io, rfl⟩, hp⟩
  · exact heff.heads htype
  · exact .of_usual hp.usual rfl htype (by nofun)

/-! ## The chain is the history -/

/-- The version is the one that `version_create` made of inode `i` in the state, with the description. -/
structure MadeIn (i : ℕ) (v : Version) (x : Fs × List UInt8) : Prop where
  /-- It has the size of the file. -/
  size : v.vnode.fileSize = (x.1.inodes i).size
  /-- It has the time. -/
  timestamp : v.vnode.timestamp = x.1.ticks
  /-- It has the description. -/
  description : v.vnode.description = describe x.2
  /-- It has a block for each direct block of the file. -/
  nblocks : v.nblocks = (x.1.inodes i).present.length
  /-- These are copies. -/
  content : ∀ j, (hj : j < (x.1.inodes i).present.length) → v.content j =
    x.1.view.block ((x.1.inodes i).addrs ((x.1.inodes i).present.get ⟨j, hj⟩)).toNat

/-- The version chain of every inode in use is its history. -/
def Faithful (t : Fs) (H : History) : Prop :=
  ∀ i, (t.inodes i).type ≠ 0 → ∃ c, Chain t.versions (t.inodes i).versionHead c ∧
    List.Forall₂ (MadeIn i) c (H i)

/-- At first there are no versions. -/
theorem boot_faithful (hI : Image sb disk) : Faithful (boot sb disk).fs fun _ => [] := by
  intro i htype
  have hreached : Reached false [] sb (boot sb disk) := hI.reached
  obtain ⟨lg, hcore⟩ := hreached.inv.inv
  rw [hcore.inodes] at htype ⊢
  obtain ⟨c, hchain, -⟩ := (hcore.node i (by nofun) htype).chain
  have hnil : c = [] := List.eq_nil_iff_forall_not_mem.mpr fun v hv => by
    have := hchain.mem hv
    nomatch this
  subst hnil
  exact ⟨[], hchain, .nil⟩

/-- A step records what it does to the chains. -/
theorem Faithful.step {H : History} (h : Reached false leak sb s) (hs : Step s e s')
    (hf : Faithful s.fs H) : Faithful s'.fs (H.record s e s') := by
  intro i htype'
  obtain ⟨_, hdone⟩ := hs.done h.inv (by nofun)
  unfold History.record
  cases hs.heads h.inv htype' with
  | fresh htype hhead =>
    rw [if_pos (.inl htype), hhead]
    exact ⟨[], ⟨rfl, List.nil_sublist _⟩, .nil⟩
  | same htype hhead hnot =>
    rw [htype] at htype'
    obtain ⟨c, hchain, hmade⟩ := hf i htype'
    refine ⟨c, ?_, ?_⟩
    · rw [hhead]
      exact hchain.mono hdone.versions
    · rw [if_neg (by rw [htype]; simp [htype'])]
      split
      · rename_i j desc heq
        rw [if_neg fun (hj : j = i) => hnot desc (hj ▸ heq)]
        exact hmade
      · exact hmade
  | @saved desc v he hsaved =>
    obtain ⟨c, hchain, hmade⟩ := hf i hsaved.type
    refine ⟨v :: c, ?_, ?_⟩
    · rw [hsaved.inodes, update_self, hsaved.versions]
      rw [← hsaved.prev] at hchain
      exact hchain.cons
    · rw [if_neg (by simp [hsaved.type, htype']), he]
      dsimp only
      rw [if_pos rfl]
      exact .cons ⟨hsaved.size, hsaved.timestamp, hsaved.description, hsaved.nblocks,
        hsaved.content⟩ hmade

theorem Recorded.faithful {H : History} (hI : Image sb disk) (h : Recorded (boot sb disk) es s H) :
    Faithful s.fs H := by
  induction h with
  | nil => exact boot_faithful hI
  | snoc hrec hstep ih =>
    obtain ⟨leak, hr⟩ := Reached.run ⟨[], hI.reached⟩ hrec.run
    exact ih.step hr hstep

/-- On a file system with one bitmap block, as `mkfs` makes it: the version chain of every inode in use
ends, has no version twice, and is the inode's history. If `namei` finds the inode at a path,
`version_list` describes its first versions, and `version_restore` with the number of one of them, for
which there are enough blocks, puts the inode back to that version; with any other number it leaves the
inode alone. -/
theorem version_history {H : History} (hI : Image sb disk) (hbits : sb.size ≤ BPB)
    (hrec : Recorded (boot sb disk) es s H) (htype : (s.fs.inodes i).type ≠ 0) :
    ∃ c, Chain s.fs.versions (s.fs.inodes i).versionHead c ∧
      (c.map fun v => v.node.toNat).Nodup ∧
      (∀ v ∈ c, v.node ≠ 0 ∧ s.fs.view.block v.node.toNat = v.block) ∧
      List.Forall₂ (MadeIn i) c (H i) ∧
      ∀ p path, s.fs.Resolves (s.proc p).cwd path i →
        (∀ max : ℤ, ∃ l s', syscall p (.versionList (some (path, max))) s =
            .ok (.versions (some l)) s' ∧ l.length = min max.toNat c.length ∧
          ∀ j v, j < l.length → (c)[j]? = some v → l[j]? = some (v.info j)) ∧
        ∀ num : ℤ,
          (∀ v, 0 ≤ num → (c)[num.toNat]? = some v → v.nblocks ≤ (s.fs.avail (s.fs.inodes i)).card →
            ∃ new s', syscall p (.versionRestore (some (path, num))) s = .ok (.int 0) s' ∧
              Reverted i v new s.fs s'.fs) ∧
          (¬ (0 ≤ num ∧ num < c.length) →
            ∃ s', syscall p (.versionRestore (some (path, num))) s = .ok (.int (-1)) s' ∧
              s'.fs.inodes = s.fs.inodes ∧ s'.fs.view = s.fs.view) := by
  obtain ⟨leak, hr⟩ := Reached.run ⟨[], hI.reached⟩ hrec.run
  obtain ⟨lg, hcore⟩ := hr.inv.inv
  obtain ⟨c, hchain, hmade⟩ := hrec.faithful hI i htype
  have hsize : s.fs.sb.size ≤ BPB := hr.sb ▸ hbits
  refine ⟨c, hchain, hcore.chain_nodup hchain, fun v hv => ?_, hmade, fun p path hres => ?_⟩
  · exact ⟨hcore.vers.ne v (hchain.mem hv), hcore.vers.node v (hchain.mem hv)⟩
  constructor
  · -- what `version_list` returns
    intro max
    obtain ⟨s', hrun, -⟩ := hr.inv.versionList hres htype hchain max
    refine ⟨_, s', hrun, ?_, fun j v hj hv => ?_⟩
    · rw [List.length_mapIdx, List.length_take]
    · rw [List.length_mapIdx, List.length_take, lt_min_iff] at hj
      rw [List.getElem?_mapIdx, List.getElem?_take_of_lt hj.1, hv]
      rfl
  · -- what `version_restore` does
    intro num
    have houtcome : ¬ s.fs.Scarce i num → ∃ r s',
        syscall p (.versionRestore (some (path, num))) s = .ok (.int r) s' ∧
        (r = -1 ∧ Watched s.fs s'.fs ∧ ¬ (0 ≤ num ∧ num < c.length) ∨
          r = 0 ∧ ∃ v new, 0 ≤ num ∧ (c)[num.toNat]? = some v ∧ Reverted i v new s.fs s'.fs) := by
      intro hroom
      obtain ⟨r, s', hrun, c', hchain', hout⟩ :=
        hr.inv.versionRestore hres htype hr.logSize hsize hroom
      obtain rfl := hcore.chain_unique hchain hchain'
      exact ⟨r, s', hrun, hout⟩
    constructor
    · intro v hnum hv henough
      obtain ⟨r, s', hrun, hout⟩ := houtcome (by
        rintro ⟨c', v', hchain', -, hv', hfew⟩
        obtain rfl := hcore.chain_unique hchain hchain'
        obtain rfl := Option.some.inj (hv.symm.trans hv')
        omega)
      rcases hout with ⟨-, -, hnot⟩ | ⟨rfl, v', new, -, hv', hrev⟩
      · have hlt := (List.getElem?_eq_some_iff.mp hv).1
        omega
      · obtain rfl := Option.some.inj (hv.symm.trans hv')
        exact ⟨new, s', hrun, hrev⟩
    · intro hnot
      obtain ⟨r, s', hrun, hout⟩ := houtcome (by
        rintro ⟨c', v', hchain', hnum, hv', -⟩
        obtain rfl := hcore.chain_unique hchain hchain'
        have hlt := (List.getElem?_eq_some_iff.mp hv').1
        omega)
      rcases hout with ⟨rfl, hw, -⟩ | ⟨-, v', new, hnum, hv', -⟩
      · exact ⟨s', hrun, hw.inodes, hw.view⟩
      · have hlt := (List.getElem?_eq_some_iff.mp hv').1
        omega

/-- Two versions of `g` are made. -/
def fileImage.twice : List (ProcNo × Call) :=
  [(0, .versionCreate (some ([103], [1]))), (0, .versionCreate (some ([103], [2])))]

/-- Then `namei` finds `g`, which is in use. -/
theorem fileImage_twice : ∃ s, (boot .mkfs fileImage).calls fileImage.twice = some s ∧
    (s.fs.inodes 3).type = T_FILE ∧ s.fs.Resolves (s.proc 0).cwd [103] 3 := by
  have heval : ((boot .mkfs fileImage).calls fileImage.twice).map (fun s =>
      decide ((s.fs.inodes 3).type = T_FILE ∧ wp (do beginOp; namei (s.proc 0).cwd [103])
        (fun r t => ∃ k, r = some k ∧ (t.icache k).inum.toNat = 3) (fun _ _ => False) s.fs)) =
        some true := by
    decide +kernel
  obtain ⟨s, hs, heq⟩ := Option.map_eq_some_iff.mp heval
  obtain ⟨htype, hwp⟩ := of_decide_eq_true heq
  exact ⟨s, hs, htype, .of_wp hwp⟩

theorem version_history_fileImage : ∃ s c l s', (boot .mkfs fileImage).calls fileImage.twice = some s ∧
    Chain s.fs.versions (s.fs.inodes 3).versionHead c ∧
      syscall 0 (.versionList (some ([103], 5))) s = .ok (.versions (some l)) s' ∧
      l.length = min 5 c.length := by
  obtain ⟨s, hs, htype, hres⟩ := fileImage_twice
  obtain ⟨H, hrec⟩ := Recorded.of_run (run_of_calls hs)
  obtain ⟨c, hchain, -, -, -, hcalls⟩ := version_history fileImage_image (by decide) hrec
    (i := 3) (by rw [htype]; decide)
  obtain ⟨l, s', hrun, hlen, -⟩ := (hcalls 0 [103] hres).1 5
  exact ⟨s, c, l, s', hs, hchain, hrun, hlen⟩

end ChronoFS
