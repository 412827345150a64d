import ChronoFS.Spec.Link

/-!
# What a system call holds

A system call takes references to inodes and locks, and must give each back. `At s₀ m refs locks s`
says of a state `s` inside a call that started in `s₀` that the call holds the references `refs` and
the locks `locks`, and that everything the rest of the kernel holds is as it was. An inode that the
call has locked is loaded. Since `m`, which at first is `s₀`, the call has done nothing out of the
ordinary: it has made no inode and touched no version. Each function of `fs.c` that a call uses has a rule here that says how it
changes the two lists; a call is balanced if it ends with both empty.
-/

namespace ChronoFS

open Function

variable {st : Bool} {w fr fr' : Option ℕ} {lg lg' : ℕ → Dinode} {hand : List ℕ}
  {s₀ m s s' s'' : Fs} {k dp ip : Slot} {refs refs' locks locks' : List Slot} {T : ℤ}
  {E : Halt → Fs → Prop} {H H' : Slot → ℤ × ℤ} {name : List UInt8}

/-- A call leaves alone what the rest of the kernel relies on: `H` are the references that are not
the call's own. -/
structure Calm (H : Slot → ℤ × ℤ) (s s' : Fs) : Prop where
  /-- The super block is the same. -/
  sb : s'.sb = s.sb
  /-- So is the size of the log. -/
  logSize : s'.logSize = s.logSize
  /-- So is the number of operations that are under way. -/
  outstanding : s'.outstanding = s.outstanding
  /-- So are the operations that are finished. -/
  ops : s'.ops = s.ops
  /-- No use of an inode without its lock is noted. -/
  unlocked : s'.unlocked = s.unlocked
  /-- Versions are only added. -/
  versions : s.versions <+: s'.versions
  /-- Slots that others refer to are for the same inodes. -/
  slot : ∀ k, 0 < (H k).1 → SameSlot (s.icache k) (s'.icache k)

theorem Calm.trans (h : Calm H s s') (h' : Calm H s' s'') : Calm H s s'' where
  sb := h'.sb.trans h.sb
  logSize := h'.logSize.trans h.logSize
  outstanding := h'.outstanding.trans h.outstanding
  ops := h'.ops.trans h.ops
  unlocked := h'.unlocked.trans h.unlocked
  versions := h.versions.trans h'.versions
  slot := fun k hk => (h.slot k hk).trans (h'.slot k hk)

theorem Calm.anti (h : Calm H s s') (hle : ∀ k, (H' k).1 ≤ (H k).1) : Calm H' s s' :=
  { h with slot := fun k hk => h.slot k (lt_of_lt_of_le hk (hle k)) }

theorem Steady.calm (h : Steady H s s') : Calm H s s' :=
  ⟨h.sb, h.logSize, h.outstanding, h.ops, h.unlocked, h.versions ▸ List.prefix_rfl, h.slot⟩

theorem Calm.live (h : Calm H s s') (hH : 0 < (H k).1) (hk : (s.icache k).Live)
    (hpos : 0 < (s'.icache k).ref) : (s'.icache k).Live := ⟨hpos, ((h.slot k hH).type hk.2).1⟩

theorem Calm.type (h : Calm H s s') (hH : 0 < (H k).1) (hk : (s.icache k).Live) :
    (s'.icache k).din.type = (s.icache k).din.type := ((h.slot k hH).type hk.2).2

/-- From `s` to `s'` only the inode cache changed, by looking at inodes. -/
structure Peeked (H : Slot → ℤ × ℤ) (s s' : Fs) : Prop where
  /-- The rest is the same. -/
  only : s' = { s with icache := s'.icache }
  /-- So are the slots in use. -/
  calm : Calm H s s'
  /-- Nothing out of the ordinary happened. -/
  ordinary : Ordinary H s s'
  /-- The kernel sees the same inodes. -/
  inodes : s'.inodes = s.inodes

theorem Looked.peeked (hl : Looked st fr lg hand H s s') (h : Core st none fr lg hand s) :
    Peeked H s s' :=
  ⟨hl.only, hl.steady.calm, hl.ordinary h, hl.core.inodes.trans h.inodes.symm⟩

namespace Peeked

theorem refl (H : Slot → ℤ × ℤ) (s : Fs) : Peeked H s s :=
  ⟨rfl, (Steady.refl _ _).calm, .refl _ _, rfl⟩

theorem trans (h : Peeked H s s') (h' : Peeked H s' s'') : Peeked H s s'' := by
  refine ⟨?_, h.calm.trans h'.calm, h.ordinary.trans h'.ordinary, h'.inodes.trans h.inodes⟩
  rw [h'.only, h.only]

theorem anti (h : Peeked H s s') (hle : ∀ k, (H' k).1 ≤ (H k).1) : Peeked H' s s' :=
  ⟨h.only, h.calm.anti hle, h.ordinary.anti hle, h.inodes⟩

theorem view (h : Peeked H s s') : s'.view = s.view := by
  rw [h.only]
  rfl

theorem lh (h : Peeked H s s') : s'.lh = s.lh := by
  rw [h.only]

end Peeked

/-- The references and locks in the two lists. -/
def holds (refs locks : List Slot) : Slot → ℤ × ℤ := (refs.map aRef).sum + (locks.map aLock).sum

/-- The call that started in `s₀` holds the references `refs` and the locks `locks`. -/
structure At (st : Bool) (fr : Option ℕ) (s₀ m : Fs) (refs locks : List Slot) (s : Fs) : Prop where
  /-- The invariant holds. -/
  core : ∃ lg, Core st none fr lg [] s
  /-- The call has taken these references and locks. -/
  hold : s.hold = s₀.hold + holds refs locks
  /-- Others have taken theirs before. -/
  base : ∀ k, 0 ≤ (s₀.hold k).1 ∧ 0 ≤ (s₀.hold k).2
  /-- The call leaves the rest alone. -/
  calm : Calm s₀.hold s₀ s
  /-- Nothing out of the ordinary has happened since `m`. -/
  since : Ordinary s₀.hold m s
  /-- What it has locked is loaded. -/
  live : ∀ k ∈ locks, (s.icache k).Live

/-! ## Counting -/

theorem holds_nil : holds [] [] = 0 := rfl

theorem holds_ref (k : Slot) (refs locks : List Slot) :
    holds (k :: refs) locks = holds refs locks + aRef k := by
  unfold holds
  rw [List.map_cons, List.sum_cons]
  abel

theorem holds_lock (k : Slot) (refs locks : List Slot) :
    holds refs (k :: locks) = holds refs locks + aLock k := by
  unfold holds
  rw [List.map_cons, List.sum_cons]
  abel

theorem holds_perm (hr : refs.Perm refs') (hl : locks.Perm locks') :
    holds refs locks = holds refs' locks' := by
  unfold holds
  rw [(hr.map aRef).sum_eq, (hl.map aLock).sum_eq]

theorem aLock_nonneg (k j : Slot) : 0 ≤ (aLock k j).2 := by
  unfold aLock
  by_cases h : j = k
  · rw [h, Pi.single_eq_same]
    exact Int.one_nonneg
  · rw [Pi.single_eq_of_ne h]
    exact le_refl _

theorem aRef_snd (k j : Slot) : (aRef k j).2 = 0 := by
  unfold aRef
  by_cases h : j = k
  · rw [h, Pi.single_eq_same]
  · rw [Pi.single_eq_of_ne h]
    rfl

/-- Lists of references and locks count up. -/
theorem holds_nonneg (refs locks : List Slot) (j : Slot) :
    0 ≤ (holds refs locks j).1 ∧ 0 ≤ (holds refs locks j).2 := by
  induction refs with
  | nil =>
    induction locks with
    | nil => exact ⟨le_refl _, le_refl _⟩
    | cons k locks ih =>
      have h1 := aLock_fst k j
      have h2 := aLock_nonneg k j
      rw [holds_lock, Pi.add_apply, Prod.fst_add, Prod.snd_add]
      omega
  | cons k refs ih =>
    have h1 := aRef_nonneg k j
    have h2 := aRef_snd k j
    rw [holds_ref, Pi.add_apply, Prod.fst_add, Prod.snd_add]
    omega

theorem total_holds (refs locks : List Slot) : total (holds refs locks) = refs.length := by
  induction refs with
  | nil =>
    induction locks with
    | nil => exact Finset.sum_const_zero
    | cons k locks ih => rw [holds_lock, total_add, total_aLock, ih]; rfl
  | cons k refs ih =>
    rw [holds_ref, total_add, total_aRef, ih, List.length_cons]
    omega

namespace At

theorem start (h : Core st none fr lg [] s) : At st fr s s [] [] s where
  core := ⟨lg, h⟩
  hold := by rw [holds_nil, add_zero]
  base := by
    intro k
    refine ⟨h.cache.nonneg k, ?_⟩
    show 0 ≤ (s.icache k).lockBit
    unfold Inode.lockBit
    split <;> decide
  calm := (Steady.refl _ _).calm
  since := .refl _ _
  live := by nofun

theorem perm (h : At st fr s₀ m refs locks s) (hr : refs'.Perm refs) (hl : locks'.Perm locks) :
    At st fr s₀ m refs' locks' s :=
  { h with
    hold := by rw [h.hold, holds_perm hr hl]
    live := fun k hk => h.live k (hl.mem_iff.mp hk) }

theorem total (h : At st fr s₀ m refs locks s) :
    ChronoFS.total s.hold = ChronoFS.total s₀.hold + refs.length := by
  rw [h.hold, total_add, total_holds]

/-- Nothing that others hold is given up. -/
theorem le (h : At st fr s₀ m refs locks s) (k : Slot) : (s₀.hold k).1 ≤ (s.hold k).1 := by
  have := (holds_nonneg refs locks k).1
  rw [h.hold, Pi.add_apply, Prod.fst_add]
  omega

/-- What the call refers to is in use. -/
theorem pos (h : At st fr s₀ m (k :: refs) locks s) : 0 < (s.icache k).ref := by
  have h0 := (h.base k).1
  have h1 := (holds_nonneg refs locks k).1
  rw [ref_of_hold h.hold, holds_ref, Pi.add_apply, Pi.add_apply, Prod.fst_add, Prod.fst_add,
    aRef_self]
  omega

theorem pos_of_base (h : At st fr s₀ m refs locks s) (hk : 0 < (s₀.icache k).ref) :
    0 < (s.icache k).ref := lt_of_lt_of_le hk (h.le k)

/-- The call goes on to a state that differs in a way that others do not see. -/
theorem step (h : At st fr s₀ m refs locks s) (hcore : ∃ lg, Core st none fr' lg [] s')
    (hhold : s'.hold = s.hold) (hcalm : Calm s.hold s s') : At st fr' s₀ s' refs locks s' where
  core := hcore
  hold := hhold.trans h.hold
  base := h.base
  calm := h.calm.trans (hcalm.anti h.le)
  since := .refl _ _
  live := fun k hk => by
    have hlive := h.live k hk
    refine hcalm.live hlive.1 hlive ?_
    rw [ref_of_hold hhold]
    exact hlive.1

/-- The same, where nothing out of the ordinary happens. -/
theorem next (h : At st fr s₀ m refs locks s) (hcore : ∃ lg, Core st none fr' lg [] s')
    (hhold : s'.hold = s.hold) (hcalm : Calm s.hold s s') (hord : Ordinary s.hold s s') :
    At st fr' s₀ m refs locks s' :=
  { h.step hcore hhold hcalm with since := h.since.trans (hord.anti h.le) }

theorem kept (h : At st fr s₀ m refs locks s) (hk : Kept st fr [] s s') : At st fr s₀ m refs locks s' :=
  h.next hk.core hk.hold hk.steady.calm hk.ordinary

/-- The call takes a reference. -/
theorem stepRef (h : At st fr s₀ m refs locks s) (hcore : Core st none fr' lg [] s')
    (hhold : s'.hold = s.hold + aRef k) (hcalm : Calm s.hold s s') :
    At st fr' s₀ s' (k :: refs) locks s' where
  core := ⟨lg, hcore⟩
  hold := by rw [hhold, h.hold, holds_ref, add_assoc]
  base := h.base
  calm := h.calm.trans (hcalm.anti h.le)
  since := .refl _ _
  live := fun j hj => by
    have hlive := h.live j hj
    refine hcalm.live hlive.1 hlive ?_
    rw [ref_of_hold hhold]
    exact lt_of_lt_of_le hlive.1 (le_add_aRef s.hold k j)

theorem ref (h : At st fr s₀ m refs locks s) (hcore : Core st none fr' lg [] s')
    (hhold : s'.hold = s.hold + aRef k) (hcalm : Calm s.hold s s') (hord : Ordinary s.hold s s') :
    At st fr' s₀ m (k :: refs) locks s' :=
  { h.stepRef hcore hhold hcalm with since := h.since.trans (hord.anti h.le) }

/-- What the call has locked is locked. -/
theorem locked (h : At st fr s₀ m refs locks s) (hk : k ∈ locks) : (s.icache k).locked = true := by
  obtain ⟨l1, l2, rfl⟩ := List.append_of_mem hk
  have hperm : (l1 ++ k :: l2).Perm (k :: (l1 ++ l2)) := List.perm_middle
  have h0 := (h.base k).2
  have h1 := (holds_nonneg refs (l1 ++ l2) k).2
  have hbit : (s.icache k).lockBit ≠ 0 := by
    rw [lockBit_of_hold h.hold, holds_perm (List.Perm.refl _) hperm, holds_lock, Pi.add_apply,
      Pi.add_apply, Prod.snd_add, Prod.snd_add]
    unfold aLock
    rw [Pi.single_eq_same]
    omega
  by_contra hne
  refine hbit ?_
  unfold Inode.lockBit
  rw [if_neg hne]

/-- What the call has locked it may use. -/
theorem audited (h : At st fr s₀ m refs locks s) (hk : k ∈ locks) : s.Audited k := .inl (h.locked hk)

/-- The call takes a lock. -/
theorem lock (h : At st fr s₀ m refs locks s) (hcore : Core st none fr lg [] s)
    (hlook : Looked st fr lg [] s.hold s s')
    (hhold : s'.hold = s.hold + aLock k) (hlive : (s'.icache k).Live)
    (hother : ∀ j, j ≠ k → s'.icache j = s.icache j) : At st fr s₀ m refs (k :: locks) s' where
  core := ⟨lg, hlook.core⟩
  hold := by rw [hhold, h.hold, holds_lock, add_assoc]
  base := h.base
  calm := h.calm.trans (hlook.steady.calm.anti h.le)
  since := h.since.trans ((hlook.ordinary hcore).anti h.le)
  live := fun j hj => by
    by_cases hjk : j = k
    · rw [hjk]
      exact hlive
    · rw [hother j hjk]
      exact h.live j ((List.mem_cons.mp hj).resolve_left hjk)

/-! ## Rules -/

theorem wp_ilock {Q : Unit → Fs → Prop} (h : At st fr s₀ m refs locks s) (hk : 0 < (s.icache k).ref)
    (hsleep : (s.icache k).locked = true → E .sleep s)
    (htype : ∀ s', (s.inodes (s.icache k).inum.toNat).type = 0 → E (.panic .ilockNoType) s')
    (hok : ∀ s', At st fr s₀ m refs (k :: locks) s' → Peeked s.hold s s' →
      (Idle s k → fr = none → Idle s' k) → Q () s') : wp (ilock k) Q E s := by
  obtain ⟨lg, hcore⟩ := h.core
  refine ChronoFS.wp_ilock hcore hk hsleep (fun s' _ hz => htype s' (by rw [hcore.inodes, hz])) ?_
  intro s' hlook hhold _ hlive hother hidle
  exact hok s' (h.lock hcore hlook hhold hlive hother) (hlook.peeked hcore) fun hi hfr =>
    hidle hi (by rw [hfr]; nofun)

theorem ilock (h : At st fr s₀ m refs locks s) (hk : 0 < (s.icache k).ref) :
    wp (ilock k) (fun _ s' => At st fr s₀ m refs (k :: locks) s' ∧ Peeked s.hold s s' ∧
      (Idle s k → fr = none → Idle s' k)) (Halts T) s :=
  h.wp_ilock hk (fun _ => Halt.Benign.halts ⟨by decide, by decide⟩)
    (fun _ _ => Halt.Benign.halts ⟨by decide, by decide⟩)
    fun _ hat hpeek hidle => ⟨hat, hpeek, hidle⟩

theorem iunlock (h : At st fr s₀ m refs (k :: locks) s) :
    wp (iunlock k) (fun _ s' => At st fr s₀ m refs locks s' ∧ Peeked s.hold s s')
      (Halts T) s := by
  obtain ⟨lg, hcore⟩ := h.core
  have hk := h.live k List.mem_cons_self
  refine wp_iunlock hcore hk.1 (fun _ => Halt.Benign.halts ⟨by decide, by decide⟩) ?_
  intro s' hlook hhold hic _
  have hcalm : Calm s.hold s s' := hlook.steady.calm
  refine ⟨⟨⟨lg, hlook.core⟩, ?_, h.base, h.calm.trans (hcalm.anti h.le),
    h.since.trans ((hlook.ordinary hcore).anti h.le), fun j hj => ?_⟩, hlook.peeked hcore⟩
  · rw [hhold, h.hold, holds_lock]
    abel
  · have hlive := h.live j (List.mem_cons_of_mem _ hj)
    refine hcalm.live hlive.1 hlive ?_
    rw [hic]
    by_cases hjk : j = k
    · rw [hjk, update_self]
      exact hk.1
    · rw [update_of_ne hjk]
      exact hlive.1

/-- What a call still refers to once it has dropped its reference to `k`. -/
theorem sub_aRef_le (h : At st fr s₀ m (k :: refs) locks s) (j : Slot) :
    (s₀.hold j).1 ≤ ((s.hold - aRef k) j).1 := by
  have := (holds_nonneg refs locks j).1
  have heq : s.hold - aRef k = s₀.hold + holds refs locks := by
    rw [h.hold, holds_ref]
    abel
  rw [heq, Pi.add_apply, Prod.fst_add]
  omega

/-- A slot that the call refers to besides `k` is still in use then. -/
theorem pos_sub (h : At st fr s₀ m (k :: refs) locks s) {j : Slot} (hj : j ∈ refs) :
    0 < ((s.hold - aRef k) j).1 := by
  obtain ⟨l1, l2, rfl⟩ := List.append_of_mem hj
  have hperm : (k :: (l1 ++ j :: l2)).Perm (k :: j :: (l1 ++ l2)) := List.perm_middle.cons k
  have h0 := (h.base j).1
  have h1 := (holds_nonneg (l1 ++ l2) locks j).1
  have heq : s.hold - aRef k = s₀.hold + (holds (l1 ++ l2) locks + aRef j) := by
    rw [h.hold, holds_perm hperm (List.Perm.refl _), holds_ref, holds_ref]
    abel
  rw [heq, Pi.add_apply, Pi.add_apply, Prod.fst_add, Prod.fst_add, aRef_self]
  omega

theorem iput (h : At st none s₀ m (k :: refs) locks s) :
    wp (iput k) (fun _ s' => At st none s₀ m refs locks s' ∧ Put st [] k s s') (Halts T) s := by
  obtain ⟨lg, hcore⟩ := h.core
  by_cases hlocked : (s.icache k).locked = true
  · unfold ChronoFS.iput
    rw [wp_bind]
    refine wp_acquiresleep (fun _ => Halt.Benign.halts ⟨by decide, by decide⟩) fun hfree => ?_
    rw [hlocked] at hfree
    cases hfree
  · refine wp_mono (iput_spec hcore h.pos fun _ _ he => he.halts) (fun _ s' hput => ?_)
      fun _ _ => id
    have hcalm := hput.steady.calm
    refine ⟨⟨hput.core, ?_, h.base, h.calm.trans (hcalm.anti h.sub_aRef_le),
      h.since.trans (hput.ordinary.anti h.sub_aRef_le), fun j hj => ?_⟩, hput⟩
    · rw [hput.hold, h.hold, holds_ref]
      abel
    · -- a locked slot is not the one that is put
      have hjk : j ≠ k := fun heq => hlocked (h.locked (heq ▸ hj))
      have hlive := h.live j hj
      have hsame : ((s.hold - aRef k) j).1 = (s.icache j).ref := by
        rw [Pi.sub_apply]
        unfold aRef
        rw [Pi.single_eq_of_ne hjk, sub_zero]
        rfl
      refine hcalm.live (by rw [hsame]; exact hlive.1) hlive ?_
      rw [ref_of_hold hput.hold, hsame]
      exact hlive.1

theorem iunlockput (h : At st none s₀ m (k :: refs) (k :: locks) s) :
    wp (iunlockput k) (fun _ s' => At st none s₀ m refs locks s' ∧ Calm (s.hold - aRef k) s s')
      (Halts T) s := by
  unfold ChronoFS.iunlockput
  refine wp_of_spec h.iunlock (fun _ _ => id) ?_
  rintro _ s1 ⟨h1, hpeek1⟩
  have hcalm1 := hpeek1.calm
  refine wp_mono h1.iput (fun _ s2 hq => ⟨hq.1, ?_⟩) fun _ _ => id
  have hle : ∀ j, ((s.hold - aRef k) j).1 ≤ (s.hold j).1 := by
    intro j
    have := aRef_nonneg k j
    rw [Pi.sub_apply, Prod.fst_sub]
    omega
  have hfst : ∀ j, ((s.hold - aRef k) j).1 ≤ ((s1.hold - aRef k) j).1 := by
    intro j
    rw [h.hold, h1.hold, holds_lock, Pi.sub_apply, Pi.sub_apply, Pi.add_apply, Pi.add_apply,
      Pi.add_apply]
    have := aLock_fst k j
    simp only [Prod.fst_add, Prod.fst_sub]
    omega
  exact (hcalm1.anti hle).trans (hq.2.steady.calm.anti hfst)

/-- A lock is taken once. -/
theorem not_mem_locks (h : At st fr s₀ m refs (k :: locks) s) : k ∉ locks := by
  intro hk
  obtain ⟨l1, l2, rfl⟩ := List.append_of_mem hk
  have hperm : (k :: (l1 ++ k :: l2)).Perm (k :: k :: (l1 ++ l2)) := List.perm_middle.cons k
  have h0 := (h.base k).2
  have h1 := (holds_nonneg refs (l1 ++ l2) k).2
  have hbit : 2 ≤ (s.icache k).lockBit := by
    rw [lockBit_of_hold h.hold, holds_perm (List.Perm.refl _) hperm, holds_lock, holds_lock]
    simp only [Pi.add_apply, Prod.snd_add, aLock, Pi.single_eq_same]
    omega
  have hle : (s.icache k).lockBit ≤ 1 := by
    unfold Inode.lockBit
    split <;> decide
  omega

/-- Putting an inode that would not be lost only changes the cache. -/
theorem wp_iunlockput_idle {Q : Unit → Fs → Prop} (h : At st none s₀ m (k :: refs) (k :: locks) s)
    (hidle : Idle s k)
    (hok : ∀ s', At st none s₀ m refs locks s' → Peeked (s.hold - aRef k) s s' → Q () s') :
    wp (ChronoFS.iunlockput k) Q E s := by
  obtain ⟨lg, hcore⟩ := h.core
  have hk := h.live k List.mem_cons_self
  have hlocked := h.locked List.mem_cons_self
  refine ChronoFS.wp_iunlockput_idle hcore hk.1 hidle (fun hfree => ?_) fun s' hlook hhold hic => ?_
  · rw [hlocked] at hfree
    cases hfree
  · refine hok s' ⟨⟨lg, hlook.core⟩, ?_, h.base,
      h.calm.trans (hlook.steady.calm.anti h.sub_aRef_le),
      h.since.trans ((hlook.ordinary hcore).anti h.sub_aRef_le), fun j hj => ?_⟩
      (hlook.peeked hcore)
    · rw [hhold, h.hold, holds_ref, holds_lock]
      abel
    · have hjk : j ≠ k := fun heq => h.not_mem_locks (heq ▸ hj)
      rw [hic, update_of_ne hjk]
      exact h.live j (List.mem_cons_of_mem _ hj)

theorem namex {cwd : Option Slot} (h : At st none s₀ m refs locks s)
    (hcwd : ∀ k, cwd = some k → 0 < (s₀.icache k).ref)
    (hT : ChronoFS.total s₀.hold + refs.length + 1 ≤ T) (path : List UInt8) (par : Bool) :
    wp (namex cwd path par) (fun r s' =>
      At st none s₀ m ((r.map Prod.fst).toList ++ refs) locks s' ∧ Peeked s.hold s s' ∧
        r.map (fun x => ((s'.icache x.1).inum.toNat, x.2)) = s.resolve cwd path par ∧
        ∀ x, r = some x → Idle s' x.1) (Halts T) s := by
  obtain ⟨lg, hcore⟩ := h.core
  refine wp_mono (namex_spec hcore (fun k hk => h.pos_of_base (hcwd k hk))
    (by rw [h.total]; exact hT) path par) ?_ fun _ _ => id
  rintro r s' ⟨hn, hres⟩
  have hcalm := hn.looked.steady.calm
  rcases r with _ | ⟨k, rest⟩
  · exact ⟨h.next ⟨lg, hn.looked.core⟩ (hn.hold.trans (add_zero _)) hcalm
      (hn.looked.ordinary hcore), hn.looked.peeked hcore, hres, by nofun⟩
  · refine ⟨h.ref hn.looked.core hn.hold hcalm (hn.looked.ordinary hcore), hn.looked.peeked hcore,
      hres, fun x hx => ?_⟩
    obtain rfl := Option.some.inj hx
    exact hn.idle k rfl

theorem namei {cwd : Option Slot} (h : At st none s₀ m refs locks s)
    (hcwd : ∀ k, cwd = some k → 0 < (s₀.icache k).ref)
    (hT : ChronoFS.total s₀.hold + refs.length + 1 ≤ T) (path : List UInt8) :
    wp (namei cwd path) (fun r s' => At st none s₀ m (r.toList ++ refs) locks s' ∧
      Peeked s.hold s s' ∧ r.map (fun k => (s'.icache k).inum.toNat) = s.names cwd path ∧
      ∀ k, r = some k → Idle s' k) (Halts T) s := by
  unfold ChronoFS.namei
  refine wp_of_spec (h.namex hcwd hT path false) (fun _ _ => id) ?_
  rintro r s' ⟨hat, hpeek, hres, hidle⟩
  rw [wp_pure]
  refine ⟨hat, hpeek, ?_, fun k hk => ?_⟩
  · unfold Fs.names
    rw [← hres, Option.map_map, Option.map_map]
    rfl
  · obtain ⟨x, hx, rfl⟩ := Option.map_eq_some_iff.mp hk
    exact hidle x hx

theorem dirlookup (h : At st fr s₀ m refs locks s) (hdp : dp ∈ locks)
    (hT : ChronoFS.total s₀.hold + refs.length ≤ T) (name : List UInt8) :
    wp (dirlookup dp name) (fun r s' =>
      At st fr s₀ m ((r.map Prod.fst).toList ++ refs) locks s' ∧ Peeked s.hold s s' ∧
        (s.icache dp).din.type = T_DIR ∧ r.map Prod.snd = s.lookup dp name ∧
        ∀ ip off, r = some (ip, off) → off % DIRENT_SIZE = 0 ∧
          (s'.icache ip).inum.toNat = (s.dirent dp off).inum.toNat) (Halts T) s := by
  obtain ⟨lg, hcore⟩ := h.core
  refine wp_mono (dirlookup_spec hcore (h.live dp hdp) (h.audited hdp) (by rw [h.total]; exact hT) name)
    (fun r s' hq => ?_) fun _ _ => id
  obtain ⟨hdir, hr, hnone, hsome⟩ := hq
  rcases r with _ | ⟨ip, off⟩
  · obtain rfl := hnone rfl
    exact ⟨h, .refl _ _, hdir, hr, by nofun⟩
  · have hup := hsome ip off rfl
    have hcalm := hup.looked.steady.calm
    refine ⟨h.ref hup.looked.core hup.hold hcalm (hup.looked.ordinary hcore),
      hup.looked.peeked hcore, hdir, hr, fun ip' off' heq => ?_⟩
    obtain ⟨rfl, rfl⟩ := Prod.mk.inj (Option.some.inj heq)
    exact ⟨hup.aligned, hup.inum⟩

theorem dirlink (h : At st fr s₀ m refs locks s) (hdp : dp ∈ locks)
    (hT : ChronoFS.total s₀.hold + refs.length ≤ T) {inum : UInt32}
    (hi : inum.toNat < s.sb.ninodes) (name : List UInt8) :
    wp (dirlink dp name inum) (fun _ s' => At st fr s₀ m refs locks s' ∧ Calm s.hold s s')
      (Halts T) s := by
  obtain ⟨lg, hcore⟩ := h.core
  refine wp_mono (dirlink_spec hcore (h.live dp hdp) (h.audited hdp) (by rw [h.total]; exact hT) hi name)
    (fun ok s' hent => ?_) fun _ _ => id
  cases ok with
  | false =>
    obtain ⟨-, hlook, hhold⟩ := hent.present rfl
    exact ⟨h.next ⟨lg, hlook.core⟩ hhold hlook.steady.calm (hlook.ordinary hcore),
      hlook.steady.calm⟩
  | true =>
    obtain ⟨-, lg', hw⟩ := hent.added rfl
    have hkept := hw.kept hcore (h.live dp hdp)
    exact ⟨h.kept hkept, hkept.steady.calm⟩

theorem addLinks (h : At st fr s₀ m refs locks s) (hk : k ∈ locks) (n : Int16) :
    wp (addLinks k n) (fun _ s' => At st fr s₀ m refs locks s' ∧ Calm s.hold s s' ∧ Within k s s')
      (Halts T) s := by
  obtain ⟨lg, hcore⟩ := h.core
  refine wp_mono (addLinks_spec hcore (h.live k hk) (h.audited hk) (fun _ _ he => he.halts) n) ?_ fun _ _ => id
  rintro _ s' ⟨hkept, hwithin⟩
  exact ⟨h.kept hkept, hkept.steady.calm, hwithin⟩

theorem readi (h : At st fr s₀ m refs locks s) (hk : k ∈ locks) (off n : UInt32) :
    wp (readi k off n) (fun _ s' => At st fr s₀ m refs locks s' ∧ Calm s.hold s s') (Halts T) s := by
  obtain ⟨lg, hcore⟩ := h.core
  refine wp_mono (readi_spec hcore (h.live k hk) (h.audited hk) (fun _ _ he => he.halts) off n)
    (fun _ s' hkept => ⟨h.kept hkept, hkept.steady.calm⟩) fun _ _ => id

theorem writei (h : At st fr s₀ m refs locks s) (hk : k ∈ locks) {src : List UInt8} {off : UInt32}
    (hlen : src.length < 2 ^ 32)
    (hdir : (s.icache k).din.type = T_DIR →
      DirWrite s.sb.ninodes fr (s.icache k).inum.toNat src off.toNat) :
    wp (writei k src off) (fun _ s' => At st fr s₀ m refs locks s' ∧ Calm s.hold s s')
      (Halts T) s := by
  obtain ⟨lg, hcore⟩ := h.core
  refine wp_mono (writei_spec hcore (h.live k hk) (h.audited hk) (fun _ _ he => he.halts) hlen hdir)
    (fun _ s' hq => ⟨h.kept hq.1, hq.1.steady.calm⟩) fun _ _ => id

end At

end ChronoFS
