import ChronoFS.Ftable.Accounting

/-!
# The actions keep the accounts

For each action, the invariant `Ledger` holds afterwards with the account that `after` gives the
caller. The counts are kept because an action changes a count and what one process holds by the same
number; the types and pipes are kept because a file that a call has just allocated is known to no
other call.
-/

namespace ChronoFS.Ftable

open Function

namespace Ledger

variable {s s' : Shared} {own : Accounts} {p q np : ProcNo} {o o' : Account} {f g : FileNo}

/-- A file that another call knows alone is not held by `p`. -/
theorem excl_other (h : Ledger s own) {o1 : Account} {t : FileType} (hq : own q = some o1)
    (hf : o1.excl f = some t) (hpq : p ≠ q) : holding s own p f = 0 := by
  obtain ⟨href, -, hheld⟩ := h.types.excl q o1 f t hq hf
  have hd : o1.dead = false := by
    cases hd : o1.dead with
    | false => rfl
    | true =>
      have := ((h.tables.dead q o1 hq hd).1 f).2
      rw [hf] at this
      cases this
  have hle := h.counts.add_le_ref hpq f
  have hge := h.counts.nonneg p f
  rw [h.tables.holding hq hd, hheld, href] at hle
  omega

/-- A call that holds a reference: the file is in use, and no other call knows it alone. -/
theorem held_pos (h : Ledger s own) (ho : own p = some o) (hd : o.dead = false)
    (hf : 1 ≤ o.held f) : 1 ≤ s.ref f ∧
      ∀ q o1 t, q ≠ p → own q = some o1 → o1.excl f ≠ some t := by
  have hhold := h.tables.holding ho hd f
  refine ⟨?_, fun q o1 t hne hq ht => ?_⟩
  · have := h.counts.le_ref p f
    omega
  · have := h.excl_other hq ht hne.symm
    omega

/-- What the processes hold, when only the account of `p` changes and its descriptors with it. -/
theorem holding_eq (h : Ledger s own) (ho : own p = some o) (hd : o.dead = false)
    (hofile : ∀ q ≠ p, s'.ofile q = s.ofile q) (htable : s'.ofile p = o'.table) (q : ProcNo)
    (f : FileNo) : holding s' (update own p (some o')) q f =
      holding s own q f + if q = p then o'.held f - o.held f else 0 := by
  rw [holding_update]
  by_cases hq : q = p
  · subst hq
    have := h.tables.holding ho hd f
    simp only [if_true, htable]
    unfold Account.held at *
    omega
  · simp only [if_neg hq, hofile q hq, add_zero]
    rfl

/-- The account of `p` changes in no way that matters. -/
theorem note (h : Ledger s own) (ho : own p = some o) (hd : o.dead = false) (l : List Act) :
    Ledger s (update own p (some { o with taken := l })) := by
  have htable := (h.tables.table p o ho hd).1
  refine ⟨h.halted, h.counts.congr fun q f => ?_,
    h.tables.account ho hd (fun _ _ => rfl) htable rfl rfl hd,
    h.types.step h.types.free (fun f t hf => h.types.excl p o f t ho hf)
      fun q o1 f t _ _ _ => ⟨rfl, rfl⟩,
    h.pipes.account ho (fun _ _ _ => Iff.rfl) rfl rfl rfl⟩
  have hheld : ({ o with taken := l } : Account).held f - o.held f = 0 := by simp [Account.held]
  have htable' : s.ofile p = ({ o with taken := l } : Account).table := htable
  refine (h.holding_eq ho hd (fun _ _ => rfl) htable' q f).trans ?_
  rw [hheld, ite_self, add_zero]

/-- The references that a call holds after it took some. -/
theorem held_take (o : Account) (f g : FileNo) (δ : ℤ) :
    (o.take f δ).held g = o.held g + if g = f then δ else 0 := by
  unfold Account.held Account.take
  dsimp only
  rw [update_apply]
  split
  · rename_i hg
    rw [hg]
    omega
  · omega

/-- A descriptor of `p` changes, and the account with it: the process holds what it held. -/
theorem setfd (h : Ledger s own) (ho : own p = some o) (hd : o.dead = false) {fd : Fin NOFILE}
    {v : Option FileNo} (htable : o'.table = update o.table fd v)
    (hheld : ∀ f, o'.held f = o.held f) (hrest : o'.excl = o.excl ∧ o'.pend = o.pend ∧
      o'.child = o.child ∧ o'.dead = o.dead) :
    Ledger (s.setfd p fd v) (update own p (some o')) := by
  obtain ⟨hexcl, hpend, hchild, hdead⟩ := hrest
  have hofile : ∀ q ≠ p, (s.setfd p fd v).ofile q = s.ofile q := fun q hq => update_of_ne hq ..
  have hself : (s.setfd p fd v).ofile p = o'.table := by
    rw [htable, ← (h.tables.table p o ho hd).1]
    exact update_self ..
  refine ⟨h.halted, h.counts.congr fun q f => ?_,
    h.tables.account ho hd hofile hself rfl hchild (hdead.trans hd),
    h.types.step h.types.free (fun f t hf => ?_) fun q o1 f t _ _ _ => ⟨rfl, rfl⟩,
    h.pipes.account ho (fun _ _ _ => Iff.rfl) rfl rfl hpend⟩
  · rw [h.holding_eq ho hd hofile hself]
    simp [hheld]
  · rw [hheld]
    rw [hexcl] at hf
    exact h.types.excl p o f t ho hf

/-- The reference count of a file that `p` holds changes, and the account with it; what other calls
know is about other files. -/
theorem setref (h : Ledger s own) (ho : own p = some o) (hd : o.dead = false) {δ : ℤ}
    (hstatus : s'.status = s.status) (hofile : s'.ofile = s.ofile) (hhalt : s'.halted = none)
    (href : ∀ g, s'.ref g = s.ref g + if g = f then δ else 0)
    (htable : o'.table = o.table) (hchild : o'.child = o.child) (hdead : o'.dead = o.dead)
    (hheld : ∀ g, o'.held g = o.held g + if g = f then δ else 0) (hδ : 0 ≤ o.held f + δ)
    (htypes : Types s' (update own p (some o'))) (hpipes : Pipes s' (update own p (some o'))) :
    Ledger s' (update own p (some o')) := by
  have hself : s'.ofile p = o'.table := by
    rw [hofile, htable]
    exact (h.tables.table p o ho hd).1
  have hsame : ∀ q ≠ p, s'.ofile q = s.ofile q := fun q _ => by rw [hofile]
  refine ⟨hhalt, h.counts.change (p := p) δ ?_ href fun q g => ?_,
    h.tables.account ho hd hsame hself hstatus hchild (hdead.trans hd), htypes, hpipes⟩
  · rw [h.tables.holding ho hd]
    exact hδ
  · rw [h.holding_eq ho hd hsame hself, hheld]
    by_cases hq : q = p <;> simp [hq]

/-- `filealloc` takes a file that nobody holds. -/
theorem filealloc (h : Ledger s own) (ho : own p = some o) (hd : o.dead = false)
    (hf : s.ref f = 0) (l : List Act) :
    Ledger { s with ref := update s.ref f 1 } (update own p (some { o.take f 1 with
      excl := update o.excl f (some .none), taken := l })) ∧ o.held f = 0 ∧ o.excl f = none := by
  have hzero : o.held f = 0 := by
    rw [← h.tables.holding ho hd]
    have h1 := h.counts.le_ref p f
    have h2 := h.counts.nonneg p f
    omega
  have hexcl : o.excl f = none := by
    cases he : o.excl f with
    | none => rfl
    | some t =>
      have := (h.types.excl p o f t ho he).1
      omega
  refine ⟨?_, hzero, hexcl⟩
  have hheld : ∀ g, ({ o.take f 1 with excl := update o.excl f (some .none), taken := l } :
      Account).held g = o.held g + if g = f then 1 else 0 := fun g => held_take o f g 1
  refine h.setref (f := f) (δ := 1) ho hd rfl rfl h.halted (fun g => ?_) rfl rfl rfl hheld
    (by omega) (h.types.one ho (fun g hg => ⟨update_of_ne hg .., rfl⟩) (fun h0 => ?_)
      (fun t ht => ?_) (fun g hg => ⟨update_of_ne hg .., ?_⟩) fun q o1 t _ hq ht => ?_)
    (h.pipes.account ho (fun _ _ _ => Iff.rfl) rfl rfl rfl)
  · simp only [update_apply]
    split <;> simp_all
  · exact absurd h0 (by simp)
  · obtain rfl : FileType.none = t := by simpa using ht
    refine ⟨update_self .., h.types.free f hf, ?_⟩
    rw [hheld, if_pos rfl]
    omega
  · rw [hheld, if_neg hg, add_zero]
  · have := (h.types.excl q o1 f t hq ht).1
    omega

/-- `filedup` of a file that the call holds. -/
theorem filedup (h : Ledger s own) (ho : own p = some o) (hd : o.dead = false)
    (hf : 1 ≤ o.held f) (l : List Act) :
    Ledger (s.filedup f) (update own p (some { o.take f 1 with
      excl := update o.excl f none, taken := l })) := by
  obtain ⟨hpos, hother⟩ := h.held_pos ho hd hf
  have hdup : s.filedup f = { s with ref := update s.ref f (s.ref f + 1) } :=
    if_neg (by omega)
  have hheld : ∀ g, ({ o.take f 1 with excl := update o.excl f none, taken := l } :
      Account).held g = o.held g + if g = f then 1 else 0 := fun g => held_take o f g 1
  rw [hdup]
  refine h.setref (f := f) (δ := 1) ho hd rfl rfl h.halted (fun g => ?_) rfl rfl rfl hheld
    (by omega) (h.types.one ho (fun g hg => ⟨update_of_ne hg .., rfl⟩) (fun h0 => ?_)
      (fun t ht => ?_) (fun g hg => ⟨update_of_ne hg .., ?_⟩) hother)
    (h.pipes.account ho (fun _ _ _ => Iff.rfl) rfl rfl rfl)
  · simp only [update_apply]
    split <;> simp_all
  · simp only [update_self] at h0
    omega
  · exact absurd ht (by simp)
  · rw [hheld, if_neg hg, add_zero]

/-- An end of a pipe moves from the type of a file to the ends that a call has yet to close. -/
theorem pend_last (h : Ledger s own) (ho : own p = some o)
    (hpend : o'.pend = lastEnd (some (s.type f)) ++ o.pend)
    (htype : s'.type = update s.type f .none) (hpipe : s'.pipe = s.pipe)
    (hnpipes : s'.npipes = s.npipes) : Pipes s' (update own p (some o')) := by
  constructor
  · intro j w
    have hends := h.pipes.ends j w
    have hfiles := sum_update (fun t => if t = FileType.pipe j w then 1 else 0) s.type f .none
    have hcalls := sum_pend own ho o' (j, w)
    have hlast : (lastEnd (some (s.type f))).count (j, w) =
        if s.type f = .pipe j w then 1 else 0 := by
      cases s.type f with
      | pipe j' w' =>
        simp [lastEnd, List.count_cons]
      | none => simp [lastEnd]
      | inode => simp [lastEnd]
    rw [hpend, List.count_append, hlast] at hcalls
    rw [hpipe, htype, hends]
    simp only [reduceCtorEq, if_false] at hfiles
    omega
  · rw [hpipe, hnpipes]
    exact h.pipes.freed
  · rw [hpipe, hnpipes]
    exact h.pipes.unmade

/-- `fileclose` of a file that the call holds. -/
theorem fileclose (h : Ledger s own) (ho : own p = some o) (hd : o.dead = false)
    (hf : 1 ≤ o.held f) (l : List Act) :
    Ledger (s.fileclose f).2 (update own p (some
      { after o (.fileclose f) (s.fileclose f).1 with taken := l })) ∧
      ∀ t, o.excl f = some t → (s.fileclose f).1 = some t := by
  obtain ⟨hpos, hother⟩ := h.held_pos ho hd hf
  have hheld : ∀ r g, ({ after o (.fileclose f) r with taken := l } : Account).held g =
      o.held g + if g = f then -1 else 0 := fun r g => held_take o f g (-1)
  by_cases hlast : s.ref f - 1 > 0
  · have hclose : s.fileclose f = (none, { s with ref := update s.ref f (s.ref f - 1) }) := by
      unfold Shared.fileclose
      rw [if_neg (by omega), if_pos hlast]
    rw [hclose]
    refine ⟨?_, fun t ht => ?_⟩
    · refine h.setref (f := f) (δ := -1) ho hd rfl rfl h.halted (fun g => ?_) rfl rfl rfl
        (hheld _) (by omega) (h.types.one ho (fun g hg => ⟨update_of_ne hg .., rfl⟩)
        (fun h0 => ?_) (fun t ht => ?_) (fun g hg => ⟨update_of_ne hg .., ?_⟩) hother)
        (h.pipes.account ho (fun _ _ _ => Iff.rfl) rfl rfl rfl)
      · simp only [update_apply]
        split
        · rename_i hg
          rw [hg]
          omega
        · omega
      · simp only [update_self] at h0
        omega
      · exact absurd ht (by simp [after])
      · rw [hheld, if_neg hg, add_zero]
    · have := (h.types.excl p o f t ho ht).1
      omega
  · have hclose : s.fileclose f = (some (s.type f),
        { s with ref := update s.ref f 0, type := update s.type f .none }) := by
      unfold Shared.fileclose
      rw [if_neg (by omega), if_neg hlast]
    rw [hclose]
    refine ⟨?_, fun t ht => ?_⟩
    · refine h.setref (f := f) (δ := -1) ho hd rfl rfl h.halted (fun g => ?_) rfl rfl rfl
        (hheld _) (by omega) (h.types.one ho
        (fun g hg => ⟨update_of_ne hg .., update_of_ne hg ..⟩)
        (fun _ => update_self ..) (fun t ht => ?_) (fun g hg => ⟨update_of_ne hg .., ?_⟩) hother)
        (h.pend_last ho rfl rfl rfl rfl)
      · simp only [update_apply]
        split
        · rename_i hg
          rw [hg]
          omega
        · omega
      · exact absurd ht (by simp [after])
      · rw [hheld, if_neg hg, add_zero]
    · rw [(h.types.excl p o f t ho ht).2.1]

/-- The types change, and what is known about them; the processes hold what they held. -/
theorem settype (h : Ledger s own) (ho : own p = some o) (hd : o.dead = false)
    (href : s'.ref = s.ref) (hstatus : s'.status = s.status) (hofile : s'.ofile = s.ofile)
    (hhalt : s'.halted = s.halted) (hkeep : o'.table = o.table ∧ o'.extra = o.extra ∧
      o'.child = o.child ∧ o'.dead = o.dead)
    (htypes : Types s' (update own p (some o'))) (hpipes : Pipes s' (update own p (some o'))) :
    Ledger s' (update own p (some o')) := by
  obtain ⟨htable, hextra, hchild, hdead⟩ := hkeep
  have hself : s'.ofile p = o'.table := by
    rw [hofile, htable]
    exact (h.tables.table p o ho hd).1
  have hsame : ∀ q ≠ p, s'.ofile q = s.ofile q := fun q _ => by rw [hofile]
  refine ⟨hhalt.trans h.halted, ?_,
    h.tables.account ho hd hsame hself hstatus hchild (hdead.trans hd), htypes, hpipes⟩
  rw [href]
  refine h.counts.congr fun q f => ?_
  rw [h.holding_eq ho hd hsame hself]
  simp [Account.held, htable, hextra]

/-- `f->type = FD_INODE` for a file that only the call knows. -/
theorem setinode (h : Ledger s own) (ho : own p = some o) (hd : o.dead = false)
    (hf : o.excl f = some .none) (l : List Act) :
    Ledger { s with type := update s.type f .inode } (update own p (some { o with
      excl := update o.excl f (some .inode), taken := l })) := by
  obtain ⟨href, htype, hheld⟩ := h.types.excl p o f .none ho hf
  refine h.settype ho hd rfl rfl rfl rfl ⟨rfl, rfl, rfl, rfl⟩
    (h.types.one ho (fun g hg => ⟨rfl, update_of_ne hg ..⟩) (fun h0 => ?_) (fun t ht => ?_)
      (fun g hg => ⟨update_of_ne hg .., rfl⟩) (h.held_pos ho hd (by omega)).2)
    (h.pipes.account ho (fun g j w => ?_) rfl rfl rfl)
  · have : s.ref f = 0 := h0
    omega
  · obtain rfl : FileType.inode = t := by simpa using ht
    exact ⟨href, update_self .., hheld⟩
  · by_cases hg : g = f
    · subst hg
      simp [htype]
    · simp [hg]

/-- `pipealloc` makes a pipe for two files that only the call knows. -/
theorem kalloc (h : Ledger s own) (ho : own p = some o) (hd : o.dead = false) {rf wf : FileNo}
    (hne : rf ≠ wf) (hrf : o.excl rf = some .none) (hwf : o.excl wf = some .none)
    (l : List Act) : Ledger (s.pipealloc rf wf) (update own p (some { o with
      excl := update (update o.excl rf (some (.pipe s.npipes false))) wf
        (some (.pipe s.npipes true))
      made := s.npipes :: o.made
      taken := l })) := by
  obtain ⟨hrref, hrtype, hrheld⟩ := h.types.excl p o rf .none ho hrf
  obtain ⟨hwref, hwtype, hwheld⟩ := h.types.excl p o wf .none ho hwf
  have htype : ∀ g, (s.pipealloc rf wf).type g = if g = wf then .pipe s.npipes true
      else if g = rf then .pipe s.npipes false else s.type g := by
    intro g
    show update (update s.type rf _) wf _ g = _
    rw [update_apply, update_apply]
  refine h.settype ho hd rfl rfl rfl rfl ⟨rfl, rfl, rfl, rfl⟩
    (h.types.step (fun g hg => ?_) (fun g t hg => ?_) fun q o1 g t hqp hq hg => ?_)
    ⟨fun j w => ?_, fun j => ?_, fun j hj => ?_⟩
  · have hg' : s.ref g = 0 := hg
    have h1 : g ≠ wf := by rintro rfl; omega
    have h2 : g ≠ rf := by rintro rfl; omega
    rw [htype, if_neg h1, if_neg h2]
    exact h.types.free g hg'
  · show s.ref g = 1 ∧ _ ∧ o.held g = 1
    rw [htype]
    by_cases h1 : g = wf
    · subst h1
      obtain rfl : FileType.pipe s.npipes true = t := by simpa using hg
      exact ⟨hwref, if_pos rfl, hwheld⟩
    · rw [if_neg h1]
      simp only [update_of_ne h1] at hg
      by_cases h2 : g = rf
      · subst h2
        obtain rfl : FileType.pipe s.npipes false = t := by simpa using hg
        exact ⟨hrref, if_pos rfl, hrheld⟩
      · rw [update_of_ne h2] at hg
        rw [if_neg h2]
        exact h.types.excl p o g t ho hg
  · refine ⟨rfl, ?_⟩
    have h1 : g ≠ wf := by
      rintro rfl
      exact (h.held_pos ho hd (by omega)).2 q o1 t hqp hq hg
    have h2 : g ≠ rf := by
      rintro rfl
      exact (h.held_pos ho hd (by omega)).2 q o1 t hqp hq hg
    rw [htype, if_neg h1, if_neg h2]
  · have hends := h.pipes.ends j w
    have hcalls := sum_pend own ho { o with
      excl := update (update o.excl rf (some (.pipe s.npipes false))) wf
        (some (.pipe s.npipes true))
      made := s.npipes :: o.made
      taken := l } (j, w)
    have hfiles := sum_update (fun t => if t = FileType.pipe j w then 1 else 0)
      (update s.type rf (.pipe s.npipes false)) wf (.pipe s.npipes true)
    have hfiles' := sum_update (fun t => if t = FileType.pipe j w then 1 else 0) s.type rf
      (.pipe s.npipes false)
    rw [update_of_ne hne.symm, hwtype] at hfiles
    rw [hrtype] at hfiles'
    simp only [reduceCtorEq, if_false, FileType.pipe.injEq] at hfiles hfiles'
    dsimp only at hcalls
    show (if (update s.pipe s.npipes _ j).isOpen w then 1 else 0) =
      (∑ f, if update (update s.type rf _) wf _ f = FileType.pipe j w then 1 else 0) + _
    by_cases hj : j = s.npipes
    · subst hj
      obtain ⟨hr, hw⟩ := h.pipes.unmade s.npipes le_rfl
      have hclosed : (s.pipe s.npipes).isOpen w = false := by
        cases w
        · exact hr
        · exact hw
      rw [hclosed] at hends
      rw [update_self]
      cases w <;> simp [PipeEnds.isOpen] at hends hfiles hfiles' ⊢ <;> omega
    · have hj' : ¬ s.npipes = j := fun he => hj he.symm
      rw [update_of_ne hj]
      simp only [hj', false_and, if_false] at hfiles hfiles'
      omega
  · show (update s.pipe s.npipes _ j).freed =
      if j < s.npipes + 1 ∧ (update s.pipe s.npipes _ j).readopen = false ∧
        (update s.pipe s.npipes _ j).writeopen = false then 1 else 0
    by_cases hj : j = s.npipes
    · rw [hj, update_self]
      simp
    · have hlt : j < s.npipes + 1 ↔ j < s.npipes := by omega
      rw [update_of_ne hj, h.pipes.freed j]
      simp only [hlt]
  · have hj' : s.npipes + 1 ≤ j := hj
    show (update s.pipe s.npipes _ j).readopen = false ∧
      (update s.pipe s.npipes _ j).writeopen = false
    rw [update_of_ne (by omega)]
    exact h.pipes.unmade j (by omega)

/-- An end that a call has yet to close is open, and nothing else is for it. -/
theorem pend_open (h : Ledger s own) (ho : own p = some o) {j : ℕ} {w : Bool}
    (hmem : (j, w) ∈ o.pend) : (s.pipe j).isOpen w = true ∧
      (∑ f, if s.type f = FileType.pipe j w then 1 else 0) = 0 ∧
      ∑ q, own.pend (j, w) q = 1 ∧ o.pend.count (j, w) = 1 := by
  have hends := h.pipes.ends j w
  have hcount : 1 ≤ o.pend.count (j, w) := List.one_le_count_iff.mpr hmem
  have hle : own.pend (j, w) p ≤ ∑ q, own.pend (j, w) q :=
    Finset.single_le_sum (fun _ _ => Nat.zero_le _) (Finset.mem_univ p)
  rw [pend_of ho] at hle
  cases hopen : (s.pipe j).isOpen w with
  | false =>
    rw [hopen] at hends
    simp only [Bool.false_eq_true, if_false] at hends
    omega
  | true =>
    rw [hopen] at hends
    simp only [if_true] at hends
    refine ⟨rfl, ?_, ?_, ?_⟩ <;> omega

/-- Closing one end leaves the other as it is. -/
theorem isOpen_pipeclosed (e : PipeEnds) (w w' : Bool) :
    (Shared.pipeclosed e w).isOpen w' = (if w' = w then false else e.isOpen w') := by
  obtain ⟨r, wr, n⟩ := e
  cases w <;> cases w' <;> cases r <;> cases wr <;> rfl

/-- Closing an open end frees the page if the other end is closed. -/
theorem freed_pipeclosed {e : PipeEnds} {w : Bool} (hfreed : e.freed = 0) :
    (Shared.pipeclosed e w).freed = if (Shared.pipeclosed e w).readopen = false ∧
      (Shared.pipeclosed e w).writeopen = false then 1 else 0 := by
  obtain ⟨r, wr, n⟩ := e
  obtain rfl : n = 0 := hfreed
  cases w <;> cases r <;> cases wr <;> rfl

/-- `pipeclose` of an end that the call has yet to close. -/
theorem pipeclose (h : Ledger s own) (ho : own p = some o) (hd : o.dead = false) {j : ℕ}
    {w : Bool} (hmem : (j, w) ∈ o.pend) (l : List Act) :
    Ledger { s with pipe := update s.pipe j (Shared.pipeclosed (s.pipe j) w) }
      (update own p (some { o with pend := o.pend.erase (j, w), taken := l })) := by
  obtain ⟨hopen, hfiles, hcalls, hcount⟩ := h.pend_open ho hmem
  have hmade : j < s.npipes := by
    by_contra hlt
    obtain ⟨hr, hw⟩ := h.pipes.unmade j (by omega)
    cases w
    · exact absurd (hopen.symm.trans hr) (by decide)
    · exact absurd (hopen.symm.trans hw) (by decide)
  have hfreed : (s.pipe j).freed = 0 := by
    rw [h.pipes.freed j]
    apply if_neg
    rintro ⟨-, hr, hw⟩
    cases w
    · exact absurd (hopen.symm.trans hr) (by decide)
    · exact absurd (hopen.symm.trans hw) (by decide)
  refine h.settype ho hd rfl rfl rfl rfl ⟨rfl, rfl, rfl, rfl⟩
    (h.types.step h.types.free (fun f t hf => h.types.excl p o f t ho hf)
      fun q o1 f t _ _ _ => ⟨rfl, rfl⟩)
    ⟨fun j' w' => ?_, fun j' => ?_, fun j' hj' => ?_⟩
  · have hends := h.pipes.ends j' w'
    have hcalls' := sum_pend own ho { o with pend := o.pend.erase (j, w), taken := l } (j', w')
    dsimp only at hcalls'
    show (if (update s.pipe j _ j').isOpen w' then 1 else 0) =
      (∑ f, if s.type f = FileType.pipe j' w' then 1 else 0) + _
    by_cases hj : j' = j
    · subst hj
      rw [update_self, isOpen_pipeclosed]
      by_cases hw : w' = w
      · subst hw
        rw [List.count_erase_self] at hcalls'
        simp only [if_true, Bool.false_eq_true, if_false]
        omega
      · have hne : (j', w') ≠ (j', w) := fun he => hw (Prod.mk.inj he).2
        rw [List.count_erase_of_ne hne] at hcalls'
        rw [if_neg hw]
        omega
    · have hne : (j', w') ≠ (j, w) := fun he => hj (Prod.mk.inj he).1
      rw [List.count_erase_of_ne hne] at hcalls'
      rw [update_of_ne hj]
      omega
  · show (update s.pipe j _ j').freed =
      if j' < s.npipes ∧ (update s.pipe j _ j').readopen = false ∧
        (update s.pipe j _ j').writeopen = false then 1 else 0
    by_cases hj : j' = j
    · subst hj
      rw [update_self, freed_pipeclosed hfreed]
      simp only [hmade, true_and]
    · rw [update_of_ne hj]
      exact h.pipes.freed j'
  · dsimp only at hj' ⊢
    rw [update_of_ne (by omega)]
    exact h.pipes.unmade j' hj'

/-- The process slots change, and what the accounts say about them. -/
theorem setstatus (h : Ledger s own) (ho : own p = some o) (st : ProcNo → Status)
    (hkeep : o'.table = o.table ∧ o'.extra = o.extra ∧ o'.excl = o.excl ∧ o'.pend = o.pend)
    (htables : Tables { s with status := st } (update own p (some o'))) :
    Ledger { s with status := st } (update own p (some o')) := by
  obtain ⟨htable, hextra, hexcl, hpend⟩ := hkeep
  have hheld : o'.held = o.held := by
    unfold Account.held
    rw [htable, hextra]
  refine ⟨h.halted, h.counts.congr fun q f => ?_, htables,
    h.types.step h.types.free (fun f t hf => ?_) fun q o1 f t _ _ _ => ⟨rfl, rfl⟩,
    h.pipes.account ho (fun _ _ _ => Iff.rfl) rfl rfl hpend⟩
  · rw [holding_update]
    by_cases hq : q = p
    · subst hq
      rw [if_pos rfl, hextra, ← extra_of ho]
      rfl
    · rw [if_neg hq]
      rfl
  · rw [hheld]
    exact h.types.excl p o f t ho (hexcl ▸ hf)

/-- `allocproc` takes a free slot. -/
theorem allocproc (h : Ledger s own) (ho : own p = some o) (hd : o.dead = false)
    (hnp : s.status np = .unused) (l : List Act) :
    Ledger { s with status := update s.status np .embryo } (update own p (some { o with
      child := some (np, fun _ => none), taken := l })) := by
  obtain ⟨htable, hlive⟩ := h.tables.table p o ho hd
  -- nobody else is making the process: its slot was free
  have hother : ∀ q o1 np' t, own q = some o1 → o1.child = some (np', t) → np' ≠ np := by
    rintro q o1 np' t hq hc rfl
    exact absurd ((h.tables.child q o1 _ t hq hc).1.symm.trans hnp) (by decide)
  refine h.setstatus ho _ ⟨rfl, rfl, rfl, rfl⟩ ⟨fun q o1 hq hd1 => ?_, fun q o1 hq hd1 => ?_,
    fun q o1 np' t hq hc => ?_, fun q q' o1 o2 np' t t' hq hq' hc hc' => ?_, fun q hq => ?_⟩
  · have hq' : s.ofile q = o1.table ∧ s.status q = .live := by
      rcases own_update hq with ⟨rfl, rfl⟩ | ⟨-, hq⟩
      · exact ⟨htable, hlive⟩
      · exact h.tables.table q o1 hq hd1
    refine ⟨hq'.1, ?_⟩
    dsimp only
    rw [update_of_ne]
    · exact hq'.2
    · rintro rfl
      exact absurd (hnp.symm.trans hq'.2) (by decide)
  · rcases own_update hq with ⟨rfl, rfl⟩ | ⟨-, hq⟩
    · exact absurd (hd.symm.trans hd1) (by decide)
    · exact h.tables.dead q o1 hq hd1
  · rcases own_update hq with ⟨rfl, rfl⟩ | ⟨-, hq⟩
    · obtain ⟨rfl, rfl⟩ := Prod.mk.inj (Option.some.inj hc)
      exact ⟨update_self .., funext (h.tables.unused np hnp)⟩
    · dsimp only
      rw [update_of_ne (hother q o1 np' t hq hc)]
      exact h.tables.child q o1 np' t hq hc
  · rcases own_update hq with ⟨rfl, rfl⟩ | ⟨-, h1⟩ <;>
      rcases own_update hq' with ⟨rfl, rfl⟩ | ⟨-, h2⟩
    · rfl
    · obtain ⟨rfl, rfl⟩ := Prod.mk.inj (Option.some.inj hc)
      exact absurd rfl (hother q' o2 _ t' h2 hc')
    · obtain ⟨rfl, rfl⟩ := Prod.mk.inj (Option.some.inj hc')
      exact absurd rfl (hother q o1 _ t h1 hc)
    · exact h.tables.maker q q' o1 o2 np' t t' h1 h2 hc hc'
  · dsimp only at hq ⊢
    rw [update_apply] at hq
    split at hq
    · cases hq
    · exact h.tables.unused q hq

/-- The process that `p` is making leaves its hands: it begins to live, or its slot is free again. -/
theorem release (h : Ledger s own) (ho : own p = some o) (hd : o.dead = false)
    {t : Fin NOFILE → Option FileNo} (hchild : o.child = some (np, t)) (st : Status)
    (hempty : st = .unused → ∀ fd, t fd = none) (l : List Act) :
    Ledger { s with status := update s.status np st } (update own p (some { o with
      child := none, taken := l })) := by
  obtain ⟨htable, hlive⟩ := h.tables.table p o ho hd
  obtain ⟨hembryo, hofile⟩ := h.tables.child p o np t ho hchild
  refine h.setstatus ho _ ⟨rfl, rfl, rfl, rfl⟩ ⟨fun q o1 hq hd1 => ?_, fun q o1 hq hd1 => ?_,
    fun q o1 np' t hq hc => ?_, fun q q' o1 o2 np' t t' hq hq' hc hc' => ?_, fun q hq => ?_⟩
  · have hq' : s.ofile q = o1.table ∧ s.status q = .live := by
      rcases own_update hq with ⟨rfl, rfl⟩ | ⟨-, hq⟩
      · exact ⟨htable, hlive⟩
      · exact h.tables.table q o1 hq hd1
    refine ⟨hq'.1, ?_⟩
    dsimp only
    rw [update_of_ne]
    · exact hq'.2
    · rintro rfl
      exact absurd (hembryo.symm.trans hq'.2) (by decide)
  · rcases own_update hq with ⟨rfl, rfl⟩ | ⟨-, hq⟩
    · exact absurd (hd.symm.trans hd1) (by decide)
    · exact h.tables.dead q o1 hq hd1
  · rcases own_update hq with ⟨rfl, rfl⟩ | ⟨hne, hq⟩
    · cases hc
    · dsimp only
      rw [update_of_ne]
      · exact h.tables.child q o1 np' t hq hc
      · rintro rfl
        exact hne (h.tables.maker q p o1 o _ _ _ hq ho hc hchild)
  · rcases own_update hq with ⟨rfl, rfl⟩ | ⟨-, hq⟩
    · cases hc
    rcases own_update hq' with ⟨rfl, rfl⟩ | ⟨-, hq'⟩
    · cases hc'
    exact h.tables.maker q q' o1 o2 np' t t' hq hq' hc hc'
  · dsimp only at hq ⊢
    rw [update_apply] at hq
    split at hq
    · rename_i hqp
      rw [hqp, hofile]
      exact hempty hq
    · exact h.tables.unused q hq

/-- `exit` of a process that holds nothing. -/
theorem zombie (h : Ledger s own) (ho : own p = some o) (hd : o.dead = false)
    (hempty : ∀ fd, o.table fd = none) (hnone : (∀ f, o.extra f = 0 ∧ o.excl f = none) ∧
      o.pend = [] ∧ o.child = none) (l : List Act) :
    Ledger { s with status := update s.status p .unused } (update own p (some { o with
      dead := true, taken := l })) := by
  obtain ⟨htable, hlive⟩ := h.tables.table p o ho hd
  refine h.setstatus ho _ ⟨rfl, rfl, rfl, rfl⟩ ⟨fun q o1 hq hd1 => ?_, fun q o1 hq hd1 => ?_,
    fun q o1 np' t hq hc => ?_, fun q q' o1 o2 np' t t' hq hq' hc hc' => ?_, fun q hq => ?_⟩
  · rcases own_update hq with ⟨rfl, rfl⟩ | ⟨hne, hq⟩
    · cases hd1
    · dsimp only
      rw [update_of_ne hne]
      exact h.tables.table q o1 hq hd1
  · rcases own_update hq with ⟨rfl, rfl⟩ | ⟨-, hq⟩
    · exact hnone
    · exact h.tables.dead q o1 hq hd1
  · rcases own_update hq with ⟨rfl, rfl⟩ | ⟨-, hq⟩
    · exact absurd (hnone.2.2.symm.trans hc) (by simp)
    · obtain ⟨hembryo, hofile⟩ := h.tables.child q o1 np' t hq hc
      refine ⟨?_, hofile⟩
      dsimp only
      rw [update_of_ne]
      · exact hembryo
      · rintro rfl
        exact absurd (hembryo.symm.trans hlive) (by decide)
  · rcases own_update hq with ⟨rfl, rfl⟩ | ⟨-, hq⟩
    · exact absurd (hnone.2.2.symm.trans hc) (by simp)
    rcases own_update hq' with ⟨rfl, rfl⟩ | ⟨-, hq'⟩
    · exact absurd (hnone.2.2.symm.trans hc') (by simp)
    exact h.tables.maker q q' o1 o2 np' t t' hq hq' hc hc'
  · dsimp only at hq ⊢
    rw [update_apply] at hq
    split at hq
    · rename_i hqp
      rw [hqp, htable]
      exact hempty
    · exact h.tables.unused q hq

/-- `np->ofile[i] = filedup(curproc->ofile[i])`. -/
theorem dupfile (h : Ledger s own) (ho : own p = some o) (hd : o.dead = false)
    {t : Fin NOFILE → Option FileNo} {fd : Fin NOFILE} (hchild : o.child = some (np, t))
    (hfree : t fd = none) (hf : 1 ≤ o.held f) (l : List Act) :
    Ledger ((s.filedup f).setfd np fd (some f)) (update own p (some { o with
      child := some (np, update t fd (some f)), excl := update o.excl f none, taken := l })) := by
  obtain ⟨hpos, hother⟩ := h.held_pos ho hd hf
  obtain ⟨htable, hlive⟩ := h.tables.table p o ho hd
  obtain ⟨hembryo, hofile⟩ := h.tables.child p o np t ho hchild
  have hdup : s.filedup f = { s with ref := update s.ref f (s.ref f + 1) } :=
    if_neg (by omega)
  have hnp : p ≠ np := by
    rintro rfl
    exact absurd (hlive.symm.trans hembryo) (by decide)
  rw [hdup]
  unfold Shared.setfd
  dsimp only
  refine ⟨h.halted, h.counts.change (p := np) (f := f) 1 ?_ (fun g => ?_) fun q g => ?_, ?_,
    h.types.one ho (fun g hg => ⟨update_of_ne hg .., rfl⟩) (fun h0 => ?_) (fun t ht => ?_)
      (fun g hg => ⟨update_of_ne hg .., rfl⟩) hother,
    h.pipes.account ho (fun _ _ _ => Iff.rfl) rfl rfl rfl⟩
  · have := h.counts.nonneg np f
    omega
  · dsimp only
    rw [update_apply]
    split
    · rename_i hg
      rw [hg]
    · omega
  · have hext : (if q = p then o.extra g else own.extra q g) = own.extra q g := by
      split
      · rename_i hq
        rw [hq, extra_of ho]
      · rfl
    rw [holding_update]
    dsimp only
    rw [hext]
    unfold holding
    by_cases hq : q = np
    · subst hq
      rw [update_self, hofile, slots_update, hfree]
      by_cases hg : g = f
      · subst hg
        simp
        omega
      · have hg' : f ≠ g := fun he => hg he.symm
        simp [hg, hg']
    · rw [update_of_ne hq]
      simp [hq]
  · refine ⟨fun q o1 hq hd1 => ?_, fun q o1 hq hd1 => ?_,
      fun q o1 np' t' hq hc => ?_, fun q q' o1 o2 np' t1 t2 hq hq' hc hc' => ?_, fun q hq => ?_⟩
    · have hq' : s.ofile q = o1.table ∧ s.status q = .live := by
        rcases own_update hq with ⟨rfl, rfl⟩ | ⟨-, hq⟩
        · exact ⟨htable, hlive⟩
        · exact h.tables.table q o1 hq hd1
      dsimp only
      rw [update_of_ne]
      · exact hq'
      · rintro rfl
        exact absurd (hembryo.symm.trans hq'.2) (by decide)
    · rcases own_update hq with ⟨rfl, rfl⟩ | ⟨-, hq⟩
      · exact absurd (hd.symm.trans hd1) (by decide)
      · exact h.tables.dead q o1 hq hd1
    · rcases own_update hq with ⟨rfl, rfl⟩ | ⟨hne, h1⟩
      · obtain ⟨rfl, rfl⟩ := Prod.mk.inj (Option.some.inj hc)
        refine ⟨hembryo, ?_⟩
        dsimp only
        rw [update_self, hofile]
      · dsimp only
        rw [update_of_ne]
        · exact h.tables.child q o1 np' t' h1 hc
        · rintro rfl
          exact hne (h.tables.maker q p o1 o _ _ _ h1 ho hc hchild)
    · rcases own_update hq with ⟨rfl, rfl⟩ | ⟨-, h1⟩ <;>
        rcases own_update hq' with ⟨rfl, rfl⟩ | ⟨-, h2⟩
      · rfl
      · obtain ⟨rfl, rfl⟩ := Prod.mk.inj (Option.some.inj hc)
        exact h.tables.maker q q' o o2 _ t t2 ho h2 hchild hc'
      · obtain ⟨rfl, rfl⟩ := Prod.mk.inj (Option.some.inj hc')
        exact h.tables.maker q q' o1 o _ t1 t h1 ho hc hchild
      · exact h.tables.maker q q' o1 o2 np' t1 t2 h1 h2 hc hc'
    · dsimp only at hq ⊢
      rw [update_of_ne]
      · exact h.tables.unused q hq
      · rintro rfl
        exact absurd (hembryo.symm.trans hq) (by decide)
  · simp only [update_self] at h0
    omega
  · exact absurd ht (by simp)

end Ledger

end ChronoFS.Ftable
