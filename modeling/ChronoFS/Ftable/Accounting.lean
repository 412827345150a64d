import ChronoFS.Ftable.Model
import ChronoFS.Lib.Count
import Mathlib.Algebra.BigOperators.Fin

/-!
# Accounts of the references to files

A process holds a reference to a file for each of its descriptors, and a call in progress holds some
more or some less: `filealloc` and clearing a descriptor give it one, `fdalloc` takes one away. These
are the `extra` references of its account. A file that a call has just allocated is known to no one
else; until the call is done, its type is what the call made it (`excl`). A call that dropped the
last reference to an end of a pipe has yet to close that end (`pend`).

`Ledger` is the invariant: the reference count of a file is the sum of what the processes hold, and
an end of a pipe is open exactly while a file is for it or a call has yet to close it. It consists
of four parts, on the counts, the tables, the types and the pipes; an action changes few of them.
-/

namespace ChronoFS.Ftable

open Function

/-! ## Accounts -/

/-- How many descriptors of a table are for `f`. -/
def slots (t : Fin NOFILE → Option FileNo) (f : FileNo) : ℤ :=
  ∑ fd, if t fd = some f then 1 else 0

/-- The account of a call in progress. -/
structure Account where
  /-- The descriptor table of the process. -/
  table : Fin NOFILE → Option FileNo
  /-- The references it holds apart from its descriptors. -/
  extra : FileNo → ℤ
  /-- The files that only it refers to, and their types. -/
  excl : FileNo → Option FileType
  /-- The ends of pipes that it has yet to close. -/
  pend : List (ℕ × Bool)
  /-- The process it is making, and its descriptor table. -/
  child : Option (ProcNo × (Fin NOFILE → Option FileNo))
  /-- The process has exited. -/
  dead : Bool
  /-- The pipes that it has made. -/
  made : List ℕ
  /-- The actions it has taken. -/
  taken : List Act

/-- The references that a call in progress holds. -/
def Account.held (o : Account) (f : FileNo) : ℤ := slots o.table f + o.extra f

/-- The accounts of the calls in progress. -/
abbrev Accounts := ProcNo → Option Account

/-- The references that the call of `q` holds apart from its descriptors. -/
def Accounts.extra (own : Accounts) (q : ProcNo) (f : FileNo) : ℤ :=
  (own q).elim 0 fun o => o.extra f

/-- How often the call of `q` has yet to close an end of a pipe. -/
def Accounts.pend (own : Accounts) (e : ℕ × Bool) (q : ProcNo) : ℕ :=
  (own q).elim 0 fun o => o.pend.count e

/-- The references to `f` that `q` holds. -/
def holding (s : Shared) (own : Accounts) (q : ProcNo) (f : FileNo) : ℤ :=
  slots (s.ofile q) f + own.extra q f

section Slots

variable {t : Fin NOFILE → Option FileNo} {fd : Fin NOFILE} {f g : FileNo}

theorem slots_nonneg (t : Fin NOFILE → Option FileNo) (f : FileNo) : 0 ≤ slots t f :=
  Finset.sum_nonneg fun fd _ => by split <;> decide

/-- One descriptor that is for `f` is one reference. -/
theorem slots_pos (h : t fd = some f) : 1 ≤ slots t f := by
  have hle := Finset.single_le_sum (f := fun fd => if t fd = some f then (1 : ℤ) else 0)
    (fun fd _ => by split <;> decide) (Finset.mem_univ fd)
  rwa [if_pos h] at hle

/-- A descriptor changes. -/
theorem slots_update (t : Fin NOFILE → Option FileNo) (fd : Fin NOFILE) (v : Option FileNo)
    (g : FileNo) : slots (update t fd v) g =
      slots t g - (if t fd = some g then 1 else 0) + if v = some g then 1 else 0 := by
  have hsum := sum_update (fun x => if x = some g then (1 : ℤ) else 0) t fd v
  unfold slots
  omega

theorem slots_empty (h : ∀ fd, t fd = none) (f : FileNo) : slots t f = 0 := by
  unfold slots
  simp [h]

end Slots

/-! ## Counts -/

section Counts

variable {ref ref' : FileNo → ℤ} {h h' : ProcNo → FileNo → ℤ} {p q : ProcNo} {f g : FileNo}

/-- A reference count is the sum of what the processes hold. -/
structure Counts (ref : FileNo → ℤ) (h : ProcNo → FileNo → ℤ) : Prop where
  /-- The count is the sum. -/
  sum : ∀ f, ref f = ∑ q, h q f
  /-- Nobody holds less than nothing. -/
  nonneg : ∀ q f, 0 ≤ h q f

namespace Counts

theorem congr (hc : Counts ref h) (hh : ∀ q f, h' q f = h q f) : Counts ref h' := by
  have : h' = h := funext fun q => funext fun f => hh q f
  rwa [this]

theorem le_ref (hc : Counts ref h) (p : ProcNo) (f : FileNo) : h p f ≤ ref f := by
  rw [hc.sum]
  exact Finset.single_le_sum (fun q _ => hc.nonneg q f) (Finset.mem_univ p)

theorem add_le_ref (hc : Counts ref h) (hpq : p ≠ q) (f : FileNo) : h p f + h q f ≤ ref f := by
  rw [hc.sum, ← Finset.add_sum_erase _ _ (Finset.mem_univ p)]
  have hmem : q ∈ Finset.univ.erase p := Finset.mem_erase.mpr ⟨hpq.symm, Finset.mem_univ q⟩
  have := Finset.single_le_sum (f := fun q => h q f) (fun q _ => hc.nonneg q f) hmem
  omega

/-- The process `p` takes or gives back references to `f`. -/
theorem change (hc : Counts ref h) (δ : ℤ) (hδ : 0 ≤ h p f + δ)
    (href : ∀ g, ref' g = ref g + if g = f then δ else 0)
    (hh : ∀ q g, h' q g = h q g + if q = p ∧ g = f then δ else 0) : Counts ref' h' := by
  constructor
  · intro g
    rw [href, hc.sum]
    simp only [hh]
    rw [Finset.sum_add_distrib]
    by_cases hg : g = f <;> simp [hg]
  · intro q g
    rw [hh]
    by_cases hq : q = p ∧ g = f
    · rw [if_pos hq, hq.1, hq.2]
      exact hδ
    · rw [if_neg hq, add_zero]
      exact hc.nonneg q g

end Counts

end Counts

/-! ## The invariant -/

/-- The descriptor tables and the process slots. -/
structure Tables (s : Shared) (own : Accounts) : Prop where
  /-- A process whose call is in progress lives, and its table is the one of its account. -/
  table : ∀ q o, own q = some o → o.dead = false → s.ofile q = o.table ∧ s.status q = .live
  /-- A process that has exited holds nothing. -/
  dead : ∀ q o, own q = some o → o.dead = true → (∀ f, o.extra f = 0 ∧ o.excl f = none) ∧
    o.pend = [] ∧ o.child = none
  /-- A process that is being made has the table that its maker knows. -/
  child : ∀ q o np t, own q = some o → o.child = some (np, t) →
    s.status np = .embryo ∧ s.ofile np = t
  /-- Only one process makes it. -/
  maker : ∀ q q' o o' np t t', own q = some o → own q' = some o' → o.child = some (np, t) →
    o'.child = some (np, t') → q = q'
  /-- A free slot has no open files. -/
  unused : ∀ q, s.status q = .unused → ∀ fd, s.ofile q fd = none

/-- The types of the files. -/
structure Types (s : Shared) (own : Accounts) : Prop where
  /-- A free file has no type. -/
  free : ∀ f, s.ref f = 0 → s.type f = .none
  /-- A file that only one call knows has the type that it gave it. -/
  excl : ∀ q o f t, own q = some o → o.excl f = some t → s.ref f = 1 ∧ s.type f = t ∧ o.held f = 1

/-- The pipes. -/
structure Pipes (s : Shared) (own : Accounts) : Prop where
  /-- An end is open while a file is for it, or a call has yet to close it. -/
  ends : ∀ j w, (if (s.pipe j).isOpen w then 1 else 0) =
    (∑ f, if s.type f = .pipe j w then 1 else 0) + ∑ q, own.pend (j, w) q
  /-- The page is freed once, when both ends are closed. -/
  freed : ∀ j, (s.pipe j).freed =
    if j < s.npipes ∧ (s.pipe j).readopen = false ∧ (s.pipe j).writeopen = false then 1 else 0
  /-- A pipe that has not been made has no open end. -/
  unmade : ∀ j, s.npipes ≤ j → (s.pipe j).readopen = false ∧ (s.pipe j).writeopen = false

/-- The invariant. -/
structure Ledger (s : Shared) (own : Accounts) : Prop where
  /-- The kernel has not panicked. -/
  halted : s.halted = none
  /-- The counts are right. -/
  counts : Counts s.ref (holding s own)
  /-- The tables are those of the accounts. -/
  tables : Tables s own
  /-- The types are right. -/
  types : Types s own
  /-- The pipes are right. -/
  pipes : Pipes s own

/-- What an action needs. -/
def pre (o : Account) : Act → Prop
  | .argfd _ | .fdalloc _ | .clearfd _ | .namei | .filealloc | .allocproc | .copyuvm =>
    o.dead = false
  | .filedup f | .fileclose f => o.dead = false ∧ 1 ≤ o.held f
  | .setinode f => o.dead = false ∧ o.excl f = some .none
  | .kalloc rf wf => o.dead = false ∧ rf ≠ wf ∧ o.excl rf = some .none ∧ o.excl wf = some .none
  | .pipeclose j w => o.dead = false ∧ (j, w) ∈ o.pend
  | .freeproc np => o.dead = false ∧ o.child = some (np, fun _ => none)
  | .dupfile np fd f => o.dead = false ∧ 1 ≤ o.held f ∧ ∃ t, o.child = some (np, t) ∧ t fd = none
  | .runnable np => o.dead = false ∧ ∃ t, o.child = some (np, t)
  | .zombie => o.dead = false ∧ (∀ fd, o.table fd = none) ∧
      (∀ f, o.extra f = 0 ∧ o.excl f = none) ∧ o.pend = [] ∧ o.child = none

/-- The end of a pipe that the last reference to a file was for. -/
def lastEnd : Option FileType → List (ℕ × Bool)
  | some (.pipe j w) => [(j, w)]
  | _ => []

/-- A reference more or less. -/
def Account.take (o : Account) (f : FileNo) (δ : ℤ) : Account :=
  { o with extra := update o.extra f (o.extra f + δ) }

/-- The account after an action, but for the actions it has taken. -/
def after (o : Account) : (a : Act) → a.Resp → Account
  | .fdalloc f, r => match (r : Option (Fin NOFILE)) with
    | some fd => { o.take f (-1) with table := update o.table fd (some f) }
    | none => o
  | .clearfd fd, _ => match o.table fd with
    | some f => { o.take f 1 with table := update o.table fd none }
    | none => o
  | .filealloc, r => match (r : Option FileNo) with
    | some f => { o.take f 1 with excl := update o.excl f (some .none) }
    | none => o
  | .filedup f, _ => { o.take f 1 with excl := update o.excl f none }
  | .fileclose f, r =>
    { o.take f (-1) with
      excl := update o.excl f none
      pend := lastEnd r ++ o.pend }
  | .setinode f, _ => { o with excl := update o.excl f (some .inode) }
  | .kalloc rf wf, r => match (r : Option ℕ) with
    | some j => { o with
        excl := update (update o.excl rf (some (.pipe j false))) wf (some (.pipe j true))
        made := j :: o.made }
    | none => o
  | .pipeclose j w, _ => { o with pend := o.pend.erase (j, w) }
  | .allocproc, r => match (r : Option ProcNo) with
    | some np => { o with child := some (np, fun _ => none) }
    | none => o
  | .freeproc _, _ | .runnable _, _ => { o with child := none }
  | .dupfile _ fd f, _ => { o with
      child := o.child.map fun c => (c.1, update c.2 fd (some f))
      excl := update o.excl f none }
  | .zombie, _ => { o with dead := true }
  | .argfd _, _ | .namei, _ | .copyuvm, _ => o

/-- What is known of the answer of an action. -/
def Answers (o : Account) : (a : Act) → a.Resp → Prop
  | .argfd fd, r => r = o.table fd
  | .fdalloc _, r => match (r : Option (Fin NOFILE)) with
    | some fd => o.table fd = none
    | none => True
  | .filealloc, r => match (r : Option FileNo) with
    | some f => o.held f = 0 ∧ o.excl f = none
    | none => True
  | .fileclose f, r => ∀ t, o.excl f = some t → r = some t
  | _, _ => True

/-- What an action makes of the account. -/
def post (o : Account) (a : Act) (r : a.Resp) (o' : Account) : Prop :=
  Answers o a r ∧ o' = { after o a r with taken := o.taken ++ [a] }

/-! ## Parts that an action leaves alone -/

section Frame

variable {s s' : Shared} {own : Accounts} {p q : ProcNo} {o o' : Account} {f : FileNo}

theorem extra_update (own : Accounts) (p q : ProcNo) (o : Account) (f : FileNo) :
    Accounts.extra (update own p (some o)) q f = if q = p then o.extra f else own.extra q f := by
  unfold Accounts.extra
  rw [update_apply]
  split <;> rfl

theorem pend_update (own : Accounts) (p q : ProcNo) (o : Account) (e : ℕ × Bool) :
    Accounts.pend (update own p (some o)) e q =
      if q = p then o.pend.count e else own.pend e q := by
  unfold Accounts.pend
  rw [update_apply]
  split <;> rfl

theorem extra_of (ho : own p = some o) (f : FileNo) : own.extra p f = o.extra f := by
  unfold Accounts.extra
  rw [ho]
  rfl

theorem pend_of (ho : own p = some o) (e : ℕ × Bool) : own.pend e p = o.pend.count e := by
  unfold Accounts.pend
  rw [ho]
  rfl

theorem holding_update (s' : Shared) (own : Accounts) (p q : ProcNo) (o' : Account) (f : FileNo) :
    holding s' (update own p (some o')) q f =
      slots (s'.ofile q) f + if q = p then o'.extra f else own.extra q f := by
  unfold holding
  rw [extra_update]

/-- What a process holds is what its account says. -/
theorem Tables.holding (h : Tables s own) (ho : own p = some o) (hd : o.dead = false)
    (f : FileNo) : Ftable.holding s own p f = o.held f := by
  unfold Ftable.holding Account.held
  rw [(h.table p o ho hd).1, extra_of ho]

theorem own_update {o1 : Account} (h : update own p (some o') q = some o1) :
    q = p ∧ o1 = o' ∨ q ≠ p ∧ own q = some o1 := by
  by_cases hqp : q = p
  · rw [hqp, update_self] at h
    exact .inl ⟨hqp, (Option.some.inj h).symm⟩
  · rw [update_of_ne hqp] at h
    exact .inr ⟨hqp, h⟩

/-- The account of `p` changes, and nothing that matters to the tables. -/
theorem Tables.account (h : Tables s own) (ho : own p = some o) (hd : o.dead = false)
    (hofile : ∀ q ≠ p, s'.ofile q = s.ofile q) (htable : s'.ofile p = o'.table)
    (hstatus : s'.status = s.status) (hchild : o'.child = o.child) (hdead : o'.dead = false) :
    Tables s' (update own p (some o')) := by
  have hlive := (h.table p o ho hd).2
  have hkid : ∀ q o1 c, update own p (some o') q = some o1 → o1.child = some c →
      ∃ o2, own q = some o2 ∧ o2.child = some c := by
    intro q o1 c hq hc
    rcases own_update hq with ⟨rfl, rfl⟩ | ⟨-, hq⟩
    · exact ⟨o, ho, hchild ▸ hc⟩
    · exact ⟨o1, hq, hc⟩
  constructor
  · intro q o1 hq hd1
    rw [hstatus]
    rcases own_update hq with ⟨rfl, rfl⟩ | ⟨hne, hq⟩
    · exact ⟨htable, hlive⟩
    · rw [hofile q hne]
      exact h.table q o1 hq hd1
  · intro q o1 hq hd1
    rcases own_update hq with ⟨rfl, rfl⟩ | ⟨-, hq⟩
    · rw [hdead] at hd1
      cases hd1
    · exact h.dead q o1 hq hd1
  · intro q o1 np t hq hc
    obtain ⟨o2, hq', hc'⟩ := hkid q o1 _ hq hc
    have hc2 := h.child q o2 np t hq' hc'
    have hne : np ≠ p := by
      rintro rfl
      exact absurd (hc2.1.symm.trans hlive) (by decide)
    rw [hofile np hne, hstatus]
    exact hc2
  · intro q q' o1 o1' np t t' hq hq' hc hc'
    obtain ⟨o2, h2, hc2⟩ := hkid q o1 _ hq hc
    obtain ⟨o2', h2', hc2'⟩ := hkid q' o1' _ hq' hc'
    exact h.maker q q' o2 o2' np t t' h2 h2' hc2 hc2'
  · intro q hq
    rw [hstatus] at hq
    have hne : q ≠ p := by
      rintro rfl
      exact absurd (hq.symm.trans hlive) (by decide)
    rw [hofile q hne]
    exact h.unused q hq

/-- What is known about the types, when the files that other calls know alone are left alone. -/
theorem Types.step (h : Types s own) (hfree : ∀ f, s'.ref f = 0 → s'.type f = .none)
    (hself : ∀ f t, o'.excl f = some t → s'.ref f = 1 ∧ s'.type f = t ∧ o'.held f = 1)
    (hother : ∀ q o1 f t, q ≠ p → own q = some o1 → o1.excl f = some t →
      s'.ref f = s.ref f ∧ s'.type f = s.type f) : Types s' (update own p (some o')) := by
  refine ⟨hfree, fun q o1 f t hq hf => ?_⟩
  rcases own_update hq with ⟨rfl, rfl⟩ | ⟨hne, hq⟩
  · exact hself f t hf
  · obtain ⟨href, htype⟩ := hother q o1 f t hne hq hf
    rw [href, htype]
    exact h.excl q o1 f t hq hf

/-- Only the file `f` changes, and what is known about it; no other call knows it alone. -/
theorem Types.one (h : Types s own) (ho : own p = some o)
    (hs : ∀ g ≠ f, s'.ref g = s.ref g ∧ s'.type g = s.type g)
    (hfree : s'.ref f = 0 → s'.type f = .none)
    (hself : ∀ t, o'.excl f = some t → s'.ref f = 1 ∧ s'.type f = t ∧ o'.held f = 1)
    (hexcl : ∀ g ≠ f, o'.excl g = o.excl g ∧ o'.held g = o.held g)
    (hother : ∀ q o1 t, q ≠ p → own q = some o1 → o1.excl f ≠ some t) :
    Types s' (update own p (some o')) := by
  refine h.step (fun g hg => ?_) (fun g t hg => ?_) fun q o1 g t hne hq hg => ?_
  · by_cases hgf : g = f
    · rw [hgf] at hg ⊢
      exact hfree hg
    · rw [(hs g hgf).2]
      exact h.free g ((hs g hgf).1 ▸ hg)
  · by_cases hgf : g = f
    · rw [hgf] at hg ⊢
      exact hself t hg
    · obtain ⟨he, hh⟩ := hexcl g hgf
      rw [(hs g hgf).1, (hs g hgf).2, hh]
      exact h.excl p o g t ho (he ▸ hg)
  · refine hs g ?_
    rintro rfl
    exact hother q o1 t hne hq hg

/-- What the calls have yet to close, when the account of `p` changes. -/
theorem sum_pend (own : Accounts) (ho : own p = some o) (o' : Account) (e : ℕ × Bool) :
    ∑ q, Accounts.pend (update own p (some o')) e q + o.pend.count e =
      ∑ q, own.pend e q + o'.pend.count e := by
  have hsum := sum_update (fun x : Option Account => x.elim 0 fun o => o.pend.count e) own p
    (some o')
  rw [ho] at hsum
  exact hsum

/-- The account of `p` changes, and nothing that matters to the pipes. -/
theorem Pipes.account (h : Pipes s own) (ho : own p = some o) (htype : ∀ f j w,
      s'.type f = .pipe j w ↔ s.type f = .pipe j w) (hpipe : s'.pipe = s.pipe)
    (hnpipes : s'.npipes = s.npipes) (hpend : o'.pend = o.pend) :
    Pipes s' (update own p (some o')) := by
  have hpend' : ∀ e q, Accounts.pend (update own p (some o')) e q = own.pend e q := by
    intro e q
    rw [pend_update]
    split
    · rename_i hq
      rw [hq, hpend, pend_of ho]
    · rfl
  constructor
  · intro j w
    simp only [hpend', htype, hpipe]
    exact h.ends j w
  · rw [hpipe, hnpipes]
    exact h.freed
  · rw [hpipe, hnpipes]
    exact h.unmade

end Frame

end ChronoFS.Ftable
