import ChronoFS.Ftable.Actions

/-!
# The logic of the file table

The accounts as a `Logic`: an action that its caller may take keeps `Ledger` (`Ledger.act`); a call
begins with an account of the descriptors of its process (`fresh`) and may return when it holds
nothing but descriptors (`Done`). `Told` relates the account to the steps of the call: the changes
that they made to a reference count add up to the change of what the call holds.
-/

namespace ChronoFS.Ftable

open Function

/-! ## Actions -/

section Actions

variable {s s' : Shared} {own : Accounts} {p q np : ProcNo} {o o' : Account} {f : FileNo} {a : Act}
  {r : a.Resp}

/-- A descriptor changes, and references are taken or given back. -/
theorem held_move (o : Account) (fd : Fin NOFILE) (v : Option FileNo) (f g : FileNo) (δ : ℤ) :
    ({ o.take f δ with table := update o.table fd v } : Account).held g =
      o.held g - (if o.table fd = some g then 1 else 0) + (if v = some g then 1 else 0) +
        if g = f then δ else 0 := by
  have htake := Ledger.held_take o f g δ
  have hslots := slots_update o.table fd v g
  unfold Account.held at htake ⊢
  have htable : (o.take f δ).table = o.table := rfl
  rw [htable] at htake
  dsimp only
  omega

theorem after_clearfd {fd : Fin NOFILE} (h : o.table fd = some f) :
    after o (.clearfd fd) () = { o.take f 1 with table := update o.table fd none } := by
  unfold after
  simp only [h]

theorem after_clearfd_none {fd : Fin NOFILE} (h : o.table fd = none) :
    after o (.clearfd fd) () = o := by
  unfold after
  simp only [h]

/-- An action that its caller may take keeps the invariant. -/
theorem Ledger.act (h : Ledger s own) (ho : own p = some o) (hpre : pre o a)
    (hsem : sem p a s r s') : Answers o a r ∧
      Ledger s' (update own p (some { after o a r with taken := o.taken ++ [a] })) := by
  obtain ⟨-, hsem⟩ := hsem
  cases a with
  | argfd fd =>
    have hd : o.dead = false := hpre
    obtain ⟨rfl, rfl⟩ := hsem
    refine ⟨?_, h.note ho hd _⟩
    show s'.ofile p fd = o.table fd
    rw [(h.tables.table p o ho hd).1]
  | fdalloc f =>
    have hd : o.dead = false := hpre
    obtain ⟨rfl, rfl⟩ := hsem
    cases hfd : s.freefd p with
    | none => exact ⟨trivial, h.note ho hd _⟩
    | some fd =>
      have hfree : o.table fd = none := by
        rw [← (h.tables.table p o ho hd).1]
        simpa using List.find?_some hfd
      refine ⟨hfree, h.setfd ho hd rfl (fun g => ?_) ⟨rfl, rfl, rfl, rfl⟩⟩
      have hmove := held_move o fd (some f) f g (-1)
      rw [hfree] at hmove
      refine Eq.trans hmove ?_
      by_cases hg : f = g
      · simp [hg]
      · simp [hg, Ne.symm hg]
  | clearfd fd =>
    have hd : o.dead = false := hpre
    obtain rfl := hsem
    refine ⟨trivial, ?_⟩
    cases hfd : o.table fd with
    | none =>
      rw [after_clearfd_none hfd]
      have hsame : update o.table fd none = o.table := by
        rw [← hfd, Function.update_eq_self]
      exact h.setfd ho hd hsame.symm (fun _ => rfl) ⟨rfl, rfl, rfl, rfl⟩
    | some f =>
      rw [after_clearfd hfd]
      refine h.setfd ho hd rfl (fun g => ?_) ⟨rfl, rfl, rfl, rfl⟩
      have hmove := held_move o fd none f g 1
      rw [hfd] at hmove
      refine Eq.trans hmove ?_
      by_cases hg : f = g
      · simp [hg]
      · simp [hg, Ne.symm hg]
  | namei =>
    obtain rfl := hsem
    exact ⟨trivial, h.note ho hpre _⟩
  | filealloc =>
    have hd : o.dead = false := hpre
    obtain ⟨rfl, rfl⟩ := hsem
    cases hf : s.freefile with
    | none => exact ⟨trivial, h.note ho hd _⟩
    | some f =>
      have hzero : s.ref f = 0 := by simpa using List.find?_some hf
      obtain ⟨hledger, hheld, hexcl⟩ := h.filealloc ho hd hzero (o.taken ++ [.filealloc])
      exact ⟨⟨hheld, hexcl⟩, hledger⟩
  | filedup f =>
    obtain rfl := hsem
    exact ⟨trivial, h.filedup ho hpre.1 hpre.2 _⟩
  | fileclose f =>
    obtain ⟨hledger, hans⟩ := h.fileclose ho hpre.1 hpre.2 (o.taken ++ [.fileclose f])
    obtain ⟨hr, hs⟩ := Prod.mk.inj hsem
    change r = _ at hr
    subst hr hs
    exact ⟨hans, hledger⟩
  | setinode f =>
    obtain rfl := hsem
    exact ⟨trivial, h.setinode ho hpre.1 hpre.2 _⟩
  | kalloc rf wf =>
    obtain ⟨hd, hne, hrf, hwf⟩ := hpre
    rcases hsem with ⟨rfl, rfl⟩ | ⟨rfl, rfl⟩
    · exact ⟨trivial, h.note ho hd _⟩
    · exact ⟨trivial, h.kalloc ho hd hne hrf hwf _⟩
  | pipeclose j w =>
    obtain rfl := hsem
    exact ⟨trivial, h.pipeclose ho hpre.1 hpre.2 _⟩
  | allocproc =>
    have hd : o.dead = false := hpre
    refine ⟨trivial, ?_⟩
    cases r with
    | none =>
      obtain rfl := hsem
      exact h.note ho hd _
    | some np =>
      obtain ⟨hnp, rfl⟩ := hsem
      exact h.allocproc ho hd hnp _
  | copyuvm =>
    obtain rfl := hsem
    exact ⟨trivial, h.note ho hpre _⟩
  | freeproc np =>
    obtain rfl := hsem
    exact ⟨trivial, h.release ho hpre.1 hpre.2 .unused (fun _ _ => rfl) _⟩
  | dupfile np fd f =>
    obtain rfl := hsem
    obtain ⟨hd, hf, t, hchild, hfree⟩ := hpre
    refine ⟨trivial, ?_⟩
    have hledger := h.dupfile ho hd hchild hfree hf (o.taken ++ [.dupfile np fd f])
    unfold after
    rw [hchild]
    exact hledger
  | runnable np =>
    obtain rfl := hsem
    obtain ⟨hd, t, hchild⟩ := hpre
    exact ⟨trivial, h.release ho hd hchild .live (fun he => by cases he) _⟩
  | zombie =>
    obtain rfl := hsem
    exact ⟨trivial, h.zombie ho hpre.1 hpre.2.1 hpre.2.2 _⟩

/-- What an action of `p` leaves alone. -/
structure Frame (p : ProcNo) (s : Shared) (a : Act) (s' : Shared) : Prop where
  /-- Pipes are only made. -/
  npipes : s.npipes ≤ s'.npipes
  /-- No other descriptor table, but the one of a process that `p` makes. -/
  ofile : ∀ q ≠ p, (∀ fd f, a ≠ .dupfile q fd f) → s'.ofile q = s.ofile q
  /-- No pipe that exists, but to close an end of it. -/
  pipe : ∀ j < s.npipes, (∀ w, a ≠ .pipeclose j w) → s'.pipe j = s.pipe j

theorem Frame.refl (p : ProcNo) (s : Shared) (a : Act) : Frame p s a s :=
  ⟨le_rfl, fun _ _ _ => rfl, fun _ _ _ => rfl⟩

theorem Frame.setfd (p : ProcNo) (s : Shared) (a : Act) (fd : Fin NOFILE) (v : Option FileNo) :
    Frame p s a (s.setfd p fd v) :=
  ⟨le_rfl, fun _ hq _ => update_of_ne hq .., fun _ _ _ => rfl⟩

/-- The action changes the counts, types and process slots at most. -/
theorem Frame.of_eq (hofile : s'.ofile = s.ofile) (hpipe : s'.pipe = s.pipe)
    (hnpipes : s'.npipes = s.npipes) : Frame p s a s' :=
  ⟨hnpipes.ge, fun q _ _ => congrFun hofile q, fun j _ _ => congrFun hpipe j⟩

theorem filedup_frame (s : Shared) (f : FileNo) : (s.filedup f).ofile = s.ofile ∧
    (s.filedup f).pipe = s.pipe ∧ (s.filedup f).npipes = s.npipes := by
  unfold Shared.filedup
  split <;> exact ⟨rfl, rfl, rfl⟩

theorem fileclose_frame (s : Shared) (f : FileNo) : (s.fileclose f).2.ofile = s.ofile ∧
    (s.fileclose f).2.pipe = s.pipe ∧ (s.fileclose f).2.npipes = s.npipes := by
  unfold Shared.fileclose
  split
  · exact ⟨rfl, rfl, rfl⟩
  · split <;> exact ⟨rfl, rfl, rfl⟩

theorem sem_frame (h : sem p a s r s') : Frame p s a s' := by
  obtain ⟨-, h⟩ := h
  cases a with
  | argfd fd => exact h.2 ▸ .refl ..
  | fdalloc f =>
    rw [h.2]
    split
    · exact .setfd ..
    · exact .refl ..
  | clearfd fd => exact h ▸ .setfd ..
  | namei => exact h ▸ .refl ..
  | copyuvm => exact h ▸ .refl ..
  | filealloc =>
    rw [h.2]
    split
    · exact .of_eq rfl rfl rfl
    · exact .refl ..
  | filedup f =>
    obtain ⟨h1, h2, h3⟩ := filedup_frame s f
    exact h ▸ .of_eq h1 h2 h3
  | fileclose f =>
    obtain ⟨h1, h2, h3⟩ := fileclose_frame s f
    obtain rfl : s' = (s.fileclose f).2 := (Prod.mk.inj h).2
    exact .of_eq h1 h2 h3
  | setinode f => exact h ▸ .of_eq rfl rfl rfl
  | kalloc rf wf =>
    rcases h with ⟨-, rfl⟩ | ⟨-, rfl⟩
    · exact .refl ..
    · exact ⟨Nat.le_succ _, fun _ _ _ => rfl, fun j hj _ => update_of_ne hj.ne ..⟩
  | pipeclose j w =>
    obtain rfl := h
    refine ⟨le_rfl, fun _ _ _ => rfl, fun j' _ ha => update_of_ne ?_ ..⟩
    rintro rfl
    exact ha w rfl
  | allocproc =>
    cases r with
    | none => exact h ▸ .refl ..
    | some np => exact h.2 ▸ .of_eq rfl rfl rfl
  | freeproc np => exact h ▸ .of_eq rfl rfl rfl
  | runnable np => exact h ▸ .of_eq rfl rfl rfl
  | zombie => exact h ▸ .of_eq rfl rfl rfl
  | dupfile np fd f =>
    obtain ⟨h1, h2, h3⟩ := filedup_frame s f
    obtain rfl := h
    refine ⟨h3.ge, fun q _ ha => ?_, fun j _ _ => congrFun h2 j⟩
    refine Eq.trans (update_of_ne ?_ ..) (congrFun h1 q)
    rintro rfl
    exact ha fd f rfl

/-- A count changes by what the caller takes or gives back. -/
theorem Ledger.net (h : Ledger s own) (h' : Ledger s' (update own p (some o')))
    (ho : own p = some o) (hd : o.dead = false) (hofile : ∀ q ≠ p, s'.ofile q = s.ofile q)
    (htable : s'.ofile p = o'.table) (f : FileNo) :
    s'.ref f - s.ref f = o'.held f - o.held f := by
  rw [h.counts.sum, h'.counts.sum]
  simp only [h.holding_eq ho hd hofile htable]
  rw [Finset.sum_add_distrib, Finset.sum_ite_eq' Finset.univ p, if_pos (Finset.mem_univ p)]
  omega

end Actions

/-! ## The logic -/

/-- How many descriptors there are for a file. -/
def descriptors (s : Shared) (f : FileNo) : ℤ := ∑ q, slots (s.ofile q) f

/-- The changes that some steps made to a number. -/
def change (φ : Shared → ℤ) (l : List (Shared × Act × Shared)) : ℤ :=
  (l.map fun e => φ e.2.2 - φ e.1).sum

theorem change_snoc (φ : Shared → ℤ) (l : List (Shared × Act × Shared)) (s s' : Shared) (a : Act) :
    change φ (l ++ [(s, a, s')]) = change φ l + (φ s' - φ s) := by
  unfold change
  simp

/-- What an account says about the steps of a call that began in `s₀`. -/
structure Told (p : ProcNo) (s₀ : Shared) (l : List (Shared × Act × Shared)) (o : Account) :
    Prop where
  /-- The actions. -/
  taken : o.taken = l.map fun e => e.2.1
  /-- What the steps leave alone. -/
  frame : ∀ s a s', (s, a, s') ∈ l → Frame p s a s'
  /-- The steps that made its pipes. -/
  made : ∀ j ∈ o.made, ∃ s a s', (s, a, s') ∈ l ∧ s.npipes = j ∧ s'.npipes = j + 1
  /-- The steps that dropped the last references to the ends that it has yet to close. -/
  pend : ∀ j w, (j, w) ∈ o.pend → ∃ s f s', (s, Act.fileclose f, s') ∈ l ∧ s.ref f = 1 ∧
    s.type f = .pipe j w
  /-- What the steps make of the counts and of the descriptors. -/
  extra : ∀ f, change (·.ref f) l - change (descriptors · f) l = o.extra f
  /-- What the steps make of the counts, until the call gives references to another process. -/
  held : (∀ np fd f, Act.dupfile np fd f ∉ o.taken) → ∀ f,
    change (·.ref f) l = o.held f - slots (s₀.ofile p) f

/-- The account with which a call begins. -/
def fresh (s : Shared) (p : ProcNo) : Account where
  table := s.ofile p
  extra _ := 0
  excl _ := none
  pend := []
  child := none
  dead := false
  made := []
  taken := []

/-- A call that began with the account `o₀` may return `r`: it holds nothing but descriptors; and if
it failed, the table is what it was, no process has been given a descriptor, and only pipes that the
call made have been touched. -/
structure Done (o₀ : Account) (r : ℤ) (o : Account) : Prop where
  /-- It holds nothing but descriptors. -/
  extra : ∀ f, o.extra f = 0
  /-- It has closed the ends that it had to. -/
  pend : o.pend = []
  /-- It failed. -/
  failed : r = -1 → o.dead = false ∧ o.table = o₀.table ∧
    (∀ np fd f, Act.dupfile np fd f ∉ o.taken) ∧ ∀ j w, Act.pipeclose j w ∈ o.taken → j ∈ o.made

section Logic

variable {s s' : Shared} {own : Accounts} {p q : ProcNo} {o o' : Account} {a : Act} {r : a.Resp}

/-- A call begins. -/
theorem Ledger.enter (h : Ledger s own) (hp : own p = none) (hlive : s.status p = .live) :
    Ledger s (update own p (some (fresh s p))) := by
  have hextra : ∀ q f, Accounts.extra (update own p (some (fresh s p))) q f = own.extra q f := by
    intro q f
    rw [extra_update]
    split
    · rename_i hq
      rw [hq]
      unfold Accounts.extra
      rw [hp]
      rfl
    · rfl
  have hpend : ∀ e q, Accounts.pend (update own p (some (fresh s p))) e q = own.pend e q := by
    intro e q
    rw [pend_update]
    split
    · rename_i hq
      rw [hq]
      unfold Accounts.pend
      rw [hp]
      rfl
    · rfl
  refine ⟨h.halted, h.counts.congr fun q f => ?_,
    ⟨fun q o hq hd => ?_, fun q o hq hd => ?_, fun q o np t hq hc => ?_,
      fun q q' o o' np t t' hq hq' hc hc' => ?_, h.tables.unused⟩,
    ⟨h.types.free, fun q o f t hq hf => ?_⟩,
    ⟨fun j w => ?_, h.pipes.freed, h.pipes.unmade⟩⟩
  · unfold holding
    rw [hextra]
  · rcases own_update hq with ⟨rfl, rfl⟩ | ⟨-, hq⟩
    · exact ⟨rfl, hlive⟩
    · exact h.tables.table q o hq hd
  · rcases own_update hq with ⟨rfl, rfl⟩ | ⟨-, hq⟩
    · cases hd
    · exact h.tables.dead q o hq hd
  · rcases own_update hq with ⟨rfl, rfl⟩ | ⟨-, hq⟩
    · cases hc
    · exact h.tables.child q o np t hq hc
  · rcases own_update hq with ⟨rfl, rfl⟩ | ⟨-, h1⟩
    · cases hc
    rcases own_update hq' with ⟨rfl, rfl⟩ | ⟨-, h2⟩
    · cases hc'
    exact h.tables.maker q q' o o' np t t' h1 h2 hc hc'
  · rcases own_update hq with ⟨rfl, rfl⟩ | ⟨-, hq⟩
    · cases hf
    · exact h.types.excl q o f t hq hf
  · simp only [hpend]
    exact h.pipes.ends j w

/-- A call returns. -/
theorem Ledger.leave (h : Ledger s own) (ho : own p = some o) (hextra : ∀ f, o.extra f = 0)
    (hpend : o.pend = []) : Ledger s (update own p none) := by
  have hown : ∀ q o1, update own p none q = some o1 → own q = some o1 := by
    intro q o1 hq
    rw [update_apply] at hq
    split at hq
    · cases hq
    · exact hq
  have hextra' : ∀ q f, Accounts.extra (update own p none) q f = own.extra q f := by
    intro q f
    unfold Accounts.extra
    rw [update_apply]
    split
    · rename_i hq
      rw [hq, ho]
      exact (hextra f).symm
    · rfl
  have hpend' : ∀ e q, Accounts.pend (update own p none) e q = own.pend e q := by
    intro e q
    unfold Accounts.pend
    rw [update_apply]
    split
    · rename_i hq
      rw [hq, ho]
      simp [hpend]
    · rfl
  refine ⟨h.halted, h.counts.congr fun q f => ?_,
    ⟨fun q o hq => h.tables.table q o (hown q o hq), fun q o hq => h.tables.dead q o (hown q o hq),
      fun q o np t hq => h.tables.child q o np t (hown q o hq),
      fun q q' o o' np t t' hq hq' => h.tables.maker q q' o o' np t t' (hown q o hq) (hown q' o' hq'),
      h.tables.unused⟩,
    ⟨h.types.free, fun q o f t hq => h.types.excl q o f t (hown q o hq)⟩,
    ⟨fun j w => ?_, h.pipes.freed, h.pipes.unmade⟩⟩
  · unfold holding
    rw [hextra']
  · simp only [hpend']
    exact h.pipes.ends j w

theorem Told.nil (s : Shared) (p : ProcNo) : Told p s [] (fresh s p) where
  taken := rfl
  frame := fun _ _ _ h => absurd h List.not_mem_nil
  made := fun _ h => absurd h List.not_mem_nil
  pend := fun _ _ h => absurd h List.not_mem_nil
  extra := fun _ => rfl
  held := fun _ f => by simp [change, Account.held, fresh]

theorem pre_dead (h : pre o a) : o.dead = false := by
  cases a with
  | argfd | fdalloc | clearfd | namei | filealloc | allocproc | copyuvm => exact h
  | _ => exact h.1

/-- Only `pipealloc` makes a pipe. -/
theorem made_after {j : ℕ} (hsem : sem p a s r s') (h : j ∈ (after o a r).made) :
    j ∈ o.made ∨ s.npipes = j ∧ s'.npipes = j + 1 := by
  obtain ⟨-, hsem⟩ := hsem
  cases a with
  | kalloc rf wf =>
    rcases hsem with ⟨rfl, -⟩ | ⟨rfl, rfl⟩
    · exact .inl h
    · rcases List.mem_cons.mp h with rfl | h
      · exact .inr ⟨rfl, rfl⟩
      · exact .inl h
  | clearfd fd =>
    left
    cases hfd : o.table fd with
    | none => rwa [after_clearfd_none hfd] at h
    | some f => rwa [after_clearfd hfd] at h
  | fdalloc | filealloc | allocproc => cases r <;> exact .inl h
  | _ => exact .inl h

/-- Only `fileclose` of a last reference gives an end to close. -/
theorem pend_after {j : ℕ} {w : Bool} (hsem : sem p a s r s') (hpre : pre o a)
    (h : Ledger s own) (ho : own p = some o) (hmem : (j, w) ∈ (after o a r).pend) :
    (j, w) ∈ o.pend ∨ ∃ f, a = .fileclose f ∧ s.ref f = 1 ∧ s.type f = .pipe j w := by
  obtain ⟨-, hsem⟩ := hsem
  cases a with
  | fileclose f =>
    rcases List.mem_append.mp hmem with hmem | hmem
    · have href := (h.held_pos ho hpre.1 hpre.2).1
      have hr : r = (s.fileclose f).1 := (Prod.mk.inj hsem).1
      rw [hr] at hmem
      unfold Shared.fileclose at hmem
      rw [if_neg (by omega)] at hmem
      split at hmem
      · exact absurd hmem List.not_mem_nil
      · refine .inr ⟨f, rfl, by omega, ?_⟩
        cases htype : s.type f with
        | none => simp [htype, lastEnd] at hmem
        | inode => simp [htype, lastEnd] at hmem
        | pipe j' w' =>
          obtain ⟨rfl, rfl⟩ : j = j' ∧ w = w' := by simpa [htype, lastEnd] using hmem
          rfl
    · exact .inl hmem
  | pipeclose => exact .inl (List.mem_of_mem_erase hmem)
  | clearfd fd =>
    left
    cases hfd : o.table fd with
    | none => rwa [after_clearfd_none hfd] at hmem
    | some f => rwa [after_clearfd hfd] at hmem
  | fdalloc | filealloc | allocproc | kalloc => cases r <;> exact .inl hmem
  | _ => exact .inl hmem

/-- Only `exit` ends the process. -/
theorem after_dead (hd : o.dead = false) (h : (after o a r).dead = true) : a = .zombie := by
  unfold after at h
  split at h <;> first | rfl | (exact absurd (hd.symm.trans h) (by decide)) |
    (split at h <;> exact absurd (hd.symm.trans h) (by decide))

/-- The table of a process is the one of its account after an action, too. -/
theorem Ledger.table_act (h : Ledger s own) (ho : own p = some o) (hpre : pre o a)
    (hsem : sem p a s r s') : s'.ofile p = (after o a r).table := by
  have hd := pre_dead hpre
  cases hd' : (after o a r).dead with
  | false => exact ((h.act ho hpre hsem).2.tables.table p _ (update_self ..) hd').1
  | true =>
    obtain rfl := after_dead hd hd'
    obtain ⟨-, rfl⟩ := hsem
    exact (h.tables.table p o ho hd).1

/-- A count differs from the number of descriptors by what the calls hold apart from those. -/
theorem Ledger.ref_eq (h : Ledger s own) (f : FileNo) :
    s.ref f = descriptors s f + ∑ q, own.extra q f := by
  rw [h.counts.sum]
  exact Finset.sum_add_distrib

theorem Ledger.extra_change (h : Ledger s own) (h' : Ledger s' (update own p (some o')))
    (ho : own p = some o) (f : FileNo) :
    s'.ref f - s.ref f - (descriptors s' f - descriptors s f) = o'.extra f - o.extra f := by
  have hbefore := h.ref_eq f
  have hafter := h'.ref_eq f
  have hsum := sum_update (fun x : Option Account => x.elim 0 fun o => o.extra f) own p (some o')
  rw [ho] at hsum
  unfold Accounts.extra at hbefore hafter
  simp only [Option.elim_some] at hsum
  omega

/-- An account keeps saying what the steps of the call are. -/
theorem Told.snoc {s0 : Shared} {l : List (Shared × Act × Shared)} (h : Ledger s own)
    (ho : own p = some o) (hpre : pre o a) (hsem : sem p a s r s') (htold : Told p s0 l o) :
    Told p s0 (l ++ [(s, a, s')]) { after o a r with taken := o.taken ++ [a] } := by
  have hframe := sem_frame hsem
  have h' := (h.act ho hpre hsem).2
  have hlast : (s, a, s') ∈ l ++ [(s, a, s')] :=
    List.mem_append_right _ (List.mem_singleton_self _)
  constructor
  · rw [htold.taken]
    simp
  · intro t b t' hmem
    rcases List.mem_append.mp hmem with hmem | hmem
    · exact htold.frame t b t' hmem
    · obtain ⟨rfl, rfl, rfl⟩ : t = s ∧ b = a ∧ t' = s' := by simpa using hmem
      exact hframe
  · intro j hj
    rcases made_after hsem hj with hj | hj
    · obtain ⟨t, b, t', hmem, hnew⟩ := htold.made j hj
      exact ⟨t, b, t', List.mem_append_left _ hmem, hnew⟩
    · exact ⟨s, a, s', hlast, hj⟩
  · intro j w hj
    rcases pend_after hsem hpre h ho hj with hj | ⟨f, rfl, hf⟩
    · obtain ⟨t, f, t', hmem, hnew⟩ := htold.pend j w hj
      exact ⟨t, f, t', List.mem_append_left _ hmem, hnew⟩
    · exact ⟨s, f, s', hlast, hf⟩
  · intro f
    have hextra : s'.ref f - s.ref f - (descriptors s' f - descriptors s f) =
        (after o a r).extra f - o.extra f := h.extra_change h' ho f
    have htold := htold.extra f
    show _ = (after o a r).extra f
    rw [change_snoc, change_snoc]
    omega
  · intro hdup f
    have hdup' : ∀ np fd f, Act.dupfile np fd f ∉ o.taken :=
      fun np fd f hmem => hdup np fd f (List.mem_append_left _ hmem)
    have hofile : ∀ q ≠ p, s'.ofile q = s.ofile q := by
      intro q hq
      apply hframe.ofile q hq
      rintro fd f rfl
      exact hdup q fd f (List.mem_append_right _ (List.mem_singleton_self _))
    have hnet : s'.ref f - s.ref f = (after o a r).held f - o.held f :=
      h.net h' ho (pre_dead hpre) hofile (h.table_act ho hpre hsem) f
    show _ = (after o a r).held f - _
    rw [change_snoc, htold.held hdup' f]
    omega

end Logic

/-- The logic of the file table. -/
def logic : Logic system Account where
  inv := Ledger
  pre := pre
  post := post
  fresh := fresh
  done := Done
  told := Told
  enter h hp hready := ⟨h.enter hp hready.2, Told.nil _ _⟩
  sound h ho hpre hsem :=
    have hact := h.act ho hpre hsem
    ⟨_, ⟨hact.1, rfl⟩, hact.2, fun _ _ htold => htold.snoc h ho hpre hsem⟩
  leave h ho hdone := h.leave ho hdone.extra hdone.pend

end ChronoFS.Ftable
