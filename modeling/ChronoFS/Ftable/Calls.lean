import ChronoFS.Ftable.Logic

/-!
# The calls of the file table are accounted for

Each call is safe with its account. `Working` is what holds while `open` and `pipe` unwind: the call
holds the files that it allocated, and they are for no pipe that existed before. `dup`, `close`,
`fork` and `exit` hold references only from one action to the next.
-/

namespace ChronoFS.Ftable

open Function

section Calls

variable {o o₀ : Account} {f g : FileNo} {t : Fin NOFILE → Option FileNo}
  {files : List FileNo} {α : Type}

/-- `fileclose` gives back a reference; if it closes an end of a pipe, that is what the file was
for. -/
theorem safe_fileclose {Q : Unit → Account → Prop} (hd : o.dead = false) (hheld : 1 ≤ o.held f)
    (hQ : ∀ l, (∀ np fd g, Act.dupfile np fd g ∉ l) →
      (∀ j w, Act.pipeclose j w ∈ l → ∀ t, o.excl f = some t → t = .pipe j w) →
      Q () { o.take f (-1) with excl := update o.excl f none, taken := o.taken ++ l }) :
    logic.Safe Q (fileclose f) o := by
  refine Logic.safe_act ⟨hd, hheld⟩ ?_
  rintro r o' ⟨hans, rfl⟩
  cases r with
  | none => exact hQ [.fileclose f] (by simp) (by simp)
  | some type =>
    cases type with
    | none => exact hQ [.fileclose f] (by simp) (by simp)
    | inode => exact hQ [.fileclose f] (by simp) (by simp)
    | pipe j w =>
      refine ⟨⟨hd, List.mem_cons_self⟩, ?_⟩
      rintro r o' ⟨-, rfl⟩
      show Q () { o.take f (-1) with
        excl := update o.excl f none
        pend := ((j, w) :: o.pend).erase (j, w)
        taken := o.taken ++ [.fileclose f] ++ [.pipeclose j w] }
      rw [List.erase_cons_head, List.append_assoc]
      refine hQ [.fileclose f, .pipeclose j w] (by simp) ?_
      intro j' w' hmem type htype
      obtain ⟨rfl, rfl⟩ : j' = j ∧ w' = w := by simpa using hmem
      exact (Option.some.inj (hans type htype)).symm

/-- A reference is taken and given back. -/
theorem extra_take_take (o : Account) (f g : FileNo) {δ ε : ℤ} (h : δ + ε = 0) :
    ((o.take f δ).take f ε).extra g = o.extra g := by
  show update (update o.extra f (o.extra f + δ)) f (update o.extra f (o.extra f + δ) f + ε) g = _
  rw [Function.update_idem, update_self, add_assoc, h, add_zero, Function.update_eq_self]

/-- A call that holds the files that it has allocated, and its descriptors are those of `t`. -/
structure Working (t : Fin NOFILE → Option FileNo) (files : List FileNo) (o : Account) :
    Prop where
  /-- The process lives. -/
  dead : o.dead = false
  /-- Its descriptors. -/
  table : o.table = t
  /-- It holds a reference to each of the files. -/
  extra : ∀ f, o.extra f = files.count f
  /-- It need not close the end of a pipe. -/
  pend : o.pend = []
  /-- The files are for no pipe but those that it has made. -/
  excl : ∀ f ∈ files, ∃ type, o.excl f = some type ∧ ∀ j w, type = .pipe j w → j ∈ o.made
  /-- It has closed no end of another pipe. -/
  closed : ∀ j w, Act.pipeclose j w ∈ o.taken → j ∈ o.made
  /-- It has given no descriptor to another process. -/
  kept : ∀ np fd f, Act.dupfile np fd f ∉ o.taken

/-- A file more than those that are counted. -/
theorem count_update_add {e : FileNo → ℤ} (h : ∀ g, e g = files.count g) (f g : FileNo) :
    update e f (e f + 1) g = (f :: files).count g := by
  rw [update_apply, List.count_cons]
  split
  · rename_i hg
    rw [hg, h f]
    simp
  · rename_i hg
    rw [h g]
    simp [Ne.symm hg]

/-- A file less. -/
theorem count_update_sub {e : FileNo → ℤ} (h : ∀ g, e g = (f :: files).count g) (g : FileNo) :
    update e f (e f + -1) g = files.count g := by
  rw [update_apply]
  have hg := h g
  rw [List.count_cons] at hg
  split
  · rename_i hgf
    rw [hgf] at hg ⊢
    simp only [beq_self_eq_true, if_true] at hg
    omega
  · rename_i hgf
    simpa [Ne.symm hgf] using hg

namespace Working

theorem fresh (s : Shared) (p : ProcNo) :
    Working (s.ofile p) [] (Ftable.fresh s p) where
  dead := rfl
  table := rfl
  extra := fun _ => rfl
  pend := rfl
  excl := fun _ h => absurd h List.not_mem_nil
  closed := fun _ _ h => absurd h List.not_mem_nil
  kept := fun _ _ _ => List.not_mem_nil

/-- It may return. -/
theorem done (h : Working t [] o) (r : ℤ) (ht : r = -1 → t = o₀.table) :
    Done o₀ r o where
  extra := h.extra
  pend := h.pend
  failed := fun hr => ⟨h.dead, h.table.trans (ht hr), h.kept, h.closed⟩

/-- It holds the files. -/
theorem held (h : Working t files o) (hf : f ∈ files) : 1 ≤ o.held f := by
  have hcount : 1 ≤ files.count f := List.one_le_count_iff.mpr hf
  have hslots := slots_nonneg o.table f
  have hextra := h.extra f
  unfold Account.held
  omega

/-- An action with an account that is otherwise the same. -/
theorem take (h : Working t files o) {l : List Act}
    (hclosed : ∀ j w, Act.pipeclose j w ∈ l → j ∈ o.made) (hkept : ∀ np fd f, Act.dupfile np fd f ∉ l) :
    Working t files { o with taken := o.taken ++ l } where
  dead := h.dead
  table := h.table
  extra := h.extra
  pend := h.pend
  excl := h.excl
  closed := by
    intro j w hmem
    rcases List.mem_append.mp hmem with hmem | hmem
    · exact h.closed j w hmem
    · exact hclosed j w hmem
  kept := by
    intro np fd f hmem
    rcases List.mem_append.mp hmem with hmem | hmem
    · exact h.kept np fd f hmem
    · exact hkept np fd f hmem

/-- A file has been allocated. -/
theorem filealloc (h : Working t files o) (f : FileNo) :
    Working t (f :: files) { after o .filealloc (some f) with taken := o.taken ++ [.filealloc] } := by
  have hbase := h.take (l := [.filealloc]) (by simp) (by simp)
  refine ⟨h.dead, h.table, fun g => ?_, h.pend, fun g hg => ?_, hbase.closed, hbase.kept⟩
  · exact count_update_add h.extra f g
  · show ∃ type, update o.excl f (some .none) g = some type ∧ _
    by_cases hgf : g = f
    · rw [hgf]
      exact ⟨.none, update_self .., by simp⟩
    · rw [update_of_ne hgf]
      exact h.excl g ((List.mem_cons.mp hg).resolve_left hgf)

/-- A file that it has allocated is closed. -/
theorem fileclose {Q : Unit → Account → Prop} (h : Working t (f :: files) o) (hf : f ∉ files)
    (hQ : ∀ o', Working t files o' → (∀ g ≠ f, o'.excl g = o.excl g) → Q () o') :
    logic.Safe Q (Ftable.fileclose f) o := by
  refine safe_fileclose h.dead (h.held List.mem_cons_self) fun l hkept hclosed => hQ _ ?_ ?_
  · obtain ⟨type, htype, hnew⟩ := h.excl f List.mem_cons_self
    have hbase := h.take (l := l) (fun j w hmem => hnew j w (hclosed j w hmem type htype)) hkept
    refine ⟨h.dead, h.table, fun g => ?_, h.pend, fun g hg => ?_, hbase.closed,
      hbase.kept⟩
    · exact count_update_sub h.extra g
    · show ∃ type, update o.excl f none g = some type ∧ _
      have hgf : g ≠ f := by
        rintro rfl
        exact hf hg
      rw [update_of_ne hgf]
      exact h.excl g (List.mem_cons_of_mem _ hg)
  · intro g hg
    exact update_of_ne hg ..

/-- A descriptor is made for a file that it has allocated. -/
theorem fdalloc (h : Working t (f :: files) o) (fd : Fin NOFILE) :
    Working (update t fd (some f)) files
      { after o (.fdalloc f) (some fd) with taken := o.taken ++ [.fdalloc f] } := by
  have hbase := h.take (l := [.fdalloc f]) (by simp) (by simp)
  refine ⟨h.dead, ?_, fun g => ?_, h.pend,
    fun g hg => h.excl g (List.mem_cons_of_mem _ hg), hbase.closed, hbase.kept⟩
  · show update o.table fd (some f) = _
    rw [h.table]
  · exact count_update_sub h.extra g

/-- The files in another order. -/
theorem perm {files' : List FileNo} (h : Working t files o) (hperm : files.Perm files') :
    Working t files' o :=
  ⟨h.dead, h.table, fun f => by rw [h.extra, hperm.count_eq], h.pend,
    fun f hf => h.excl f (hperm.mem_iff.mpr hf), h.closed, h.kept⟩

/-- Two files become the ends of a new pipe. -/
theorem kalloc (h : Working t files o) (rf wf : FileNo) (j : ℕ) :
    Working t files
      { after o (.kalloc rf wf) (some j) with taken := o.taken ++ [.kalloc rf wf] } := by
  have hbase := h.take (l := [.kalloc rf wf]) (by simp) (by simp)
  refine ⟨h.dead, h.table, h.extra, h.pend, fun g hg => ?_,
    fun j' w hmem => List.mem_cons_of_mem _ (hbase.closed j' w hmem), hbase.kept⟩
  show ∃ type, update (update o.excl rf (some (.pipe j false))) wf (some (.pipe j true)) g =
    some type ∧ ∀ j' w', type = .pipe j' w' → j' ∈ j :: o.made
  have hnew : ∀ w j' w', FileType.pipe j w = .pipe j' w' → j' ∈ j :: o.made := by
    intro w j' w' he
    rw [(FileType.pipe.inj he).1]
    exact List.mem_cons_self
  by_cases hwf : g = wf
  · rw [hwf]
    exact ⟨_, update_self .., hnew true⟩
  · rw [update_of_ne hwf]
    by_cases hrf : g = rf
    · rw [hrf]
      exact ⟨_, update_self .., hnew false⟩
    · rw [update_of_ne hrf]
      obtain ⟨type, htype, hmade⟩ := h.excl g hg
      exact ⟨type, htype, fun j' w he => List.mem_cons_of_mem _ (hmade j' w he)⟩

/-- A descriptor for a file that it has allocated is cleared again. -/
theorem clearfd (h : Working t files o) {fd : Fin NOFILE} (hfd : t fd = some f)
    (hexcl : ∃ type, o.excl f = some type ∧ ∀ j w, type = .pipe j w → j ∈ o.made) :
    Working (update t fd none) (f :: files)
      { after o (.clearfd fd) () with taken := o.taken ++ [.clearfd fd] } := by
  have hbase := h.take (l := [.clearfd fd]) (by simp) (by simp)
  rw [after_clearfd (h.table ▸ hfd)]
  refine ⟨h.dead, ?_, fun g => ?_, h.pend, fun g hg => ?_, hbase.closed, hbase.kept⟩
  · show update o.table fd none = _
    rw [h.table]
  · exact count_update_add h.extra f g
  · rcases List.mem_cons.mp hg with rfl | hg
    · exact hexcl
    · exact h.excl g hg

end Working

/-- `open`. -/
theorem safe_sysOpen (s : Shared) (p : ProcNo) :
    logic.Safe (Done (fresh s p)) sysOpen (fresh s p) := by
  have hw := Working.fresh s p
  refine Logic.safe_act hw.dead ?_
  rintro found o1 ⟨-, rfl⟩
  have h1 := hw.take (l := [.namei]) (by simp) (by simp)
  cases found with
  | false => exact h1.done _ fun _ => rfl
  | true =>
    refine Logic.safe_act h1.dead ?_
    rintro file o2 ⟨hans, rfl⟩
    cases file with
    | none => exact (h1.take (l := [.filealloc]) (by simp) (by simp)).done _ fun _ => rfl
    | some f =>
      have h2 := h1.filealloc f
      refine Logic.safe_act h2.dead ?_
      rintro fd o3 ⟨-, rfl⟩
      cases fd with
      | none =>
        have h3 := h2.take (l := [.fdalloc f]) (by simp) (by simp)
        refine Logic.safe_bind.mpr (h3.fileclose List.not_mem_nil fun o' h4 _ => ?_)
        exact h4.done _ fun _ => rfl
      | some fd =>
        have h3 := h2.fdalloc fd
        refine Logic.safe_act ⟨h3.dead, update_self ..⟩ ?_
        rintro - o4 ⟨-, rfl⟩
        have h4 := h3.take (l := [.setinode f]) (by simp) (by simp)
        refine Working.done (t := update (s.ofile p) fd (some f)) ?_ _ ?_
        · exact ⟨h4.dead, h4.table, h4.extra, h4.pend, fun _ h => absurd h List.not_mem_nil,
            h4.closed, h4.kept⟩
        · intro hr
          have : (0 : ℤ) ≤ fd.val := Int.natCast_nonneg _
          omega

/-- `pipealloc` makes two files for a new pipe, or nothing. -/
theorem safe_pipealloc {Q : Option (FileNo × FileNo) → Account → Prop} (h : Working t [] o)
    (hnone : ∀ o', Working t [] o' → Q none o')
    (hsome : ∀ rf wf o', rf ≠ wf → Working t [rf, wf] o' → Q (some (rf, wf)) o') :
    logic.Safe Q pipealloc o := by
  refine Logic.safe_act h.dead ?_
  rintro f0 o1 ⟨-, rfl⟩
  cases f0 with
  | none => exact hnone _ (h.take (l := [.filealloc]) (by simp) (by simp))
  | some f0 =>
    have h1 := h.filealloc f0
    refine Logic.safe_act h1.dead ?_
    rintro f1 o2 ⟨hans, rfl⟩
    cases f1 with
    | none =>
      have h2 := h1.take (l := [.filealloc]) (by simp) (by simp)
      refine Logic.safe_bind.mpr (h2.fileclose List.not_mem_nil fun o' h3 _ => ?_)
      exact hnone _ h3
    | some f1 =>
      have hne : f0 ≠ f1 := by
        rintro rfl
        have := h1.held (List.mem_singleton_self f0)
        have := hans.1
        omega
      have h2 := (h1.filealloc f1).perm (List.Perm.swap f0 f1 [])
      have hfresh : f0 ∉ [f1] := by simpa using hne
      refine Logic.safe_act ⟨h2.dead, hne, ?_, update_self ..⟩ ?_
      · show update (update o.excl f0 _) f1 _ f0 = _
        rw [update_of_ne hne, update_self]
      rintro j o3 ⟨-, rfl⟩
      cases j with
      | none =>
        have h3 := h2.take (l := [.kalloc f0 f1]) (by simp) (by simp)
        refine Logic.safe_bind.mpr (h3.fileclose hfresh fun o4 h4 _ => ?_)
        refine Logic.safe_bind.mpr (h4.fileclose List.not_mem_nil fun o5 h5 _ => ?_)
        exact hnone _ h5
      | some j => exact hsome f0 f1 _ hne (h2.kalloc f0 f1 j)

/-- `pipe`. -/
theorem safe_sysPipe (s : Shared) (p : ProcNo) (good : Bool) :
    logic.Safe (Done (fresh s p)) (sysPipe good) (fresh s p) := by
  have hw := Working.fresh s p
  cases good with
  | false => exact hw.done _ fun _ => rfl
  | true =>
    refine Logic.safe_bind.mpr (safe_pipealloc hw (fun o1 h1 => ?_) fun rf wf o1 hne h1 => ?_)
    · exact h1.done _ fun _ => rfl
    have hfresh : rf ∉ [wf] := by simpa using hne
    refine Logic.safe_act h1.dead ?_
    rintro fd0 o2 ⟨hfd0, rfl⟩
    cases fd0 with
    | none =>
      have h2 := h1.take (l := [.fdalloc rf]) (by simp) (by simp)
      refine Logic.safe_bind.mpr (h2.fileclose hfresh fun o3 h3 _ => ?_)
      refine Logic.safe_bind.mpr (h3.fileclose List.not_mem_nil fun o4 h4 _ => ?_)
      exact h4.done _ fun _ => rfl
    | some fd0 =>
      have h2 := h1.fdalloc fd0
      refine Logic.safe_act h2.dead ?_
      rintro fd1 o3 ⟨-, rfl⟩
      cases fd1 with
      | none =>
        have h3 := h2.take (l := [.fdalloc wf]) (by simp) (by simp)
        have hexcl := h1.excl rf List.mem_cons_self
        refine Logic.safe_act h3.dead ?_
        rintro - o4 ⟨-, rfl⟩
        have h4 := h3.clearfd (update_self ..) hexcl
        refine Logic.safe_bind.mpr (h4.fileclose hfresh fun o5 h5 _ => ?_)
        refine Logic.safe_bind.mpr (h5.fileclose List.not_mem_nil fun o6 h6 _ => ?_)
        refine h6.done _ fun _ => ?_
        -- the descriptor was free before
        have hfree : s.ofile p fd0 = none := h1.table ▸ hfd0
        rw [Function.update_idem, ← hfree, Function.update_eq_self]
        rfl
      | some fd1 => exact (h2.fdalloc fd1).done _ fun hr => absurd hr (by decide)

/-- `dup`. -/
theorem safe_sysDup (s : Shared) (p : ProcNo) (fd : Option (Fin NOFILE)) :
    logic.Safe (Done (fresh s p)) (sysDup fd) (fresh s p) := by
  have hw := Working.fresh s p
  cases fd with
  | none => exact hw.done _ fun _ => rfl
  | some fd =>
    refine Logic.safe_act hw.dead ?_
    rintro f o1 ⟨hf, rfl⟩
    have h1 := hw.take (l := [.argfd fd]) (by simp) (by simp)
    cases f with
    | none => exact h1.done _ fun _ => rfl
    | some f =>
      refine Logic.safe_act h1.dead ?_
      rintro fd' o2 ⟨hfd', rfl⟩
      cases fd' with
      | none => exact (h1.take (l := [.fdalloc f]) (by simp) (by simp)).done _ fun _ => rfl
      | some fd' =>
        have hfd : s.ofile p fd = some f := hf.symm
        have hfree : s.ofile p fd' = none := hfd'
        have hslots := slots_pos hfd
        refine Logic.safe_act ⟨rfl, ?_⟩ ?_
        · show 1 ≤ slots (update (s.ofile p) fd' (some f)) f + update (fun _ => (0 : ℤ)) f (0 + -1) f
          rw [slots_update, hfree, update_self]
          simp only [reduceCtorEq, if_false, if_true]
          omega
        rintro - o3 ⟨-, rfl⟩
        refine ⟨fun g => ?_, rfl, fun hr => ?_⟩
        · exact extra_take_take (fresh s p) f g (by decide)
        · have : (0 : ℤ) ≤ fd'.val := Int.natCast_nonneg _
          omega

/-- `close`. -/
theorem safe_sysClose (s : Shared) (p : ProcNo) (fd : Option (Fin NOFILE)) :
    logic.Safe (Done (fresh s p)) (sysClose fd) (fresh s p) := by
  have hw := Working.fresh s p
  cases fd with
  | none => exact hw.done _ fun _ => rfl
  | some fd =>
    refine Logic.safe_act hw.dead ?_
    rintro f o1 ⟨hf, rfl⟩
    have h1 := hw.take (l := [.argfd fd]) (by simp) (by simp)
    cases f with
    | none => exact h1.done _ fun _ => rfl
    | some f =>
      have hfd : s.ofile p fd = some f := hf.symm
      refine Logic.safe_act h1.dead ?_
      rintro - o2 ⟨-, rfl⟩
      rw [after_clearfd hfd]
      refine Logic.safe_bind.mpr (safe_fileclose rfl ?_ fun l _ _ => ?_)
      · show 1 ≤ slots (update (s.ofile p) fd none) f + update (fun _ => (0 : ℤ)) f (0 + 1) f
        have := slots_nonneg (update (s.ofile p) fd none) f
        rw [update_self]
        omega
      · refine ⟨fun g => ?_, rfl, fun hr => absurd hr (by decide)⟩
        exact extra_take_take (fresh s p) f g (by decide)

/-- The loop of `fork`: the process that it makes gets the descriptors that have not been seen. -/
theorem safe_dupFiles {Q : Unit → Account → Prop} {np : ProcNo} {fds : List (Fin NOFILE)}
    {kid : Fin NOFILE → Option FileNo} (hnodup : fds.Nodup) (hd : o.dead = false)
    (hextra : ∀ f, o.extra f = 0) (hpend : o.pend = []) (hchild : o.child = some (np, kid))
    (hfree : ∀ fd ∈ fds, kid fd = none)
    (hQ : ∀ o' kid', o'.dead = false → (∀ f, o'.extra f = 0) → o'.pend = [] →
      o'.child = some (np, kid') → Q () o') : logic.Safe Q (dupFiles np fds) o := by
  induction fds generalizing o kid with
  | nil => exact hQ o kid hd hextra hpend hchild
  | cons fd fds ih =>
    obtain ⟨hfd, hnodup⟩ := List.nodup_cons.mp hnodup
    refine Logic.safe_act hd ?_
    rintro f o1 ⟨hf, rfl⟩
    cases f with
    | none =>
      exact ih hnodup hd hextra hpend hchild fun fd' hmem => hfree fd' (List.mem_cons_of_mem _ hmem)
    | some f =>
      refine Logic.safe_act ⟨hd, ?_, kid, hchild, hfree fd List.mem_cons_self⟩ ?_
      · have hslots := slots_pos (show o.table fd = some f from hf.symm)
        show 1 ≤ slots o.table f + o.extra f
        rw [hextra f]
        omega
      rintro - o2 ⟨-, rfl⟩
      have hchild' : (o.child.map fun c => (c.1, update c.2 fd (some f))) =
          some (np, update kid fd (some f)) := by
        rw [hchild]
        rfl
      refine ih hnodup hd hextra hpend hchild' fun fd' hmem => ?_
      · rw [update_of_ne]
        · exact hfree fd' (List.mem_cons_of_mem _ hmem)
        · rintro rfl
          exact hfd hmem

/-- `fork`. -/
theorem safe_fork (s : Shared) (p : ProcNo) :
    logic.Safe (Done (fresh s p)) fork (fresh s p) := by
  have hw := Working.fresh s p
  refine Logic.safe_act hw.dead ?_
  rintro np o1 ⟨-, rfl⟩
  cases np with
  | none => exact (hw.take (l := [.allocproc]) (by simp) (by simp)).done _ fun _ => rfl
  | some np =>
    refine Logic.safe_act rfl ?_
    rintro copied o2 ⟨-, rfl⟩
    cases copied with
    | false =>
      refine Logic.safe_act ⟨rfl, rfl⟩ ?_
      rintro - o3 ⟨-, rfl⟩
      exact (hw.take (l := [.allocproc, .copyuvm, .freeproc np]) (by simp) (by simp)).done _
        fun _ => rfl
    | true =>
      refine Logic.safe_bind.mpr (safe_dupFiles (List.nodup_finRange _) rfl
        (fun _ => rfl) rfl rfl (fun _ _ => rfl) fun o3 kid hd hextra hpend hchild => ?_)
      refine Logic.safe_act ⟨hd, kid, hchild⟩ ?_
      rintro - o4 ⟨-, rfl⟩
      refine ⟨hextra, hpend, fun hr => ?_⟩
      have : (0 : ℤ) ≤ np.val := Int.natCast_nonneg _
      omega

/-- The loop of `exit`: the descriptors that have been seen are cleared. -/
theorem safe_closeFiles {Q : Unit → Account → Prop} {fds : List (Fin NOFILE)}
    (hd : o.dead = false) (hextra : ∀ f, o.extra f = 0) (hexcl : ∀ f, o.excl f = none)
    (hpend : o.pend = []) (hchild : o.child = none) (hseen : ∀ fd, fd ∉ fds → o.table fd = none)
    (hQ : ∀ o', o'.dead = false → (∀ f, o'.extra f = 0) → (∀ f, o'.excl f = none) → o'.pend = [] →
      o'.child = none → (∀ fd, o'.table fd = none) → Q () o') :
    logic.Safe Q (closeFiles fds) o := by
  induction fds generalizing o with
  | nil => exact hQ o hd hextra hexcl hpend hchild fun fd => hseen fd List.not_mem_nil
  | cons fd fds ih =>
    refine Logic.safe_act hd ?_
    rintro f o1 ⟨hf, rfl⟩
    cases f with
    | none =>
      refine ih hd hextra hexcl hpend hchild fun fd' hmem => ?_
      by_cases he : fd' = fd
      · rw [he]
        exact hf.symm
      · exact hseen fd' (by simp [he, hmem])
    | some f =>
      have hfd : o.table fd = some f := hf.symm
      refine Logic.safe_bind.mpr (safe_fileclose hd ?_ fun l _ _ => ?_)
      · have hslots := slots_pos hfd
        show 1 ≤ slots o.table f + o.extra f
        rw [hextra f]
        omega
      refine Logic.safe_act hd ?_
      rintro - o2 ⟨-, rfl⟩
      rw [after_clearfd (f := f)]
      swap
      · exact hfd
      refine ih hd (fun g => ?_) (fun g => ?_) hpend hchild fun fd' hmem => ?_
      · exact (extra_take_take o f g (by decide)).trans (hextra g)
      · show update o.excl f none g = none
        rw [update_apply]
        split
        · rfl
        · exact hexcl g
      · show update o.table fd none fd' = none
        by_cases he : fd' = fd
        · rw [he, update_self]
        · rw [update_of_ne he]
          exact hseen fd' (by simp [he, hmem])

/-- `exit`. -/
theorem safe_exit (s : Shared) (p : ProcNo) :
    logic.Safe (Done (fresh s p)) exit (fresh s p) := by
  refine Logic.safe_bind.mpr (safe_closeFiles rfl (fun _ => rfl) (fun _ => rfl) rfl rfl
    (fun fd hfd => absurd (List.mem_finRange fd) hfd) fun o hd hextra hexcl hpend hchild htable => ?_)
  refine Logic.safe_act ⟨hd, htable, fun f => ⟨hextra f, hexcl f⟩, hpend, hchild⟩ ?_
  rintro - o2 ⟨-, rfl⟩
  exact ⟨hextra, hpend, fun hr => absurd hr (by decide)⟩

/-- Every call is safe with the account with which it begins. -/
theorem safe_code (q : Call) (s : Shared) (p : ProcNo) :
    logic.Safe (Done (fresh s p)) (system.code q) (fresh s p) := by
  cases q with
  | «open» => exact safe_sysOpen s p
  | pipe good => exact safe_sysPipe s p good
  | dup fd => exact safe_sysDup s p fd
  | close fd => exact safe_sysClose s p fd
  | fork => exact safe_fork s p
  | exit => exact safe_exit s p

/-! ## Every run -/

/-- What holds in every state of every run. The calls in progress may hold references that are not
descriptors yet, or no longer; what they have changed is told by their steps. -/
structure Sound (c : Config sig Shared ProcNo ℤ) : Prop where
  /-- `filedup` and `fileclose` have not panicked. -/
  halted : c.shared.halted = none
  /-- A reference count is the number of descriptors, but for what the calls in progress did. -/
  refs : ∀ f, c.shared.ref f = descriptors c.shared f + ∑ p, if (c.prog p).isSome then
    change (·.ref f) (c.steps p) - change (descriptors · f) (c.steps p) else 0
  /-- A call that returns has changed the reference counts as it has the descriptors. -/
  returned : ∀ p r, c.prog p = some (.ret r) →
    ∀ f, change (·.ref f) (c.steps p) = change (descriptors · f) (c.steps p)
  /-- A call that fails leaves the descriptor tables, the reference counts and every pipe that it did
  not make as they were. -/
  failed : ∀ p, c.prog p = some (.ret (-1)) → c.shared.ofile p = (c.start p).ofile p ∧
    (∀ f, change (·.ref f) (c.steps p) = 0) ∧
    ∀ s a s', (s, a, s') ∈ c.steps p → (∀ q ≠ p, s'.ofile q = s.ofile q) ∧
      ∀ j < s.npipes, s'.pipe j = s.pipe j ∨
        ∃ t b t', (t, b, t') ∈ c.steps p ∧ t.npipes = j ∧ t'.npipes = j + 1
  /-- The page of a pipe has been freed once if both ends are closed, and not else. -/
  freed : ∀ j < c.shared.npipes, (c.shared.pipe j).freed =
    if (c.shared.pipe j).readopen = false ∧ (c.shared.pipe j).writeopen = false then 1 else 0
  /-- An end is open while a file is for it. -/
  opened : ∀ j w f, c.shared.type f = .pipe j w → (c.shared.pipe j).isOpen w = true
  /-- An end is closed when no file is for it; but for a call in progress that has dropped the last
  reference. -/
  closed : ∀ j w, (c.shared.pipe j).isOpen w = true →
    (∃ f, 1 ≤ c.shared.ref f ∧ c.shared.type f = .pipe j w) ∨
      ∃ p, (c.prog p).isSome ∧ ∃ s f s', (s, Act.fileclose f, s') ∈ c.steps p ∧ s.ref f = 1 ∧
        s.type f = .pipe j w

theorem ledger_boot : Ledger boot fun _ => none where
  halted := rfl
  counts := by
    have hzero : ∀ q f, holding boot (fun _ => none) q f = 0 := by
      intro q f
      show slots (fun _ => none) f + 0 = 0
      rw [slots_empty fun _ => rfl, add_zero]
    constructor
    · intro f
      simp only [hzero, Finset.sum_const_zero]
      rfl
    · intro q f
      rw [hzero]
  tables := by
    constructor
    · intro q o hq
      cases hq
    · intro q o hq
      cases hq
    · intro q o np t hq
      cases hq
    · intro q q' o o' np t t' hq
      cases hq
    · intro q _ fd
      rfl
  types := by
    constructor
    · intro f _
      rfl
    · intro q o f t hq
      cases hq
  pipes := by
    constructor
    · intro j w
      have hclosed : (boot.pipe j).isOpen w = false := by cases w <;> rfl
      rw [hclosed]
      simp [boot, Accounts.pend]
    · intro j
      rw [if_neg]
      · rfl
      · rintro ⟨hj, -⟩
        exact absurd hj (Nat.not_lt_zero j)
    · intro j _
      exact ⟨rfl, rfl⟩

theorem accounted_boot : logic.Accounted Config.boot :=
  ⟨fun _ => none, ledger_boot, fun _ => rfl⟩

variable {c : Config sig Shared ProcNo ℤ} {p : ProcNo}

/-- What is said of a configuration that is accounted for. -/
theorem sound_of_accounted (h : logic.Accounted c) : Sound c := by
  obtain ⟨own, hinv, hown⟩ := h
  replace hinv : Ledger c.shared own := hinv
  have hcall : ∀ p m, c.prog p = some m → ∃ o, own p = some o ∧
      Told p (c.start p) (c.steps p) o ∧ logic.Safe (Done (fresh (c.start p) p)) m o := by
    intro p m hm
    have hp := hown p
    rwa [hm] at hp
  have hextra : ∀ p f, Accounts.extra own p f = if (c.prog p).isSome then
      change (·.ref f) (c.steps p) - change (descriptors · f) (c.steps p) else 0 := by
    intro p f
    cases hp : c.prog p with
    | none =>
      have hnone := hown p
      rw [hp] at hnone
      unfold Accounts.extra
      rw [hnone]
      rfl
    | some m =>
      obtain ⟨o, ho, htold, -⟩ := hcall p m hp
      rw [extra_of ho]
      exact (htold.extra f).symm
  constructor
  · exact hinv.halted
  · intro f
    rw [hinv.ref_eq f]
    simp only [hextra]
  · intro p r hp f
    obtain ⟨o, -, htold, hdone⟩ := hcall p _ hp
    have hzero : o.extra f = 0 := Done.extra hdone f
    have htold := htold.extra f
    omega
  · intro p hp
    obtain ⟨o, ho, htold, hdone⟩ := hcall p _ hp
    obtain ⟨hd, htable, hkept, hclosed⟩ := Done.failed hdone rfl
    refine ⟨(hinv.tables.table p o ho hd).1.trans htable, fun f => ?_, fun s a s' hmem => ?_⟩
    · have hzero : o.extra f = 0 := Done.extra hdone f
      have hsame : slots o.table f = slots ((c.start p).ofile p) f := by rw [htable]; rfl
      rw [htold.held hkept f]
      unfold Account.held
      omega
    · have hframe := htold.frame s a s' hmem
      have htaken : a ∈ o.taken := by
        rw [htold.taken]
        exact List.mem_map_of_mem hmem
      refine ⟨fun q hq => hframe.ofile q hq fun fd f he => hkept q fd f (he ▸ htaken),
        fun j hj => ?_⟩
      by_cases hclose : ∃ w, a = .pipeclose j w
      · obtain ⟨w, rfl⟩ := hclose
        exact .inr (htold.made j (hclosed j w htaken))
      · exact .inl (hframe.pipe j hj fun w he => hclose ⟨w, he⟩)
  · intro j hj
    rw [hinv.pipes.freed j]
    simp only [hj, true_and]
  · intro j w f hf
    have hends := hinv.pipes.ends j w
    have hle := Finset.single_le_sum (f := fun f => if c.shared.type f = .pipe j w then 1 else 0)
      (fun _ _ => Nat.zero_le _) (Finset.mem_univ f)
    rw [if_pos hf] at hle
    by_contra hopen
    rw [if_neg hopen] at hends
    omega
  · intro j w hopen
    have hends := hinv.pipes.ends j w
    rw [if_pos hopen] at hends
    by_cases hfile : ∃ f, c.shared.type f = .pipe j w
    · obtain ⟨f, hf⟩ := hfile
      refine .inl ⟨f, ?_, hf⟩
      have hne : c.shared.ref f ≠ 0 := by
        intro hzero
        rw [hinv.types.free f hzero] at hf
        cases hf
      have hnonneg : 0 ≤ c.shared.ref f := by
        rw [hinv.counts.sum]
        exact Finset.sum_nonneg fun q _ => hinv.counts.nonneg q f
      omega
    · have hzero : (∑ f, if c.shared.type f = .pipe j w then 1 else 0) = 0 :=
        Finset.sum_eq_zero fun f _ => if_neg fun hf => hfile ⟨f, hf⟩
      obtain ⟨p, -, hp⟩ : ∃ p ∈ Finset.univ, Accounts.pend own (j, w) p ≠ 0 :=
        Finset.exists_ne_zero_of_sum_ne_zero (by omega)
      cases hprog : c.prog p with
      | none =>
        have hnone := hown p
        rw [hprog] at hnone
        unfold Accounts.pend at hp
        rw [hnone] at hp
        exact absurd rfl hp
      | some m =>
        obtain ⟨o, ho, htold, -⟩ := hcall p m hprog
        rw [pend_of ho] at hp
        exact .inr ⟨p, by rw [hprog]; rfl, htold.pend j w (List.count_pos_iff.mp (Nat.pos_of_ne_zero hp))⟩

/-- When no call is in progress, the reference counts are the numbers of descriptors. -/
theorem Sound.quiet (h : Sound c) (hquiet : ∀ p, c.prog p = none) (f : FileNo) :
    c.shared.ref f = descriptors c.shared f := by
  rw [h.refs f]
  simp [hquiet]

/-- In every state of every run of any number of processes: the reference counts are the numbers of
descriptors, but for what the calls in progress have done so far; a call that fails leaves things as
they were; `filedup` and `fileclose` do not panic; and the page of a pipe is freed once, when its
second end is closed. When no call is in progress, the counts are the numbers of descriptors, and an
end of a pipe is open exactly while there is a descriptor for it. -/
theorem file_table_accounting {ts : List (Turn ProcNo Call ℤ)}
    (hrun : Run system.Step Config.boot ts c) : Sound c ∧ ((∀ p, c.prog p = none) →
      (∀ f, c.shared.ref f = descriptors c.shared f) ∧
      ∀ j w, (c.shared.pipe j).isOpen w = true ↔
        ∃ p fd f, c.shared.ofile p fd = some f ∧ c.shared.type f = .pipe j w) := by
  have hsound := sound_of_accounted
    (Logic.run_inv (fun q s p _ => safe_code q s p) accounted_boot hrun)
  refine ⟨hsound, fun hquiet => ⟨hsound.quiet hquiet, fun j w => ⟨fun hopen => ?_, ?_⟩⟩⟩
  · rcases hsound.closed j w hopen with ⟨f, href, htype⟩ | ⟨p, hp, -⟩
    · rw [hsound.quiet hquiet f] at href
      obtain ⟨p, -, hp⟩ : ∃ p ∈ Finset.univ, slots (c.shared.ofile p) f ≠ 0 :=
        Finset.exists_ne_zero_of_sum_ne_zero (by unfold descriptors at href; omega)
      obtain ⟨fd, hfd⟩ : ∃ fd, c.shared.ofile p fd = some f := by
        by_contra hnone
        exact hp (Finset.sum_eq_zero fun fd _ => if_neg fun he => hnone ⟨fd, he⟩)
      exact ⟨p, fd, f, hfd, htype⟩
    · rw [hquiet p] at hp
      cases hp
  · rintro ⟨p, fd, f, -, htype⟩
    exact hsound.opened j w f htype

/-- Init makes a pipe and closes the end for reading. -/
theorem file_table_accounting_pipe : ∃ c, Run system.Step Config.boot
    [.call INITPROC (.pipe true), .act INITPROC, .act INITPROC, .act INITPROC, .act INITPROC,
      .act INITPROC, .ret INITPROC 0, .call INITPROC (.close (some 0)), .act INITPROC,
      .act INITPROC, .act INITPROC, .act INITPROC, .ret INITPROC 0] c ∧
    Sound c ∧ (c.shared.pipe 0).readopen = false ∧ (c.shared.pipe 0).writeopen = true := by
  have hrun : ∃ c, Run system.Step Config.boot
      [.call INITPROC (.pipe true), .act INITPROC, .act INITPROC, .act INITPROC, .act INITPROC,
        .act INITPROC, .ret INITPROC 0, .call INITPROC (.close (some 0)), .act INITPROC,
        .act INITPROC, .act INITPROC, .act INITPROC, .ret INITPROC 0] c ∧
      (c.shared.pipe 0).readopen = false ∧ (c.shared.pipe 0).writeopen = true := by
    refine Run.exists_cons (.call rfl ⟨rfl, rfl⟩) ?_
    refine Run.exists_cons (.act rfl ⟨rfl, rfl, rfl⟩) ?_
    refine Run.exists_cons (.act rfl ⟨rfl, rfl, rfl⟩) ?_
    refine Run.exists_cons (.act rfl ⟨rfl, .inr ⟨rfl, rfl⟩⟩) ?_
    refine Run.exists_cons (.act rfl ⟨rfl, rfl, rfl⟩) ?_
    refine Run.exists_cons (.act rfl ⟨rfl, rfl, rfl⟩) ?_
    refine Run.exists_cons (.ret rfl) ?_
    refine Run.exists_cons (.call rfl ⟨rfl, rfl⟩) ?_
    refine Run.exists_cons (.act rfl ⟨rfl, rfl, rfl⟩) ?_
    refine Run.exists_cons (.act (r := ()) rfl ⟨rfl, rfl⟩) ?_
    refine Run.exists_cons (.act rfl ⟨rfl, rfl⟩) ?_
    refine Run.exists_cons (.act (r := ()) rfl ⟨rfl, rfl⟩) ?_
    refine Run.exists_cons (.ret rfl) ?_
    exact ⟨_, .nil _, rfl, rfl⟩
  obtain ⟨c, hrun, hend⟩ := hrun
  exact ⟨c, hrun, (file_table_accounting hrun).1, hend⟩

end Calls

end ChronoFS.Ftable
