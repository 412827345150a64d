import ChronoFS.Spec.Restore

/-!
# Walking a version chain

The node of a version is a block that no other version has (`Own`) and that still holds what
`version_create` wrote (`VersionsOk`). So the chain from a head is determined, its nodes are different,
and it is shorter than the disk has blocks: `version_list` and `sys_version_restore`, which read it
from the disk, meet its versions in order, and the walk of `sys_version_restore` ends.
-/

namespace ChronoFS

open Function

variable {st : Bool} {w fr : Option ℕ} {lg : ℕ → Dinode} {hand : List ℕ} {s s' : Fs}
  {k : Slot} {head : UInt32} {c c' : List Version} {E : Halt → Fs → Prop} {u v : Version}
  {vs : List Version}

theorem Chain.mem (h : Chain vs head c) (hv : v ∈ c) : v ∈ vs :=
  h.2.subset (List.mem_reverse.mpr hv)

theorem Chain.tail (h : Chain vs head (v :: c)) : Chain vs v.prev c := by
  refine ⟨h.1.2, List.Sublist.trans ?_ h.2⟩
  rw [List.reverse_cons]
  exact List.sublist_append_left ..

/-- A chain with more versions around is the same chain. -/
theorem Chain.mono {vs' : List Version} (h : Chain vs head c) (hvs : vs <+: vs') :
    Chain vs' head c := ⟨h.1, h.2.trans hvs.sublist⟩

/-- The nodes of the versions are different blocks. -/
theorem Core.nodes_nodup (h : Core st w fr lg hand s) :
    (s.versions.map fun v => v.node.toNat).Nodup := by
  have href : ∀ n, (hn : n < s.versions.length) →
      refs lg s.view.block s.versions (.vnode n) = (s.versions.get ⟨n, hn⟩).node.toNat := by
    intro n hn
    simp [refs, List.getElem?_eq_getElem hn]
  rw [List.nodup_iff_injective_get]
  intro a b hab
  have ha : a.val < s.versions.length := by simpa using a.isLt
  have hb : b.val < s.versions.length := by simpa using b.isLt
  have hne : refs lg s.view.block s.versions (.vnode a) ≠ 0 := by
    rw [href a ha]
    exact toNat_ne_zero.mpr (h.vers.ne _ (List.get_mem ..))
  have heq : refs lg s.view.block s.versions (.vnode a) =
      refs lg s.view.block s.versions (.vnode b) := by
    rw [href a ha, href b hb]
    simpa using hab
  have hinj := h.own.inj _ _ hne heq
  exact Fin.ext (Owner.vnode.inj hinj)

/-- A version is known by its node. -/
theorem Core.version_ext (h : Core st w fr lg hand s) (hu : u ∈ s.versions) (hv : v ∈ s.versions)
    (heq : u.node = v.node) : u = v :=
  List.inj_on_of_nodup_map h.nodes_nodup hu hv (by rw [heq])

/-- The chain from a head is determined. -/
theorem Core.chain_unique (h : Core st w fr lg hand s) (hc : Chain s.versions head c)
    (hc' : Chain s.versions head c') : c = c' := by
  induction c generalizing head c' with
  | nil =>
    cases c' with
    | nil => rfl
    | cons v c' => exact absurd (hc'.1.1.symm.trans hc.1) (h.vers.ne v (hc'.mem List.mem_cons_self))
  | cons v c ih =>
    cases c' with
    | nil => exact absurd (hc.1.1.symm.trans hc'.1) (h.vers.ne v (hc.mem List.mem_cons_self))
    | cons v' c' =>
      obtain rfl : v = v' := h.version_ext (hc.mem List.mem_cons_self) (hc'.mem List.mem_cons_self)
        (hc.1.1.symm.trans hc'.1.1)
      rw [ih hc.tail hc'.tail]

/-- A chain does not come back to a node that it has met. -/
theorem Core.chain_nodup (h : Core st w fr lg hand s) (hc : Chain s.versions head c) :
    (c.map fun v => v.node.toNat).Nodup := by
  have hrev := h.nodes_nodup.sublist (hc.2.map fun v => v.node.toNat)
  rwa [List.map_reverse, List.nodup_reverse] at hrev

/-- A chain has fewer versions than the disk has blocks. -/
theorem Core.chain_length (h : Core st w fr lg hand s) (hc : Chain s.versions head c) :
    c.length ≤ s.sb.size := by
  have hsub : (c.map fun v => v.node.toNat).toFinset ⊆ Finset.range s.sb.size := by
    intro x hx
    obtain ⟨v, hv, rfl⟩ := List.mem_map.mp (List.mem_toFinset.mp hx)
    obtain ⟨n, href, -⟩ := refs_vnode lg s.view.block (hc.mem hv)
    rw [Finset.mem_range, ← href]
    refine (h.own.inArea _ ?_).2
    rw [href]
    exact toNat_ne_zero.mpr (h.vers.ne v (hc.mem hv))
  calc c.length = (c.map fun v => v.node.toNat).toFinset.card := by
        rw [List.toFinset_card_of_nodup (h.chain_nodup hc), List.length_map]
    _ ≤ (Finset.range s.sb.size).card := Finset.card_le_card hsub
    _ = s.sb.size := Finset.card_range _

/-! ## `version_get`, `version_list` -/

/-- `version_get` reads the first version of a chain. -/
theorem wp_versionGet {Q : Option VersionNode → Fs → Prop} (h : Core st w fr lg hand s)
    (hc : Chain s.versions head c) (hok : Q (c.head?.map Version.vnode) s) :
    wp (versionGet head) Q E s := by
  unfold versionGet
  rw [wp_ite]
  cases c with
  | nil => exact ⟨fun _ => hok, fun hne => absurd hc.1 hne⟩
  | cons v c =>
    have hv := hc.mem List.mem_cons_self
    have hnode : head = v.node := hc.1.1
    refine ⟨fun hz => absurd (hnode.symm.trans hz) (h.vers.ne v hv), fun _ => ?_⟩
    obtain ⟨n, href, -⟩ := refs_vnode lg s.view.block hv
    have harea : s.sb.Area v.node.toNat := by
      rw [← href]
      refine h.own.inArea _ ?_
      rw [href]
      exact toNat_ne_zero.mpr (h.vers.ne v hv)
    have hread : s.disk head.toNat = v.block := by
      rw [hnode, disk_eq_block harea]
      exact h.vers.node v hv
    rw [wp_bind, wp_bread, hread]
    exact hok

/-- What `version_list` says of a version. -/
def Version.info (v : Version) (versionNum : ℕ) : VersionInfo where
  versionNum
  timestamp := v.vnode.timestamp
  fileSize := v.vnode.fileSize
  blockCount := v.vnode.nblocks
  description := v.vnode.description

theorem wp_versionListLoop {Q : List VersionInfo → Fs → Prop} (h : Core st w fr lg hand s)
    (hc : Chain s.versions head c) (max count : ℕ)
    (hok : Q ((c.take max).mapIdx fun j v => v.info (count + j)) s) :
    wp (versionListLoop max count head) Q E s := by
  induction max generalizing head c count Q with
  | zero => exact hok
  | succ max ih =>
    unfold versionListLoop
    rw [wp_bind]
    refine wp_versionGet h hc ?_
    cases c with
    | nil => exact hok
    | cons v c =>
      show wp (bind (versionListLoop max (count + 1) v.prev) _) _ _ _
      rw [wp_bind]
      refine ih hc.tail (count + 1) ?_
      rw [List.take_succ_cons, List.mapIdx_cons] at hok
      have hshift : ((c.take max).mapIdx fun j v => v.info (count + 1 + j)) =
          (c.take max).mapIdx fun j v => v.info (count + (j + 1)) := by
        simp only [Nat.add_assoc, Nat.add_comm 1]
      rw [hshift]
      exact hok

/-- `version_list` describes the first versions of the chain, the newest first. -/
theorem wp_versionList {Q : List VersionInfo → Fs → Prop} (h : Core st w fr lg hand s)
    (ha : s.Audited k) (hc : Chain s.versions (s.icache k).din.versionHead c) (max : ℤ)
    (hok : Q ((c.take max.toNat).mapIdx fun j v => v.info j) s) :
    wp (versionList k max) Q E s := by
  unfold versionList
  rw [wp_bind, wp_uses ha, wp_bind, wp_inode]
  refine wp_versionListLoop h hc _ _ ?_
  simp only [Nat.zero_add]
  exact hok

/-! ## The walk of `sys_version_restore` -/

theorem wp_restoreWalk {Q : ℤ → Fs → Prop} (h : Core st w fr lg hand s)
    (hc : Chain s.versions head c) {num : ℤ} {bound cur : ℕ} (hbound : c.length < bound)
    (hfound : ∀ j v, (c)[j]? = some v → ((cur + j : ℕ) : ℤ) = num → wp (restoreVersion k v.vnode) Q E s)
    (hnone : (∀ j < c.length, ((cur + j : ℕ) : ℤ) ≠ num) → wp (putFail k) Q E s) :
    wp (restoreWalk k num bound head cur) Q E s := by
  induction bound generalizing head c cur with
  | zero => exact absurd hbound (Nat.not_lt_zero _)
  | succ bound ih =>
    unfold restoreWalk
    rw [wp_bind]
    refine wp_versionGet h hc ?_
    cases c with
    | nil => exact hnone (by simp)
    | cons v c =>
      show wp (if (cur : ℤ) = num then _ else _) _ _ _
      rw [wp_ite]
      refine ⟨fun heq => hfound 0 v rfl (by simpa using heq), fun hne => ?_⟩
      refine ih hc.tail (by simpa using hbound) (fun j u hj heq => hfound (j + 1) u hj ?_) fun hall => ?_
      · rw [← heq]
        push_cast
        ring
      · refine hnone fun j hj => ?_
        cases j with
        | zero => exact hne
        | succ j =>
          have := hall j (by simpa using hj)
          rw [Nat.add_right_comm, Nat.add_assoc] at this
          exact this

end ChronoFS
