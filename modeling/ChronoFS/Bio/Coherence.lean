import ChronoFS.Bio.Model
import ChronoFS.Lib.Count
import Mathlib.Data.Fintype.Option

/-!
# The buffer cache is coherent

`Inv` relates the cache, the clients and the contents `m` that the blocks should have: what was last
logged or written, or else what the disk had at boot. A buffer that is valid, and that no client has
modified since, has the contents of its block; a block whose buffer is not dirty, or that has none,
has its contents on the disk. A buffer that a client uses is counted by `refcnt` and stays with its
block, since `bget` recycles a buffer only if it is neither counted nor dirty.

Every step keeps `Inv` (`Step.inv`), and by `Run.history` it holds along every run, with `m` computed
from the steps so far.
-/

namespace ChronoFS.Bio

open Function

variable {U : Type} {disksize : ℕ} {m : ℕ → Block} {s s' : Cache U} {u : U}
  {b : BufNo} {n : ℕ} {k : Bool}

/-! ## The invariant -/

/-- The buffer of a use. -/
def Client.buf (c : Client) : Option BufNo := c.use.map Prod.fst

/-- The list of buffers is a ring that has every buffer once. -/
def Cache.Listed (s : Cache U) : Prop :=
  ∃ l : List BufNo, s.links.Ring none (l.map some) ∧ ∀ b, b ∈ l

/-- The buffers and the disk have the contents `m` of the blocks. -/
structure Coherent (disksize : ℕ) (m : ℕ → Block) (s : Cache U) : Prop where
  /-- A block is in one buffer at most. -/
  one : ∀ i j, (s.buf i).dev = ROOTDEV → (s.buf j).dev = ROOTDEV →
    (s.buf i).blockno = (s.buf j).blockno → i = j
  /-- A buffer in use is for the block that its client asked for. -/
  use : ∀ u i n, (s.client u).use = some (i, n) → (s.buf i).dev = ROOTDEV ∧ (s.buf i).blockno = n
  /-- A sleep lock is held by the client that is in the section of it. -/
  lock : ∀ i u, (s.buf i).lock = some u ↔ (s.client u).lock = some i
  /-- `bread` returns valid buffers. -/
  held : ∀ u i n k, s.client u = .holding i n k → (s.buf i).valid = true
  /-- A dirty buffer is valid. -/
  dirty : ∀ i, (s.buf i).dirty = true → (s.buf i).valid = true
  /-- A valid buffer is for a block of the disk. -/
  valid : ∀ i, (s.buf i).valid = true → (s.buf i).dev = ROOTDEV ∧ (s.buf i).blockno < disksize
  /-- A valid buffer has the contents of its block, unless its client has modified it. -/
  data : ∀ i, (s.buf i).valid = true → (∀ u n, s.client u ≠ .holding i n true) →
    (s.buf i).data = m (s.buf i).blockno
  /-- A block with a buffer that is not dirty has its contents on the disk. -/
  clean : ∀ i, (s.buf i).dev = ROOTDEV → (s.buf i).dirty = false →
    s.disk (s.buf i).blockno = m (s.buf i).blockno
  /-- A block without a buffer has its contents on the disk. -/
  uncached : ∀ n, (∀ i, (s.buf i).dev = ROOTDEV → (s.buf i).blockno ≠ n) → s.disk n = m n

/-- What holds of the cache when the blocks have the contents `m`. -/
structure Inv [Fintype U] (disksize : ℕ) (m : ℕ → Block) (s : Cache U) : Prop where
  /-- The list has every buffer once. -/
  listed : s.Listed
  /-- `refcnt` counts the uses. -/
  refs : ∀ i, (s.buf i).refcnt = count (fun u => (s.client u).buf) i
  /-- The contents are right. -/
  coherent : Coherent disksize m s

/-! ## The parts that a step touches -/

section Frame

/-- A list of buffers has no more than `NBUF` elements. -/
theorem length_listed {k : Links Node} {l : List BufNo} (hr : k.Ring none (l.map some)) :
    (l.map some).length < NBUF + 1 := by
  have hle := hr.nodup.length_le_card
  rw [Fintype.card_option, Fintype.card_fin, List.length_cons] at hle
  exact hle

/-- A buffer moves to the front of the list. -/
theorem Cache.Listed.relink (h : s.Listed) (b : BufNo) : ∃ l : List BufNo,
    ((s.links.unlink (some b)).pushFront none (some b)).Ring none (l.map some) ∧ ∀ b, b ∈ l := by
  obtain ⟨l, hring, hall⟩ := h
  obtain ⟨l1, l2, rfl⟩ := List.append_of_mem (hall b)
  rw [List.map_append, List.map_cons] at hring
  have hnodup := (List.nodup_cons.mp hring.nodup).2
  have hb : some b ∉ none :: (l1.map some ++ l2.map some) := by
    intro hmem
    rcases List.mem_cons.mp hmem with hmem | hmem
    · cases hmem
    · rw [List.nodup_middle] at hnodup
      exact (List.nodup_cons.mp hnodup).1 hmem
  have hfront := hring.unlink.pushFront hb
  rw [← List.map_append, ← List.map_cons] at hfront
  refine ⟨_, hfront, fun b' => ?_⟩
  have := hall b'
  simp only [List.mem_append, List.mem_cons] at this ⊢
  tauto

variable [Fintype U] [DecidableEq U]

/-- A client goes on, and the count of its buffer with it. -/
theorem Inv.refs_step (h : Inv disksize m s) {c : Client} {f : Buf U}
    (hbuf : s'.buf = update s.buf b f) (hclient : s'.client = update s.client u c)
    (hu : ∀ i ≠ b, (s.client u).buf ≠ some i) (hc : ∀ i ≠ b, c.buf ≠ some i)
    (hf : f.refcnt + (if (s.client u).buf = some b then 1 else 0) =
      (s.buf b).refcnt + if c.buf = some b then 1 else 0) (i : BufNo) :
    (s'.buf i).refcnt = count (fun v => (s'.client v).buf) i := by
  have hfun : (fun v => (s'.client v).buf) = update (fun v => (s.client v).buf) u c.buf := by
    funext v
    rw [hclient, update_apply, update_apply]
    split <;> rfl
  have hsum := count_update (fun v => (s.client v).buf) u c.buf i
  rw [← hfun, ← h.refs i] at hsum
  rw [hbuf]
  by_cases hi : i = b
  · subst hi
    rw [update_self]
    omega
  · rw [update_of_ne hi]
    rw [if_neg (hu i hi), if_neg (hc i hi)] at hsum
    exact hsum.symm

/-- The client goes on in the same use. -/
theorem Inv.refs_same (h : Inv disksize m s) {c : Client} {f : Buf U}
    (hbuf : s'.buf = update s.buf b f) (hclient : s'.client = update s.client u c)
    (hu : (s.client u).buf = some b) (hc : c.buf = some b)
    (hf : f.refcnt = (s.buf b).refcnt) (i : BufNo) :
    (s'.buf i).refcnt = count (fun v => (s'.client v).buf) i := by
  refine h.refs_step hbuf hclient (fun i hi => ?_) (fun i hi => ?_) ?_ i
  · rw [hu]
    simpa using hi.symm
  · rw [hc]
    simpa using hi.symm
  · rw [hu, hc, hf]

end Frame

/-! ## `bget` -/

section Bget

/-- What the first loop of `bget` finds. -/
theorem cached_some (hl : s.Listed) {x : Node} (h : s.cached n = some x) :
    ∃ b, x = some b ∧ (s.buf b).dev = ROOTDEV ∧ (s.buf b).blockno = n := by
  obtain ⟨l, hring, -⟩ := hl
  unfold Cache.cached at h
  rw [hring.scan_next _ (length_listed hring)] at h
  have hx := List.find?_some h
  cases x with
  | none => cases hx
  | some b =>
    simp only [Option.any_some, Bool.and_eq_true, decide_eq_true_eq] at hx
    exact ⟨b, rfl, hx⟩

/-- The first loop of `bget` finds the block if it is cached. -/
theorem cached_none (hl : s.Listed) (h : s.cached n = none) (b : BufNo)
    (hdev : (s.buf b).dev = ROOTDEV) : (s.buf b).blockno ≠ n := by
  obtain ⟨l, hring, hall⟩ := hl
  unfold Cache.cached at h
  rw [hring.scan_next _ (length_listed hring)] at h
  have hb := List.find?_eq_none.mp h (some b) (List.mem_map_of_mem (hall b))
  intro hn
  exact hb (by simp [hdev, hn])

/-- What the second loop of `bget` finds. -/
theorem unused_some (hl : s.Listed) {x : Node} (h : s.unused = some x) :
    ∃ b, x = some b ∧ (s.buf b).refcnt = 0 ∧ (s.buf b).dirty = false := by
  obtain ⟨l, hring, -⟩ := hl
  unfold Cache.unused at h
  rw [hring.scan_prev _ (length_listed hring)] at h
  have hx := List.find?_some h
  cases x with
  | none => cases hx
  | some b =>
    simp only [Option.any_some, Bool.and_eq_true, decide_eq_true_eq, Bool.not_eq_true'] at hx
    exact ⟨b, rfl, hx⟩

variable [DecidableEq U]

/-- A buffer that is recycled for a block. -/
def Buf.recycle (f : Buf U) (n : ℕ) : Buf U :=
  { f with dev := ROOTDEV, blockno := n, valid := false, dirty := false, refcnt := 1 }

/-- `bget` finds the block, or recycles a buffer that is not in use, or panics. -/
theorem bget_cases (hl : s.Listed) (u : U) (n : ℕ) :
    (∃ b, (s.buf b).dev = ROOTDEV ∧ (s.buf b).blockno = n ∧ s.bget u n =
      (s.setBuf b { s.buf b with refcnt := (s.buf b).refcnt + 1 }).goto u (.waiting b n)) ∨
    (∀ b, (s.buf b).dev = ROOTDEV → (s.buf b).blockno ≠ n) ∧
      ((∃ b, (s.buf b).refcnt = 0 ∧ (s.buf b).dirty = false ∧
        s.bget u n = (s.setBuf b ((s.buf b).recycle n)).goto u (.waiting b n)) ∨
      s.bget u n = s.panic .bget) := by
  unfold Cache.bget
  cases hc : s.cached n with
  | some x =>
    obtain ⟨b, rfl, hdev, hn⟩ := cached_some hl hc
    exact .inl ⟨b, hdev, hn, rfl⟩
  | none =>
    refine .inr ⟨cached_none hl hc, ?_⟩
    cases hf : s.unused with
    | some x =>
      obtain ⟨b, rfl, href, hdirty⟩ := unused_some hl hf
      exact .inl ⟨b, href, hdirty, rfl⟩
    | none => exact .inr rfl

end Bget

/-! ## The steps -/

section Steps

variable [Fintype U] [DecidableEq U]

omit [DecidableEq U] in
/-- A panic changes nothing else. -/
theorem Inv.panic (h : Inv disksize m s) (p : Panic) : Inv disksize m (s.panic p) := by
  obtain ⟨hone, huse, hlock, hheld, hdirty, hvalid, hdata, hclean, huncached⟩ := h.coherent
  exact ⟨h.listed, h.refs,
    ⟨hone, huse, hlock, hheld, hdirty, hvalid, hdata, hclean, huncached⟩⟩

omit [Fintype U] [DecidableEq U] in
/-- A client that holds a buffer is the only one that does; the buffer is valid, and is for the block
that the client asked for. -/
theorem Coherent.holding (h : Coherent disksize m s) (hu : s.client u = .holding b n k) :
    (∀ v n' k', s.client v = .holding b n' k' → v = u) ∧ (s.buf b).lock = some u ∧
      (s.buf b).valid = true ∧ (s.buf b).dev = ROOTDEV ∧ (s.buf b).blockno = n := by
  have hlock : (s.buf b).lock = some u := (h.lock b u).mpr (by rw [hu]; rfl)
  refine ⟨fun v n' k' hv => ?_, hlock, h.held u b n k hu, h.use u b n (by rw [hu]; rfl)⟩
  have hlock' : (s.buf b).lock = some v := (h.lock b v).mpr (by rw [hv]; rfl)
  exact Option.some.inj (hlock'.symm.trans hlock)

/-- `bget` finds the block. -/
theorem Inv.bget_hit (h : Inv disksize m s) (hu : s.client u = .idle)
    (hdev : (s.buf b).dev = ROOTDEV) (hn : (s.buf b).blockno = n) : Inv disksize m
      ((s.setBuf b { s.buf b with refcnt := (s.buf b).refcnt + 1 }).goto u (.waiting b n)) := by
  refine ⟨h.listed, h.refs_step rfl rfl ?_ ?_ ?_, ?_⟩
  · simp [hu, Client.buf, Client.use]
  · intro i hi
    simpa [Client.buf, Client.use] using hi.symm
  · simp [hu, Client.buf, Client.use]
  obtain ⟨hone, huse, hlock, hheld, hdirty, hvalid, hdata, hclean, huncached⟩ := h.coherent
  constructor <;> simp only [Cache.goto, Cache.setBuf, update_apply] <;>
    grind [Client.use, Client.lock]

/-- `bget` recycles a buffer. -/
theorem Inv.bget_recycle (h : Inv disksize m s) (hu : s.client u = .idle)
    (hnew : ∀ b, (s.buf b).dev = ROOTDEV → (s.buf b).blockno ≠ n)
    (hrefcnt : (s.buf b).refcnt = 0) (hclean : (s.buf b).dirty = false) : Inv disksize m
      ((s.setBuf b ((s.buf b).recycle n)).goto u (.waiting b n)) := by
  -- nobody uses the buffer
  have hfree : ∀ v n, (s.client v).use ≠ some (b, n) := by
    intro v n hv
    apply ne_of_count_eq_zero ((h.refs b).symm.trans hrefcnt) v
    rw [Client.buf, hv]
    rfl
  have hunheld : ∀ v n k, s.client v ≠ .holding b n k := by
    intro v n k hv
    exact hfree v n (by rw [hv]; rfl)
  have hunlocked : ∀ v, (s.client v).lock ≠ some b := by
    intro v hv
    cases hc : s.client v with
    | locked b' n => exact hfree v n (by rw [hc] at hv ⊢; cases hv; rfl)
    | holding b' n k => exact hunheld v n k (by rw [hc] at hv; cases hv; exact hc)
    | _ => rw [hc] at hv; cases hv
  refine ⟨h.listed, h.refs_step rfl rfl ?_ ?_ ?_, ?_⟩
  · simp [hu, Client.buf, Client.use]
  · intro i hi
    simpa [Client.buf, Client.use] using hi.symm
  · simp [hu, Client.buf, Client.use, hrefcnt, Buf.recycle]
  obtain ⟨hone, huse, hlock, hheld, hdirty, hvalid, hdata, hclean, huncached⟩ := h.coherent
  constructor <;> simp only [Cache.goto, Cache.setBuf, update_apply] <;>
    grind [Client.use, Client.lock, Buf.recycle]

/-- `acquiresleep`. -/
theorem Inv.acquire (h : Inv disksize m s) (hu : s.client u = .waiting b n)
    (hfree : (s.buf b).lock = none) : Inv disksize m (s.acquire u b n) := by
  refine ⟨h.listed, h.refs_same rfl rfl (by rw [hu]; rfl) rfl rfl, ?_⟩
  obtain ⟨hone, huse, hlock, hheld, hdirty, hvalid, hdata, hclean, huncached⟩ := h.coherent
  constructor <;> simp only [Cache.acquire, Cache.goto, Cache.setBuf, update_apply] <;>
    grind [Client.use, Client.lock]

/-- The client modifies the data. -/
theorem Inv.modify (h : Inv disksize m s) (hu : s.client u = .holding b n k) (d : Block) :
    Inv disksize m (s.modify u b n d) := by
  obtain ⟨honly, -, -, hdev, hn⟩ := h.coherent.holding hu
  refine ⟨h.listed, h.refs_same rfl rfl (by rw [hu]; rfl) rfl rfl, ?_⟩
  obtain ⟨hone, huse, hlock, hheld, hdirty, hvalid, hdata, hclean, huncached⟩ := h.coherent
  constructor
  case data =>
    intro i hi hunmodified
    -- the client itself has modified its buffer
    have hib : i ≠ b := by
      rintro rfl
      exact hunmodified u n (update_self ..)
    simp only [Cache.modify, Cache.goto, Cache.setBuf, update_of_ne hib] at hi ⊢
    refine hdata i hi fun v n' hv => hunmodified v n' ?_
    have hvu : v ≠ u := by
      rintro rfl
      rw [hu] at hv
      cases hv
      exact hib rfl
    exact (update_of_ne hvu ..).trans hv
  all_goals
    simp only [Cache.modify, Cache.goto, Cache.setBuf, update_apply]
    grind [Client.use, Client.lock]

/-- `log_write`: the block has the data of the buffer. -/
theorem Inv.logWrite (h : Inv disksize m s) (hu : s.client u = .holding b n k) :
    Inv disksize (update m n (s.buf b).data) (s.logWrite u b n) := by
  obtain ⟨honly, -, -, hdev, hn⟩ := h.coherent.holding hu
  refine ⟨h.listed, h.refs_same rfl rfl (by rw [hu]; rfl) rfl rfl, ?_⟩
  obtain ⟨hone, huse, hlock, hheld, hdirty, hvalid, hdata, hclean, huncached⟩ := h.coherent
  constructor <;> simp only [Cache.logWrite, Cache.goto, Cache.setBuf, update_apply] <;>
    grind [Client.use, Client.lock]

/-- `releasesleep`. -/
theorem Inv.unlock (h : Inv disksize m s) (hu : s.client u = .holding b n false) :
    Inv disksize m (s.unlock u b n) := by
  obtain ⟨honly, hlocked, -, hdev, hn⟩ := h.coherent.holding hu
  have heq : s.unlock u b n =
      (s.setBuf b { s.buf b with lock := none }).goto u (.releasing b n) :=
    if_neg fun hne => hne hlocked
  rw [heq]
  refine ⟨h.listed, h.refs_same rfl rfl (by rw [hu]; rfl) rfl rfl, ?_⟩
  obtain ⟨hone, huse, hlock, hheld, hdirty, hvalid, hdata, hclean, huncached⟩ := h.coherent
  constructor <;> simp only [Cache.goto, Cache.setBuf, update_apply] <;>
    grind [Client.use, Client.lock]

omit [Fintype U] in
/-- `iderw` reads a block that is not valid. -/
theorem iderw_read (h : Coherent disksize m s) (hlock : (s.buf b).lock = some u)
    (hdev : (s.buf b).dev = ROOTDEV) (hvalid : (s.buf b).valid = false) :
    s.iderw disksize u b = if disksize ≤ (s.buf b).blockno then s.panic .outOfRange
      else s.setBuf b { s.buf b with data := s.disk (s.buf b).blockno, valid := true } := by
  have hclean : (s.buf b).dirty = false := by
    cases hd : (s.buf b).dirty with
    | false => rfl
    | true => exact absurd (hvalid.symm.trans (h.dirty b hd)) (by decide)
  unfold Cache.iderw
  rw [if_neg fun hne => hne hlock, if_neg (by simp [hvalid]), if_neg fun hne => hne hdev, hclean]
  rfl

/-- `bread` finds a valid buffer. -/
theorem Inv.bread_valid (h : Inv disksize m s) (hu : s.client u = .locked b n)
    (hb : (s.buf b).valid = true) :
    Inv disksize m (s.goto u (.holding b n false)) ∧ (s.buf b).data = m n := by
  have hlocked : (s.buf b).lock = some u := (h.coherent.lock b u).mpr (by rw [hu]; rfl)
  obtain ⟨hdev, hn⟩ := h.coherent.use u b n (by rw [hu]; rfl)
  have hfree : ∀ v n' k', s.client v ≠ .holding b n' k' := by
    intro v n' k' hv
    have hlock' : (s.buf b).lock = some v := (h.coherent.lock b v).mpr (by rw [hv]; rfl)
    obtain rfl := Option.some.inj (hlock'.symm.trans hlocked)
    rw [hu] at hv
    cases hv
  have hdata : (s.buf b).data = m n := by
    rw [← hn]
    exact h.coherent.data b hb fun v n' => hfree v n' true
  refine ⟨⟨h.listed, h.refs_same (f := s.buf b) (Function.update_eq_self b s.buf).symm rfl
    (by rw [hu]; rfl) rfl rfl, ?_⟩, hdata⟩
  obtain ⟨hone, huse, hlock, hheld, hdirty, hvalid, hdata, hclean, huncached⟩ := h.coherent
  constructor <;> simp only [Cache.goto, update_apply] <;> grind [Client.use, Client.lock]

/-- `bread` reads the block from the disk. -/
theorem Inv.bread_read (h : Inv disksize m s) (hu : s.client u = .locked b n)
    (hb : (s.buf b).valid = false) (hlt : n < disksize) :
    Inv disksize m ((s.setBuf b { s.buf b with data := s.disk n, valid := true }).goto u
      (.holding b n false)) ∧ s.disk n = m n := by
  obtain ⟨hdev, hn⟩ := h.coherent.use u b n (by rw [hu]; rfl)
  have hclean : (s.buf b).dirty = false := by
    cases hd : (s.buf b).dirty with
    | false => rfl
    | true => exact absurd (hb.symm.trans (h.coherent.dirty b hd)) (by decide)
  have hdisk : s.disk n = m n := by
    rw [← hn]
    exact h.coherent.clean b hdev hclean
  refine ⟨⟨h.listed, h.refs_same rfl rfl (by rw [hu]; rfl) rfl rfl, ?_⟩, hdisk⟩
  obtain ⟨hone, huse, hlock, hheld, hdirty, hvalid, hdata, hclean, huncached⟩ := h.coherent
  constructor <;> simp only [Cache.goto, Cache.setBuf, update_apply] <;>
    grind [Client.use, Client.lock]

/-- `bread` returns the contents of the block, unless the block is not on the disk. -/
theorem Inv.bread (h : Inv disksize m s) (hhalt : s.halted = none)
    (hu : s.client u = .locked b n) : Inv disksize m (s.bread disksize u b n) ∧
      ((s.bread disksize u b n).halted = none →
        ((s.bread disksize u b n).buf b).data = m n) := by
  have hlocked : (s.buf b).lock = some u := (h.coherent.lock b u).mpr (by rw [hu]; rfl)
  obtain ⟨hdev, rfl⟩ := h.coherent.use u b n (by rw [hu]; rfl)
  have hset : ∀ f, (s.setBuf b f).halted = none := fun _ => hhalt
  unfold Cache.bread
  cases hb : (s.buf b).valid with
  | true =>
    obtain ⟨hinv, hdata⟩ := h.bread_valid hu hb
    simp only [if_true, hhalt]
    exact ⟨hinv, fun _ => hdata⟩
  | false =>
    simp only [Bool.false_eq_true, if_false, iderw_read h.coherent hlocked hdev hb]
    by_cases hle : disksize ≤ (s.buf b).blockno
    · simp only [if_pos hle]
      rw [if_neg (by simp [Cache.panic])]
      exact ⟨h.panic _, fun hret => by cases hret⟩
    · obtain ⟨hinv, hdata⟩ := h.bread_read hu hb (by omega)
      simp only [if_neg hle, hset, if_true]
      refine ⟨hinv, fun _ => ?_⟩
      simp [Cache.goto, Cache.setBuf, hdata]

/-- `bwrite`: the block has the data of the buffer. -/
theorem Inv.bwrite (h : Inv disksize m s) (hhalt : s.halted = none)
    (hu : s.client u = .holding b n k) :
    Inv disksize (update m n (s.buf b).data) (s.bwrite disksize u b n) ∧
      (s.bwrite disksize u b n).halted = none := by
  obtain ⟨honly, hlocked, hvalid, hdev, hn⟩ := h.coherent.holding hu
  have hlt : n < disksize := hn ▸ (h.coherent.valid b hvalid).2
  have heq : s.bwrite disksize u b n =
      { (s.setBuf b { s.buf b with dirty := false, valid := true }).goto u
          (.holding b n false) with disk := update s.disk n (s.buf b).data } := by
    have hle : ¬ disksize ≤ n := by omega
    unfold Cache.bwrite Cache.iderw
    simp [Cache.setBuf, hlocked, hdev, hn, hle, hhalt, Cache.goto]
  rw [heq]
  refine ⟨⟨h.listed, h.refs_same rfl rfl (by rw [hu]; rfl) rfl rfl, ?_⟩, hhalt⟩
  obtain ⟨hone, huse, hlock, hheld, hdirty, hvalid, hdata, hclean, huncached⟩ := h.coherent
  constructor <;> simp only [Cache.goto, Cache.setBuf, update_apply] <;>
    grind [Client.use, Client.lock]

/-- `brelse`. -/
theorem Inv.brelse (h : Inv disksize m s) (hu : s.client u = .releasing b n) :
    Inv disksize m (s.brelse u b) := by
  have hpos : 0 < (s.buf b).refcnt := by
    rw [h.refs b]
    exact count_pos (by rw [hu]; rfl)
  have hbuf : (s.brelse u b).buf =
      update s.buf b { s.buf b with refcnt := (s.buf b).refcnt - 1 } := by
    unfold Cache.brelse
    dsimp only
    split <;> rfl
  have hclient : (s.brelse u b).client = update s.client u .idle := by
    unfold Cache.brelse
    dsimp only
    split <;> rfl
  have hdisk : (s.brelse u b).disk = s.disk := by
    unfold Cache.brelse
    dsimp only
    split <;> rfl
  refine ⟨?_, h.refs_step hbuf hclient ?_ ?_ ?_, ?_⟩
  · unfold Cache.brelse
    dsimp only
    split
    · exact h.listed.relink b
    · exact h.listed
  · intro i hi
    rw [hu]
    simpa [Client.buf, Client.use] using hi.symm
  · intro i _ hc
    cases hc
  · rw [hu]
    simp [Client.buf, Client.use]
    omega
  obtain ⟨hone, huse, hlock, hheld, hdirty, hvalid, hdata, hclean, huncached⟩ := h.coherent
  constructor <;> simp only [hbuf, hclient, hdisk, update_apply] <;>
    grind [Client.use, Client.lock]

end Steps

/-! ## Every run -/

section Runs

variable [Fintype U] [DecidableEq U]

/-- The contents of the blocks after an event. -/
def Event.store : Event U → (ℕ → Block) → ℕ → Block
  | .logWrite _ n d, m | .bwrite _ n d, m => update m n d
  | _, m => m

/-- What was last stored in a block by a logged or written modification, or the contents of the disk
if there was none. -/
def stored (disk : ℕ → Block) (es : List (Event U)) : ℕ → Block :=
  es.foldl (fun m e => e.store m) disk

/-- A step keeps the invariant. -/
theorem Step.inv {e : Event U} (hstep : Step disksize s e s') (h : Inv disksize m s) :
    Inv disksize (e.store m) s' := by
  cases hstep with
  | @bget u n _ hu =>
    rcases bget_cases h.listed u n with ⟨b, hdev, hn, heq⟩ | ⟨hnew, ⟨b, href, hclean, heq⟩ | heq⟩
    · rw [heq]
      exact h.bget_hit hu hdev hn
    · rw [heq]
      exact h.bget_recycle hu hnew href hclean
    · rw [heq]
      exact h.panic _
  | acquire _ hu hlock => exact h.acquire hu hlock
  | bread hhalt hu _ => exact (h.bread hhalt hu).1
  | breadPanic hhalt hu _ => exact (h.bread hhalt hu).1
  | modify d _ hu => exact h.modify hu d
  | logWrite _ hu => exact h.logWrite hu
  | bwrite hhalt hu _ => exact (h.bwrite hhalt hu).1
  | bwritePanic hhalt hu hret => exact absurd (h.bwrite hhalt hu).2 hret
  | unlock _ hu => exact h.unlock hu
  | brelse _ hu => exact h.brelse hu

/-- The buffers of `s'` are for the blocks they are for in `s`. -/
def Same (s s' : Cache U) : Prop :=
  ∀ i, (s'.buf i).dev = (s.buf i).dev ∧ (s'.buf i).blockno = (s.buf i).blockno

omit [Fintype U] [DecidableEq U] in
theorem same_setBuf {f : Buf U} (hdev : f.dev = (s.buf b).dev)
    (hblockno : f.blockno = (s.buf b).blockno) : Same s (s.setBuf b f) := by
  intro i
  show (update s.buf b f i).dev = _ ∧ (update s.buf b f i).blockno = _
  by_cases hi : i = b
  · rw [hi, update_self]
    exact ⟨hdev, hblockno⟩
  · rw [update_of_ne hi]
    exact ⟨rfl, rfl⟩

omit [Fintype U] in
theorem same_iderw (s : Cache U) (u : U) (b : BufNo) : Same s (s.iderw disksize u b) := by
  unfold Cache.iderw
  split_ifs
  case pos => exact fun _ => ⟨rfl, rfl⟩
  case pos => exact fun _ => ⟨rfl, rfl⟩
  case pos => exact fun _ => ⟨rfl, rfl⟩
  case pos => exact fun _ => ⟨rfl, rfl⟩
  case pos => exact same_setBuf rfl rfl
  case neg => exact same_setBuf rfl rfl

omit [Fintype U] in
/-- Only `bget` gives a buffer another block. -/
theorem Step.same {e : Event U} (hstep : Step disksize s e s') (he : ∀ u n, e ≠ .bget u n) :
    Same s s' := by
  have hbread : ∀ u b n, Same s (s.bread disksize u b n) := by
    intro u b n
    unfold Cache.bread
    dsimp only
    split <;> split <;> first | exact fun _ => ⟨rfl, rfl⟩ | exact same_iderw s u b
  have hbwrite : ∀ u b n, Same s (s.bwrite disksize u b n) := by
    intro u b n
    have hset : Same s (s.setBuf b { s.buf b with dirty := true }) := same_setBuf rfl rfl
    have hide : Same (s.setBuf b { s.buf b with dirty := true })
        ((s.setBuf b { s.buf b with dirty := true }).iderw disksize u b) := same_iderw _ u b
    have hboth : Same s ((s.setBuf b { s.buf b with dirty := true }).iderw disksize u b) :=
      fun i => ⟨(hide i).1.trans (hset i).1, (hide i).2.trans (hset i).2⟩
    unfold Cache.bwrite
    dsimp only
    split
    · exact fun _ => ⟨rfl, rfl⟩
    · split <;> exact hboth
  cases hstep with
  | bget n _ _ => exact absurd rfl (he _ n)
  | acquire => exact same_setBuf rfl rfl
  | bread => exact hbread _ _ _
  | breadPanic => exact hbread _ _ _
  | modify => exact same_setBuf rfl rfl
  | logWrite => exact same_setBuf rfl rfl
  | bwrite => exact hbwrite _ _ _
  | bwritePanic => exact hbwrite _ _ _
  | unlock =>
    unfold Cache.unlock
    split
    · exact fun _ => ⟨rfl, rfl⟩
    · exact same_setBuf rfl rfl
  | brelse =>
    unfold Cache.brelse
    dsimp only
    split <;> exact same_setBuf rfl rfl

/-- A step gives another block only to a buffer that is not in use and not dirty. -/
theorem Step.recycled {e : Event U} (hstep : Step disksize s e s') (h : Inv disksize m s)
    (i : BufNo) (hi : (s'.buf i).dev ≠ (s.buf i).dev ∨ (s'.buf i).blockno ≠ (s.buf i).blockno) :
    (s.buf i).refcnt = 0 ∧ (s.buf i).dirty = false := by
  by_cases he : ∃ u n, e = .bget u n
  · obtain ⟨u, n, rfl⟩ := he
    cases hstep
    rcases bget_cases h.listed u n with ⟨b, -, -, heq⟩ | ⟨-, ⟨b, href, hclean, heq⟩ | heq⟩
    · have hsame : Same s (s.bget u n) := by
        rw [heq]
        exact same_setBuf rfl rfl
      exact absurd hi (by simp [(hsame i).1, (hsame i).2])
    · have hib : i = b := by
        by_contra hne
        rw [heq] at hi
        simp [Cache.goto, Cache.setBuf, update_of_ne hne] at hi
      rw [hib]
      exact ⟨href, hclean⟩
    · rw [heq] at hi
      exact absurd hi (by simp [Cache.panic])
  · have hsame := hstep.same (fun u n heq => he ⟨u, n, heq⟩) i
    exact absurd hi (by simp [hsame.1, hsame.2])

/-- The loop of `binit` makes a ring of the buffers. -/
theorem ring_foldl {bs l : List BufNo} {k : Links Node} (hring : k.Ring none (l.map some))
    (hnodup : bs.Nodup) (hnew : ∀ b ∈ bs, b ∉ l) :
    ((bs.foldl (fun k b => k.pushFront none (some b)) k)).Ring none
      ((bs.reverse ++ l).map some) := by
  induction bs generalizing k l with
  | nil => exact hring
  | cons b bs ih =>
    obtain ⟨hb, hnodup⟩ := List.nodup_cons.mp hnodup
    have hpush := hring.pushFront (b := some b) (by simpa using hnew b List.mem_cons_self)
    rw [← List.map_cons] at hpush
    rw [List.reverse_cons, List.append_assoc]
    refine ih hpush hnodup fun b' hb' hmem => ?_
    rcases List.mem_cons.mp hmem with rfl | hmem
    · exact hb hb'
    · exact hnew b' (List.mem_cons_of_mem _ hb') hmem

omit [DecidableEq U] in
/-- At first nothing is cached. -/
theorem inv_binit (disk : ℕ → Block) : Inv disksize disk (Cache.binit disk : Cache U) := by
  have hdev : ∀ i, ((Cache.binit disk : Cache U).buf i).dev ≠ ROOTDEV := fun _ =>
    show (0 : UInt32) ≠ ROOTDEV by decide
  refine ⟨⟨(List.finRange NBUF).reverse ++ [], ?_, fun b => ?_⟩, fun i => ?_, ?_⟩
  · exact ring_foldl (Links.ring_nil rfl rfl) (List.nodup_finRange NBUF)
      fun _ _ => List.not_mem_nil
  · simp
  · show 0 = ∑ _u : U, if (none : Option BufNo) = some i then 1 else 0
    simp
  constructor
  case one => exact fun i j hi => absurd hi (hdev i)
  case use => exact fun u i n hu => nomatch hu
  case lock => exact fun i u => ⟨nofun, nofun⟩
  case held => exact fun u i n k hu => nomatch hu
  case dirty => exact fun i hi => nomatch hi
  case valid => exact fun i hi => nomatch hi
  case data => exact fun i hi => nomatch hi
  case clean => exact fun i hi => absurd hi (hdev i)
  case uncached => exact fun n _ => rfl

/-- In every run: the circular list has each buffer once; a block is in one buffer at most; a buffer
that is in use or dirty is not recycled; and `bread` of a block returns what was last stored in it. -/
theorem cache_coherence {disk : ℕ → Block} {es : List (Event U)}
    (hrun : Run (Step disksize) (Cache.binit disk) es s) :
    (∃ l : List BufNo, l.Nodup ∧ (∀ b, b ∈ l) ∧ s.links.Ring none (l.map some)) ∧
    (∀ i j, (s.buf i).dev = ROOTDEV → (s.buf j).dev = ROOTDEV →
      (s.buf i).blockno = (s.buf j).blockno → i = j) ∧
    ∀ e s', Step disksize s e s' →
      (∀ i, (s'.buf i).dev ≠ (s.buf i).dev ∨ (s'.buf i).blockno ≠ (s.buf i).blockno →
        (s.buf i).refcnt = 0 ∧ (s.buf i).dirty = false) ∧
      ∀ u n d, e = .bread u n d → d = stored disk es n := by
  have hinv : Inv disksize (stored disk es) s := by
    refine hrun.history (I := fun fs t => Inv disksize (stored disk fs) t) (inv_binit disk) ?_
    intro fs s₁ e s₂ h hstep
    have hnext := hstep.inv h
    unfold stored at hnext ⊢
    rwa [List.foldl_append]
  refine ⟨?_, hinv.coherent.one, fun e s' hstep => ⟨hstep.recycled hinv, ?_⟩⟩
  · obtain ⟨l, hring, hall⟩ := hinv.listed
    exact ⟨l, (List.nodup_cons.mp hring.nodup).2.of_map some, hall, hring⟩
  · rintro u n d rfl
    cases hstep with
    | bread hhalt hu hret => exact (hinv.bread hhalt hu).2 hret

omit [Fintype U] in
theorem Step.bread_of {d : Block} (hhalt : s.halted = none) (hu : s.client u = .locked b n)
    (hret : (s.bread disksize u b n).halted = none)
    (hd : ((s.bread disksize u b n).buf b).data = d) :
    Step disksize s (.bread u n d) (s.bread disksize u b n) := hd ▸ .bread hhalt hu hret

omit [Fintype U] in
theorem Step.logWrite_of {d : Block} (hhalt : s.halted = none) (hu : s.client u = .holding b n k)
    (hd : (s.buf b).data = d) : Step disksize s (.logWrite u n d) (s.logWrite u b n) :=
  hd ▸ .logWrite hhalt hu

set_option maxRecDepth 20000 in
/-- A client logs a block, and another one reads it. -/
theorem cache_coherence_logged : ∃ (s s' : Cache (Fin 2)) (d : Block),
    Run (Step FSSIZE) (Cache.binit fun _ => .zero) [.bget 0 5, .acquire 0, .bread 0 5 .zero,
      .modify 0 (Block.zero.setWord 0 1), .logWrite 0 5 (Block.zero.setWord 0 1), .unlock 0,
      .brelse 0, .bget 1 5, .acquire 1] s ∧ Step FSSIZE s (.bread 1 5 d) s' ∧
    d = Block.zero.setWord 0 1 := by
  have hrun : ∃ s : Cache (Fin 2), Run (Step FSSIZE) (Cache.binit fun _ => .zero)
      [.bget 0 5, .acquire 0, .bread 0 5 .zero, .modify 0 (Block.zero.setWord 0 1),
        .logWrite 0 5 (Block.zero.setWord 0 1), .unlock 0, .brelse 0, .bget 1 5, .acquire 1] s ∧
      ∃ s' d, Step FSSIZE s (.bread 1 5 d) s' := by
    refine Run.exists_cons (.bget 5 rfl rfl) ?_
    refine Run.exists_cons (.acquire rfl rfl rfl) ?_
    refine Run.exists_cons (.bread_of rfl rfl rfl rfl) ?_
    refine Run.exists_cons (.modify _ rfl rfl) ?_
    refine Run.exists_cons (.logWrite_of rfl rfl rfl) ?_
    refine Run.exists_cons (.unlock rfl rfl) ?_
    refine Run.exists_cons (.brelse rfl rfl) ?_
    refine Run.exists_cons (.bget 5 rfl rfl) ?_
    refine Run.exists_cons (.acquire rfl rfl rfl) ?_
    exact ⟨_, .nil _, _, _, .bread_of rfl rfl rfl rfl⟩
  obtain ⟨s, hrun, s', d, hstep⟩ := hrun
  exact ⟨s, s', d, hrun, hstep, ((cache_coherence hrun).2.2 _ _ hstep).2 _ _ _ rfl⟩

end Runs

end ChronoFS.Bio
