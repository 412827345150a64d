import ChronoFS.Log.Control
import ChronoFS.Lib.Redo

/-!
# Crash atomicity of the log

`Inv` relates the header, the log area, the cache and the home blocks at every step. Its core is
`redo`: replaying the log that the header on disk describes gives every home block the contents
that the committed transactions left (`homeAfter`). An empty header makes the home blocks
themselves right; the first `write_head` of `commit` moves the header from one reading to the
other in one disk write; and each iteration of `install_trans` writes a home block that the replay
would write again, so `redo` survives a crash anywhere, also in `recover_from_log`.
-/

namespace ChronoFS.Log

open Function
open Redo (install install_of_notMem install_of_mem install_congr install_eq_of_forall
  install_append)

variable {s s' : State} {p : ℕ} {b : UInt32} {d₀ : ℕ → Block}

/-- The block lies outside the log area. -/
def State.Home (s : State) (b : ℕ) : Prop := b < s.start ∨ s.start + s.size ≤ b

/-- The block and contents of a `log_write`. -/
def Write.entry (w : Write) : ℕ × Block := (w.block.toNat, w.data)

/-- The disk after the transactions `ts`, each applied as a whole. -/
def homeAfter (d : ℕ → Block) (ts : List (List Write)) : ℕ → Block :=
  ts.foldl (fun d ws => install d (ws.map Write.entry)) d

/-- The blocks as the processes see them: the committed transactions, then the current one. -/
def State.view (s : State) (d₀ : ℕ → Block) : ℕ → Block :=
  install (homeAfter d₀ s.trans) (s.cur.map Write.entry)

/-- The writes that replaying a log with the blocks `lh` makes. -/
def redoList (d : ℕ → Block) (start : ℕ) (lh : List UInt32) : List (ℕ × Block) :=
  lh.zipIdx.map fun x => (x.1.toNat, d (start + x.2 + 1))

/-- The iterations of `install_trans` that are done. -/
def Phase.installed : Phase → ℕ
  | .installTrans t | .recovering t => t
  | _ => 0

/-- `install_trans` is running. -/
def Phase.Installing (ph : Phase) (t : ℕ) : Prop := ph = .installTrans t ∨ ph = .recovering t

/-- Operations run, or `commit` has yet to write the header, or it is done. -/
def Phase.Logging : Phase → Prop
  | .running | .writeLog _ | .committed => True
  | _ => False

/-- Header, log area, cache and home blocks at every step. -/
structure Inv (d₀ : ℕ → Block) (s : State) : Prop where
  /-- The log area has room for its header. -/
  size : 0 < s.size
  /-- A clean buffer holds what the disk holds. -/
  clean : ∀ b buf, s.cache b = some buf → buf.dirty = false → buf.data = s.disk b
  /-- A dirty buffer belongs to the log and is not installed yet. -/
  dirty : ∀ b buf, s.cache b = some buf → buf.dirty = true →
    ∃ c ∈ s.lh.drop s.phase.installed, c.toNat = b
  /-- The blocks of `log.lh` lie outside the log area. -/
  home : ∀ c ∈ s.lh, s.Home c.toNat
  /-- So do those of the header on disk. -/
  headHome : ∀ c ∈ getHead (s.disk s.start), s.Home c.toNat
  /-- The log fits in its area. -/
  fits : s.lh.length ≤ s.size - 1 ∧ s.lh.length ≤ LOGSIZE
  /-- The header on disk lists a block once, and fits too. -/
  head : (getHead (s.disk s.start)).Nodup ∧ (getHead (s.disk s.start)).length ≤ s.size - 1 ∧
    (getHead (s.disk s.start)).length ≤ LOGSIZE
  /-- Replaying the log on disk gives the contents that the committed transactions left. -/
  redo : ∀ b, s.Home b →
    install s.disk (redoList s.disk s.start (getHead (s.disk s.start))) b =
      homeAfter d₀ s.trans b
  /-- Until the header is written, the log on disk is empty, and the blocks of the current
  transaction are pinned in the cache. -/
  logging : s.phase.Logging → getHead (s.disk s.start) = [] ∧
    ∀ c ∈ s.lh, s.cache c.toNat = some ⟨s.view d₀ c.toNat, true⟩
  /-- `write_log` has copied the first `t` of them to the log. -/
  slots : ∀ t, s.phase = .writeLog t → t ≤ s.lh.length ∧
    ∀ j < t, s.disk (s.start + j + 1) = s.view d₀ (s.lh.getD j 0).toNat
  /-- `install_trans` has copied the first `t` blocks of the log on disk home. -/
  installing : ∀ t, s.phase.Installing t → getHead (s.disk s.start) = s.lh ∧ t ≤ s.lh.length ∧
    ∀ j < t, s.disk (s.lh.getD j 0).toNat = s.disk (s.start + j + 1)
  /-- After a boot nothing is logged. -/
  booted : s.phase = .booted → s.lh = []

/-! ## The replay list -/

theorem redoList_fst (d : ℕ → Block) (start : ℕ) (lh : List UInt32) :
    (redoList d start lh).map Prod.fst = lh.map UInt32.toNat := by
  simp only [redoList, List.map_map]
  have : (Prod.fst ∘ fun x : UInt32 × ℕ => (x.1.toNat, d (start + x.2 + 1))) =
      UInt32.toNat ∘ Prod.fst := rfl
  rw [this, ← List.map_map, List.zipIdx_map_fst]

theorem toNat_nodup {lh : List UInt32} (h : lh.Nodup) : (lh.map UInt32.toNat).Nodup :=
  h.map fun _ _ => UInt32.toNat_inj.mp

/-- The replay writes slot `j` to block `j` of the header. -/
theorem mem_redoList {d : ℕ → Block} {start : ℕ} {lh : List UInt32} {w : ℕ × Block} :
    w ∈ redoList d start lh ↔
      ∃ j < lh.length, w = ((lh.getD j 0).toNat, d (start + j + 1)) := by
  simp only [redoList, List.mem_map, Prod.exists, List.mk_mem_zipIdx_iff_getElem?]
  constructor
  · rintro ⟨c, j, hj, rfl⟩
    obtain ⟨hlt, hc⟩ := List.getElem?_eq_some_iff.mp hj
    exact ⟨j, hlt, by simp [List.getD_eq_getElem?_getD, hj]⟩
  · rintro ⟨j, hlt, rfl⟩
    refine ⟨lh.getD j 0, j, ?_, rfl⟩
    rw [List.getD_eq_getElem?_getD, List.getElem?_eq_getElem hlt]
    rfl

/-- The replay list depends on the log area only. -/
theorem redoList_congr {d d' : ℕ → Block} {start : ℕ} {lh : List UInt32}
    (h : ∀ j < lh.length, d (start + j + 1) = d' (start + j + 1)) :
    redoList d start lh = redoList d' start lh := by
  apply List.map_congr_left
  rintro ⟨c, j⟩ hmem
  have hj := (List.mk_mem_zipIdx_iff_getElem?.mp hmem)
  obtain ⟨hlt, -⟩ := List.getElem?_eq_some_iff.mp hj
  rw [h j hlt]

theorem getD_mem {lh : List UInt32} {j : ℕ} (h : j < lh.length) : lh.getD j 0 ∈ lh := by
  rw [List.getD_eq_getElem?_getD, List.getElem?_eq_getElem h]
  exact List.getElem_mem h

theorem getD_inj {lh : List UInt32} (hnd : lh.Nodup) {i j : ℕ} (hi : i < lh.length)
    (hj : j < lh.length) (h : lh.getD i 0 = lh.getD j 0) : i = j := by
  rw [List.getD_eq_getElem?_getD, List.getD_eq_getElem?_getD, List.getElem?_eq_getElem hi,
    List.getElem?_eq_getElem hj] at h
  exact (hnd.getElem_inj_iff).mp h

/-! ## Consequences of the invariant -/

namespace Inv

/-- `bread` of a block of the log area reads what the disk holds. -/
theorem bread_log (h : Inv d₀ s) {b : ℕ} (hb : ¬ s.Home b) : bread s b = s.disk b := by
  unfold bread
  cases hc : s.cache b with
  | none => rfl
  | some buf =>
    cases hd : buf.dirty with
    | false => exact h.clean b buf hc hd
    | true =>
      obtain ⟨c, hmem, rfl⟩ := h.dirty b buf hc hd
      exact absurd (h.home c (List.mem_of_mem_drop hmem)) hb

/-- The header block is in the log area. -/
theorem not_home_start (h : Inv d₀ s) : ¬ s.Home s.start := by
  have := h.size
  unfold State.Home
  omega

/-- So is every slot that the log uses. -/
theorem not_home_slot (h : Inv d₀ s) {j : ℕ} (hj : j < s.lh.length) :
    ¬ s.Home (s.start + j + 1) := by
  have := h.fits.1
  unfold State.Home
  omega

/-- A home block is neither the header nor a slot. -/
theorem home_ne (h : Inv d₀ s) {b : ℕ} (hb : s.Home b) :
    b ≠ s.start ∧ ∀ j < s.lh.length, b ≠ s.start + j + 1 := by
  refine ⟨?_, fun j hj => ?_⟩
  · rintro rfl
    exact h.not_home_start hb
  · rintro rfl
    exact h.not_home_slot hj hb

/-- While the log on disk is empty, the home blocks hold what the committed transactions left. -/
theorem disk_eq (h : Inv d₀ s) (hl : s.phase.Logging) {b : ℕ} (hb : s.Home b) :
    s.disk b = homeAfter d₀ s.trans b := by
  have := h.redo b hb
  rw [(h.logging hl).1] at this
  exact this

/-- What is left to install when `install_trans` is done: nothing. -/
theorem disk_eq_of_installed (h : Inv d₀ s) {t : ℕ} (ht : s.phase.Installing t)
    (hlen : s.lh.length ≤ t) {b : ℕ} (hb : s.Home b) : s.disk b = homeAfter d₀ s.trans b := by
  obtain ⟨hhead, -, hdone⟩ := h.installing t ht
  rw [← h.redo b hb, install_eq_of_forall]
  · rw [redoList_fst]
    exact toNat_nodup h.head.1
  · intro w hw
    obtain ⟨j, hj, rfl⟩ := mem_redoList.mp hw
    rw [hhead] at hj ⊢
    exact hdone j (by omega)

end Inv

/-! ## Every step keeps it -/

/-- What the clients of the log are trusted with: the blocks they log lie outside the log area, and
a transaction does not exceed the log. -/
def Assumed (s : State) : Event → Prop
  | .logWrite p _ => ∀ op calls b, s.pos p = .inLogWrite op calls b →
    s.Home b.toNat ∧ (absorb s.lh b).length ≤ s.size - 1 ∧ (absorb s.lh b).length ≤ LOGSIZE
  | _ => True

/-- A step whose `log_write` keeps to the assumptions. -/
def Step (s : State) (e : Event) (s' : State) : Prop := Assumed s e ∧ step s e = .ok s'

theorem inv_beginOp (h : Inv d₀ s) (hs : step s (.beginOp p) = .ok s') : Inv d₀ s' := by
  obtain ⟨-, -, -, -, rfl⟩ := step_beginOp hs
  exact ⟨h.size, h.clean, h.dirty, h.home, h.headHome, h.fits, h.head, h.redo, h.logging, h.slots,
    h.installing, h.booted⟩

theorem inv_logWriteCheck (h : Inv d₀ s) (hs : step s (.logWriteCheck p b) = .ok s') :
    Inv d₀ s' := by
  obtain ⟨-, -, -, -, -, -, rfl⟩ := step_logWriteCheck hs
  exact ⟨h.size, h.clean, h.dirty, h.home, h.headHome, h.fits, h.head, h.redo, h.logging, h.slots,
    h.installing, h.booted⟩

theorem inv_logWrite {data : Block} (hctl : Control s) (h : Inv d₀ s)
    (hok : Assumed s (.logWrite p data)) (hs : step s (.logWrite p data) = .ok s') :
    Inv d₀ s' := by
  obtain ⟨op, calls, b, hpos, rfl⟩ := step_logWrite hs
  obtain ⟨hhome, hfit, hfit'⟩ := hok op calls b hpos
  have hrun := hctl.running_of_active (p := p) (by rw [hpos]; trivial)
  have hlog : s.phase.Logging := by rw [hrun]; trivial
  obtain ⟨hnil, hpin⟩ := h.logging hlog
  -- the view changes at the block that is logged, and only there
  have hview : ∀ x, install (homeAfter d₀ s.trans)
      ((s.cur ++ [(⟨op, b, data⟩ : Write)]).map Write.entry) x =
        update (s.view d₀) b.toNat data x := by
    intro x
    rw [List.map_append, install_append]
    rfl
  refine ⟨h.size, ?_, ?_, ?_, h.headHome, ⟨hfit, hfit'⟩, h.head, h.redo, ?_, ?_, ?_, ?_⟩
  · intro x buf hx hd
    rcases update_cases hx with ⟨-, heq⟩ | ⟨-, hold⟩
    · cases heq
      cases hd
    · exact h.clean x buf hold hd
  · intro x buf hx hd
    have hph : s.phase.installed = 0 := by rw [hrun]; rfl
    dsimp only
    rw [hph, List.drop_zero]
    rcases update_cases hx with ⟨rfl, -⟩ | ⟨-, hold⟩
    · exact ⟨b, mem_absorb.mpr (.inl rfl), rfl⟩
    · obtain ⟨c, hc, rfl⟩ := h.dirty x buf hold hd
      exact ⟨c, mem_absorb.mpr (.inr (List.mem_of_mem_drop hc)), rfl⟩
  · intro c hc
    rcases mem_absorb.mp hc with rfl | hold
    · exact hhome
    · exact h.home c hold
  · refine fun _ => ⟨hnil, fun c hc => ?_⟩
    unfold State.view
    rw [hview]
    dsimp only
    by_cases hcb : c = b
    · rw [hcb, update_self, update_self]
    · have hne : c.toNat ≠ b.toNat := fun heq => hcb (UInt32.toNat_inj.mp heq)
      rw [update_of_ne hne, update_of_ne hne]
      exact hpin c ((mem_absorb.mp hc).resolve_left hcb)
  · intro t ht
    dsimp only at ht
    rw [hrun] at ht
    cases ht
  · intro t ht
    dsimp only at ht
    rw [hrun] at ht
    rcases ht with ht | ht <;> cases ht
  · intro ht
    dsimp only at ht
    rw [hrun] at ht
    cases ht

theorem inv_endOp (hctl : Control s) (h : Inv d₀ s) (hs : step s (.endOp p) = .ok s') :
    Inv d₀ s' := by
  obtain ⟨op, calls, hpos, -, hcase⟩ := step_endOp hs
  have hrun := hctl.running_of_active (p := p) (by rw [hpos]; trivial)
  have hlog := h.logging (by rw [hrun]; trivial)
  have hdirty := h.dirty
  rw [hrun] at hdirty
  obtain ⟨-, rfl⟩ | ⟨-, rfl⟩ := hcase
  · refine ⟨h.size, h.clean, ?_, h.home, h.headHome, h.fits, h.head, h.redo, fun _ => hlog, ?_, ?_,
      ?_⟩
    · dsimp only
      split
      · exact hdirty
      · exact hdirty
    · intro t ht
      dsimp only at ht
      split at ht
      · cases ht
        exact ⟨Nat.zero_le _, fun j hj => absurd hj (Nat.not_lt_zero j)⟩
      · cases ht
    · intro t ht
      dsimp only at ht
      split at ht <;> rcases ht with ht | ht <;> cases ht
    · intro ht
      dsimp only at ht
      split at ht <;> cases ht
  · exact ⟨h.size, h.clean, h.dirty, h.home, h.headHome, h.fits, h.head, h.redo, h.logging, h.slots,
      h.installing, h.booted⟩

/-- `s'` is `s` after a `bwrite` of `v` to block `a`. -/
structure Wrote (s s' : State) (a : ℕ) (v : Block) : Prop where
  /-- The block is on disk. -/
  disk : s'.disk = update s.disk a v
  /-- Its buffer is clean. -/
  cache : s'.cache = update s.cache a (some ⟨v, false⟩)
  /-- The log is where it was. -/
  start : s'.start = s.start
  /-- It is as large as it was. -/
  size : s'.size = s.size

namespace Wrote

variable {a : ℕ} {v : Block}

theorem home_iff (h : Wrote s s' a v) (b : ℕ) : s'.Home b ↔ s.Home b := by
  unfold State.Home
  rw [h.start, h.size]

theorem disk_ne (h : Wrote s s' a v) {b : ℕ} (hb : b ≠ a) : s'.disk b = s.disk b := by
  rw [h.disk, update_of_ne hb]

theorem disk_self (h : Wrote s s' a v) : s'.disk a = v := by
  rw [h.disk, update_self]

theorem cache_ne (h : Wrote s s' a v) {b : ℕ} (hb : b ≠ a) : s'.cache b = s.cache b := by
  rw [h.cache, update_of_ne hb]

/-- A `bwrite` keeps the clean buffers equal to the disk. -/
theorem clean (h : Wrote s s' a v)
    (hc : ∀ b buf, s.cache b = some buf → buf.dirty = false → buf.data = s.disk b) :
    ∀ b buf, s'.cache b = some buf → buf.dirty = false → buf.data = s'.disk b := by
  intro b buf hb hd
  rw [h.cache] at hb
  rcases update_cases hb with ⟨rfl, heq⟩ | ⟨hne, hold⟩
  · cases heq
    exact h.disk_self.symm
  · rw [h.disk_ne hne]
    exact hc b buf hold hd

/-- A buffer that is dirty after a `bwrite` was dirty before, and is another one. -/
theorem dirty (h : Wrote s s' a v) {b : ℕ} {buf : Buf} (hb : s'.cache b = some buf)
    (hd : buf.dirty = true) : b ≠ a ∧ s.cache b = some buf := by
  rw [h.cache] at hb
  rcases update_cases hb with ⟨-, heq⟩ | ⟨hne, hold⟩
  · cases heq
    cases hd
  · exact ⟨hne, hold⟩

/-- A `bwrite` to another block leaves the header on disk alone. -/
theorem getHead_eq (h : Wrote s s' a v) (ha : s.start ≠ a) :
    getHead (s'.disk s'.start) = getHead (s.disk s.start) := by
  rw [h.start, h.disk_ne ha]

end Wrote

theorem inv_writeLog (h : Inv d₀ s) (hs : step s .writeLog = .ok s') : Inv d₀ s' := by
  obtain ⟨t, hph, ht, hs'⟩ := step_writeLog hs
  have hw : Wrote s s' (s.start + t + 1) (bread s (s.lh.getD t 0).toNat) := by
    subst hs'
    exact ⟨rfl, rfl, rfl, rfl⟩
  have hlh : s'.lh = s.lh := by subst hs'; rfl
  have hph' : s'.phase = .writeLog (t + 1) := by subst hs'; rfl
  have hview : s'.view d₀ = s.view d₀ := by subst hs'; rfl
  have htrans : s'.trans = s.trans := by subst hs'; rfl
  obtain ⟨hnil, hpin⟩ := h.logging (by rw [hph]; trivial)
  obtain ⟨-, hslots⟩ := h.slots t hph
  have hhd := hw.getHead_eq (by omega)
  refine ⟨by rw [hw.size]; exact h.size, hw.clean h.clean, ?_, ?_, ?_, ?_, ?_, ?_, ?_, ?_, ?_, ?_⟩
  · intro x buf hx hd
    obtain ⟨-, hold⟩ := hw.dirty hx hd
    have := h.dirty x buf hold hd
    rw [hph] at this
    rw [hph', hlh]
    exact this
  · intro c hc
    rw [hw.home_iff]
    exact h.home c (hlh ▸ hc)
  · intro c hc
    rw [hw.home_iff]
    exact h.headHome c (hhd ▸ hc)
  · rw [hlh, hw.size]
    exact h.fits
  · rw [hhd, hw.size]
    exact h.head
  · -- the log on disk is still empty, and the home blocks are untouched
    intro x hx
    rw [hw.home_iff] at hx
    rw [hhd, hnil, htrans]
    change s'.disk x = _
    rw [hw.disk_ne ((h.home_ne hx).2 t ht)]
    exact h.disk_eq (by rw [hph]; trivial) hx
  · refine fun _ => ⟨hhd.trans hnil, fun c hc => ?_⟩
    rw [hlh] at hc
    rw [hw.cache_ne ((h.home_ne (h.home c hc)).2 t ht), hview]
    exact hpin c hc
  · intro t' ht'
    rw [hph'] at ht'
    cases ht'
    rw [hlh, hw.start, hview]
    refine ⟨ht, fun j hj => ?_⟩
    rcases Nat.lt_succ_iff_lt_or_eq.mp hj with hlt | rfl
    · rw [hw.disk_ne (by omega)]
      exact hslots j hlt
    · -- the block copied to the log is the one pinned in the cache
      rw [hw.disk_self]
      unfold bread
      rw [hpin _ (getD_mem ht)]
  · intro t' ht'
    rw [hph'] at ht'
    rcases ht' with ht' | ht' <;> cases ht'
  · intro hb
    rw [hph'] at hb
    cases hb

theorem inv_writeHead (hctl : Control s) (h : Inv d₀ s) (hs : step s .writeHead = .ok s') :
    Inv d₀ s' := by
  obtain ⟨t, hph, ht, hs'⟩ := step_writeHead hs
  have hw : Wrote s s' s.start (putHead (bread s s.start) s.lh) := by
    subst hs'
    exact ⟨rfl, rfl, rfl, rfl⟩
  have hlh : s'.lh = s.lh := by subst hs'; rfl
  have hph' : s'.phase = .installTrans 0 := by subst hs'; rfl
  have htrans : homeAfter d₀ s'.trans = s.view d₀ := by
    subst hs'
    simp [homeAfter, State.view]
  obtain ⟨hnil, hpin⟩ := h.logging (by rw [hph]; trivial)
  obtain ⟨-, hslots⟩ := h.slots t hph
  have hnd : s.lh.Nodup := hctl.nodup (by rw [hph]; exact fun h => h)
  have hhd : getHead (s'.disk s'.start) = s.lh := by
    have hfit := h.fits.2
    simp only [LOGSIZE, MAXOPBLOCKS] at hfit
    rw [hw.start, hw.disk_self]
    exact getHead_putHead _ _ (by simp only [NINDIRECT, BSIZE]; omega)
  refine ⟨by rw [hw.size]; exact h.size, hw.clean h.clean, ?_, ?_, ?_, ?_, ?_, ?_, ?_, ?_, ?_, ?_⟩
  · intro x buf hx hd
    obtain ⟨-, hold⟩ := hw.dirty hx hd
    have := h.dirty x buf hold hd
    rw [hph] at this
    rw [hph', hlh]
    exact this
  · intro c hc
    rw [hw.home_iff]
    exact h.home c (hlh ▸ hc)
  · intro c hc
    rw [hw.home_iff]
    exact h.home c (hhd ▸ hc)
  · rw [hlh, hw.size]
    exact h.fits
  · rw [hhd, hw.size]
    exact ⟨hnd, h.fits⟩
  · -- the log now holds the transaction: block by block, the replay gives the processes' view
    intro x hx
    rw [hw.home_iff] at hx
    rw [hhd, htrans, hw.start]
    by_cases hmem : x ∈ s.lh.map UInt32.toNat
    · obtain ⟨c, hc, rfl⟩ := List.mem_map.mp hmem
      obtain ⟨j, hj, rfl⟩ := List.mem_iff_getElem.mp hc
      apply install_of_mem
      · rw [redoList_fst]
        exact toNat_nodup hnd
      · refine mem_redoList.mpr ⟨j, hj, ?_⟩
        have hgd : s.lh.getD j 0 = s.lh[j] := by
          rw [List.getD_eq_getElem?_getD, List.getElem?_eq_getElem hj]
          rfl
        rw [hw.disk_ne (by omega), hslots j (by omega), hgd]
    · rw [install_of_notMem (by rw [redoList_fst]; exact hmem),
        hw.disk_ne (h.home_ne hx).1, h.disk_eq (by rw [hph]; trivial) hx]
      unfold State.view
      rw [install_of_notMem]
      intro hcur
      apply hmem
      rw [List.map_map] at hcur
      obtain ⟨w, hwc, rfl⟩ := List.mem_map.mp hcur
      refine List.mem_map.mpr ⟨w.block, ?_, rfl⟩
      rw [← List.mem_toFinset, hctl.same (.inr ⟨t, hph⟩), State.logged, List.mem_toFinset]
      exact List.mem_map_of_mem hwc
  · intro hl
    rw [hph'] at hl
    exact hl.elim
  · intro t' ht'
    rw [hph'] at ht'
    cases ht'
  · intro t' ht'
    rw [hph'] at ht'
    rcases ht' with ht' | ht'
    · cases ht'
      exact ⟨hhd.trans hlh.symm, Nat.zero_le _, fun j hj => absurd hj (Nat.not_lt_zero j)⟩
    · cases ht'
  · intro hb
    rw [hph'] at hb
    cases hb

/-- One iteration of `install_trans`, of `commit` or of `recover_from_log`. -/
theorem inv_install {t : ℕ} (h : Inv d₀ s) (hph : s.phase.Installing t) (ht : t < s.lh.length)
    (hw : Wrote s s' (s.lh.getD t 0).toNat (bread s (s.start + t + 1))) (hlh : s'.lh = s.lh)
    (htrans : s'.trans = s.trans) (hph' : s'.phase.Installing (t + 1)) : Inv d₀ s' := by
  obtain ⟨hhead, -, hdone⟩ := h.installing t hph
  have hnd : s.lh.Nodup := hhead ▸ h.head.1
  have hhome := h.home _ (getD_mem ht)
  obtain ⟨hne, hslot⟩ := h.home_ne hhome
  have hhd := hw.getHead_eq hne.symm
  have hinst : s.phase.installed = t := by
    rcases hph with hph | hph <;> rw [hph] <;> rfl
  have hinst' : s'.phase.installed = t + 1 := by
    rcases hph' with hph' | hph' <;> rw [hph'] <;> rfl
  -- the slots of the log are untouched, so the replay is the same list of writes
  have hlist : redoList s'.disk s.start s.lh = redoList s.disk s.start s.lh :=
    redoList_congr fun j hj => hw.disk_ne (hslot j hj).symm
  refine ⟨by rw [hw.size]; exact h.size, hw.clean h.clean, ?_, ?_, ?_, ?_, ?_, ?_, ?_, ?_, ?_, ?_⟩
  · intro x buf hx hd
    obtain ⟨hxne, hold⟩ := hw.dirty hx hd
    obtain ⟨c, hc, rfl⟩ := h.dirty x buf hold hd
    rw [hinst, List.drop_eq_getElem_cons ht] at hc
    rw [hinst', hlh]
    rcases List.mem_cons.mp hc with rfl | hc'
    · refine absurd ?_ hxne
      rw [List.getD_eq_getElem?_getD, List.getElem?_eq_getElem ht]
      rfl
    · exact ⟨c, hc', rfl⟩
  · intro c hc
    rw [hw.home_iff]
    exact h.home c (hlh ▸ hc)
  · intro c hc
    rw [hw.home_iff]
    exact h.headHome c (hhd ▸ hc)
  · rw [hlh, hw.size]
    exact h.fits
  · rw [hhd, hw.size]
    exact h.head
  · intro x hx
    rw [hw.home_iff] at hx
    rw [hhd, htrans, ← h.redo x hx, hhead, hw.start, hlist]
    apply install_congr
    intro hnot
    apply hw.disk_ne
    rintro rfl
    apply hnot
    rw [redoList_fst]
    exact List.mem_map_of_mem (getD_mem ht)
  · intro hl
    rcases hph' with hph' | hph' <;> rw [hph'] at hl <;> exact hl.elim
  · intro t' ht'
    rcases hph' with hph' | hph' <;> rw [hph'] at ht' <;> cases ht'
  · intro t' ht'
    have htt : t' = t + 1 := by
      have : s'.phase.installed = t' := by
        rcases ht' with ht' | ht' <;> rw [ht'] <;> rfl
      omega
    subst htt
    rw [hlh, hw.start]
    refine ⟨by rw [← hhead, ← hhd, hw.start], ht, fun j hj => ?_⟩
    rcases Nat.lt_succ_iff_lt_or_eq.mp hj with hlt | rfl
    · -- an earlier block: it is another one, as the log lists a block once
      rw [hw.disk_ne, hw.disk_ne (hslot j (by omega)).symm]
      · exact hdone j hlt
      · intro heq
        have := getD_inj hnd (by omega) ht (UInt32.toNat_inj.mp heq)
        omega
    · rw [hw.disk_self, hw.disk_ne (hslot j ht).symm, h.bread_log (h.not_home_slot ht)]
  · intro hb
    rcases hph' with hph' | hph' <;> rw [hph'] at hb <;> cases hb

/-- The `write_head` that empties the log, of `commit` or of `recover_from_log`. -/
theorem inv_erase {t : ℕ} {v : Block} (h : Inv d₀ s) (hph : s.phase.Installing t)
    (ht : s.lh.length ≤ t) (hw : Wrote s s' s.start (putHead v [])) (hlh : s'.lh = [])
    (htrans : s'.trans = s.trans) (hph' : s'.phase = .committed ∨ s'.phase = .running) :
    Inv d₀ s' := by
  have hinst : s.phase.installed = t := by
    rcases hph with hph | hph <;> rw [hph] <;> rfl
  have hnil : getHead (s'.disk s'.start) = [] := by
    rw [hw.start, hw.disk_self]
    exact getHead_putHead _ _ (by decide)
  refine ⟨by rw [hw.size]; exact h.size, hw.clean h.clean, ?_, ?_, ?_, ?_, ?_, ?_, ?_, ?_, ?_, ?_⟩
  · intro x buf hx hd
    obtain ⟨-, hold⟩ := hw.dirty hx hd
    obtain ⟨c, hc, -⟩ := h.dirty x buf hold hd
    rw [hinst, List.drop_eq_nil_of_le ht] at hc
    cases hc
  · rw [hlh]
    nofun
  · rw [hnil]
    nofun
  · rw [hlh]
    exact ⟨Nat.zero_le _, Nat.zero_le _⟩
  · rw [hnil]
    exact ⟨List.nodup_nil, Nat.zero_le _, Nat.zero_le _⟩
  · intro x hx
    rw [hw.home_iff] at hx
    rw [hnil, htrans]
    change s'.disk x = _
    rw [hw.disk_ne (h.home_ne hx).1]
    exact h.disk_eq_of_installed hph ht hx
  · rw [hlh]
    exact fun _ => ⟨hnil, by nofun⟩
  · intro t' ht'
    rcases hph' with hph' | hph' <;> rw [hph'] at ht' <;> cases ht'
  · intro t' ht'
    rcases hph' with hph' | hph' <;> rw [hph'] at ht' <;> rcases ht' with ht' | ht' <;> cases ht'
  · exact fun _ => hlh

theorem inv_load {n : ℕ} (h : Inv d₀ s) (hs : step s (.load n) = .ok s') : Inv d₀ s' := by
  obtain ⟨hc, rfl⟩ := step_load hs
  refine ⟨h.size, ?_, ?_, h.home, h.headHome, h.fits, h.head, h.redo, ?_, h.slots, h.installing,
    h.booted⟩
  · intro x buf hx hd
    rcases update_cases hx with ⟨rfl, heq⟩ | ⟨-, hold⟩
    · cases heq
      rfl
    · exact h.clean x buf hold hd
  · intro x buf hx hd
    rcases update_cases hx with ⟨-, heq⟩ | ⟨-, hold⟩
    · cases heq
      cases hd
    · exact h.dirty x buf hold hd
  · refine fun hl => ⟨(h.logging hl).1, fun c hcm => ?_⟩
    have hpin := (h.logging hl).2 c hcm
    refine (update_of_ne ?_ _ _).trans hpin
    rintro rfl
    rw [hc] at hpin
    cases hpin

theorem inv_evict {n : ℕ} (h : Inv d₀ s) (hs : step s (.evict n) = .ok s') : Inv d₀ s' := by
  obtain ⟨⟨data, hc⟩, rfl⟩ := step_evict hs
  refine ⟨h.size, ?_, ?_, h.home, h.headHome, h.fits, h.head, h.redo, ?_, h.slots, h.installing,
    h.booted⟩
  · intro x buf hx hd
    rcases update_cases hx with ⟨-, heq⟩ | ⟨-, hold⟩
    · cases heq
    · exact h.clean x buf hold hd
  · intro x buf hx hd
    rcases update_cases hx with ⟨-, heq⟩ | ⟨-, hold⟩
    · cases heq
    · exact h.dirty x buf hold hd
  · -- a buffer of the current transaction is dirty, so it is not the one recycled
    refine fun hl => ⟨(h.logging hl).1, fun c hcm => ?_⟩
    have hpin := (h.logging hl).2 c hcm
    refine (update_of_ne ?_ _ _).trans hpin
    rintro rfl
    rw [hc] at hpin
    cases hpin

theorem inv_crash (h : Inv d₀ s) : Inv d₀ (crash s) := by
  refine ⟨h.size, by nofun, by nofun, by nofun, h.headHome, ⟨Nat.zero_le _, Nat.zero_le _⟩, h.head,
    h.redo, fun hl => hl.elim, by nofun, ?_, fun _ => rfl⟩
  intro t ht
  rcases ht with ht | ht <;> cases ht

theorem inv_recoverHead (h : Inv d₀ s) (hs : step s .recoverHead = .ok s') : Inv d₀ s' := by
  obtain ⟨hph, rfl⟩ := step_recoverHead hs
  have hlh := h.booted hph
  have hread : bread s s.start = s.disk s.start := h.bread_log h.not_home_start
  have hhd : (readHead s).lh = getHead (s.disk s.start) := by
    unfold readHead
    rw [hread]
  refine ⟨h.size, h.clean, ?_, ?_, h.headHome, ?_, h.head, h.redo, fun hl => hl.elim, by nofun, ?_,
    by nofun⟩
  · intro x buf hx hd
    obtain ⟨c, hc, -⟩ := h.dirty x buf hx hd
    rw [hlh, List.drop_nil] at hc
    cases hc
  · intro c hc
    exact h.headHome c (hhd ▸ hc)
  · dsimp only
    rw [hhd]
    exact h.head.2
  · intro t ht
    rcases ht with ht | ht
    · cases ht
    · cases ht
      exact ⟨hhd.symm, Nat.zero_le _, fun j hj => absurd hj (Nat.not_lt_zero j)⟩

/-- Every step keeps `Inv`. -/
theorem inv_step {e : Event} (hctl : Control s) (h : Inv d₀ s) (hs : Step s e s') :
    Inv d₀ s' := by
  obtain ⟨hok, hs⟩ := hs
  cases e with
  | beginOp p => exact inv_beginOp h hs
  | logWriteCheck p b => exact inv_logWriteCheck h hs
  | logWrite p data => exact inv_logWrite hctl h hok hs
  | endOp p => exact inv_endOp hctl h hs
  | writeLog => exact inv_writeLog h hs
  | writeHead => exact inv_writeHead hctl h hs
  | installTrans =>
    obtain ⟨t, hph, ht, rfl⟩ := step_installTrans hs
    exact inv_install h (.inl hph) ht ⟨rfl, rfl, rfl, rfl⟩ rfl rfl (.inl rfl)
  | eraseHead =>
    obtain ⟨t, hph, ht, rfl⟩ := step_eraseHead hs
    exact inv_erase h (.inl hph) ht ⟨rfl, rfl, rfl, rfl⟩ rfl rfl (.inl rfl)
  | finish p =>
    obtain ⟨hph, -, rfl⟩ := step_finish hs
    have hlh := hctl.empty hph
    have hlog := h.logging (by rw [hph]; trivial)
    have hdirty := h.dirty
    rw [hph] at hdirty
    refine ⟨h.size, h.clean, hdirty, h.home, h.headHome, h.fits, h.head, h.redo, fun _ => hlog,
      by nofun, ?_, by nofun⟩
    intro t ht
    rcases ht with ht | ht <;> cases ht
  | load b => exact inv_load h hs
  | evict b => exact inv_evict h hs
  | crash =>
    obtain rfl := step_crash hs
    exact inv_crash h
  | recoverHead => exact inv_recoverHead h hs
  | recoverInstall =>
    obtain ⟨t, hph, ht, rfl⟩ := step_recoverInstall hs
    exact inv_install h (.inr hph) ht ⟨rfl, rfl, rfl, rfl⟩ rfl rfl (.inr rfl)
  | recoverErase =>
    obtain ⟨t, hph, ht, rfl⟩ := step_recoverErase hs
    exact inv_erase h (.inr hph) ht ⟨rfl, rfl, rfl, rfl⟩ rfl rfl (.inr rfl)

/-- A disk whose log is empty is a disk before any transaction. -/
theorem inv_boot {start size : ℕ} (hsize : 0 < size) (hclean : getHead (d₀ start) = []) :
    Inv d₀ (boot d₀ start size) := by
  have hhd : getHead ((boot d₀ start size).disk (boot d₀ start size).start) = [] := hclean
  refine ⟨hsize, by nofun, by nofun, by nofun, ?_, ⟨Nat.zero_le _, Nat.zero_le _⟩, ?_, ?_,
    fun hl => hl.elim, by nofun, ?_, fun _ => rfl⟩
  · rw [hhd]
    nofun
  · rw [hhd]
    exact ⟨List.nodup_nil, Nat.zero_le _, Nat.zero_le _⟩
  · intro b _
    rw [hhd]
    rfl
  · intro t ht
    rcases ht with ht | ht <;> cases ht

end ChronoFS.Log
