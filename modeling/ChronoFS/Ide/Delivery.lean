import Mathlib.Data.Fintype.EquivFin
import ChronoFS.Ide.Model

/-!
# The disk driver delivers

Requests are started and completed in the order in which they are made, each exactly once
(`Inv.requested`, `Inv.started`): the queue has the requests that are not completed, and the command
that the device is at is the one of its first buffer. So the data of a read that ends without an
error is the block of its buffer (`Inv.read`).

A read that ends with an error is not told apart: `ideintr` sets `B_VALID` all the same
(`disk_read_error`).
-/

namespace ChronoFS.Ide

open Function
open Bio (BufNo Buf)

variable {U : Type}

namespace Event

/-- The buffer of a request. -/
def request : Event U → Option BufNo
  | .iderw _ b => some b
  | _ => none

/-- The buffer of a request that is completed. -/
def completion : Event U → Option BufNo
  | .intr b _ => b
  | _ => none

/-- The interrupt at the end of a read that has failed. -/
def Fails (e : Event U) : Prop := ∃ b, e = .intr b true

/-- The buffer is taken for a block. -/
def Takes (b : BufNo) : Event U → Prop
  | .bget c _ _ => c = b
  | _ => False

end Event

/-- The requests that have been made, in order. -/
def requested (es : List (Event U)) : List BufNo := es.filterMap Event.request

/-- The requests that have been completed, in order. -/
def completed (es : List (Event U)) : List BufNo := es.filterMap Event.completion

section Histories

variable {es : List (Event U)} {e : Event U} {b : BufNo}

theorem requested_quiet (h : e.request = none) : requested (es ++ [e]) = requested es := by
  unfold requested
  rw [List.filterMap_append, List.filterMap_cons_none h, List.filterMap_nil, List.append_nil]

theorem requested_snoc (h : e.request = some b) : requested (es ++ [e]) = requested es ++ [b] := by
  unfold requested
  rw [List.filterMap_append, List.filterMap_cons_some h, List.filterMap_nil]

theorem completed_quiet (h : e.completion = none) : completed (es ++ [e]) = completed es := by
  unfold completed
  rw [List.filterMap_append, List.filterMap_cons_none h, List.filterMap_nil, List.append_nil]

theorem completed_snoc (h : e.completion = some b) : completed (es ++ [e]) = completed es ++ [b] := by
  unfold completed
  rw [List.filterMap_append, List.filterMap_cons_some h, List.filterMap_nil]

end Histories

/-! ## The queue -/

/-- What holds after the events `es`, with `q` in the queue. -/
structure Inv (es : List (Event U)) (s : State U) (q : List BufNo) : Prop where
  /-- The links. -/
  chain : Chain s.qnext s.idequeue q
  /-- A buffer is in the queue once. -/
  nodup : q.Nodup
  /-- A client sleeps for each request. -/
  waits : ∀ b ∈ q, ∃ u, s.sleeping u = some b
  /-- A client that sleeps has the sleep lock. -/
  locked : ∀ u b, s.sleeping u = some b → (s.buf b).lock = some u
  /-- A request of the queue is not done. -/
  undone : ∀ b ∈ q, ¬ ((s.buf b).valid = true ∧ (s.buf b).dirty = false)
  /-- The device is at the command of the first request. -/
  active : s.active = q.head?.map s.command
  /-- It has a block of the disk. -/
  small : ∀ b ∈ q.head?, (s.buf b).blockno < FSSIZE
  /-- The requests that are not completed are in the queue. -/
  requested : requested es = completed es ++ q
  /-- The first one of the queue is started. -/
  started : s.started = completed es ++ q.take 1

namespace Inv

variable {es : List (Event U)} {e : Event U} {s : State U} {q : List BufNo} {u : U} {b : BufNo}

theorem init (havedisk1 : Bool) (disk : UInt32 → ℕ → Block) :
    Inv (U := U) [] (State.init havedisk1 disk) [] where
  chain := rfl
  nodup := List.nodup_nil
  waits _ hb := nomatch hb
  locked _ _ h := nomatch h
  undone _ hb := nomatch hb
  active := rfl
  small _ hb := nomatch hb
  requested := rfl
  started := rfl

/-- The sleep lock of a buffer that a client sleeps on is the client's. -/
theorem not_mem (h : Inv es s q) (hb : ∀ u, s.sleeping u ≠ some b) : b ∉ q := by
  intro hmem
  obtain ⟨u, hu⟩ := h.waits b hmem
  exact hb u hu

/-- Nobody sleeps on a buffer whose lock is free. -/
theorem not_sleeping_of_free (h : Inv es s q) (hlock : (s.buf b).lock = none) :
    ∀ u, s.sleeping u ≠ some b := by
  intro u hu
  have := h.locked u b hu
  rw [hlock] at this
  exact nomatch this

/-- Nobody sleeps on a buffer whose holder is awake. -/
theorem not_sleeping_of_awake (h : Inv es s q) (hlock : (s.buf b).lock = some u)
    (hawake : s.sleeping u = none) : ∀ u, s.sleeping u ≠ some b := by
  intro u' hu'
  have := h.locked u' b hu'
  rw [hlock] at this
  rw [← Option.some.inj this, hawake] at hu'
  exact nomatch hu'

/-- A change of a buffer that is not in the queue. -/
theorem setBuf (h : Inv es s q) (hb : ∀ u, s.sleeping u ≠ some b) (f : Buf U)
    (hreq : e.request = none) (hcomp : e.completion = none) :
    Inv (es ++ [e]) (s.setBuf b f) q := by
  have hq := h.not_mem hb
  have hsame : ∀ c ∈ q, (s.setBuf b f).buf c = s.buf c := by
    intro c hc
    exact update_of_ne (fun heq => hq (by rwa [← heq])) ..
  have hhead : ∀ c ∈ q.head?, c ∈ q := fun c hc => List.mem_of_mem_head? hc
  refine ⟨h.chain, h.nodup, h.waits, ?_, ?_, ?_, ?_, ?_, ?_⟩
  · intro u c hu
    have hne : c ≠ b := by
      rintro rfl
      exact hb u hu
    show (update s.buf b f c).lock = some u
    rw [update_of_ne hne]
    exact h.locked u c hu
  · intro c hc
    rw [hsame c hc]
    exact h.undone c hc
  · refine h.active.trans ?_
    cases hh : q.head? with
    | none => rfl
    | some c =>
      show some (s.command c) = some ((s.setBuf b f).command c)
      unfold State.command
      rw [hsame c (hhead c hh)]
  · intro c hc
    rw [hsame c (hhead c hc)]
    exact h.small c hc
  · rw [requested_quiet hreq, completed_quiet hcomp]
    exact h.requested
  · rw [completed_quiet hcomp]
    exact h.started

/-- The links after a request, for a buffer that is not in the queue. -/
theorem chain_append (h : Inv es s q) (hb : b ∉ q) :
    Chain (s.append b).qnext (s.append b).idequeue (q ++ [b]) := by
  have hclear : Chain (update s.qnext b none) s.idequeue q := by
    refine h.chain.congr fun c hc => update_of_ne ?_ ..
    rintro rfl
    exact hb hc
  have hnext : update s.qnext b none b = none := update_self ..
  cases hqueue : s.idequeue with
  | none =>
    rw [hqueue] at hclear
    obtain rfl : q = [] := List.head?_eq_none_iff.mp hclear.head_eq
    rw [State.append_empty hqueue]
    exact ⟨rfl, hnext⟩
  | some a =>
    rw [hqueue] at hclear
    have hlen : q.length ≤ NBUF + 1 := by
      have := h.nodup.length_le_card
      rw [Fintype.card_fin] at this
      omega
    obtain ⟨l, hl, -⟩ := hclear.walk_eq hlen
    rw [State.append_queue hqueue]
    show Chain _ s.idequeue (q ++ [b])
    rw [hqueue]
    have hnodup := h.nodup
    rw [hl] at hclear hnodup hb
    rw [congrArg (· ++ [b]) hl]
    exact hclear.snoc hnodup hb hnext

/-- The first request of the queue after a new one. -/
theorem idequeue_append (h : Inv es s q) (hb : b ∉ q) :
    (s.append b).idequeue = some b ↔ q = [] := by
  rw [← (h.chain_append hb).head_eq]
  cases q with
  | nil => exact ⟨fun _ => rfl, fun _ => rfl⟩
  | cons a q =>
    constructor
    · intro heq
      exact absurd (Option.some.inj heq) fun hab => hb (by rw [hab]; exact List.mem_cons_self)
    · intro heq
      exact nomatch heq

/-- The data of a read is the block of its buffer. -/
theorem read (h : Inv es s (b :: q)) (hdirty : (s.buf b).dirty = false) :
    s.transferred = s.content b := by
  have hactive := h.active
  have hsmall := h.small b rfl
  rw [List.head?_cons, Option.map_some] at hactive
  unfold State.command at hactive
  rw [hdirty, if_neg Bool.false_ne_true] at hactive
  unfold State.transferred State.content
  rw [hactive, sector_eq hsmall]

/-- The first request is completed. -/
theorem completion (h : Inv es s (b :: q)) {err : Bool} {f : Buf U} {t : State U}
    (hlock : f.lock = (s.buf b).lock) (hbuf : t.buf = update s.buf b f)
    (hqnext : t.qnext = s.qnext) (hqueue : t.idequeue = s.qnext b)
    (hsleep : t.sleeping = s.sleeping) (hactive : t.active = q.head?.map t.command)
    (hsmall : ∀ c ∈ q.head?, (t.buf c).blockno < FSSIZE)
    (hstarted : t.started = s.started ++ q.take 1) :
    Inv (es ++ [.intr (some b) err]) t q := by
  have hmem : ∀ c ∈ q, c ≠ b := by
    rintro c hc rfl
    exact (List.nodup_cons.mp h.nodup).1 hc
  refine ⟨?_, (List.nodup_cons.mp h.nodup).2, ?_, ?_, ?_, hactive, hsmall, ?_, ?_⟩
  · rw [hqnext, hqueue]
    exact h.chain.2
  · intro c hc
    rw [hsleep]
    exact h.waits c (List.mem_cons_of_mem _ hc)
  · intro u c hu
    rw [hsleep] at hu
    rw [hbuf]
    by_cases hcb : c = b
    · obtain rfl := hcb
      rw [update_self, hlock]
      exact h.locked u c hu
    · rw [update_of_ne hcb]
      exact h.locked u c hu
  · intro c hc
    rw [hbuf, update_of_ne (hmem c hc)]
    exact h.undone c (List.mem_cons_of_mem _ hc)
  · rw [requested_quiet rfl, completed_snoc rfl, h.requested, List.append_assoc]
    rfl
  · rw [completed_snoc rfl, hstarted, h.started]
    rfl

/-- `ideintr`, unless it panics. -/
theorem ideintr (h : Inv es s q) {err : Bool} (hhalted : (s.ideintr err).halted = none) :
    ∃ q', Inv (es ++ [.intr s.idequeue err]) (s.ideintr err) q' := by
  have hchain := h.chain
  cases q with
  | nil =>
    -- no request is active, and the interrupt is for nothing
    have hqueue : s.idequeue = none := hchain
    have hactive : s.active = none := h.active
    refine ⟨[], ?_⟩
    have hstay : s.ideintr err = s := by
      rw [State.ideintr_none hqueue]
      unfold State.finish
      split
      · rename_i hwrite
        rw [hactive] at hwrite
        exact nomatch hwrite
      · rw [← hactive]
    rw [hstay, hqueue]
    refine ⟨h.chain, h.nodup, h.waits, h.locked, h.undone, h.active, h.small, ?_, ?_⟩
    · rw [requested_quiet rfl, completed_quiet rfl]
      exact h.requested
    · rw [completed_quiet rfl]
      exact h.started
  | cons b q =>
    have hqueue : s.idequeue = some b := hchain.1
    have hfinish : s.finish.buf = s.buf ∧ s.finish.qnext = s.qnext ∧
        s.finish.sleeping = s.sleeping ∧ s.finish.started = s.started ∧ s.finish.active = none := by
      unfold State.finish
      split <;> exact ⟨rfl, rfl, rfl, rfl, rfl⟩
    obtain ⟨hbuf, hqnext, hsleep, hstarted, hidle⟩ := hfinish
    have hbuf' : update s.finish.buf b (s.completed b err) =
        update s.buf b (s.completed b err) := by rw [hbuf]
    refine ⟨q, ?_⟩
    rw [hqueue]
    cases hnext : s.qnext b with
    | none =>
      have hq : q = [] := by
        have := hchain.2.head_eq
        rw [hnext] at this
        exact List.head?_eq_none_iff.mp this
      subst hq
      rw [State.ideintr_last hqueue hnext]
      refine h.completion (f := s.completed b err) rfl hbuf' hqnext hnext.symm hsleep hidle (fun c hc => nomatch hc) ?_
      rw [List.take_nil, List.append_nil]
      exact hstarted
    | some c =>
      -- the device gets the command of the next request
      rw [State.ideintr_next hqueue hnext] at hhalted ⊢
      have hhead : q.head? = some c := hchain.2.head_eq.trans hnext
      obtain ⟨q', rfl⟩ : ∃ q', q = c :: q' := by
        cases q with
        | nil => exact nomatch hhead
        | cons a q => exact ⟨q, by rw [← Option.some.inj hhead]⟩
      unfold State.idestart at hhalted ⊢
      split at hhalted
      · exact nomatch hhalted
      · rename_i hsmall
        rw [if_neg hsmall]
        refine h.completion (f := s.completed b err) rfl hbuf' hqnext hnext.symm hsleep rfl ?_ ?_
        · intro d hd
          obtain rfl := Option.some.inj hd
          exact not_le.mp hsmall
        · show s.finish.started ++ [c] = _
          rw [hstarted]
          rfl

variable [DecidableEq U]

/-- A request, up to `idestart`. -/
theorem request (h : Inv es s q) (hawake : s.sleeping u = none)
    (hlock : (s.buf b).lock = some u)
    (hflags : ¬ ((s.buf b).valid = true ∧ (s.buf b).dirty = false)) (hb : b ∉ q) {t : State U}
    (hbuf : t.buf = s.buf) (hqnext : t.qnext = (s.append b).qnext)
    (hqueue : t.idequeue = (s.append b).idequeue)
    (hsleep : t.sleeping = update s.sleeping u (some b))
    (hactive : t.active = (q ++ [b]).head?.map s.command)
    (hsmall : ∀ c ∈ (q ++ [b]).head?, (s.buf c).blockno < FSSIZE)
    (hstarted : t.started = Ide.completed es ++ (q ++ [b]).take 1) :
    Inv (es ++ [.iderw u b]) t (q ++ [b]) := by
  have hcommand : t.command = s.command := by
    unfold State.command
    rw [hbuf]
  refine ⟨?_, ?_, ?_, ?_, ?_, ?_, ?_, ?_, ?_⟩
  · rw [hqnext, hqueue]
    exact h.chain_append hb
  · exact List.nodup_append.mpr ⟨h.nodup, List.nodup_singleton b, by
      rintro c hc d hd rfl
      exact hb (by rwa [← List.mem_singleton.mp hd])⟩
  · intro c hc
    rw [hsleep]
    rcases List.mem_append.mp hc with hc | hc
    · obtain ⟨u', hu'⟩ := h.waits c hc
      have hne : u' ≠ u := by
        rintro rfl
        rw [hawake] at hu'
        exact nomatch hu'
      exact ⟨u', (update_of_ne hne ..).trans hu'⟩
    · rw [List.mem_singleton.mp hc]
      exact ⟨u, update_self ..⟩
  · intro u' c hu'
    rw [hsleep] at hu'
    rw [hbuf]
    by_cases hne : u' = u
    · obtain rfl := hne
      rw [update_self] at hu'
      rw [← Option.some.inj hu']
      exact hlock
    · rw [update_of_ne hne] at hu'
      exact h.locked u' c hu'
  · intro c hc
    rw [hbuf]
    rcases List.mem_append.mp hc with hc | hc
    · exact h.undone c hc
    · rw [List.mem_singleton.mp hc]
      exact hflags
  · rw [hactive, hcommand]
  · rw [hbuf]
    exact hsmall
  · rw [requested_snoc rfl, completed_quiet rfl, h.requested, List.append_assoc]
  · rw [completed_quiet rfl]
    exact hstarted

/-- `iderw`, unless it panics. -/
theorem iderw (h : Inv es s q) (hawake : s.sleeping u = none) (hlock : (s.buf b).lock = some u)
    (hhalted : (s.iderw u b).halted = none) : ∃ q', Inv (es ++ [.iderw u b]) (s.iderw u b) q' := by
  have hb := h.not_mem (h.not_sleeping_of_awake hlock hawake)
  unfold State.iderw at hhalted ⊢
  rw [if_neg (not_not_intro hlock)] at hhalted ⊢
  by_cases hflags : (s.buf b).valid = true ∧ (!(s.buf b).dirty) = true
  · rw [if_pos hflags] at hhalted
    exact nomatch hhalted
  rw [if_neg hflags] at hhalted ⊢
  by_cases hdev : (s.buf b).dev ≠ 0 ∧ (!s.havedisk1) = true
  · rw [if_pos hdev] at hhalted
    exact nomatch hhalted
  rw [if_neg hdev] at hhalted ⊢
  rw [Bool.not_eq_true'] at hflags
  have hfields : (s.append b).buf = s.buf ∧ (s.append b).sleeping = s.sleeping ∧
      (s.append b).active = s.active ∧ (s.append b).started = s.started := by
    unfold State.append
    cases s.idequeue <;> exact ⟨rfl, rfl, rfl, rfl⟩
  obtain ⟨hbuf, hsleep, hactive, hstarted⟩ := hfields
  refine ⟨q ++ [b], ?_⟩
  by_cases hq : q = []
  · -- the queue was empty: the device gets the command
    have hfirst := (h.idequeue_append hb).mpr hq
    simp only [if_pos hfirst] at hhalted ⊢
    unfold State.idestart at hhalted ⊢
    by_cases hsmall : FSSIZE ≤ ((s.append b).buf b).blockno
    · rw [if_pos hsmall] at hhalted
      exact nomatch hhalted
    rw [if_neg hsmall]
    rw [hbuf] at hsmall
    have hcommand : (s.append b).command = s.command := by
      unfold State.command
      rw [hbuf]
    refine h.request hawake hlock hflags hb hbuf rfl rfl ?_ ?_ ?_ ?_
    · show update (s.append b).sleeping u (some b) = _
      rw [hsleep]
    · show some ((s.append b).command b) = _
      rw [hq, hcommand]
      rfl
    · rw [hq]
      rintro c hc
      obtain rfl := Option.some.inj hc
      omega
    · show (s.append b).started ++ [b] = _
      rw [hstarted, h.started, hq, List.take_nil, List.append_nil]
      rfl
  · have hfirst := fun heq => hq ((h.idequeue_append hb).mp heq)
    simp only [if_neg hfirst]
    have hhead : (q ++ [b]).head? = q.head? := by
      cases q with
      | nil => exact absurd rfl hq
      | cons a q => rfl
    refine h.request hawake hlock hflags hb hbuf rfl rfl ?_ ?_ ?_ ?_
    · show update (s.append b).sleeping u (some b) = _
      rw [hsleep]
    · rw [hhead]
      exact hactive.trans h.active
    · rw [hhead]
      exact h.small
    · show (s.append b).started = _
      rw [hstarted, h.started]
      cases q with
      | nil => exact absurd rfl hq
      | cons a q => rfl

/-- Every step keeps the queue. -/
theorem step (h : Inv es s q) {t : State U} (hstep : Step s e t) (hhalted : t.halted = none) :
    ∃ q', Inv (es ++ [e]) t q' := by
  cases hstep with
  | bget dev blockno _ hlock _ =>
    exact ⟨q, h.setBuf (h.not_sleeping_of_free hlock) _ rfl rfl⟩
  | acquire _ _ hlock => exact ⟨q, h.setBuf (h.not_sleeping_of_free hlock) _ rfl rfl⟩
  | modify data dirty _ hawake hlock =>
    exact ⟨q, h.setBuf (h.not_sleeping_of_awake hlock hawake) _ rfl rfl⟩
  | release _ hawake hlock =>
    exact ⟨q, h.setBuf (h.not_sleeping_of_awake hlock hawake) _ rfl rfl⟩
  | iderw _ hawake hlock => exact h.iderw hawake hlock hhalted
  | intr _ _ => exact h.ideintr hhalted
  | @wake u b _ hasleep hflags =>
    -- the request of the client is done, so it is not in the queue
    have hb : b ∉ q := fun hb => h.undone b hb hflags
    refine ⟨q, h.chain, h.nodup, ?_, ?_, h.undone, h.active, h.small, ?_, ?_⟩
    · intro c hc
      obtain ⟨u', hu'⟩ := h.waits c hc
      have hne : u' ≠ u := by
        rintro rfl
        rw [hasleep] at hu'
        exact hb (by rwa [Option.some.inj hu'])
      exact ⟨u', (update_of_ne hne ..).trans hu'⟩
    · intro u' c hu'
      have hne : u' ≠ u := by
        rintro rfl
        exact nomatch (update_self ..).symm.trans hu'
      exact h.locked u' c ((update_of_ne hne ..).symm.trans hu')
    · rw [requested_quiet rfl, completed_quiet rfl]
      exact h.requested
    · rw [completed_quiet rfl]
      exact h.started

end Inv

/-! ## Runs -/

/-- A change of a buffer that keeps `B_VALID`. -/
theorem setBuf_valid {s : State U} {b c : BufNo} {f : Buf U} (hf : f.valid = (s.buf c).valid) :
    ((s.setBuf c f).buf b).valid = (s.buf b).valid := by
  show (update s.buf c f b).valid = _
  by_cases hbc : b = c
  · obtain rfl := hbc
    rw [update_self]
    exact hf
  · rw [update_of_ne hbc]

/-- What `ideintr` does to the buffers. -/
theorem ideintr_buf (s : State U) (err : Bool) :
    (s.ideintr err).buf = match s.idequeue with
      | none => s.buf
      | some b => update s.buf b (s.completed b err) := by
  have hfinish : s.finish.buf = s.buf := by
    unfold State.finish
    split <;> rfl
  have hstart : ∀ (t : State U) c, (t.idestart c).buf = t.buf := by
    intro t c
    unfold State.idestart
    split <;> rfl
  unfold State.ideintr
  cases s.idequeue with
  | none => exact hfinish
  | some b =>
    dsimp only
    have hset : (s.finish.setBuf b (s.completed b err)).buf =
        update s.buf b (s.completed b err) := by
      show update s.finish.buf b _ = _
      rw [hfinish]
    cases s.qnext b with
    | none => exact hset
    | some c => exact (hstart _ c).trans hset

variable [DecidableEq U] {s : State U} {es : List (Event U)} {havedisk1 : Bool}
  {disk : UInt32 → ℕ → Block}

/-- After a panic there is no step. -/
theorem Step.running {e : Event U} {t : State U} (h : Step s e t) : s.halted = none := by
  cases h <;> assumption

/-- The queue in every state that is reached. -/
theorem exists_inv (h : Run Step (.init havedisk1 disk) es s) (hhalted : s.halted = none) :
    ∃ q, Inv es s q := by
  refine h.history (I := fun es s => s.halted = none → ∃ q, Inv es s q) ?_ ?_ hhalted
  · exact fun _ => ⟨[], .init havedisk1 disk⟩
  · intro fs s1 e s2 ih hstep hhalted
    obtain ⟨q, hinv⟩ := ih hstep.running
    exact hinv.step hstep hhalted

theorem iderw_buf (s : State U) (u : U) (b : BufNo) : (s.iderw u b).buf = s.buf := by
  have happend : (s.append b).buf = s.buf := by
    unfold State.append
    cases s.idequeue <;> rfl
  have hstart : ((s.append b).idestart b).buf = (s.append b).buf := by
    unfold State.idestart
    split <;> rfl
  unfold State.iderw
  split
  · rfl
  split
  · rfl
  split
  · rfl
  dsimp only
  split
  · exact hstart.trans happend
  · exact happend
/-- The disk delivers what is read, after the events `es` from `s₀` to `s`. -/
structure Delivers (s₀ : State U) (es : List (Event U)) (s : State U) : Prop where
  /-- Requests are completed in the order in which they are made, each once, and those that are not
  completed are in the queue; they are started in this order too, and the first one of the queue is
  the one that is started and not completed. -/
  fifo : s.halted = none → ∃ q, Chain s.qnext s.idequeue q ∧
    requested es = completed es ++ q ∧ s.started = completed es ++ q.take 1
  /-- A read that has just been completed has the block in its buffer, which is valid. -/
  reads : ∀ es₁ s₁ b err, es = es₁ ++ [.intr (some b) err] → Run Step s₀ es₁ s₁ →
    Step s₁ (.intr (some b) err) s → (s₁.buf b).dirty = false →
      (s.buf b).valid = true ∧ (s.buf b).data = s₁.content b
  /-- The data of a valid buffer has been transferred, since the buffer was taken for its block. -/
  valid : ∀ b, (s.buf b).valid = true → Since (· = .intr (some b) false) (Event.Takes b) es

/-- A request that is completed without an error. -/
theorem Inv.intr_buf {q : List BufNo} {b : BufNo} {t : State U} (h : Inv es s q)
    (hstep : Step s (.intr (some b) false) t) (hdirty : (s.buf b).dirty = false) :
    (t.buf b).valid = true ∧ (t.buf b).data = s.content b := by
  generalize he : Event.intr (some b) false = e at hstep
  cases hstep with
  | intr _ _ =>
    obtain ⟨hb, herr⟩ := Event.intr.inj he
    have hread : s.transferred = s.content b := by
      have hhead := h.chain.head_eq
      rw [← hb] at hhead
      cases q with
      | nil => exact nomatch hhead
      | cons c q =>
        obtain rfl := Option.some.inj hhead
        exact h.read hdirty
    rw [ideintr_buf, ← hb, ← herr]
    show (update s.buf b (s.completed b false) b).valid = true ∧
      (update s.buf b (s.completed b false) b).data = _
    rw [update_self]
    unfold State.completed
    rw [hdirty, ← hread]
    exact ⟨rfl, rfl⟩
  | _ => exact nomatch he

/-- A step after which a buffer is valid has transferred its data, or the buffer was valid before
and has not been taken for a block. -/
theorem Step.valid {b : BufNo} {e : Event U} {t : State U} (hstep : Step s e t)
    (hgood : ¬ e.Fails) (hvalid : (t.buf b).valid = true) :
    e = .intr (some b) false ∨ ¬ e.Takes b ∧ (s.buf b).valid = true := by
  cases hstep with
  | @bget c dev n _ _ _ =>
    refine .inr ?_
    by_cases hbc : b = c
    · obtain rfl := hbc
      rw [show (s.setBuf b _).buf b = _ from update_self ..] at hvalid
      exact nomatch hvalid
    · rw [show (s.setBuf c _).buf b = _ from update_of_ne hbc ..] at hvalid
      exact ⟨fun htakes => hbc htakes.symm, hvalid⟩
  | @acquire u c _ _ _ =>
    rw [setBuf_valid (by rfl)] at hvalid
    exact .inr ⟨not_false, hvalid⟩
  | @modify u c data dirty _ _ _ =>
    rw [setBuf_valid (by rfl)] at hvalid
    exact .inr ⟨not_false, hvalid⟩
  | @release u c _ _ _ =>
    rw [setBuf_valid (by rfl)] at hvalid
    exact .inr ⟨not_false, hvalid⟩
  | iderw _ _ _ =>
    rw [iderw_buf] at hvalid
    exact .inr ⟨not_false, hvalid⟩
  | wake _ _ _ => exact .inr ⟨not_false, hvalid⟩
  | @intr err _ _ =>
    have hok : err = false := by
      cases err with
      | false => rfl
      | true => exact absurd ⟨_, rfl⟩ hgood
    obtain rfl := hok
    rw [ideintr_buf] at hvalid
    cases hqueue : s.idequeue with
    | none =>
      rw [hqueue] at hvalid
      exact .inr ⟨not_false, hvalid⟩
    | some c =>
      rw [hqueue] at hvalid
      dsimp only at hvalid
      by_cases hbc : b = c
      · exact .inl (by rw [hbc])
      · rw [show update s.buf c _ b = _ from update_of_ne hbc ..] at hvalid
        exact .inr ⟨not_false, hvalid⟩

/-- `B_VALID` is cleared only when the buffer is taken for a block. -/
theorem Step.valid_stays {b : BufNo} {e : Event U} {t : State U} (hstep : Step s e t)
    (h : e = .intr (some b) false ∨ ¬ e.Takes b ∧ (s.buf b).valid = true) :
    (t.buf b).valid = true := by
  cases hstep with
  | @bget c dev n _ _ _ =>
    obtain ⟨hne, hvalid⟩ := h.resolve_left fun he => nomatch he
    rw [show (s.setBuf c _).buf b = _ from update_of_ne (fun hbc => hne hbc.symm) ..]
    exact hvalid
  | @acquire u c _ _ _ =>
    rw [setBuf_valid (by rfl)]
    exact (h.resolve_left fun he => nomatch he).2
  | @modify u c data dirty _ _ _ =>
    rw [setBuf_valid (by rfl)]
    exact (h.resolve_left fun he => nomatch he).2
  | @release u c _ _ _ =>
    rw [setBuf_valid (by rfl)]
    exact (h.resolve_left fun he => nomatch he).2
  | iderw _ _ _ =>
    rw [iderw_buf]
    exact (h.resolve_left fun he => nomatch he).2
  | wake _ _ _ => exact (h.resolve_left fun he => nomatch he).2
  | @intr err _ _ =>
    rw [ideintr_buf]
    cases hqueue : s.idequeue with
    | none =>
      rw [hqueue] at h
      exact (h.resolve_left fun he => nomatch he).2
    | some c =>
      dsimp only
      by_cases hbc : b = c
      · obtain rfl := hbc
        rw [update_self]
        rfl
      · rw [update_of_ne hbc]
        rw [hqueue] at h
        refine (h.resolve_left fun he => hbc ?_).2
        exact (Option.some.inj (Event.intr.inj he).1).symm

/-- If no read fails, the valid buffers are those that have been transferred. -/
theorem valid_iff_since (h : Run Step (.init havedisk1 disk) es s) (hgood : ∀ e ∈ es, ¬ e.Fails) :
    ∀ b, (s.buf b).valid = true ↔ Since (· = .intr (some b) false) (Event.Takes b) es := by
  refine h.history (I := fun es s => (∀ e ∈ es, ¬ e.Fails) → ∀ b, (s.buf b).valid = true ↔
    Since (· = .intr (some b) false) (Event.Takes b) es) ?_ ?_ hgood
  · intro _ b
    exact ⟨(fun hb => nomatch hb), fun hnil => absurd hnil Since.nil⟩
  · intro fs s1 e s2 ih hstep hgood b
    have hgood1 : ∀ e ∈ fs, ¬ e.Fails := fun e he => hgood e (List.mem_append_left _ he)
    rw [Since.snoc, ← ih hgood1 b]
    exact ⟨hstep.valid (hgood e (by simp)), hstep.valid_stays⟩

/-- The disk delivers what is read if no read fails. -/
theorem delivers_of_good (h : Run Step (.init havedisk1 disk) es s)
    (hgood : ∀ e ∈ es, ¬ e.Fails) : Delivers (.init havedisk1 disk) es s where
  fifo hhalted := by
    obtain ⟨q, hinv⟩ := exists_inv h hhalted
    exact ⟨q, hinv.chain, hinv.requested, hinv.started⟩
  reads es1 s1 b err hes hrun hstep hdirty := by
    have herr : err = false := by
      cases err with
      | false => rfl
      | true => exact absurd ⟨_, rfl⟩ (hgood (.intr (some b) true) (by rw [hes]; simp))
    obtain rfl := herr
    obtain ⟨q, hinv⟩ := exists_inv hrun hstep.running
    exact hinv.intr_buf hstep hdirty
  valid b := (valid_iff_since h hgood b).mp

/-- A read that fails is for a buffer that is not valid, and makes it valid. -/
theorem Step.fails {q : List BufNo} {e : Event U} {t : State U} (hstep : Step s e t)
    (hinv : Inv es s q) (hfails : e.Fails) :
    ∃ b, e = .intr (some b) true ∧ (s.buf b).valid = false ∧ (t.buf b).valid = true := by
  obtain ⟨o, rfl⟩ := hfails
  generalize he : Event.intr o true = e at hstep
  cases hstep with
  | @intr err _ hread =>
    obtain ⟨rfl, rfl⟩ := Event.intr.inj he
    obtain ⟨d, n, hcommand⟩ := hread rfl
    have hactive := hinv.active
    have hundone := hinv.undone
    rw [hinv.chain.head_eq, hcommand] at hactive
    cases hqueue : s.idequeue with
    | none =>
      rw [hqueue] at hactive
      exact nomatch hactive
    | some b =>
      rw [hqueue] at hactive
      have hdirty : (s.buf b).dirty = false := by
        have hread := Option.some.inj hactive
        unfold State.command at hread
        split at hread
        · exact nomatch hread
        · rename_i hclean
          exact Bool.eq_false_iff.mpr hclean
      have hmem : b ∈ q := List.mem_of_mem_head? (hinv.chain.head_eq.trans hqueue)
      refine ⟨b, rfl, ?_, ?_⟩
      · exact Bool.eq_false_iff.mpr fun hvalid => hinv.undone b hmem ⟨hvalid, hdirty⟩
      · rw [ideintr_buf, hqueue]
        dsimp only
        rw [update_self]
        rfl
  | _ => exact nomatch he

/-- The disk delivers what is read in every run in which no read fails, whatever the interleaving;
and the first read that fails ends this. -/
theorem disk_delivers (h : Run Step (.init havedisk1 disk) es s) (hgood : ∀ e ∈ es, ¬ e.Fails) :
    Delivers (.init havedisk1 disk) es s ∧
    ∀ e t, Step s e t → (Delivers (.init havedisk1 disk) (es ++ [e]) t ↔ ¬ e.Fails) := by
  refine ⟨delivers_of_good h hgood, fun e t hstep => ⟨fun hdelivers hfails => ?_, fun hok => ?_⟩⟩
  · -- the buffer is valid, and has not been transferred since it was taken
    obtain ⟨q, hinv⟩ := exists_inv h hstep.running
    obtain ⟨b, rfl, hinvalid, hvalid⟩ := hstep.fails hinv hfails
    have hsince := hdelivers.valid b hvalid
    rw [Since.snoc, ← valid_iff_since h hgood b, hinvalid] at hsince
    rcases hsince with he | ⟨-, hfalse⟩
    · exact nomatch (Event.intr.inj he).2
    · exact nomatch hfalse
  · refine delivers_of_good (h.append (.cons hstep (.nil t))) fun e' he' => ?_
    rcases List.mem_append.mp he' with he' | he'
    · exact hgood e' he'
    · rw [List.mem_singleton.mp he']
      exact hok

/-! ## One read -/

/-- The requests of a client that reads block 7, and the end of the read. -/
def readSeven (err : Bool) : List (Event Unit) :=
  [.bget 0 0 7, .acquire () 0, .iderw () 0, .intr (some 0) err]

/-- A disk whose blocks are all ones. -/
def onesDisk : UInt32 → ℕ → Block := fun _ _ => Block.ofFn fun _ => 1

/-- Before the request. -/
def beforeRead : State Unit :=
  let s := State.init false onesDisk
  let s := s.setBuf 0 { s.buf 0 with dev := 0, blockno := 7, valid := false, dirty := false }
  s.setBuf 0 { s.buf 0 with lock := some () }

theorem readSeven_run (err : Bool) :
    Run Step (.init false onesDisk) (readSeven err)
      ((beforeRead.iderw () 0).ideintr err) := by
  have hqueue : (beforeRead.iderw () 0).idequeue = some 0 := by rfl
  have hask : Step beforeRead (.iderw () 0) (beforeRead.iderw () 0) := .iderw rfl rfl rfl
  have hend : Step (beforeRead.iderw () 0) (.intr (some 0) err)
      ((beforeRead.iderw () 0).ideintr err) := by
    rw [← hqueue]
    exact .intr rfl fun _ => ⟨0, 7, rfl⟩
  exact .cons (.bget 0 7 rfl rfl rfl) (.cons (.acquire rfl rfl rfl) (.cons hask
    (.cons hend (.nil _))))

/-- The block is in the buffer after a read without an error. -/
theorem disk_delivers_seven :
    Delivers (.init false onesDisk) (readSeven false)
      ((beforeRead.iderw () 0).ideintr false) :=
  (disk_delivers (readSeven_run false) fun e he => by
    rintro ⟨b, rfl⟩
    simp [readSeven] at he).1

/-- A read that fails leaves its buffer valid, with what was in it before: the data is not the
block, and nothing has been transferred. -/
theorem disk_read_error :
    Run Step (.init false onesDisk) (readSeven true)
      ((beforeRead.iderw () 0).ideintr true) ∧
    (((beforeRead.iderw () 0).ideintr true).buf 0).valid = true ∧
    (((beforeRead.iderw () 0).ideintr true).buf 0).data ≠
      (beforeRead.iderw () 0).content 0 ∧
    ¬ Delivers (.init false onesDisk) (readSeven true)
      ((beforeRead.iderw () 0).ideintr true) := by
  have hvalid : (((beforeRead.iderw () 0).ideintr true).buf 0).valid = true := by rfl
  refine ⟨readSeven_run true, hvalid, ?_, ?_⟩
  · show Block.zero ≠ Block.ofFn fun _ => 1
    intro heq
    have := congrArg (fun x : Block => x.get 0) heq
    simp [Block.ofFn, Block.zero, Block.get] at this
  · intro h
    obtain ⟨es₁, e, es₂, hes, rfl, -⟩ := h.valid 0 hvalid
    have hmem : Event.intr (some 0) false ∈ readSeven true := by
      rw [hes]
      exact List.mem_append_right _ List.mem_cons_self
    simp [readSeven] at hmem

end ChronoFS.Ide
