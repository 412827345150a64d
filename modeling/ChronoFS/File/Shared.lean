import ChronoFS.File.Stream
import ChronoFS.Lib.Count

/-!
# Writers that share an open file

Any number of processes are in `filewrite` of one open file, and each pass of their loops is a step
(`Writers.Pass`). A pass writes the next piece of its writer at the offset that the file has by then and
moves the offset on, all under the lock of the inode. So after the passes `is`, what was written is the
pieces in the order of `is`, and of each writer the first pieces in their order (`Shared`).
-/

namespace ChronoFS

open Function

variable {ι : Type} {s s' : Kernel} {f : FileNo} {k : Slot}

/-- Processes that write to one file: the kernel, and what each process has still to write. -/
structure Writers (ι : Type) where
  /-- The kernel. -/
  kernel : Kernel
  /-- The bytes that are left. -/
  rest : ι → List UInt8

/-- Writer `i` runs one pass of its loop. A writer whose piece does not fit gives up. -/
def Writers.Pass [DecidableEq ι] (f : FileNo) (ip : Slot) (w : Writers ι) (i : ι) (w' : Writers ι) :
    Prop :=
  w.rest i ≠ [] ∧ ∃ r, filewritePass f ip ((w.rest i).take WRITE_MAX) w.kernel = .ok r w'.kernel ∧
    (r = none ∧ w'.rest = update w.rest i [] ∨
      r = some ((w.rest i).take WRITE_MAX).length ∧
        w'.rest = update w.rest i ((w.rest i).drop WRITE_MAX))

/-- Piece `j` of the bytes that a writer was called with. -/
def piece (src : List UInt8) (j : ℕ) : List UInt8 := (src.drop (j * WRITE_MAX)).take WRITE_MAX

variable [DecidableEq ι] [Fintype ι] {src : ι → List UInt8} {is : List ι} {w w' : Writers ι}
  {ps : List (ι × List UInt8)}

/-- From `s`, the writers of `src` have run the passes `is`, and written `ps`. -/
structure Shared (f : FileNo) (k : Slot) (src : ι → List UInt8) (s : Kernel) (is : List ι)
    (ps : List (ι × List UInt8)) (w : Writers ι) : Prop where
  /-- Each pass has written for its writer. -/
  order : ps.map Prod.fst = is
  /-- The pieces of a writer are its first pieces in their order. -/
  pieces : ∀ i, (ps.filter fun p => p.1 = i).map Prod.snd = (List.range (is.count i)).map (piece (src i))
  /-- The other ones are left. -/
  rest : ∀ i, w.rest i = (src i).drop (is.count i * WRITE_MAX)
  /-- What is written and what is left is what there was to write. -/
  total : (ps.map Prod.snd).flatten.length + ∑ i, (w.rest i).length = ∑ i, (src i).length
  /-- The pieces are written one after the other. -/
  streams : Streams f k (ps.map Prod.snd).flatten s w.kernel

theorem Shared.refl (h : Streamable f k s) (src : ι → List UInt8) :
    Shared f k src s [] [] ⟨s, src⟩ := by
  refine ⟨rfl, fun i => rfl, fun i => ?_, Nat.zero_add _, .refl h⟩
  rw [List.count_nil, Nat.zero_mul, List.drop_zero]

/-- A pass that returns writes the next piece of its writer. -/
theorem Shared.snoc (h : Shared f k src s is ps w) (i : ι)
    (hs : Streams f k ((w.rest i).take WRITE_MAX) w.kernel w'.kernel)
    (hrest : w'.rest = update w.rest i ((w.rest i).drop WRITE_MAX)) :
    Shared f k src s (is ++ [i]) (ps ++ [(i, (w.rest i).take WRITE_MAX)]) w' := by
  have hpiece : (w.rest i).take WRITE_MAX = piece (src i) (is.count i) := by
    unfold piece
    rw [h.rest]
  have hflat : (List.map Prod.snd (ps ++ [(i, (w.rest i).take WRITE_MAX)])).flatten =
      (ps.map Prod.snd).flatten ++ (w.rest i).take WRITE_MAX := by
    rw [List.map_append, List.flatten_append]
    exact congrArg _ (List.append_nil _)
  refine ⟨?_, fun j => ?_, fun j => ?_, ?_, ?_⟩
  · rw [List.map_append, h.order]
    rfl
  · rw [List.filter_append, List.map_append, h.pieces, List.count_append]
    by_cases hj : i = j
    · subst hj
      rw [List.count_singleton_self, List.range_succ, List.map_append, List.filter_cons_of_pos (by simp),
        hpiece]
      rfl
    · rw [List.count_singleton, if_neg (by simpa using hj), Nat.add_zero,
        List.filter_cons_of_neg (by simpa using hj)]
      exact List.append_nil _
  · rw [hrest, List.count_append]
    by_cases hj : j = i
    · subst hj
      rw [update_self, h.rest, List.drop_drop, List.count_singleton_self, Nat.add_mul, Nat.one_mul]
    · rw [update_of_ne hj, h.rest, List.count_singleton, if_neg (by simpa using Ne.symm hj), Nat.add_zero]
  · -- the writer has that much less to write
    have hcut := congrArg List.length (List.take_append_drop WRITE_MAX (w.rest i))
    have hless := sum_update_of_mem (Finset.mem_univ i) List.length w.rest ((w.rest i).drop WRITE_MAX)
    rw [← hrest] at hless
    have htotal := h.total
    rw [hflat, List.length_append]
    rw [List.length_append] at hcut
    omega
  · rw [hflat]
    exact h.streams.append hs

/-- The next piece fits and there are blocks for it, if that is so of all that there is to write. -/
theorem Shared.wp_pass (h : Shared f k src s is ps w) (i : ι)
    (hfits : (s.ftable f).off.toNat + ∑ i, (src i).length ≤ MAXFILE * BSIZE)
    (hfree : s.fs.lacks k (s.ftable f).off.toNat (∑ i, (src i).length) ≤ s.fs.freeBlocks.card) :
    wp (filewritePass f k ((w.rest i).take WRITE_MAX))
      (fun r s' => r = some ((w.rest i).take WRITE_MAX).length ∧
        Streams f k ((w.rest i).take WRITE_MAX) w.kernel s') (fun _ _ => False) w.kernel := by
  have hoff := h.streams.off
  have htotal := h.total
  have hone : (w.rest i).length ≤ ∑ i, (w.rest i).length :=
    Finset.single_le_sum (f := fun i => (w.rest i).length) (fun _ _ => Nat.zero_le _)
      (Finset.mem_univ i)
  have hcut := List.length_take_le' WRITE_MAX (w.rest i)
  refine h.streams.next.wp_pass (List.length_take_le _ _) (fun s' hlack _ _ => ?_)
    (fun s' hbig _ => ?_) fun s' hs => ⟨rfl, hs⟩
  · obtain ⟨m, hm⟩ := Nat.exists_eq_add_of_le (show (ps.map Prod.snd).flatten.length +
      ((w.rest i).take WRITE_MAX).length ≤ ∑ i, (src i).length by omega)
    have hshort := h.streams.short_rest hlack
    rw [hm] at hfree
    exact absurd (hshort.trans_le (lacks_le_add.trans hfree)) (lt_irrefl _)
  · omega

/-- After any passes of the writers, in any order, what is written is their pieces, and every writer
that is not done can go on. -/
theorem Writers.run_shared (h : Streamable f k s)
    (hfits : (s.ftable f).off.toNat + ∑ i, (src i).length ≤ MAXFILE * BSIZE)
    (hfree : s.fs.lacks k (s.ftable f).off.toNat (∑ i, (src i).length) ≤ s.fs.freeBlocks.card)
    (hrun : Run (Writers.Pass f k) ⟨s, src⟩ is w) :
    (∃ ps, Shared f k src s is ps w) ∧ ∀ i, w.rest i ≠ [] → ∃ w', Writers.Pass f k w i w' := by
  have hshared : ∃ ps, Shared f k src s is ps w := by
    refine hrun.history (I := fun is w => ∃ ps, Shared f k src s is ps w) ⟨[], .refl h src⟩ ?_
    rintro is w i w' ⟨ps, hps⟩ ⟨-, r, hpass, hcase⟩
    obtain ⟨hr, hs⟩ := (hps.wp_pass i hfits hfree).ok hpass
    rcases hcase with ⟨hnone, -⟩ | ⟨-, hrest⟩
    · rw [hr] at hnone
      nomatch hnone
    · exact ⟨_, hps.snoc i hs hrest⟩
  refine ⟨hshared, fun i hi => ?_⟩
  obtain ⟨ps, hps⟩ := hshared
  obtain ⟨r, s', hpass, hr, -⟩ := (hps.wp_pass i hfits hfree).returns
  exact ⟨⟨s', _⟩, hi, r, hpass, .inr ⟨hr, rfl⟩⟩

end ChronoFS
