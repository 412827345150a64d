import Mathlib.Data.List.Basic

/-!
# Weakest preconditions of programs that halt with their state

A program is an `EStateM`: it returns a value and a state, or halts with an error and the state it
halted in. `wp m Q E s` says that `m`, run from `s`, returns so that `Q` holds or halts so that `E`
holds. The rules below take a program apart: `wp_bind` at its sequencing, `wp_of_spec` at a call
whose specification is known, and `wp_forM` at a loop over a list, with an invariant indexed by
what is done.
-/

variable {ε σ τ α β : Type}

/-- From `s`, the program returns so that `Q` holds or halts so that `E` holds. -/
def wp (m : EStateM ε σ α) (Q : α → σ → Prop) (E : ε → σ → Prop) (s : σ) : Prop :=
  match m s with
  | .ok a s' => Q a s'
  | .error e s' => E e s'

variable {m : EStateM ε σ α} {f : α → EStateM ε σ β} {Q Q' : α → σ → Prop} {R : β → σ → Prop}
  {E E' : ε → σ → Prop} {s s' : σ} {a : α} {e : ε}

theorem wp_of_ok (h : m s = .ok a s') (hQ : Q a s') : wp m Q E s := by
  unfold wp
  rw [h]
  exact hQ

/-- A program whose outcome is known. -/
theorem wp_iff_of_ok (h : m s = .ok a s') : wp m Q E s ↔ Q a s' := by
  unfold wp
  rw [h]

/-- What a program that returns has established. -/
theorem wp.ok (h : wp m Q E s) (hm : m s = .ok a s') : Q a s' := by
  unfold wp at h
  rw [hm] at h
  exact h

/-- What a program that halts has established. -/
theorem wp.error (h : wp m Q E s) (hm : m s = .error e s') : E e s' := by
  unfold wp at h
  rw [hm] at h
  exact h

/-- A program that cannot halt returns. -/
theorem wp.returns (h : wp m Q (fun _ _ => False) s) : ∃ a s', m s = .ok a s' ∧ Q a s' := by
  unfold wp at h
  split at h
  · rename_i a s' hm
    exact ⟨a, s', hm, h⟩
  · exact h.elim

theorem wp.halts (h : wp m (fun _ _ => False) E s) : ∃ e s', m s = .error e s' ∧ E e s' := by
  unfold wp at h
  split at h
  · exact h.elim
  · rename_i e s' hm
    exact ⟨e, s', hm, h⟩

/-- A run from a given state is evaluated. -/
instance [∀ a s', Decidable (Q a s')] [∀ e s', Decidable (E e s')] : Decidable (wp m Q E s) :=
  match h : m s with
  | .ok a s' => decidable_of_iff (Q a s') (by unfold wp; rw [h])
  | .error e s' => decidable_of_iff (E e s') (by unfold wp; rw [h])

theorem wp_mono (h : wp m Q E s) (hQ : ∀ a s', Q a s' → Q' a s') (hE : ∀ e s', E e s' → E' e s') :
    wp m Q' E' s := by
  unfold wp at h ⊢
  split at h
  · exact hQ _ _ h
  · exact hE _ _ h

theorem wp_true : wp m (fun _ _ => True) (fun _ _ => True) s := by
  unfold wp
  split <;> trivial

/-- Two facts about one program. -/
theorem wp_and (h : wp m Q E s) (h' : wp m Q' E' s) :
    wp m (fun a s' => Q a s' ∧ Q' a s') (fun e s' => E e s' ∧ E' e s') s := by
  unfold wp at h h' ⊢
  split at h
  · rename_i hm
    rw [hm] at h'
    exact ⟨h, h'⟩
  · rename_i hm
    rw [hm] at h'
    exact ⟨h, h'⟩

@[simp]
theorem wp_pure : wp (pure a : EStateM ε σ α) Q E s ↔ Q a s := Iff.rfl

@[simp]
theorem wp_throw : wp (throw e : EStateM ε σ α) Q E s ↔ E e s := Iff.rfl

@[simp]
theorem wp_get {Q : σ → σ → Prop} : wp (get : EStateM ε σ σ) Q E s ↔ Q s s := Iff.rfl

@[simp]
theorem wp_modify {g : σ → σ} {Q : PUnit → σ → Prop} :
    wp (modify g : EStateM ε σ PUnit) Q E s ↔ Q ⟨⟩ (g s) := Iff.rfl

theorem wp_bind : wp (m >>= f) R E s ↔ wp m (fun a s' => wp (f a) R E s') E s := by
  change (match EStateM.bind m f s with
    | .ok a s' => R a s'
    | .error e s' => E e s') ↔ _
  unfold wp EStateM.bind
  cases m s <;> rfl

/-- What a program does first does not matter for what is to be shown of the rest. -/
theorem wp_bind_any (h : ∀ a s', wp (f a) R (fun _ _ => True) s') :
    wp (m >>= f) R (fun _ _ => True) s := by
  rw [wp_bind]
  exact wp_mono wp_true (fun a s' _ => h a s') fun _ _ => id

/-- A call, by the specification of what is called. -/
theorem wp_of_spec (h : wp m Q E' s) (hE : ∀ e s', E' e s' → E e s')
    (hk : ∀ a s', Q a s' → wp (f a) R E s') : wp (m >>= f) R E s :=
  wp_bind.mpr (wp_mono h hk hE)

theorem wp_ite {c : Prop} [Decidable c] {m' : EStateM ε σ α} :
    wp (if c then m else m') Q E s ↔ (c → wp m Q E s) ∧ (¬ c → wp m' Q E s) := by
  by_cases hc : c
  · simp [hc]
  · simp [hc]

/-- A loop over a list: `I` holds of what is done and the state, before and after each pass. -/
theorem wp_forM {l : List α} {body : α → EStateM ε σ PUnit} {Q : PUnit → σ → Prop}
    (I : List α → σ → Prop) (h0 : I [] s)
    (hstep : ∀ done a rest s, l = done ++ a :: rest → I done s →
      wp (body a) (fun _ s' => I (done ++ [a]) s') E s)
    (hQ : ∀ s', I l s' → Q ⟨⟩ s') : wp (l.forM body) Q E s := by
  -- the loop runs over what is left of the list
  have hloop : ∀ rest done s, l = done ++ rest → I done s →
      wp (rest.forM body) (fun _ s' => I l s') E s := by
    intro rest
    induction rest with
    | nil =>
      intro done s hl hI
      rw [List.append_nil] at hl
      rw [hl]
      exact hI
    | cons a rest ih =>
      intro done s hl hI
      change wp (body a >>= fun _ => rest.forM body) _ E s
      refine wp_of_spec (hstep done a rest s hl hI) (fun _ _ h => h) fun _ s' hI' => ?_
      exact ih (done ++ [a]) s' (by rw [hl, List.append_assoc]; rfl) hI'
  exact wp_mono (hloop l [] s rfl h0) (fun _ s' h => hQ s' h) (fun _ _ h => h)

/-- A loop over the numbers below `n`: `I i` holds before the pass for `i`. -/
theorem wp_forM_range {n : ℕ} {body : ℕ → EStateM ε σ PUnit} {Q : PUnit → σ → Prop}
    (I : ℕ → σ → Prop) (h0 : I 0 s)
    (hstep : ∀ i s, i < n → I i s → wp (body i) (fun _ s' => I (i + 1) s') E s)
    (hQ : ∀ s', I n s' → Q ⟨⟩ s') : wp ((List.range n).forM body) Q E s := by
  refine wp_forM (fun done s => I done.length s) h0 (fun done i rest s hl hI => ?_) fun s' hs' => ?_
  · have hlen : n = done.length + (rest.length + 1) := by
      rw [← List.length_cons, ← List.length_append, ← hl, List.length_range]
    have hi : i = done.length := by
      have hget : (List.range n)[done.length]? = some i := by
        rw [hl, List.getElem?_append_right (Nat.le_refl _), Nat.sub_self]
        rfl
      rw [List.getElem?_range (by omega)] at hget
      exact (Option.some.inj hget).symm
    rw [List.length_append, List.length_singleton, ← hi]
    rw [← hi] at hI
    exact hstep i s (by omega) hI
  · rw [List.length_range] at hs'
    exact hQ s' hs'

/-! ## Programs that keep a relation -/

/-- Every run of the program that returns relates the states by `R`, and one that halts does so as `E`
allows. -/
def Keeps (R : σ → σ → Prop) (E : ε → Prop) (m : EStateM ε σ α) : Prop :=
  ∀ s, wp m (fun _ s' => R s s') (fun e _ => E e) s

section Keeps

variable {R : σ → σ → Prop} {E : ε → Prop}

theorem keeps_bind (htrans : ∀ s s' s'', R s s' → R s' s'' → R s s'') (hm : Keeps R E m)
    (hf : ∀ a, Keeps R E (f a)) : Keeps R E (m >>= f) := by
  intro s
  refine wp_of_spec (hm s) (fun _ _ => id) fun a s1 h1 => ?_
  exact wp_mono (hf a s1) (fun _ s2 h2 => htrans s s1 s2 h1 h2) fun _ _ => id

theorem keeps_pure (hrefl : ∀ s, R s s) (a : α) : Keeps R E (pure a : EStateM ε σ α) := hrefl

theorem keeps_throw (he : E e) : Keeps R E (throw e : EStateM ε σ α) := fun _ => he

theorem keeps_ite {c : Prop} [Decidable c] {m' : EStateM ε σ α} (hm : Keeps R E m)
    (hm' : Keeps R E m') : Keeps R E (if c then m else m') := by
  split
  · exact hm
  · exact hm'

end Keeps

/-! ## Programs on a part of the state -/

/-- The program on a part of the state, run on the whole. -/
def zoom (get : σ → τ) (set : τ → σ → σ) (m : EStateM ε τ α) : EStateM ε σ α := fun s =>
  match m (get s) with
  | .ok a t => .ok a (set t s)
  | .error e t => .error e (set t s)

theorem wp_zoom {get : σ → τ} {set : τ → σ → σ} {m : EStateM ε τ α} :
    wp (zoom get set m) Q E s ↔
      wp m (fun a t => Q a (set t s)) (fun e t => E e (set t s)) (get s) := by
  unfold wp zoom
  cases m (get s) <;> rfl
