import Mathlib.Data.List.Perm.Basic
import ChronoFS.Sh.Parse

/-!
# Termination of the strings in place

The strings of a command are words of the line (`Line.strings_mem`), and a word ends where the line ends
or before a character that is in no word. So the position after a word is in no word, and the NULs that
`nulterminate` writes there leave all words as they are, in whatever order it writes them.
-/

namespace ChronoFS.Sh

variable {s : CString} {fuel p q e : ℕ} {ts us : List Token} {rs : List Redir}
  {argv : List (ℕ × ℕ)} {cmd : Cmd}

/-- The strings of a command, in the order in which `nulterminate` visits them. -/
def Cmd.strings : Cmd → List (ℕ × ℕ)
  | .exec argv => argv
  | .redir cmd file efile _ _ => cmd.strings ++ [(file, efile)]
  | .pipe left right => left.strings ++ right.strings
  | .list left right => left.strings ++ right.strings
  | .back cmd => cmd.strings

/-- NULs are written at positions of a buffer, one after the other. -/
def cut (buf : List UInt8) (es : List ℕ) : List UInt8 := es.foldl (fun buf e => buf.set e 0) buf

/-- The NUL-terminated string at a position of a buffer. -/
def strAt (buf : List UInt8) (q : ℕ) : List UInt8 := (buf.drop q).takeWhile (· ≠ 0)

/-- The characters of the line between two positions. -/
def CString.text (s : CString) (a : ℕ × ℕ) : List UInt8 := (s.bytes.drop a.1).take (a.2 - a.1)

/-- `nulterminate` writes a NUL after every string. -/
theorem nulterminate_eq (cmd : Cmd) (buf : List UInt8) :
    nulterminate cmd buf = cut buf (cmd.strings.map Prod.snd) := by
  induction cmd generalizing buf with
  | exec argv =>
    unfold nulterminate cut Cmd.strings
    rw [List.foldl_map]
  | redir cmd file efile mode fd ih =>
    unfold nulterminate Cmd.strings
    rw [ih, List.map_append]
    unfold cut
    rw [List.foldl_append]
    rfl
  | pipe left right ihl ihr =>
    unfold nulterminate Cmd.strings
    rw [ihl, ihr, List.map_append]
    unfold cut
    rw [List.foldl_append]
  | list left right ihl ihr =>
    unfold nulterminate Cmd.strings
    rw [ihl, ihr, List.map_append]
    unfold cut
    rw [List.foldl_append]
  | back cmd ih =>
    unfold nulterminate Cmd.strings
    exact ih buf

/-! ## The strings are words of the line -/

theorem strings_wrap (cmd : Cmd) (rs : List Redir) :
    (wrap cmd rs).strings = cmd.strings ++ rs.map fun r => (r.file, r.efile) := by
  induction rs generalizing cmd with
  | nil => exact (List.append_nil _).symm
  | cons r rs ih =>
    show (wrap (.redir cmd r.file r.efile r.mode r.fd) rs).strings = _
    rw [ih, Cmd.strings, List.append_assoc]
    rfl

theorem strings_backs (amps : List Token) (cmd : Cmd) : (backs amps cmd).strings = cmd.strings := by
  induction amps generalizing cmd with
  | nil => rfl
  | cons _ amps ih =>
    show (backs amps (.back cmd)).strings = _
    rw [ih, Cmd.strings]

/-- The strings are words of the tokens. -/
def Words (ts : List Token) (strings : List (ℕ × ℕ)) : Prop :=
  ∀ a ∈ strings, ⟨.word, a.1, a.2⟩ ∈ ts

namespace Words

variable {l l' : List (ℕ × ℕ)}

theorem mono (h : Words ts l) (hts : ∀ t ∈ ts, t ∈ us) : Words us l := fun a ha => hts _ (h a ha)

theorem append (h : Words ts l) (h' : Words ts l') : Words ts (l ++ l') := by
  intro a ha
  rcases List.mem_append.mp ha with ha | ha
  · exact h a ha
  · exact h' a ha

theorem cons {t : Token} (hkind : t.kind = .word) (h : Words ts l) :
    Words (t :: ts) ((t.q, t.eq) :: l) := by
  intro a ha
  rcases List.mem_cons.mp ha with rfl | ha
  · rw [← hkind]
    exact List.mem_cons_self
  · exact List.mem_cons_of_mem _ (h a ha)

end Words

theorem Redirs.words (h : Redirs ts rs) : Words ts (rs.map fun r => (r.file, r.efile)) := by
  induction h with
  | nil => exact fun a ha => absurd ha List.not_mem_nil
  | lt _ hfile _ ih => exact (ih.cons hfile).mono fun t ht => List.mem_cons_of_mem _ ht
  | gt _ hfile _ ih => exact (ih.cons hfile).mono fun t ht => List.mem_cons_of_mem _ ht

theorem Args.words (h : Args ts argv rs) :
    Words ts argv ∧ Words ts (rs.map fun r => (r.file, r.efile)) := by
  induction h with
  | nil => exact ⟨fun a ha => absurd ha List.not_mem_nil, fun a ha => absurd ha List.not_mem_nil⟩
  | @cons w us ts rs rs' argv hword hrs _ ih =>
    have hus : ∀ t ∈ us, t ∈ us ++ ts := fun t ht => List.mem_append_left _ ht
    have hts : ∀ t ∈ ts, t ∈ us ++ ts := fun t ht => List.mem_append_right _ ht
    refine ⟨(ih.1.mono hts).cons hword, ?_⟩
    rw [List.map_append]
    exact ((hrs.words.mono hus).append (ih.2.mono hts)).mono fun t ht => List.mem_cons_of_mem _ ht

mutual

theorem Line.words : {ts : List Token} → {cmd : Cmd} → Line ts cmd → Words ts cmd.strings
  | _, _, .last hpipe _ => by
    rw [strings_backs]
    exact hpipe.words.mono fun t ht => List.mem_append_left _ ht
  | _, _, .list hpipe _ _ hright => by
    rw [Cmd.strings, strings_backs]
    refine (hpipe.words.mono fun t ht => List.mem_append_left _ ht).append
      (hright.words.mono fun t ht => ?_)
    exact List.mem_append_right _ (List.mem_append_right _ (List.mem_cons_of_mem _ ht))

theorem Pipe.words : {ts : List Token} → {cmd : Cmd} → Pipe ts cmd → Words ts cmd.strings
  | _, _, .last hcmd => hcmd.words
  | _, _, .pipe hcmd _ hright => by
    rw [Cmd.strings]
    refine (hcmd.words.mono fun t ht => List.mem_append_left _ ht).append
      (hright.words.mono fun t ht => ?_)
    exact List.mem_append_right _ (List.mem_cons_of_mem _ ht)

theorem Command.words : {ts : List Token} → {cmd : Cmd} → Command ts cmd → Words ts cmd.strings
  | _, _, .block _ hline _ hrs => by
    rw [strings_wrap]
    refine (hline.words.mono fun t ht => ?_).append (hrs.words.mono fun t ht => ?_)
    · exact List.mem_cons_of_mem _ (List.mem_append_left _ ht)
    · exact List.mem_cons_of_mem _ (List.mem_append_right _ (List.mem_cons_of_mem _ ht))
  | _, _, .exec hrs hargs _ => by
    rw [strings_wrap, Cmd.strings, List.map_append]
    refine (hargs.words.1.mono fun t ht => List.mem_append_right _ ht).append
      ((hrs.words.mono fun t ht => List.mem_append_left _ ht).append
        (hargs.words.2.mono fun t ht => List.mem_append_right _ ht))

end

/-! ## The NULs -/

/-- What is at a position after the NULs have been written. -/
theorem getElem?_cut (buf : List UInt8) (es : List ℕ) {i : ℕ} (hi : i < buf.length) :
    (cut buf es)[i]? = if i ∈ es then some 0 else buf[i]? := by
  induction es generalizing buf with
  | nil => rfl
  | cons e es ih =>
    show (cut (buf.set e 0) es)[i]? = _
    rw [ih _ (by rwa [List.length_set])]
    by_cases hmem : i ∈ es
    · rw [if_pos hmem, if_pos (List.mem_cons_of_mem _ hmem)]
    · rw [if_neg hmem]
      by_cases hie : i = e
      · obtain rfl := hie
        rw [if_pos List.mem_cons_self, List.getElem?_set_self hi]
      · rw [if_neg (fun h => (List.mem_cons.mp h).elim hie hmem),
          List.getElem?_set_ne (Ne.symm hie)]

/-- Characters that are not NUL, and a NUL after them, are a string. -/
theorem strAt_eq {buf l : List UInt8} (hne : ∀ c ∈ l, c ≠ 0)
    (hl : ∀ i < l.length, buf[q + i]? = l[i]?) (hnul : buf[q + l.length]? = some 0) :
    strAt buf q = l := by
  induction l generalizing q with
  | nil =>
    rw [List.length_nil, Nat.add_zero] at hnul
    obtain ⟨hlt, hzero⟩ := List.getElem?_eq_some_iff.mp hnul
    unfold strAt
    rw [List.drop_eq_getElem_cons hlt, List.takeWhile_cons_of_neg]
    simpa using hzero
  | cons c l ih =>
    have hfirst : buf[q]? = some c := hl 0 (Nat.succ_pos _)
    obtain ⟨hlt, hc⟩ := List.getElem?_eq_some_iff.mp hfirst
    have hrest : strAt buf (q + 1) = l := by
      refine ih (fun d hd => hne d (List.mem_cons_of_mem _ hd)) (fun i hi => ?_) ?_
      · have := hl (i + 1) (Nat.succ_lt_succ hi)
        rw [List.getElem?_cons_succ] at this
        rw [← this, Nat.add_assoc, Nat.add_comm 1 i]
      · rw [List.length_cons] at hnul
        rw [← hnul, Nat.add_assoc, Nat.add_comm 1]
    unfold strAt at hrest ⊢
    rw [List.drop_eq_getElem_cons hlt, hc, List.takeWhile_cons_of_pos, hrest]
    exact decide_eq_true (hne c List.mem_cons_self)

/-- The position after a word is in no word. -/
theorem not_in_word {q' e' i : ℕ} (h : IsToken s .word q e) (h' : IsToken s .word q' e')
    (hi : q ≤ i) (hie : i < e) : i ≠ e' := by
  rintro rfl
  cases h with
  | single hc => exact nomatch hc
  | word _ hrun =>
    cases h' with
    | single hc => exact nomatch hc
    | word _ hrun' =>
      have hstop := hrun'.stop (hie.trans_le hrun.le_length)
      rw [hrun.all i hi hie] at hstop
      exact nomatch hstop

/-- NULs after words leave a word as it is, and end it. -/
theorem strAt_cut {l : List (ℕ × ℕ)} (h : ∀ a ∈ l, IsToken s .word a.1 a.2) {a : ℕ × ℕ}
    (ha : a ∈ l) : strAt (cut (s.bytes ++ [0]) (l.map Prod.snd)) a.1 = s.text a := by
  have htoken := h a ha
  have hlt := htoken.lt
  have hle : a.2 ≤ s.bytes.length := htoken.le_length
  have hbuf : (s.bytes ++ [0]).length = s.bytes.length + 1 := List.length_append
  have htext : (s.text a).length = a.2 - a.1 := by
    unfold CString.text
    rw [List.length_take, List.length_drop]
    omega
  refine strAt_eq ?_ ?_ ?_
  · rintro c hc rfl
    exact s.noNul (List.mem_of_mem_drop (List.mem_of_mem_take hc))
  · intro i hi
    rw [htext] at hi
    have hout : a.1 + i ∉ l.map Prod.snd := by
      intro hmem
      obtain ⟨b, hb, hbe⟩ := List.mem_map.mp hmem
      exact not_in_word htoken (h b hb) (Nat.le_add_right _ _) (by omega) hbe.symm
    rw [getElem?_cut _ _ (by omega), if_neg hout, List.getElem?_append_left (by omega)]
    unfold CString.text
    rw [List.getElem?_take_of_lt hi, List.getElem?_drop]
  · have hend : a.1 + (s.text a).length = a.2 := by omega
    rw [hend, getElem?_cut _ _ (by omega), if_pos (List.mem_map_of_mem ha)]

/-- After `parsecmd`, every string of the command is a word of the line, and it reads as the text of
that word in the buffer, whatever the order in which the NULs are written. -/
theorem strings_intact (hfuel : 4 * s.length + 4 ≤ fuel) {buf : List UInt8}
    (hok : parsecmd s fuel = .ok (cmd, buf)) :
    ∃ ts, Tokens s 0 ts ∧ ∀ a ∈ cmd.strings, ⟨.word, a.1, a.2⟩ ∈ ts ∧ strAt buf a.1 = s.text a ∧
      ∀ l : List (ℕ × ℕ), l.Perm cmd.strings →
        strAt (cut (s.bytes ++ [0]) (l.map Prod.snd)) a.1 = s.text a := by
  obtain ⟨ts, hts⟩ := exists_tokens (Nat.zero_le s.length)
  have hlen : 4 * ts.length + 4 ≤ fuel := by
    have := hts.length_le
    omega
  unfold parsecmd at hok
  cases hrun : parsewhole s fuel 0 with
  | error e p =>
    rw [hrun] at hok
    exact nomatch hok
  | ok cmd' p =>
    rw [hrun] at hok
    obtain ⟨rfl, rfl⟩ := Prod.mk.inj (Except.ok.inj hok)
    have hwords := ((wp_parsewhole hlen hts).ok hrun).words
    have htokens : ∀ a ∈ cmd'.strings, IsToken s .word a.1 a.2 := fun a ha =>
      hts.isToken _ (hwords a ha)
    refine ⟨ts, hts, fun a ha => ⟨hwords a ha, ?_, fun l hl => ?_⟩⟩
    · rw [nulterminate_eq]
      exact strAt_cut htokens ha
    · exact strAt_cut (fun b hb => htokens b (hl.mem_iff.mp hb)) (hl.mem_iff.mpr ha)

/-- The line `a>b`. -/
def redirLine : CString := ⟨[97, 62, 98], by decide⟩

theorem parsecmd_redirLine : parsecmd redirLine 16 =
    .ok (.redir (.exec [(0, 1)]) 2 3 (O_WRONLY ||| O_CREATE) 1, [97, 0, 98, 0]) := by rfl

/-- In `a>b` the first NUL takes the place of the `>`. -/
theorem strings_intact_redir :
    ∃ ts, Tokens redirLine 0 ts ∧ ∀ a ∈ [(0, 1), (2, 3)], ⟨.word, a.1, a.2⟩ ∈ ts ∧
      strAt [97, 0, 98, 0] a.1 = redirLine.text a ∧
      ∀ l : List (ℕ × ℕ), l.Perm [(0, 1), (2, 3)] →
        strAt (cut [97, 62, 98, 0] (l.map Prod.snd)) a.1 = redirLine.text a :=
  strings_intact (s := redirLine) (by decide) parsecmd_redirLine

end ChronoFS.Sh
